import Ambient.Metadata.Document
import Ambient.Proofs.Json.Codec

/-!
# Metadata documents read back

Everything that metadata is made of is read back from its encoding if that is
not nested too deeply, and is not read at all otherwise. References are the only
part without a bound of their own, because they nest in one another; whatever
contains a reference inherits the limit from it.
-/

namespace Ambient

open Json (Codec Decoder Whole ofMembers ofText ofTexts)
open Json.Decoder (Record)

theorem TypeName.codec : Codec TypeName.toJson TypeName.ofJson? := by
  refine Codec.record (fun n => by simp) (fun n => ?_) fun room n => ?_
  · simp [Codec.text.whole, Codec.texts.whole]
  · simp [Record.required, Record.withDefault, List.lookup_cons, Codec.text.decode_encode,
      Codec.texts.decode_encode]

theorem Primitive.codec : Codec (fun p : Primitive => ofText p.name) Primitive.ofJson? :=
  Codec.named Primitive.ofName?_name

theorem MemberKind.codec : Codec (fun k : MemberKind => ofText k.name) MemberKind.ofJson? := by
  have hnamed : Codec (fun k : MemberKind => ofText k.name)
      fun room j => (Decoder.constant room j).bind (some ∘ MemberKind.ofName) :=
    Codec.named fun k => congrArg some (MemberKind.ofName_name k)
  refine ⟨hnamed.whole, fun room k => ?_⟩
  rw [MemberKind.ofJson?, Option.map_eq_bind]
  exact hnamed.decode_encode room k

theorem TypeKind.codec : Codec (fun k : TypeKind => ofText k.name) TypeKind.ofJson? :=
  Codec.named TypeKind.ofName?_name

/-! ## References -/

namespace TypeRef

/-- A variant costs one of the room, and the rest of it is there for the payload. -/
theorem ofJson?_variant {key : String} {payload : Json} {t : TypeRef}
    (h : ∀ room, ofJson? (room + 1) (ofMembers [(key, payload)]) =
      if payload.nesting ≤ room then some t else none) (room : Nat) :
    ofJson? room (ofMembers [(key, payload)]) =
      if (ofMembers [(key, payload)]).nesting ≤ room then some t else none := by
  cases room with
  | zero => simp [ofMembers, ofJson?, Json.nesting]
  | succ room =>
      rw [h]
      refine if_congr ?_ rfl rfl
      rw [Json.nesting_ofMembers_le]
      simp

theorem toJson_ne_null (t : TypeRef) : t.toJson ≠ .null := by
  cases t <;> simp [toJson, ofMembers, ofText]

mutual

theorem whole_toJson (t : TypeRef) : Whole t.toJson := by
  match t with
  | primitive p => exact Whole.ofMembers (by simp [Primitive.codec.whole])
  | parameter name => exact Whole.ofMembers (by simp [Codec.text.whole])
  | array t => exact Whole.ofMembers (by simp [whole_toJson t])
  | nullable t => exact Whole.ofMembers (by simp [whole_toJson t])
  | task => exact Whole.ofMembers (by simp [Whole.null])
  | taskOf t => exact Whole.ofMembers (by simp [whole_toJson t])
  | named n args =>
      have hpayload : Whole
          (ofMembers [("identity", n.toJson), ("args", .array (toJsonAll args))]) :=
        Whole.ofMembers (by simp [TypeName.codec.whole, Whole.array (whole_toJsonAll args)])
      exact Whole.ofMembers (by simp [hpayload])
  | unknown => exact .string _

theorem whole_toJsonAll (ts : List TypeRef) : ∀ j ∈ toJsonAll ts, Whole j := by
  match ts with
  | [] => simp [toJsonAll]
  | t :: ts =>
      rw [toJsonAll]
      exact List.forall_mem_cons.mpr ⟨whole_toJson t, whole_toJsonAll ts⟩

end

/-- The payload of a reference to a declared type has two levels of its own. -/
theorem nesting_named (n : TypeName) (args : List TypeRef) :
    2 ≤ (ofMembers [("identity", n.toJson), ("args", .array (toJsonAll args))]).nesting := by
  simp only [ofMembers, List.map_cons, List.map_nil, Json.nesting, Json.nestingMembers]
  omega

theorem ofJson?_named {n : TypeName} {args : List TypeRef} (inner : Nat)
    (hargs : (toJsonAll args).mapM (ofJson? inner) =
      if Json.nestingItems (toJsonAll args) ≤ inner then some args else none) :
    ofJson? (inner + 3) (named n args).toJson =
      if (ofMembers [("identity", n.toJson), ("args", .array (toJsonAll args))]).nesting ≤ inner + 2
        then some (named n args) else none := by
  have hroom : (ofMembers [("identity", n.toJson), ("args", .array (toJsonAll args))]).nesting ≤
      inner + 2 ↔ n.toJson.nesting ≤ inner + 1 ∧ Json.nestingItems (toJsonAll args) ≤ inner := by
    rw [Json.nesting_ofMembers_le]
    simp [Json.nesting]
  have hrecord : Decoder.record ["identity", "args"] (inner + 2)
      (ofMembers [("identity", n.toJson), ("args", .array (toJsonAll args))]) =
        some ⟨inner + 1, [("identity", n.toJson), ("args", .array (toJsonAll args))]⟩ :=
    Json.record_ofMembers (by simp) (inner + 1)
  rw [if_congr hroom rfl rfl, toJson, ofMembers, List.map_cons, List.map_nil]
  simp only
  rw [ofJson?, hrecord]
  show ((TypeName.ofJson? (inner + 1) n.toJson).bind fun n =>
    ((toJsonAll args).mapM (ofJson? inner)).bind fun args => some (named n args)) = _
  rw [TypeName.codec.decode_encode, hargs, Json.guard_bind, Json.guard_bind, ite_and]

mutual

theorem ofJson?_toJson (t : TypeRef) (room : Nat) :
    ofJson? room t.toJson = if t.toJson.nesting ≤ room then some t else none := by
  match t with
  | primitive p =>
      refine ofJson?_variant (fun room => ?_) room
      show (Primitive.ofJson? room _).map primitive = _
      rw [Primitive.codec.decode_encode, Json.guard_map]
  | parameter name =>
      refine ofJson?_variant (fun room => ?_) room
      show (Decoder.text room _).map parameter = _
      rw [Codec.text.decode_encode, Json.guard_map]
  | array t =>
      refine ofJson?_variant (fun room => ?_) room
      show (ofJson? room _).map array = _
      rw [ofJson?_toJson t, Json.guard_map]
  | nullable t =>
      refine ofJson?_variant (fun room => ?_) room
      show (ofJson? room _).map nullable = _
      rw [ofJson?_toJson t, Json.guard_map]
  | task =>
      refine ofJson?_variant (fun room => ?_) room
      exact (if_pos (Nat.zero_le room)).symm
  | taskOf t =>
      refine ofJson?_variant (fun room => ?_) room
      have hresult : ofJson? (room + 1) (ofMembers [("Task", t.toJson)]) =
          (ofJson? room t.toJson).map taskOf := by
        have hnull := t.toJson_ne_null
        cases hpayload : t.toJson with
        | null => exact absurd hpayload hnull
        | _ => rfl
      rw [hresult, ofJson?_toJson t, Json.guard_map]
  | named n args =>
      refine ofJson?_variant (fun room => ?_) room
      have hdeep := nesting_named n args
      match room with
      | 0 => exact (if_neg (by omega)).symm
      | 1 => exact (if_neg (by omega)).symm
      | inner + 2 => exact ofJson?_named inner (mapM_toJsonAll args inner)
  | unknown =>
      cases room <;> exact (if_pos (Nat.zero_le _)).symm

theorem mapM_toJsonAll (ts : List TypeRef) (room : Nat) :
    (toJsonAll ts).mapM (ofJson? room) =
      if Json.nestingItems (toJsonAll ts) ≤ room then some ts else none := by
  match ts with
  | [] => rfl
  | t :: ts =>
      rw [toJsonAll, List.mapM_cons, ofJson?_toJson t, mapM_toJsonAll ts, Json.nestingItems]
      simp only [Option.bind_eq_bind, Json.guard_bind, Nat.max_le, ite_and]
      rfl

end

theorem codec : Codec toJson ofJson? where
  whole := whole_toJson
  decode_encode room t := ofJson?_toJson t room

end TypeRef

/-! ## Declared types -/

theorem Parameter.codec : Codec Parameter.toJson Parameter.ofJson? := by
  refine Codec.record (fun p => by simp) (fun p => ?_) fun room p => ?_
  · simp [Codec.text.whole, TypeRef.codec.whole, Codec.flag.whole]
  · simp [Record.required, Record.withDefault, List.lookup_cons, Codec.text.decode_encode,
      TypeRef.codec.decode_encode, Codec.flag.decode_encode]

theorem Member.codec : Codec Member.toJson Member.ofJson? := by
  refine Codec.record (fun m => by simp) (fun m => ?_) fun room m => ?_
  · simp [Codec.text.whole, Codec.flag.whole, Parameter.codec.list.whole, TypeRef.codec.whole,
      Codec.texts.whole, Codec.optionalText.whole]
  · simp [Record.required, Record.withDefault, List.lookup_cons, Codec.text.decode_encode,
      MemberKind.codec.decode_encode, Codec.flag.decode_encode, Parameter.codec.list.decode_encode,
      TypeRef.codec.decode_encode, Codec.texts.decode_encode, Codec.optionalText.decode_encode,
      ite_and]

theorem EnumValue.codec : Codec EnumValue.toJson EnumValue.ofJson? := by
  refine Codec.record (fun v => by simp) (fun v => ?_) fun room v => ?_
  · simp [Codec.text.whole, Codec.integer.whole]
  · simp [Record.required, List.lookup_cons, Codec.text.decode_encode, Codec.integer.decode_encode,
      EnumValue.of?, v.inRange]

theorem TypeDecl.codec : Codec TypeDecl.toJson TypeDecl.ofJson? := by
  refine Codec.record (fun t => by simp) (fun t => ?_) fun room t => ?_
  · simp [TypeKind.codec.whole, TypeName.codec.whole, Codec.texts.whole, Member.codec.list.whole,
      EnumValue.codec.list.whole]
  · simp [Record.required, Record.withDefault, List.lookup_cons, TypeKind.codec.decode_encode,
      TypeName.codec.decode_encode, Codec.texts.decode_encode, Member.codec.list.decode_encode,
      EnumValue.codec.list.decode_encode, ite_and]

/-! ## Documents -/

theorem Assembly.codec : Codec Assembly.toJson Assembly.ofJson? := by
  refine Codec.record (fun a => by simp) (fun a => ?_) fun room a => ?_
  · simp [Codec.text.whole, TypeDecl.codec.list.whole]
  · simp [Record.required, Record.withDefault, List.lookup_cons, Codec.text.decode_encode,
      TypeDecl.codec.list.decode_encode]

/-- What was encoded is what its text is decoded as, in any layout, as far as
documents may nest. -/
theorem Json.Codec.ofText?_render {α : Type} {encode : α → Json} {decode : Decoder α}
    (h : Codec encode decode) {l : Json.Layout} (hl : l.Blank) (x : α) :
    decode.ofText? ((encode x).render l) =
      if (encode x).nesting ≤ documentRoom then some x else none := by
  rw [Decoder.ofText?, Json.read?_render hl (h.whole x), Option.bind_some, h.decode_encode]

/-- The document of a valid assembly is read as that assembly if it nests 127
arrays and objects at most, and cannot be read at all if it nests more of them;
and so it is with the compact text of every declared type. -/
theorem Assembly.ofDocument_toDocument {a : Assembly} (h : a.validate = .ok ()) :
    (Json.read? a.toDocument = some a.toJson ∧
      ofDocument a.toDocument =
        if a.toJson.nesting ≤ 127 then .ok a else .error .unreadable) ∧
    ∀ t : TypeDecl, Json.read? t.toJson.compact = some t.toJson ∧
      TypeDecl.ofJson?.ofText? t.toJson.compact =
        if t.toJson.nesting ≤ 127 then some t else none := by
  have hdocument : Assembly.ofJson?.ofText? a.toDocument =
      if a.toJson.nesting ≤ 127 then some a else none :=
    Assembly.codec.ofText?_render Json.Layout.blank_indented a
  refine ⟨⟨Json.read?_render Json.Layout.blank_indented (Assembly.codec.whole a), ?_⟩, fun t =>
    ⟨Json.read?_render Json.Layout.blank_compact (TypeDecl.codec.whole t),
      TypeDecl.codec.ofText?_render Json.Layout.blank_compact t⟩⟩
  rw [ofDocument, hdocument]
  by_cases hnesting : a.toJson.nesting ≤ 127
  · rw [if_pos hnesting, if_pos hnesting]
    simp only [h]
  · rw [if_neg hnesting, if_neg hnesting]

/-- An assembly with control characters in a name, a task in a nullable array and
a member of unknown kind. -/
def eventsAssembly : Assembly where
  name := "Acme\n\"Events\""
  types :=
    [{ kind := .interfaceType
       name := { space := "Acme", name := "Source", assembly := "Acme\n\"Events\"" }
       members :=
         [{ name := "Changed", kind := .unknown,
            type := .array (.nullable (.taskOf (.named ⟨"", [], "Item", "Acme"⟩ [.unknown]))) }]
       values := [⟨"Least", -enumLimit, by decide⟩] }]

theorem ofDocument_toDocument_eventsAssembly :
    eventsAssembly.validate = .ok () ∧
      Assembly.ofDocument eventsAssembly.toDocument = .ok eventsAssembly := by
  have hvalid : eventsAssembly.validate = .ok () := rfl
  refine ⟨hvalid, ?_⟩
  rw [(Assembly.ofDocument_toDocument hvalid).1.2, if_pos (by decide)]

end Ambient
