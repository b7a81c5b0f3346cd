import Ambient.Proofs.DocId.Member
import Mathlib.Data.List.TakeWhile

/-!
# Short names

A short name is cut out of an identifier: behind the first colon, before the first
parenthesis, behind the last dot and before the first backtick. An identifier has all of these
in other places too. Namespaces have dots, types around a member have dots and backticks, and
the list of parameters has all four.

The cuts are found because of their order. What stands in front of a name has no parenthesis,
so the second cut takes away the parameters as a whole; behind the name there is no dot then,
so that the third cut takes away all in front; and what is left is the name with a number
(`shortName_eq`). Types and members differ only in what stands in front and in the number.
-/

namespace Ambient

open Text

namespace DocId

/-- A name that no cut goes through. -/
def IsSimple (name : String) : Prop :=
  ∀ c ∈ name.toList, c ∉ ['.', '(', '\x60']

instance : DecidablePred IsSimple :=
  fun name => decidable_of_iff (name.toList.all fun c => decide (c ∉ ['.', '(', '\x60'])) <|
    List.all_eq_true.trans (forall₂_congr fun _ _ => decide_eq_true_iff)

/-! ## The cuts -/

/-- The colon behind this letter ends the category. -/
def IsCategory (letter : Char) : Prop :=
  letter ≠ ':' ∧ letter.toNat < 0x80

instance : DecidablePred IsCategory :=
  fun _ => inferInstanceAs (Decidable (_ ∧ _))

theorem dropCategory_cons {letter : Char} (h : IsCategory letter) (cs : List Char) :
    dropCategory (letter :: ':' :: cs) = cs := by
  rw [dropCategory]
  exact if_pos h

theorem lastComponent_append_dot (front cs : List Char) :
    lastComponent (front ++ '.' :: cs) = lastComponent cs := by
  rw [lastComponent, lastComponent, List.reverse_append, List.reverse_cons, List.append_assoc,
    List.singleton_append, List.takeWhile_append]
  split
  · rename_i hall
    rw [(List.takeWhile_prefix _).eq_of_length hall]
    simp
  · rfl

theorem lastComponent_of_not_mem {cs : List Char} (h : '.' ∉ cs) : lastComponent cs = cs := by
  rw [lastComponent, List.takeWhile_eq_self_iff.mpr, List.reverse_reverse]
  intro c hc
  rw [decide_eq_true_iff]
  rintro rfl
  exact h (List.mem_reverse.mp hc)

/-- What may stand in front of a name: nothing with a parenthesis, and a dot at the end if
there is anything. -/
structure Leads (front : List Char) : Prop where
  noParams : '(' ∉ front
  dropped (cs : List Char) : lastComponent (front ++ cs) = lastComponent cs

/-- What may stand behind a name and before parameters: a number behind backticks, or
nothing. -/
structure Numbers (number : List Char) : Prop where
  noDot : '.' ∉ number
  noParams : '(' ∉ number
  begins : StopsRun (fun c => decide (c ≠ '\x60')) number

theorem shortName_eq {ref name : String} {letter : Char} {front number : List Char}
    (params : List Char) (hletter : IsCategory letter) (hfront : Leads front)
    (hname : IsSimple name) (hnumber : Numbers number) (hparams : StopsRun (· != '(') params)
    (href : ref.toList = letter :: ':' :: (front ++ (name.toList ++ (number ++ params)))) :
    shortName ref = name := by
  have hnoDot : '.' ∉ name.toList := fun hc => hname _ hc (by decide)
  have hnoParams : '(' ∉ name.toList := fun hc => hname _ hc (by decide)
  have hnoNumber : '\x60' ∉ name.toList := fun hc => hname _ hc (by decide)
  have hkept : ∀ c ∈ front ++ (name.toList ++ number), decide (c ≠ '(') = true := by
    intro c hc
    rw [decide_eq_true_iff]
    rintro rfl
    simp only [List.mem_append, hfront.noParams, hnoParams, hnumber.noParams, or_self] at hc
  have hcut : (dropCategory ref.toList).takeWhile (· ≠ '(') =
      front ++ (name.toList ++ number) := by
    rw [href, dropCategory_cons hletter, ← List.append_assoc, ← List.append_assoc,
      List.append_assoc front]
    exact takeWhile_run hkept fun c hc => by simpa using hparams c hc
  have hlast : lastComponent (front ++ (name.toList ++ number)) = name.toList ++ number := by
    rw [hfront.dropped, lastComponent_of_not_mem]
    simp [hnoDot, hnumber.noDot]
  have hrun : ∀ c ∈ name.toList, decide (c ≠ '\x60') = true := by
    intro c hc
    rw [decide_eq_true_iff]
    rintro rfl
    exact hnoNumber hc
  rw [shortName, hcut, hlast]
  exact (congrArg String.ofList (takeWhile_run hrun hnumber.begins)).trans String.ofList_toList

/-! ## What stands in front of a name -/

theorem leads_nil : Leads [] :=
  ⟨List.not_mem_nil, fun _ => rfl⟩

theorem leads_component {owner : List Char} (h : '(' ∉ owner) : Leads (owner ++ ['.']) where
  noParams := by simp [h]
  dropped cs := by
    rw [List.append_assoc, List.singleton_append]
    exact lastComponent_append_dot owner cs

theorem Leads.append {front front' : List Char} (h : Leads front) (h' : Leads front') :
    Leads (front ++ front') where
  noParams := by simp [h.noParams, h'.noParams]
  dropped cs := by rw [List.append_assoc, h.dropped, h'.dropped]

end DocId

open DocId

namespace TypeName

/-- A type that identifiers can be read back for: nothing around it has a parenthesis, and its
own name has no mark that a cut is made at. -/
structure Citable (n : TypeName) : Prop where
  space : '(' ∉ n.space.toList
  enclosing : ∀ x ∈ n.enclosing, '(' ∉ x.toList
  name : IsSimple n.name

/-- A qualified name ends in the simple name. -/
theorem Citable.exists_leads {n : TypeName} (h : n.Citable) :
    ∃ front, Leads front ∧ n.qualified.toList = front ++ n.name.toList := by
  have hjoined : ∀ parts : List String, (∀ x ∈ parts, '(' ∉ x.toList) →
      ∃ front, Leads front ∧
        (".".intercalate (parts ++ [n.name])).toList = front ++ n.name.toList := by
    intro parts hparts
    induction parts with
    | nil => exact ⟨[], leads_nil, by simp⟩
    | cons p ps ih =>
        rw [List.forall_mem_cons] at hparts
        obtain ⟨front, hfront, heq⟩ := ih hparts.2
        refine ⟨p.toList ++ ['.'] ++ front, (leads_component hparts.1).append hfront, ?_⟩
        rw [List.cons_append, String.intercalate_cons_of_ne_nil (by simp), String.toList_append,
          String.toList_append, heq, List.append_assoc, List.append_assoc, List.append_assoc]
        rfl
  refine hjoined _ fun x hx => ?_
  rw [List.mem_append] at hx
  rcases hx with hx | hx
  · split at hx
    · exact (List.not_mem_nil hx).elim
    · exact List.mem_singleton.mp hx ▸ h.space
  · exact h.enclosing x hx

end TypeName

/-! ## Types, values and members -/

namespace DocId

theorem numbers_nil : Numbers [] :=
  ⟨List.not_mem_nil, List.not_mem_nil, stopsRun_nil _⟩

theorem numbers_cons {cs : List Char} (hdot : '.' ∉ cs) (hparams : '(' ∉ cs) :
    Numbers ('\x60' :: cs) :=
  ⟨by simp [hdot], by simp [hparams], stopsRun_cons (by simp) cs⟩

/-- A backtick and a number behind it. -/
theorem numbers_toString (n : Nat) : Numbers ('\x60' :: (toString n).toList) :=
  numbers_cons (not_mem_toString (by decide) n) (not_mem_toString (by decide) n)

theorem numbers_arityText (n : Nat) : Numbers (DocMember.arityText n) := by
  cases n with
  | zero => exact numbers_nil
  | succ n =>
      have hone := numbers_toString (n + 1)
      exact numbers_cons hone.noDot hone.noParams

theorem isCategory_letter (s : DocMember) : IsCategory s.letter := by
  cases s with
  | staticConstructor | constructor | method => exact (by decide : IsCategory 'M')
  | property => exact (by decide : IsCategory 'P')
  | field => exact (by decide : IsCategory 'F')
  | event => exact (by decide : IsCategory 'E')
  | nestedType => exact (by decide : IsCategory 'T')
  | unknown => exact (by decide : IsCategory '!')

end DocId

namespace TypeDecl

variable {t : TypeDecl}

theorem exists_number (t : TypeDecl) :
    ∃ number, Numbers number ∧ t.docName.toList = t.name.qualified.toList ++ number := by
  unfold docName
  split
  · exact ⟨_, numbers_toString t.arity, by simp⟩
  · exact ⟨[], numbers_nil, (List.append_nil _).symm⟩

theorem not_mem_docName (h : t.name.Citable) : '(' ∉ t.docName.toList := by
  obtain ⟨front, hfront, hname⟩ := h.exists_leads
  obtain ⟨number, hnumber, heq⟩ := t.exists_number
  have hsimple : '(' ∉ t.name.name.toList := fun hc => h.name _ hc (by decide)
  rw [heq, hname]
  simp [hfront.noParams, hnumber.noParams, hsimple]

theorem shortName_type (h : t.name.Citable) : shortName t.docId = t.simpleName := by
  obtain ⟨front, hfront, hname⟩ := h.exists_leads
  obtain ⟨number, hnumber, heq⟩ := t.exists_number
  have hletter : IsCategory 'T' := by decide
  refine shortName_eq [] hletter hfront h.name hnumber (stopsRun_nil _) ?_
  rw [docId, String.toList_append, heq, hname, List.append_nil, List.append_assoc]
  rfl

theorem shortName_value (h : t.name.Citable) {v : EnumValue} (hv : IsSimple v.name) :
    shortName (t.valueId v) = v.name := by
  have hletter : IsCategory 'F' := by decide
  refine shortName_eq [] hletter (leads_component (not_mem_docName h)) hv numbers_nil
    (stopsRun_nil _) ?_
  simp [valueId]

theorem shortName_derivedId (h : t.name.Citable) {m : Member} (hm : IsSimple m.normal.name) :
    shortName (m.derivedId t.docName) = m.normal.name := by
  refine shortName_eq (enclosed '(' ')' (DocType.texts m.normal.params))
    (isCategory_letter m.normal) (leads_component (not_mem_docName h)) hm
    (numbers_arityText m.normal.arity) (DocMember.stopsRun_params _) ?_
  rw [m.toList_derivedId, DocMember.text, List.append_assoc, List.singleton_append]

theorem shortName_member (h : t.name.Citable) {m : Member} (hid : m.docId = none)
    (hkind : m.kind ≠ .constructor) (hm : IsSimple m.name) :
    shortName (t.memberId m) = m.name := by
  have hname : m.normal.name = m.name := by
    unfold Member.normal
    cases hk : m.kind with
    | constructor => exact (hkind hk).elim
    | _ => rfl
  rw [memberId, hid, Option.getD_none, shortName_derivedId h (hname ▸ hm), hname]

theorem shortName_constructor (h : t.name.Citable) {m : Member} (hid : m.docId = none)
    (hkind : m.kind = .constructor) :
    shortName (t.memberId m) = if m.isStatic then "#cctor" else "#ctor" := by
  have hname : m.normal.name = if m.isStatic then "#cctor" else "#ctor" := by
    rw [Member.normal, hkind]
    cases m.isStatic <;> rfl
  have hsimple : IsSimple m.normal.name := by
    rw [hname]
    split <;> decide
  rw [memberId, hid, Option.getD_none, shortName_derivedId h hsimple, hname]

/-- A cross reference to a type, an enum value or a member shows the name that the identifier was
built from, and to a constructor one of two fixed names: whatever the kind of the member is, its
parameters and its type parameters, and how many type parameters the type has. -/
theorem shortName_ids (t : TypeDecl) (h : t.name.Citable) :
    shortName t.docId = t.simpleName ∧
    (∀ v : EnumValue, IsSimple v.name → shortName (t.valueId v) = v.name) ∧
    ∀ m : Member, m.docId = none →
      (m.kind ≠ .constructor → IsSimple m.name → shortName (t.memberId m) = m.name) ∧
      (m.kind = .constructor →
        shortName (t.memberId m) = if m.isStatic then "#cctor" else "#ctor") :=
  ⟨shortName_type h, fun _ => shortName_value h, fun _ hid =>
    ⟨shortName_member h hid, shortName_constructor h hid⟩⟩

end TypeDecl

/-- A generic type in a generic type, in a namespace that has a colon. -/
def crate : TypeDecl where
  kind := .classType
  name :=
    { space := "Acme.Data:V2", enclosing := ["Depot`1"], name := "Crate", assembly := "Acme" }
  typeParams := ["K", "V"]

/-- A method with type parameters of its own and all marks in its list of parameters. -/
def repack : Member :=
  { Member.method "Repack" (.parameter "U") with
    typeParams := ["U"]
    params :=
      [{ name := "items",
         type := .array (.named { name := "List`1.(x)", assembly := "Lib" } [.parameter "U"]) },
       { name := "limit", type := .nullable (.primitive .int32) }] }

theorem shortName_ids_crate :
    crate.name.Citable ∧ repack.docId = none ∧ repack.kind ≠ .constructor ∧
      IsSimple repack.name ∧ shortName crate.docId = "Crate" ∧
      shortName (crate.memberId repack) = "Repack" ∧
      shortName (crate.memberId { Member.constructor with params := repack.params }) =
        "#ctor" := by
  have hcrate : crate.name.Citable := ⟨by decide, by decide, by decide⟩
  obtain ⟨htype, -, hmember⟩ := TypeDecl.shortName_ids crate hcrate
  exact ⟨hcrate, rfl, by decide, by decide, htype,
    (hmember repack rfl).1 (by decide) (by decide), (hmember _ rfl).2 rfl⟩

end Ambient
