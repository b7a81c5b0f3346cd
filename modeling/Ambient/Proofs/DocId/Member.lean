import Ambient.Proofs.Acceptance
import Ambient.Proofs.DocId.Type

/-!
# Identifiers of members

`Member.normal` is what the derived identifier of a member tells of it, and where names are
plain it tells all of that: two members have one identifier exactly if they have one normal form
(`memberId_inj`). So the check for repeated identifiers refuses exactly the members that agree
in kind, name, number of type parameters and types of parameters with one before them.

Read from the left behind the name of the owner, an identifier is a name up to the first
backtick or parenthesis, a number up to the first parenthesis, and a list of types. The letter
in front does not tell constructors from methods. Their names do, which begin with a mark.
-/

namespace Ambient

open DocId Text

/-- What an identifier tells of a member. -/
inductive DocMember where
  | staticConstructor
  | constructor (params : List DocType)
  | method (name : String) (arity : Nat) (params : List DocType)
  | property (name : String) (params : List DocType)
  | field (name : String)
  | event (name : String)
  | nestedType (name : String)
  | unknown (name : String)

/-- What the derived identifier tells of the member. Parameters of static constructors are not
part of it, nor are types of fields and results of methods. -/
def Member.normal (m : Member) : DocMember :=
  let params := m.params.map (·.type.normal)
  match m.kind with
  | .constructor => if m.isStatic then .staticConstructor else .constructor params
  | .method => .method m.name m.typeParams.length params
  | .property => .property m.name params
  | .field => .field m.name
  | .event => .event m.name
  | .nestedType => .nestedType m.name
  | .unknown => .unknown m.name

/-- The member has no identifier of its own, and the derived one has plain names in it. -/
structure Member.Readable (m : Member) : Prop where
  derived : m.docId = none
  name : IsPlain m.name
  params : ∀ p ∈ m.params, ∀ x ∈ p.type.names, IsPlain x

namespace DocMember

/-! ## The parts of an identifier -/

@[simp] def letter : DocMember → Char
  | staticConstructor | constructor _ | method .. => 'M'
  | property .. => 'P'
  | field _ => 'F'
  | event _ => 'E'
  | nestedType _ => 'T'
  | unknown _ => '!'

/-- The name that a member was declared with. Constructors go without. -/
@[simp] def declared : DocMember → Option String
  | staticConstructor | constructor _ => none
  | method name .. | property name _ | field name | event name | nestedType name
  | unknown name => some name

@[simp] def name : DocMember → String
  | staticConstructor => "#cctor"
  | constructor _ => "#ctor"
  | method name .. | property name _ | field name | event name | nestedType name
  | unknown name => name

@[simp] def arity : DocMember → Nat
  | method _ arity _ => arity
  | _ => 0

@[simp] def params : DocMember → List DocType
  | constructor params | method _ _ params | property _ params => params
  | _ => []

/-- A number of type parameters behind two backticks, or nothing without any. -/
@[simp] def arityText : Nat → List Char
  | 0 => []
  | n + 1 => '\x60' :: '\x60' :: (toString (n + 1)).toList

def text (owner : String) (s : DocMember) : List Char :=
  s.letter :: ':' :: (owner.toList ++ '.' :: (s.name.toList ++
    (arityText s.arity ++ enclosed '(' ')' (DocType.texts s.params))))

/-- All names in the identifier are plain. -/
structure Plain (s : DocMember) : Prop where
  declared : ∀ x ∈ s.declared, IsPlain x
  params : ∀ t ∈ s.params, t.Plain

end DocMember

namespace Member

theorem toList_docParams (m : Member) :
    m.docParams.toList = enclosed '(' ')' (DocType.texts (m.params.map (·.type.normal))) := by
  have hall (ps : List Parameter) :
      (ps.map (·.type.docName)).map String.toList = DocType.texts (ps.map (·.type.normal)) := by
    rw [DocType.texts_eq_map, List.map_map, List.map_map]
    exact List.map_congr_left fun p _ => p.type.toList_docName
  rw [docParams, ← hall]
  cases m.params with
  | nil => rfl
  | cons p ps => simp [enclosed]

theorem toList_docArity (m : Member) :
    m.docArity.toList = DocMember.arityText m.typeParams.length := by
  rw [docArity]
  cases m.typeParams with
  | nil => rfl
  | cons x xs => simp [DocMember.arityText]

theorem toList_derivedId (owner : String) (m : Member) :
    (m.derivedId owner).toList = m.normal.text owner := by
  have hnone : enclosed '(' ')' (DocType.texts []) = [] := rfl
  unfold derivedId normal
  cases m.kind with
  | constructor => cases m.isStatic <;> simp [DocMember.text, toList_docParams, hnone]
  | method => simp [DocMember.text, toList_docParams, toList_docArity]
  | property => simp [DocMember.text, toList_docParams]
  | field | event | nestedType | unknown => simp [DocMember.text, hnone]

theorem Readable.plain_normal {m : Member} (h : m.Readable) : m.normal.Plain := by
  have hparams : ∀ t ∈ m.params.map (·.type.normal), t.Plain :=
    List.forall_mem_map.mpr fun p hp => p.type.plain_normal (h.params p hp)
  unfold normal
  cases m.kind with
  | constructor =>
      cases m.isStatic with
      | false => exact ⟨by simp, hparams⟩
      | true => exact ⟨by simp, by simp⟩
  | method | property => exact ⟨by simpa using h.name, hparams⟩
  | field | event | nestedType | unknown => exact ⟨by simpa using h.name, by simp⟩

end Member

/-! ## Members are read back -/

namespace DocMember

variable {s s' : DocMember}

/-- A name tells whether it was declared. Those of constructors are not plain. -/
theorem declared_eq_of_name (h : s.Plain) (h' : s'.Plain) (hname : s.name = s'.name) :
    s.declared = s'.declared := by
  have hcases (s : DocMember) :
      s.declared = some s.name ∨ s.declared = none ∧ ¬IsPlain s.name := by
    cases s with
    | staticConstructor => exact .inr ⟨rfl, by decide⟩
    | constructor params => exact .inr ⟨rfl, show ¬IsPlain "#ctor" by decide⟩
    | _ => exact .inl rfl
  rcases hcases s with hs | ⟨hs, hno⟩ <;> rcases hcases s' with hs' | ⟨hs', hno'⟩
  · rw [hs, hs', hname]
  · exact (hno' (hname ▸ h.declared _ hs)).elim
  · exact (hno (hname ▸ h'.declared _ hs')).elim
  · rw [hs, hs']

theorem eq_of_parts (hletter : s.letter = s'.letter) (hdeclared : s.declared = s'.declared)
    (hname : s.name = s'.name) (harity : s.arity = s'.arity) (hparams : s.params = s'.params) :
    s = s' := by
  cases s <;> cases s' <;> simp_all

/-- Whether a character may stand in a name, which ends before a number or parameters. -/
def isNameChar (c : Char) : Bool :=
  decide (c ∉ ['\x60', '('])

theorem isNameChar_of_mem_name (h : s.Plain) : ∀ c ∈ s.name.toList, isNameChar c = true := by
  have hmarks : ∀ c ∈ ['\x60', '('], c ∈ marks := by simp [marks]
  cases s with
  | staticConstructor => exact List.all_eq_true.mp (by decide)
  | constructor params => exact List.all_eq_true.mp (show "#ctor".toList.all isNameChar by decide)
  | _ => exact fun c hc => decide_eq_true fun hno => h.declared _ rfl c hc (hmarks c hno)

theorem stopsRun_params (ws : List (List Char)) :
    StopsRun (· != '(') (enclosed '(' ')' ws) := by
  cases ws with
  | nil => exact stopsRun_nil _
  | cons w ws => exact stopsRun_cons (by decide) _

theorem stopsRun_behind_name (n : Nat) (ws : List (List Char)) :
    StopsRun isNameChar (arityText n ++ enclosed '(' ')' ws) := by
  cases n with
  | succ n => exact stopsRun_cons (by decide) _
  | zero =>
      cases ws with
      | nil => exact stopsRun_nil _
      | cons w ws => exact stopsRun_cons (by decide) _

theorem arityText_run {n : Nat} : ∀ c ∈ arityText n, (c != '(') = true := by
  cases n with
  | zero => simp
  | succ n =>
      have hnoParams : '(' ∉ (toString (n + 1)).toList := not_mem_toString (by decide) (n + 1)
      intro c hc
      rw [bne_iff_ne]
      rintro rfl
      exact hnoParams (by simpa [arityText] using hc)

theorem arityText_inj {i j : Nat} (h : arityText i = arityText j) : i = j := by
  cases i with
  | zero =>
      cases j with
      | zero => rfl
      | succ j => cases h
  | succ i =>
      cases j with
      | zero => cases h
      | succ j =>
          have htail := List.tail_eq_of_cons_eq (List.tail_eq_of_cons_eq h)
          exact toString_inj (String.toList_inj.mp htail)

theorem text_inj (owner : String) (h : s.Plain) (h' : s'.Plain)
    (heq : s.text owner = s'.text owner) : s = s' := by
  have hletter := List.head_eq_of_cons_eq heq
  -- the owner is the same, so names begin in the same place
  have hbehind := List.tail_eq_of_cons_eq (List.append_cancel_left
    (List.tail_eq_of_cons_eq (List.tail_eq_of_cons_eq heq)))
  obtain ⟨hname, hrest⟩ := run_append_inj (isNameChar_of_mem_name h) (isNameChar_of_mem_name h')
    (stopsRun_behind_name _ _) (stopsRun_behind_name _ _) hbehind
  obtain ⟨harity, hlist⟩ := run_append_inj arityText_run arityText_run
    (stopsRun_params _) (stopsRun_params _) hrest
  obtain ⟨hparams, -⟩ := DocType.enclosed_append_inj (r := []) (s := []) '(' (by decide)
    (fun t ht => (h.params t ht).isRead) h'.params (by simp) (by simp) (congrArg (· ++ []) hlist)
  have hname := String.toList_inj.mp hname
  exact eq_of_parts hletter (declared_eq_of_name h h' hname) hname (arityText_inj harity) hparams

end DocMember

namespace TypeDecl

variable {t : TypeDecl} {m m' : Member}

theorem memberId_inj (h : m.Readable) (h' : m'.Readable) :
    t.memberId m = t.memberId m' ↔ m.normal = m'.normal := by
  have hid {m : Member} (h : m.Readable) : (t.memberId m).toList = m.normal.text t.docName := by
    rw [memberId, h.derived]
    exact m.toList_derivedId t.docName
  constructor
  · intro heq
    exact DocMember.text_inj t.docName h.plain_normal h'.plain_normal (by rw [← hid h, heq, hid h'])
  · intro heq
    exact String.toList_inj.mp (by rw [hid h, hid h', heq])

theorem nodup_memberId_iff {ms : List Member} (h : ∀ m ∈ ms, m.Readable) :
    (ms.map t.memberId).Nodup ↔ (ms.map Member.normal).Nodup := by
  rw [List.Nodup, List.Nodup, List.pairwise_map, List.pairwise_map]
  exact List.Pairwise.iff_of_mem fun hm hm' => not_congr (memberId_inj (h _ hm) (h _ hm'))

theorem mem_memberId_iff {ms : List Member} (h : ∀ m ∈ ms, m.Readable) (hm : m.Readable) :
    t.memberId m ∈ ms.map t.memberId ↔ m.normal ∈ ms.map Member.normal := by
  rw [List.mem_map, List.mem_map]
  exact exists_congr fun e => and_congr_right fun he => memberId_inj (h e he) hm

theorem coherent_iff_of_readable {ms : List Member} (h : ∀ m ∈ ms, m.Readable) :
    t.Coherent ms ↔ (∀ m ∈ ms, m.kind.isSupported = true ∧ t.Declares m) ∧
      (ms.map Member.normal).Nodup := by
  rw [← nodup_memberId_iff h]
  constructor
  · intro hms
    exact ⟨fun m hm => ⟨hms.supported m hm, hms.declared m hm⟩, hms.distinct⟩
  · rintro ⟨hms, hdistinct⟩
    exact ⟨fun m hm => (hms m hm).1, hdistinct, fun m hm => (hms m hm).2⟩

theorem ofType_error_iff {f : Fault} : MemberGroups.ofType t = .error f ↔
    ∃ before m after, t.members = before ++ m :: after ∧ t.Coherent before ∧
      t.Breaks before m f := by
  constructor
  · intro h
    rcases coherent_or_first_breaks coherent_nil t.members with hall | hfirst
    · rw [Coherent.ofType hall] at h
      cases h
    · obtain ⟨before, m, after, f', hsplit, hbefore, hm⟩ := hfirst
      rw [List.nil_append] at hbefore hm
      rw [hm.ofType hbefore hsplit] at h
      cases h
      exact ⟨before, m, after, hsplit, hbefore, hm⟩
  · rintro ⟨before, m, after, hsplit, hbefore, hm⟩
    exact hm.ofType hbefore hsplit

theorem breaks_repeatedId_iff {before : List Member} {id : String} :
    t.Breaks before m (.malformed id .repeatedId) ↔
      t.memberId m = id ∧ m.kind.isSupported = true ∧ t.memberId m ∈ before.map t.memberId := by
  constructor
  · rintro ⟨⟩
    exact ⟨rfl, ‹_›, ‹_›⟩
  · rintro ⟨rfl, hkind, hid⟩
    exact .repeated hkind hid

/-- Identifiers of members tell what the members are as far as `Member.normal` goes, and the
check for repeated identifiers refuses members that are alike in this way, and no others. -/
theorem memberId_decodable (t : TypeDecl) :
    (∀ m m' : Member, m.Readable → m'.Readable →
      (t.memberId m = t.memberId m' ↔ m.normal = m'.normal)) ∧
    ((∀ m ∈ t.members, m.Readable) →
      ((∃ groups, MemberGroups.ofType t = .ok groups) ↔
        (∀ m ∈ t.members, m.kind.isSupported = true ∧ t.Declares m) ∧
          (t.members.map Member.normal).Nodup) ∧
      ∀ id, MemberGroups.ofType t = .error (.malformed id .repeatedId) ↔
        ∃ before m after, t.members = before ++ m :: after ∧ t.memberId m = id ∧
          (∀ e ∈ before, e.kind.isSupported = true ∧ t.Declares e) ∧
          (before.map Member.normal).Nodup ∧ m.kind.isSupported = true ∧
          m.normal ∈ before.map Member.normal) := by
  refine ⟨fun m m' h h' => memberId_inj h h', fun hall => ⟨?_, fun id => ?_⟩⟩
  · rw [← coherent_iff_of_readable hall]
    exact ⟨fun ⟨_, h⟩ => coherent_of_ofType h, fun h => ⟨_, h.ofType⟩⟩
  · rw [ofType_error_iff]
    refine exists_congr fun before => exists_congr fun m => exists_congr fun after =>
      and_congr_right fun hsplit => ?_
    rw [hsplit, List.forall_mem_append, List.forall_mem_cons] at hall
    rw [coherent_iff_of_readable hall.1, breaks_repeatedId_iff,
      mem_memberId_iff hall.1 hall.2.1]
    tauto

end TypeDecl

/-! ## A nullable number in two spellings -/

def opening (limit : TypeRef) : Member :=
  { Member.method "Open" (.primitive .void) with params := [{ name := "limit", type := limit }] }

/-- The type that nullable types are, as any other type in a reference. -/
def nullableName : TypeName where
  space := "System"
  name := "Nullable"
  assembly := "System.Runtime"

/-- The methods differ in the number of type parameters, but the last is the first again. -/
def vault : TypeDecl where
  kind := .classType
  name := { space := "Acme", name := "Vault", assembly := "Acme" }
  members := [
    opening (.nullable (.primitive .int32)),
    { opening (.nullable (.primitive .int32)) with typeParams := ["T"] },
    opening (.named nullableName [.primitive .int32])]

theorem readable_vault : ∀ m ∈ vault.members, m.Readable := by
  have hnames {limit : TypeRef} (h : ∀ x ∈ limit.names, IsPlain x) (typeParams : List String) :
      { opening limit with typeParams := typeParams }.Readable :=
    ⟨rfl, show IsPlain "Open" by decide, List.forall_mem_singleton.mpr h⟩
  simp only [vault, List.forall_mem_cons]
  exact ⟨hnames (by decide) [], hnames (by decide) ["T"], hnames (by decide) [],
    fun _ h => (List.not_mem_nil h).elim⟩

theorem declares_vault :
    ∀ m ∈ vault.members, m.kind.isSupported = true ∧ vault.Declares m := by
  have hnone {m : Member} (h : m.referenced = []) : vault.Declares m := by
    intro x hx
    rw [← Member.mem_referenced, h] at hx
    cases hx
  simp only [vault, List.forall_mem_cons]
  exact ⟨⟨rfl, hnone rfl⟩, ⟨rfl, hnone rfl⟩, ⟨rfl, hnone rfl⟩, fun _ h => (List.not_mem_nil h).elim⟩

theorem nodup_normal_vault : ((vault.members.take 2).map Member.normal).Nodup := by
  simp [vault, opening, Member.method, Member.normal]

theorem memberId_decodable_vault :
    (∃ id, MemberGroups.ofType vault = .error (.malformed id .repeatedId)) ∧
      ∃ groups,
        MemberGroups.ofType { vault with members := vault.members.take 2 } = .ok groups := by
  constructor
  · refine ⟨_, ((vault.memberId_decodable.2 readable_vault).2 _).mpr
      ⟨vault.members.take 2, _, [], rfl, rfl, ?_, nodup_normal_vault, rfl, ?_⟩⟩
    · exact fun e he => declares_vault e (List.mem_of_mem_take he)
    · exact List.mem_cons_self
  · refine ((TypeDecl.memberId_decodable { vault with members := vault.members.take 2 }).2
      fun m hm => readable_vault m (List.mem_of_mem_take hm)).1.mpr ⟨?_, nodup_normal_vault⟩
    exact fun m hm => declares_vault m (List.mem_of_mem_take hm)

end Ambient
