import Ambient.DocId
import Ambient.Proofs.Text.Run
import Mathlib.Data.List.Basic

/-!
# Types in identifiers

An identifier does not tell all about a type: that it is built in, a type parameter or a
task. What it does tell is a `DocType`, a name with the types that it is applied to and the
number of arrays around it, and `TypeRef.normal` is what it tells of a reference.

A `DocType` can be read back. Its text is compared from the left with more text behind it
(`DocType.IsRead`): the name goes on up to the first mark, and which mark that is says whether
there are type arguments, arrays, or the type is over.
-/

namespace Ambient

namespace DocId

/-- The characters that give identifiers their structure. -/
def marks : List Char :=
  ['(', ')', '{', '}', '[', ']', ',', ':', '#', '\x60']

/-- A name that cannot be taken for structure. -/
def IsPlain (name : String) : Prop :=
  ∀ c ∈ name.toList, c ∉ marks

instance : DecidablePred IsPlain :=
  fun name => decidable_of_iff (name.toList.all fun c => decide (c ∉ marks)) <|
    List.all_eq_true.trans (forall₂_congr fun _ _ => decide_eq_true_iff)

/-- Texts in brackets with commas in between, or nothing without any text. -/
def enclosed (left right : Char) : List (List Char) → List Char
  | [] => []
  | w :: ws => left :: ([','].intercalate (w :: ws) ++ [right])

end DocId

open DocId Text

/-- A type as identifiers write it: a name, the types that it is applied to, and the number of
arrays around it. -/
inductive DocType where
  | of (name : String) (args : List DocType) (rank : Nat)

namespace DocType

def inArray : DocType → DocType
  | of name args rank => of name args (rank + 1)

mutual
def text : DocType → List Char
  | of name args rank =>
      name.toList ++ (enclosed '{' '}' (texts args) ++ (List.replicate rank ['[', ']']).flatten)

def texts : List DocType → List (List Char)
  | [] => []
  | t :: ts => t.text :: texts ts
end

theorem texts_eq_map (ts : List DocType) : texts ts = ts.map text := by
  induction ts with
  | nil => rfl
  | cons t ts ih => rw [texts, ih, List.map_cons]

/-- All names in a type are plain. -/
inductive Plain : DocType → Prop where
  | of {name : String} {args : List DocType} {rank : Nat} (hname : IsPlain name)
      (hargs : ∀ t ∈ args, Plain t) : Plain (.of name args rank)

end DocType

namespace TypeRef

mutual
/-- What identifiers tell of a type. Built-in types go by their runtime names, nullable types
and tasks by the generic types that they are, and a type without an expressible shape is an
object. -/
def normal : TypeRef → DocType
  | primitive p => .of p.runtimeName [] 0
  | parameter name => .of name [] 0
  | array t => t.normal.inArray
  | nullable t => .of "System.Nullable" [t.normal] 0
  | task => .of "System.Threading.Tasks.Task" [] 0
  | taskOf t => .of "System.Threading.Tasks.Task" [t.normal] 0
  | named name args => .of name.qualified (normals args) 0
  | unknown => .of "System.Object" [] 0

def normals : List TypeRef → List DocType
  | [] => []
  | t :: ts => t.normal :: normals ts
end

mutual
/-- The names in a reference, assemblies apart: of type parameters, and of declared types with
their namespaces and the types around them. -/
def names : TypeRef → List String
  | parameter name => [name]
  | array t | nullable t | taskOf t => t.names
  | named name args => name.space :: name.name :: name.enclosing ++ namesOf args
  | primitive _ | task | unknown => []

def namesOf : List TypeRef → List String
  | [] => []
  | t :: ts => t.names ++ namesOf ts
end

end TypeRef

/-! ## The text of a type is that of its normal form -/

namespace DocType

theorem Plain.inArray {t : DocType} (h : t.Plain) : t.inArray.Plain := by
  cases h with
  | of hname hargs => exact .of hname hargs

theorem text_inArray (t : DocType) : t.inArray.text = t.text ++ ['[', ']'] := by
  obtain ⟨name, args, rank⟩ := t
  rw [inArray, text, text, List.replicate_succ', List.flatten_append, List.flatten_singleton]
  simp only [List.append_assoc]

end DocType

namespace TypeRef

theorem toList_docName_generic (name : String) (t : TypeRef) :
    (name ++ "\x7b" ++ t.docName ++ "\x7d").toList =
      name.toList ++ enclosed '{' '}' [t.docName.toList] := by
  simp [enclosed]

theorem toList_docName_named (name : TypeName) (args : List TypeRef) :
    (named name args).docName.toList =
      name.qualified.toList ++ enclosed '{' '}' ((docNames args).map String.toList) := by
  cases args with
  | nil => exact (List.append_nil _).symm
  | cons t ts =>
      show (name.qualified ++ "\x7b" ++ ",".intercalate (t.docName :: docNames ts) ++ "\x7d").toList
        = _
      simp [docNames, enclosed]

end TypeRef

theorem DocType.text_plain (name : String) : (DocType.of name [] 0).text = name.toList :=
  List.append_nil _

theorem DocType.text_applied (name : String) (args : List DocType) :
    (DocType.of name args 0).text = name.toList ++ enclosed '{' '}' (texts args) :=
  congrArg (name.toList ++ ·) (List.append_nil _)

namespace TypeRef

mutual
theorem toList_docName : ∀ t : TypeRef, t.docName.toList = t.normal.text
  | primitive p => (DocType.text_plain p.runtimeName).symm
  | parameter name => (DocType.text_plain name).symm
  | array t => by
      show (t.docName ++ "[]").toList = t.normal.inArray.text
      rw [DocType.text_inArray, String.toList_append, toList_docName t]
      rfl
  | nullable t => by
      refine (toList_docName_generic "System.Nullable" t).trans ?_
      rw [toList_docName t]
      exact (DocType.text_applied _ [t.normal]).symm
  | task => (DocType.text_plain "System.Threading.Tasks.Task").symm
  | taskOf t => by
      refine (toList_docName_generic "System.Threading.Tasks.Task" t).trans ?_
      rw [toList_docName t]
      exact (DocType.text_applied _ [t.normal]).symm
  | named name args => by
      rw [toList_docName_named, toList_docNames args, normal, DocType.text_applied]
  | unknown => (DocType.text_plain "System.Object").symm

theorem toList_docNames :
    ∀ ts : List TypeRef, (docNames ts).map String.toList = DocType.texts (normals ts)
  | [] => rfl
  | t :: ts => by
      rw [docNames, List.map_cons, toList_docName t, toList_docNames ts, normals, DocType.texts]
end

end TypeRef

/-! ## References with plain names -/

namespace DocId

theorem mem_intercalate {sep : String} {ss : List String} {c : Char}
    (h : c ∈ (sep.intercalate ss).toList) : c ∈ sep.toList ∨ ∃ s ∈ ss, c ∈ s.toList := by
  induction ss with
  | nil => simp at h
  | cons s ss ih =>
      cases ss with
      | nil => exact .inr ⟨s, List.mem_cons_self, by simpa using h⟩
      | cons s' ss =>
          rw [String.intercalate_cons_cons, String.toList_append, String.toList_append,
            List.append_assoc, List.mem_append, List.mem_append] at h
          rcases h with h | h | h
          · exact .inr ⟨s, List.mem_cons_self, h⟩
          · exact .inl h
          · exact (ih h).imp id fun ⟨e, he, hc⟩ => ⟨e, List.mem_cons_of_mem s he, hc⟩

theorem isPlain_qualified {n : TypeName}
    (h : ∀ x ∈ n.space :: n.name :: n.enclosing, IsPlain x) : IsPlain n.qualified := by
  have hparts : ∀ x ∈ (if n.space.isEmpty then [] else [n.space]) ++ n.enclosing ++ [n.name],
      IsPlain x := by
    intro x hx
    refine h x ?_
    rw [List.mem_append, List.mem_append, List.mem_singleton] at hx
    rcases hx with (hx | hx) | hx
    · split at hx
      · exact (List.not_mem_nil hx).elim
      · simp [List.mem_singleton.mp hx]
    · simp [hx]
    · simp [hx]
  have hdot : IsPlain "." := by decide
  intro c hc
  rcases mem_intercalate hc with hc | ⟨x, hx, hc⟩
  · exact hdot c hc
  · exact hparts x hx c hc

end DocId

namespace TypeRef

mutual
theorem plain_normal : ∀ t : TypeRef, (∀ x ∈ t.names, IsPlain x) → t.normal.Plain
  | primitive p, _ => .of (by cases p <;> decide) fun _ h => (List.not_mem_nil h).elim
  | parameter name, h =>
      .of (h name List.mem_cons_self) fun _ h => (List.not_mem_nil h).elim
  | array t, h => (plain_normal t h).inArray
  | nullable t, h => .of (by decide) (List.forall_mem_singleton.mpr (plain_normal t h))
  | task, _ => .of (by decide) fun _ h => (List.not_mem_nil h).elim
  | taskOf t, h => .of (by decide) (List.forall_mem_singleton.mpr (plain_normal t h))
  | named name args, h => by
      rw [names, List.forall_mem_append] at h
      exact .of (isPlain_qualified h.1) (plain_normals args h.2)
  | unknown, _ => .of (by decide) fun _ h => (List.not_mem_nil h).elim

theorem plain_normals :
    ∀ ts : List TypeRef, (∀ x ∈ namesOf ts, IsPlain x) → ∀ t ∈ normals ts, t.Plain
  | [], _ => fun _ h => (List.not_mem_nil h).elim
  | t :: ts, h => by
      rw [namesOf, List.forall_mem_append] at h
      rw [normals, List.forall_mem_cons]
      exact ⟨plain_normal t h.1, plain_normals ts h.2⟩
end

end TypeRef

/-! ## Types are read back -/

/-- What follows a type in an identifier: another one, a closing bracket, or nothing. -/
def FollowsType (r : List Char) : Prop :=
  ∀ c, r.head? = some c → c ∈ [',', '}', ')']

theorem followsType_cons {c : Char} (h : c ∈ [',', '}', ')']) (r : List Char) :
    FollowsType (c :: r) := by
  rintro d ⟨⟩
  exact h

namespace DocType

/-- The type is known from a text that begins with it. -/
def IsRead (t : DocType) : Prop :=
  ∀ ⦃u : DocType⦄ ⦃r s : List Char⦄, u.Plain → FollowsType r → FollowsType s →
    t.text ++ r = u.text ++ s → t = u ∧ r = s

/-- The rest of a list of types behind the first, up to the bracket that closes it. -/
def others (close : Char) (r : List Char) : List DocType → List Char
  | [] => close :: r
  | t :: ts => ',' :: (t.text ++ others close r ts)

variable {close : Char} {r s : List Char}

theorem followsType_others (hclose : close ∈ ['}', ')']) (r : List Char) (ts : List DocType) :
    FollowsType (others close r ts) := by
  cases ts with
  | nil => exact followsType_cons (List.mem_cons_of_mem _ hclose) r
  | cons t ts => exact followsType_cons List.mem_cons_self _

theorem joined_eq (close : Char) (r : List Char) (t : DocType) (ts : List DocType) :
    [','].intercalate (texts (t :: ts)) ++ close :: r = t.text ++ others close r ts := by
  induction ts generalizing t with
  | nil => simp [texts, others]
  | cons u us ih =>
      rw [texts, texts, List.intercalate_cons_cons, ← texts, others, ← ih]
      simp

theorem others_inj (hclose : close ∈ ['}', ')']) {ts us : List DocType}
    (hts : ∀ t ∈ ts, t.IsRead) (hus : ∀ u ∈ us, u.Plain)
    (h : others close r ts = others close s us) : ts = us ∧ r = s := by
  have hcomma : close ≠ ',' := by
    rintro rfl
    exact absurd hclose (by decide)
  induction ts generalizing us with
  | nil =>
      cases us with
      | nil => exact ⟨rfl, List.tail_eq_of_cons_eq h⟩
      | cons u us => exact (hcomma (List.head_eq_of_cons_eq h)).elim
  | cons t ts ih =>
      cases us with
      | nil => exact (hcomma (List.head_eq_of_cons_eq h).symm).elim
      | cons u us =>
          rw [List.forall_mem_cons] at hts hus
          obtain ⟨htu, hrest⟩ := hts.1 hus.1 (followsType_others hclose r ts)
            (followsType_others hclose s us) (List.tail_eq_of_cons_eq h)
          obtain ⟨hall, hrs⟩ := ih hts.2 hus.2 hrest
          exact ⟨by rw [htu, hall], hrs⟩

/-- A list in brackets is told from no list, and its types are read one after another. -/
theorem enclosed_append_inj (left : Char) (hclose : close ∈ ['}', ')']) {ts us : List DocType}
    (hts : ∀ t ∈ ts, t.IsRead) (hus : ∀ u ∈ us, u.Plain) (hr : r.head? ≠ some left)
    (hs : s.head? ≠ some left)
    (h : enclosed left close (texts ts) ++ r = enclosed left close (texts us) ++ s) :
    ts = us ∧ r = s := by
  cases ts with
  | nil =>
      cases us with
      | nil => exact ⟨rfl, h⟩
      | cons u us => exact (hr (by rw [show r = _ from h]; rfl)).elim
  | cons t ts =>
      cases us with
      | nil => exact (hs (by rw [← show _ = s from h]; rfl)).elim
      | cons u us =>
          have hjoined (t : DocType) (ts : List DocType) (r : List Char) :
              enclosed left close (texts (t :: ts)) ++ r =
                left :: (t.text ++ others close r ts) := by
            rw [← joined_eq]
            simp [enclosed, texts]
          rw [hjoined, hjoined] at h
          exact others_inj hclose hts hus (congrArg (',' :: ·) (List.tail_eq_of_cons_eq h))

/-- The brackets of arrays, with something else behind. -/
theorem brackets_append_inj {i j : Nat} (hr : FollowsType r) (hs : FollowsType s)
    (h : (List.replicate i ['[', ']']).flatten ++ r = (List.replicate j ['[', ']']).flatten ++ s) :
    i = j ∧ r = s := by
  have hbracket (i : Nat) :
      ∀ c ∈ (List.replicate i ['[', ']']).flatten, (c == '[' || c == ']') = true := by
    simp
  have hstop {r : List Char} (hr : FollowsType r) : StopsRun (fun c => c == '[' || c == ']') r := by
    have hnone : ∀ c ∈ [',', '}', ')'], (c == '[' || c == ']') = false := by simp
    exact fun c hc => hnone c (hr c hc)
  obtain ⟨hij, hrs⟩ := run_append_inj (hbracket i) (hbracket j) (hstop hr) (hstop hs) h
  have hlength : i * 2 = j * 2 := by simpa using congrArg List.length hij
  exact ⟨by omega, hrs⟩

/-- No name goes on into what follows it in an identifier. -/
theorem stopsRun_marks {c : Char} (hc : c ∈ marks) (cs : List Char) :
    StopsRun (fun c => decide (c ∉ marks)) (c :: cs) :=
  stopsRun_cons (by simpa using hc) cs

theorem stopsRun_behind (args : List DocType) (rank : Nat) (hr : FollowsType r) :
    StopsRun (fun c => decide (c ∉ marks))
      (enclosed '{' '}' (texts args) ++ ((List.replicate rank ['[', ']']).flatten ++ r)) := by
  cases args with
  | cons t ts => exact stopsRun_marks (by decide) _
  | nil =>
      cases rank with
      | succ rank => exact stopsRun_marks (by decide) _
      | zero =>
          have hmarks : ∀ c ∈ [',', '}', ')'], decide (c ∉ marks) = false := by simp [marks]
          exact fun c hc => hmarks c (hr c hc)

theorem head_brackets_append {rank : Nat} (hr : FollowsType r) :
    ((List.replicate rank ['[', ']']).flatten ++ r).head? ≠ some '{' := by
  cases rank with
  | succ rank => simp [List.replicate_succ]
  | zero => exact fun h => absurd (hr _ h) (by decide)

theorem Plain.isRead {t : DocType} (ht : t.Plain) : t.IsRead := by
  induction ht with
  | @of name args rank hname hargs ih =>
      intro u r s hu hr hs h
      cases hu with
      | @of name' args' rank' hname' hargs' =>
          rw [text, text, List.append_assoc, List.append_assoc, List.append_assoc,
            List.append_assoc] at h
          obtain ⟨hnames, hrest⟩ := run_append_inj (fun c hc => decide_eq_true (hname c hc))
            (fun c hc => decide_eq_true (hname' c hc)) (stopsRun_behind args rank hr)
            (stopsRun_behind args' rank' hs) h
          obtain ⟨hall, hrest⟩ := enclosed_append_inj '{' (by decide) ih hargs'
            (head_brackets_append hr) (head_brackets_append hs) hrest
          obtain ⟨hranks, hrs⟩ := brackets_append_inj hr hs hrest
          exact ⟨by rw [String.toList_inj.mp hnames, hall, hranks], hrs⟩

end DocType

end Ambient
