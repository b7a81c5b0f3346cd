import Ambient.Xml.Reference

/-!
# Tags

A tag is a name and what is written behind it. Its attributes are read only
when one of them is asked for, from the left, up to the one that was asked for:
what is wrong behind it is nobody's concern.

A key begins with any character that is not blank and goes on to an equals sign
or a blank character. Its value is in quotes of either kind.
-/

namespace Ambient.Xml

def isSpace (c : Char) : Bool :=
  c == ' ' || c == '\t' || c == '\n' || c == '\r'

/-- A start tag, or the tag of an empty element. -/
structure Tag where
  name : String
  /-- What is written behind the name. -/
  rest : List Char
  deriving DecidableEq

namespace Tag

/-- The tag with this content: the name goes up to the first blank character. -/
def ofContent (cs : List Char) : Tag where
  name := String.ofList (cs.takeWhile (!isSpace ·))
  rest := cs.dropWhile (!isSpace ·)

/-! ## Attributes -/

/-- Whether a key goes on with this character, behind its first. -/
def isKeyChar (c : Char) : Bool :=
  c != '=' && !isSpace c

/-- A value in quotes and what follows it. -/
def quoted? : List Char → Option (List Char × List Char)
  | [] => none
  | q :: cs =>
      if q = '"' ∨ q = '\'' then
        match cs.dropWhile (· != q) with
        | [] => none
        | _ :: rest => some (cs.takeWhile (· != q), rest)
      else none

/-- The value behind a key and what follows it. -/
def value? (cs : List Char) : Option (List Char × List Char) :=
  match cs.dropWhile isSpace with
  | '=' :: cs => quoted? (cs.dropWhile isSpace)
  | _ => none

theorem quoted?_length {cs v rest : List Char} (h : quoted? cs = some (v, rest)) :
    rest.length < cs.length := by
  unfold quoted? at h
  split at h
  · cases h
  · rename_i q cs
    split at h
    · split at h
      · cases h
      · rename_i d r hr
        cases h
        have := (List.dropWhile_suffix (l := cs) (· != q)).length_le
        rw [hr] at this
        simp only [List.length_cons] at this ⊢
        omega
    · cases h

theorem value?_length {cs v rest : List Char} (h : value? cs = some (v, rest)) :
    rest.length < cs.length := by
  unfold value? at h
  split at h
  · rename_i d hd
    have h₁ := quoted?_length h
    have h₂ := (List.dropWhile_suffix (l := d) isSpace).length_le
    have h₃ := (List.dropWhile_suffix (l := cs) isSpace).length_le
    rw [hd, List.length_cons] at h₃
    omega
  · cases h

/-- The raw value of the first attribute with this key. -/
def find? (key : List Char) (cs : List Char) : Except Fault (Option (List Char)) :=
  match _hcs : cs.dropWhile isSpace with
  | [] => .ok none
  | c :: ds =>
      match _hv : value? (ds.dropWhile isKeyChar) with
      | none => .error .attribute
      | some (value, rest) =>
          if c :: ds.takeWhile isKeyChar = key then .ok (some value) else find? key rest
termination_by cs.length
decreasing_by
  have h₁ := value?_length _hv
  have h₂ := (List.dropWhile_suffix (l := ds) isKeyChar).length_le
  have h₃ := (List.dropWhile_suffix (l := cs) isSpace).length_le
  rw [_hcs, List.length_cons] at h₃
  omega

/-- The text of the first attribute with this key. -/
def attribute? (t : Tag) (key : String) : Except Fault (Option String) := do
  match ← find? key.toList t.rest with
  | some value => (textOf value).map some
  | none => .ok none

end Tag

end Ambient.Xml
