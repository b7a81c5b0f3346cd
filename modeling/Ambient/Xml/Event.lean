import Ambient.Text.Blank
import Ambient.Xml.Tag

/-!
# XML documents

A document is a list of events, in order: tags, text and character data. Only
as much is checked as it takes to tell them apart: markup has an end, and an
end tag belongs to the innermost open element. There may be several roots, or
text outside them, and elements may be left open. The first fault ends the
list.

Inside a tag, quotes hide the character that would end it. An end tag is read
like any other, and its name is all that it holds but for blank characters at
the end.
-/

namespace Ambient.Xml

/-- A piece of a document. -/
inductive Event where
  | start (tag : Tag)
  /-- An element that ends where it starts. -/
  | empty (tag : Tag)
  | close (name : String)
  /-- Text between tags, with references as they are written. -/
  | text (raw : List Char)
  | cdata (text : String)
  /-- A comment, an instruction or a document type. -/
  | skipped
  deriving DecidableEq

/-! ## Finding the end of markup -/

/-- What stands in front of the first occurrence of a pattern and what stands
behind it. -/
def splitAt? (pattern : List Char) : List Char → Option (List Char × List Char)
  | [] => none
  | c :: cs =>
      if pattern.isPrefixOf (c :: cs) then some ([], (c :: cs).drop pattern.length)
      else (splitAt? pattern cs).map fun (front, rest) => (c :: front, rest)

/-- The quotes that are open behind a character, if any are. -/
def quoteAfter (quote : Option Char) (c : Char) : Option Char :=
  match quote with
  | none => if c = '"' ∨ c = '\'' then some c else none
  | some q => if c = q then none else some q

/-- What stands in front of the end of a tag and what stands behind it. Inside
quotes a tag does not end. -/
def splitTag? (quote : Option Char) : List Char → Option (List Char × List Char)
  | [] => none
  | c :: cs =>
      if c = '>' ∧ quote = none then some ([], cs)
      else (splitTag? (quoteAfter quote c) cs).map fun (front, rest) => (c :: front, rest)

/-- The pairs of angle brackets that are open behind a character. -/
def depthAfter (depth : Nat) (c : Char) : Nat :=
  if c = '<' then depth + 1 else if c = '>' then depth - 1 else depth

/-- What stands in front of the end of a document type and what stands behind
it, with `depth` pairs of angle brackets open inside. -/
def splitDoctype? (depth : Nat) : List Char → Option (List Char × List Char)
  | [] => none
  | c :: cs =>
      if c = '>' ∧ depth = 0 then some ([], cs)
      else (splitDoctype? (depthAfter depth c) cs).map fun (front, rest) => (c :: front, rest)

/-! ## Events -/

/-- The event of a tag with this content. -/
def tagEvent (content : List Char) : Event :=
  match content with
  | '/' :: name =>
      let trimmed := (name.reverse.dropWhile isSpace).reverse
      .close (String.ofList (if trimmed.isEmpty then name else trimmed))
  | _ =>
      if content.getLast? = some '/' then .empty (.ofContent content.dropLast)
      else .start (.ofContent content)

/-- The event of a document type with this content, which begins with a letter
of its keyword. -/
def doctypeEvent (content : List Char) : Except Fault Event :=
  if (content.take 7).map Char.toLower ≠ "doctype".toList then .error .markup
  else if (content.drop 7).all isSpace then .error .nesting
  else .ok .skipped

/-- The event that begins with an angle bracket, and the text behind it. -/
def markup : List Char → Except Fault (Event × List Char)
  | '!' :: '[' :: 'C' :: 'D' :: 'A' :: 'T' :: 'A' :: '[' :: cs =>
      match splitAt? "]]>".toList cs with
      | some (front, rest) => .ok (.cdata (String.ofList front), rest)
      | none => .error .markup
  | '!' :: '-' :: '-' :: cs =>
      match splitAt? "-->".toList cs with
      | some (_, rest) => .ok (.skipped, rest)
      | none => .error .markup
  | '!' :: c :: cs =>
      if c = 'D' ∨ c = 'd' then
        match splitDoctype? 0 (c :: cs) with
        | some (content, rest) => (doctypeEvent content).map (·, rest)
        | none => .error .markup
      else .error .markup
  | ['!'] => .error .markup
  | '?' :: '>' :: _ => .error .markup
  | '?' :: cs =>
      match splitAt? "?>".toList cs with
      | some (_, rest) => .ok (.skipped, rest)
      | none => .error .markup
  | cs =>
      match splitTag? none cs with
      | some (content, rest) => .ok (tagEvent content, rest)
      | none => .error .markup

/-- The event that the text begins with, and the text behind it. -/
def next : List Char → Except Fault (Event × List Char)
  | '<' :: cs => markup cs
  | cs => .ok (.text (cs.takeWhile (· != '<')), cs.dropWhile (· != '<'))

/-! ## What an event leaves -/

theorem splitAt?_length {pattern cs front rest : List Char}
    (h : splitAt? pattern cs = some (front, rest)) : rest.length ≤ cs.length := by
  induction cs generalizing front with
  | nil => cases h
  | cons c cs ih =>
      rw [splitAt?] at h
      split at h
      · cases h
        exact (List.drop_suffix _ _).length_le
      · obtain ⟨⟨f, r⟩, hr, h⟩ := Option.map_eq_some_iff.mp h
        cases h
        exact Nat.le_succ_of_le (ih hr)

theorem splitTag?_length {quote : Option Char} {cs front rest : List Char}
    (h : splitTag? quote cs = some (front, rest)) : rest.length ≤ cs.length := by
  induction cs generalizing quote front with
  | nil => cases h
  | cons c cs ih =>
      rw [splitTag?] at h
      split at h
      · cases h
        exact Nat.le_succ _
      · obtain ⟨⟨f, r⟩, hr, h⟩ := Option.map_eq_some_iff.mp h
        cases h
        exact Nat.le_succ_of_le (ih hr)

theorem splitDoctype?_length {depth : Nat} {cs front rest : List Char}
    (h : splitDoctype? depth cs = some (front, rest)) : rest.length ≤ cs.length := by
  induction cs generalizing depth front with
  | nil => cases h
  | cons c cs ih =>
      rw [splitDoctype?] at h
      split at h
      · cases h
        exact Nat.le_succ _
      · obtain ⟨⟨f, r⟩, hr, h⟩ := Option.map_eq_some_iff.mp h
        cases h
        exact Nat.le_succ_of_le (ih hr)

theorem markup_length {cs rest : List Char} {e : Event} (h : markup cs = .ok (e, rest)) :
    rest.length ≤ cs.length := by
  unfold markup at h
  split at h
  · split at h
    · rename_i front r hr
      cases h
      have := splitAt?_length hr
      simp only [List.length_cons]
      omega
    · cases h
  · split at h
    · rename_i front r hr
      cases h
      have := splitAt?_length hr
      simp only [List.length_cons]
      omega
    · cases h
  · split at h
    · split at h
      · rename_i content r hr
        have := splitDoctype?_length hr
        cases hd : doctypeEvent content with
        | error _ => rw [hd] at h; cases h
        | ok _ => rw [hd] at h; cases h; exact Nat.le_succ_of_le this
      · cases h
    · cases h
  · cases h
  · cases h
  · split at h
    · rename_i front r hr
      cases h
      exact Nat.le_succ_of_le (splitAt?_length hr)
    · cases h
  · split at h
    · rename_i content r hr
      cases h
      exact splitTag?_length hr
    · cases h

/-- Every event takes at least one character. -/
theorem next_length {cs rest : List Char} {e : Event} (hne : cs ≠ [])
    (h : next cs = .ok (e, rest)) : rest.length < cs.length := by
  unfold next at h
  split at h
  · exact Nat.lt_succ_of_le (markup_length h)
  · rename_i hlt
    cases h
    cases cs with
    | nil => exact absurd rfl hne
    | cons c cs =>
        have hc : (c != '<') = true := by
          simp only [bne_iff_ne, ne_eq]
          exact fun hc => hlt cs (by rw [hc])
        rw [List.dropWhile_cons, if_pos hc]
        exact Nat.lt_succ_of_le (List.dropWhile_suffix _).length_le

/-! ## Documents -/

/-- The open elements behind an event, innermost first. -/
def Event.opened (e : Event) (opened : List String) : Except Fault (List String) :=
  match e, opened with
  | .start tag, opened => .ok (tag.name :: opened)
  | .close name, outer :: opened => if outer = name then .ok opened else .error .nesting
  | .close _, [] => .error .nesting
  | _, opened => .ok opened

/-- The events of a text inside these open elements, up to the first fault. -/
def eventsIn (opened : List String) (cs : List Char) : List (Except Fault Event) :=
  if _hcs : cs = [] then []
  else
    match _h : next cs with
    | .error f => [.error f]
    | .ok (e, rest) =>
        match e.opened opened with
        | .error f => [.error f]
        | .ok opened => .ok e :: eventsIn opened rest
termination_by cs.length
decreasing_by exact next_length _hcs _h

def events (document : String) : List (Except Fault Event) :=
  eventsIn [] (Text.dropMark document.toList)

end Ambient.Xml
