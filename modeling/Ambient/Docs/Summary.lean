import Ambient.DocId
import Ambient.Docs
import Ambient.Text.Blank
import Ambient.Xml.Event

/-!
# Summaries in XML documents

A documentation file has a `member` element for every identifier, and in it,
beside much else, a `summary`. Reading goes through the events of the file and
remembers three things: the identifier of the open member, the text of the open
summary, and the open reference in it.

A summary is flat text. A reference that is an element on its own is shown by
what it refers to. One that has content is shown by its content, if that has
anything to see, and otherwise by the content and then what it refers to. Code
stands between backticks, and paragraphs and line breaks are spaces. What is
read outside a summary is dropped.
-/

namespace Ambient.Docs

/-- A reference whose element is open. -/
structure OpenReference where
  /-- What it shows when nothing else does. -/
  target : String
  /-- Whether its text has shown anything yet. -/
  labelled : Bool

/-- What is known in the middle of a file. -/
structure Reading where
  docs : Docs := .empty
  /-- The identifier of the open member. -/
  member : Option String := none
  /-- The text of the open summary. -/
  summary : Option String := none
  reference : Option OpenReference := none

/-- What an element shows that has no content. -/
def inlineText (tag : Xml.Tag) : Except Xml.Fault String := do
  match tag.name with
  | "see" | "seealso" =>
      match ← tag.attribute? "cref" with
      | some target => pure (DocId.shortName target)
      | none => pure ((← tag.attribute? "langword").getD "")
  | "paramref" | "typeparamref" => pure ((← tag.attribute? "name").getD "")
  | "para" | "br" => pure " "
  | _ => pure ""

namespace Reading

def push (r : Reading) (text : String) : Reading :=
  { r with summary := r.summary.map (· ++ text) }

/-- Text has been shown inside the open reference. -/
def label (r : Reading) (shown : Bool) : Reading :=
  { r with reference := r.reference.map fun ref => { ref with labelled := ref.labelled || shown } }

def start (r : Reading) (tag : Xml.Tag) : Except Xml.Fault Reading :=
  match tag.name with
  | "member" => do
      let id ← tag.attribute? "name"
      pure { r with member := id, summary := none }
  | "summary" => pure (if r.member.isSome then { r with summary := some "" } else r)
  | "see" | "seealso" =>
      if r.summary.isSome then do
        let target ← inlineText tag
        pure { r with reference := some ⟨target, false⟩ }
      else pure r
  | "c" => pure (r.push "`")
  | "para" => pure (r.push " ")
  | _ => pure r

/-- Files the text of a finished summary under the open member. -/
def file (r : Reading) : Docs :=
  match r.member, r.summary with
  | some id, some text =>
      if (Text.collapse text).isEmpty then r.docs else r.docs.insert id (Text.collapse text)
  | _, _ => r.docs

def endReference (r : Reading) : Reading :=
  match r.reference with
  | some ref => { (if ref.labelled then r else r.push ref.target) with reference := none }
  | none => r

def close (r : Reading) (name : String) : Reading :=
  match name with
  | "summary" => { r with docs := r.file, summary := none }
  | "member" => { r with member := none, summary := none }
  | "see" | "seealso" => r.endReference
  | "c" => r.push "`"
  | "para" => r.push " "
  | _ => r

def step (r : Reading) : Xml.Event → Except Xml.Fault Reading
  | .start tag => r.start tag
  | .empty tag =>
      if r.summary.isSome then do
        let text ← inlineText tag
        pure (r.push text)
      else pure r
  | .text raw =>
      if r.summary.isSome then do
        let text ← Xml.textOf raw
        pure ((r.label (!Text.allBlank text.toList)).push text)
      else pure r
  | .cdata text => pure (r.push text)
  | .close name => pure (r.close name)
  | .skipped => pure r

/-- The events of a file, up to the first fault. -/
def run (r : Reading) : List (Except Xml.Fault Xml.Event) → Except Xml.Fault Reading
  | [] => pure r
  | e :: es => do
      let e ← e
      let r ← r.step e
      r.run es

end Reading

/-- The summaries of a documentation file. -/
def ofXml (document : String) : Except Xml.Fault Docs :=
  (Reading.run {} (Xml.events document)).map Reading.docs

/-! ## Files -/

inductive FileFault where
  /-- There is no file, or it is not text. -/
  | unreadable
  | xml (fault : Xml.Fault)
  deriving DecidableEq

/-- The summaries of a file with these contents, if it is there at all. -/
def ofFile (contents : Option ByteArray) : Except FileFault Docs :=
  match contents.bind String.fromUTF8? with
  | some document => (ofXml document).mapError .xml
  | none => .error .unreadable

end Ambient.Docs
