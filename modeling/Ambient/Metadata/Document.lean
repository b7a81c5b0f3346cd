import Ambient.Assembly
import Ambient.Docs
import Ambient.Json.Layout
import Ambient.Json.Reader
import Ambient.Metadata.TypeDecl

/-!
# Metadata documents

A metadata document is the JSON text of one assembly. What is read may nest 127
arrays and objects at most; what is passed over may nest as it likes. A
document is read before it is checked, so a text that is no metadata at all is
never reported as an invalid assembly.
-/

namespace Ambient

open Json.Decoder

/-- How deep a document may nest what is read. -/
def documentRoom : Nat :=
  127

def Json.Decoder.ofText? {α : Type} (d : Json.Decoder α) (text : String) : Option α :=
  (Json.read? text).bind (d documentRoom)

inductive DocumentFault where
  /-- The text is not JSON, or not that of an assembly. -/
  | unreadable
  | invalid (fault : AssemblyFault)
  deriving DecidableEq

namespace Assembly

def toJson (a : Assembly) : Json :=
  .ofMembers [("name", .ofText a.name), ("types", .array (a.types.map TypeDecl.toJson))]

/-- Reads a record. The types may be missing. -/
def ofJson? : Json.Decoder Assembly := fun room j => do
  let r ← record ["name", "types"] room j
  let name ← r.required "name" text
  let types ← r.withDefault "types" [] (list TypeDecl.ofJson?)
  some ⟨name, types⟩

def toDocument (a : Assembly) : String :=
  a.toJson.indented

/-- The valid assembly of a document. -/
def ofDocument (document : String) : Except DocumentFault Assembly :=
  match Json.Decoder.ofText? ofJson? document with
  | none => .error .unreadable
  | some a =>
      match a.validate with
      | .error f => .error (.invalid f)
      | .ok () => .ok a

end Assembly

end Ambient
