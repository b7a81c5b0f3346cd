import Ambient.Json.Decoder
import Ambient.Options.Settings

/-!
# Options

There is one: whether warnings are kept. It has two spellings. They come from a
settings file or from JSON, and either way a name that is not an option is an
error, and so is an option that is given twice.
-/

namespace Ambient

/-- What can be chosen about generation. -/
structure Options where
  suppressWarnings : Bool := false
  deriving DecidableEq

inductive OptionsFault where
  /-- There is no file, or it is not text. -/
  | unreadable
  /-- The text is no settings file, or sets something else. -/
  | malformed
  deriving DecidableEq

namespace Options

def isSuppressWarnings (name : String) : Bool :=
  name == "suppressWarnings" || name == "suppress_warnings"

/-- The options that one named choice makes. -/
def ofChoice? (name : String) (choice : Bool) : Option Options :=
  if isSuppressWarnings name then some ⟨choice⟩ else none

/-- The options that a list of named choices makes. Two choices are never about
two options. -/
def ofChoices? : List (String × Bool) → Option Options
  | [] => some {}
  | [(name, choice)] => ofChoice? name choice
  | _ => none

/-- The options of a settings file. -/
def ofSettings (text : String) : Except OptionsFault Options :=
  match (Settings.read? text).bind ofChoices? with
  | some options => .ok options
  | none => .error .malformed

/-- The options of a file with these contents, if it is there at all. -/
def ofFile (contents : Option ByteArray) : Except OptionsFault Options :=
  match contents.bind String.fromUTF8? with
  | some text => ofSettings text
  | none => .error .unreadable

/-- The options of a JSON object, or of an array with the choice. -/
def ofJson? : Json.Decoder Options
  | _ + 1, .array [] => some {}
  | room + 1, .array [j] => (Json.Decoder.flag room j).map Options.mk
  | _ + 1, .object [] => some {}
  | room + 1, .object [(some name, j)] => (Json.Decoder.flag room j).bind (ofChoice? name)
  | _, _ => none

end Options

end Ambient
