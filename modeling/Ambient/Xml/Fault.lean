/-!
# Faults of XML documents
-/

namespace Ambient.Xml

/-- Why a document, or a part of it that was asked for, cannot be read. -/
inductive Fault where
  /-- A piece of markup is not known or has no end. -/
  | markup
  /-- An end tag does not belong to the innermost open element, or a document
  type has no name. -/
  | nesting
  /-- An ampersand begins no reference. -/
  | reference
  /-- An attribute has no value, or one without quotes. -/
  | attribute
  deriving DecidableEq

end Ambient.Xml
