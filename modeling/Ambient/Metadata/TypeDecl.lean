import Ambient.Metadata.TypeRef
import Ambient.TypeDecl

/-!
# Declared types in JSON

Records, written with all their fields. Kinds go by name; a member of a kind
that has no name here is of unknown kind, whatever it is called.
-/

namespace Ambient

open Json.Decoder

namespace Parameter

def toJson (p : Parameter) : Json :=
  .ofMembers
    [("name", .ofText p.name), ("ty", p.type.toJson), ("optional", .bool p.optional),
      ("variadic", .bool p.variadic)]

/-- Reads a record. The flags may be missing. -/
def ofJson? : Json.Decoder Parameter := fun room j => do
  let r ← record ["name", "ty", "optional", "variadic"] room j
  let name ← r.required "name" text
  let type ← r.required "ty" TypeRef.ofJson?
  let optional ← r.withDefault "optional" false flag
  let variadic ← r.withDefault "variadic" false flag
  some ⟨name, type, optional, variadic⟩

end Parameter

namespace MemberKind

def name : MemberKind → String
  | constructor => "Constructor"
  | property => "Property"
  | method => "Method"
  | field => "Field"
  | event => "Event"
  | nestedType => "NestedType"
  | unknown => "Unknown"

def ofName : String → MemberKind
  | "Constructor" => constructor
  | "Property" => property
  | "Method" => method
  | "Field" => field
  | "Event" => event
  | "NestedType" => nestedType
  | _ => unknown

theorem ofName_name (k : MemberKind) : ofName k.name = k := by
  cases k <;> rfl

def ofJson? : Json.Decoder MemberKind := fun room j =>
  (constant room j).map ofName

end MemberKind

namespace Member

def toJson (m : Member) : Json :=
  .ofMembers
    [("name", .ofText m.name), ("kind", .ofText m.kind.name), ("is_static", .bool m.isStatic),
      ("params", .array (m.params.map Parameter.toJson)), ("ty", m.type.toJson),
      ("type_params", .ofTexts m.typeParams), ("read_only", .bool m.readOnly),
      ("doc_id", (m.docId.map Json.ofText).getD .null)]

/-- Reads a record. Only the name and the kind have to be there. -/
def ofJson? : Json.Decoder Member := fun room j => do
  let r ←
    record ["name", "kind", "is_static", "params", "ty", "type_params", "read_only", "doc_id"]
      room j
  let name ← r.required "name" text
  let kind ← r.required "kind" MemberKind.ofJson?
  let isStatic ← r.withDefault "is_static" false flag
  let params ← r.withDefault "params" [] (list Parameter.ofJson?)
  let type ← r.withDefault "ty" (.primitive .void) TypeRef.ofJson?
  let typeParams ← r.withDefault "type_params" [] (list text)
  let readOnly ← r.withDefault "read_only" false flag
  let docId ← r.withDefault "doc_id" none (optional text)
  some ⟨name, kind, isStatic, params, type, typeParams, readOnly, docId⟩

end Member

namespace EnumValue

def toJson (v : EnumValue) : Json :=
  .ofMembers [("name", .ofText v.name), ("value", .int v.value)]

/-- Reads a record whose value fits. -/
def ofJson? : Json.Decoder EnumValue := fun room j => do
  let r ← record ["name", "value"] room j
  let name ← r.required "name" text
  let value ← r.required "value" integer
  of? name value

end EnumValue

namespace TypeKind

def name : TypeKind → String
  | classType => "Class"
  | structType => "Struct"
  | interfaceType => "Interface"
  | enumType => "Enum"
  | delegateType => "Delegate"

def ofName? : String → Option TypeKind
  | "Class" => some classType
  | "Struct" => some structType
  | "Interface" => some interfaceType
  | "Enum" => some enumType
  | "Delegate" => some delegateType
  | _ => none

theorem ofName?_name (k : TypeKind) : ofName? k.name = some k := by
  cases k <;> rfl

def ofJson? : Json.Decoder TypeKind := fun room j =>
  (constant room j).bind ofName?

end TypeKind

namespace TypeDecl

def toJson (t : TypeDecl) : Json :=
  .ofMembers
    [("kind", .ofText t.kind.name), ("identity", t.name.toJson),
      ("type_params", .ofTexts t.typeParams), ("members", .array (t.members.map Member.toJson)),
      ("enum_values", .array (t.values.map EnumValue.toJson))]

/-- Reads a record. The lists may be missing. -/
def ofJson? : Json.Decoder TypeDecl := fun room j => do
  let r ← record ["kind", "identity", "type_params", "members", "enum_values"] room j
  let kind ← r.required "kind" TypeKind.ofJson?
  let name ← r.required "identity" TypeName.ofJson?
  let typeParams ← r.withDefault "type_params" [] (list text)
  let members ← r.withDefault "members" [] (list Member.ofJson?)
  let values ← r.withDefault "enum_values" [] (list EnumValue.ofJson?)
  some ⟨kind, name, typeParams, members, values⟩

end TypeDecl

end Ambient
