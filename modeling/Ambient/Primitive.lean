/-!
# Built-in types

The types that the runtime itself declares. Each has a runtime name, which
documentation identifiers use, a keyword in the source language, and a
spelling in declarations. Types without an expressible shape are spelled `any`.
-/

namespace Ambient

inductive Primitive where
  | boolean
  | char
  | sbyte
  | byte
  | int16
  | uint16
  | int32
  | uint32
  | int64
  | uint64
  | single
  | double
  | decimal
  | string
  | object
  | intPtr
  | uintPtr
  | void
  deriving DecidableEq

namespace Primitive

def all : List Primitive :=
  [boolean, char, sbyte, byte, int16, uint16, int32, uint32, int64, uint64, single, double,
    decimal, string, object, intPtr, uintPtr, void]

/-- The simple name, by which metadata refers to the type. -/
def name : Primitive → String
  | boolean => "Boolean"
  | char => "Char"
  | sbyte => "SByte"
  | byte => "Byte"
  | int16 => "Int16"
  | uint16 => "UInt16"
  | int32 => "Int32"
  | uint32 => "UInt32"
  | int64 => "Int64"
  | uint64 => "UInt64"
  | single => "Single"
  | double => "Double"
  | decimal => "Decimal"
  | string => "String"
  | object => "Object"
  | intPtr => "IntPtr"
  | uintPtr => "UIntPtr"
  | void => "Void"

/-- The qualified name at run time. -/
def runtimeName (p : Primitive) : String :=
  "System." ++ p.name

def keyword : Primitive → String
  | boolean => "bool"
  | char => "char"
  | sbyte => "sbyte"
  | byte => "byte"
  | int16 => "short"
  | uint16 => "ushort"
  | int32 => "int"
  | uint32 => "uint"
  | int64 => "long"
  | uint64 => "ulong"
  | single => "float"
  | double => "double"
  | decimal => "decimal"
  | string => "string"
  | object => "object"
  | intPtr => "nint"
  | uintPtr => "nuint"
  | void => "void"

def spelling : Primitive → String
  | boolean => "boolean"
  | char | string => "string"
  | sbyte | byte | int16 | uint16 | int32 | uint32 | int64 | uint64 => "number"
  | single | double | decimal => "number"
  | object | intPtr | uintPtr => "any"
  | void => "void"

def ofName? (s : String) : Option Primitive :=
  all.find? (·.name == s)

/-- The built-in type of this runtime name or keyword. -/
def ofRuntimeName? (s : String) : Option Primitive :=
  all.find? fun p => p.runtimeName == s || p.keyword == s

theorem ofName?_name (p : Primitive) : ofName? p.name = some p := by
  cases p <;> decide

end Primitive

end Ambient
