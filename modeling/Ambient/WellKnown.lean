import Ambient.Text.Union

/-!
# Well-known types

Types of the framework that have a counterpart in every TypeScript program. The
counterpart depends on the qualified name and on the number of type arguments,
never on the assembly. The arguments are rendered already.
-/

namespace Ambient.WellKnown

/-- The counterpart of a type without type arguments. -/
def plain? : String → Option String
  | "System.DateTime" | "System.DateTimeOffset" => some "Date"
  | "System.Guid" => some "string"
  | "System.Numerics.BigInteger" => some "bigint"
  | _ => none

/-- The counterpart of a type with one type argument. -/
def unary? (t : String) : String → Option String
  | "System.Collections.Generic.IEnumerable" => some ("Iterable<" ++ t ++ ">")
  | "System.Collections.Generic.IAsyncEnumerable" => some ("AsyncIterable<" ++ t ++ ">")
  | "System.Collections.Generic.List" | "System.Collections.Generic.IList"
  | "System.Collections.Generic.ICollection" => some (Text.parenthesize t ++ "[]")
  | "System.Collections.Generic.IReadOnlyList"
  | "System.Collections.Generic.IReadOnlyCollection" =>
      some ("readonly " ++ Text.parenthesize t ++ "[]")
  | "System.Collections.Generic.HashSet" | "System.Collections.Generic.ISet" =>
      some ("Set<" ++ t ++ ">")
  | "System.Collections.Generic.IReadOnlySet" => some ("ReadonlySet<" ++ t ++ ">")
  | _ => none

/-- The counterpart of a type with two type arguments. -/
def binary? (k v : String) : String → Option String
  | "System.Collections.Generic.Dictionary" | "System.Collections.Generic.IDictionary" =>
      some ("Map<" ++ k ++ ", " ++ v ++ ">")
  | "System.Collections.Generic.IReadOnlyDictionary" =>
      some ("ReadonlyMap<" ++ k ++ ", " ++ v ++ ">")
  | _ => none

/-- The counterpart of the type of this qualified name, if it has one with this
many type arguments. -/
def spelling? (qualified : String) : List String → Option String
  | [] => plain? qualified
  | [t] => unary? t qualified
  | [k, v] => binary? k v qualified
  | _ => none

end Ambient.WellKnown
