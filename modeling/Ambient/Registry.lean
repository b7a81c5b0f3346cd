import Ambient.TypeDecl

/-!
# Registries of types

The types that a program has collected for generation, of any assembly, in the
order in which they were registered. Nothing is checked.
-/

namespace Ambient

structure Registry where
  types : List TypeDecl := []

namespace Registry

def register (r : Registry) (t : TypeDecl) : Registry :=
  ⟨r.types ++ [t]⟩

def registerAll (r : Registry) (ts : List TypeDecl) : Registry :=
  ts.foldl register r

/-- The registered types that this assembly declares. -/
def typesIn (r : Registry) (assembly : String) : List TypeDecl :=
  r.types.filter (·.assembly == assembly)

end Registry

end Ambient
