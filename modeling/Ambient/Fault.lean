import Ambient.TypeDecl

/-!
# Faults

Why there is no declaration for a type or a member. A fault belongs to one
member, or to the type itself, and carries its documentation identifier.
-/

namespace Ambient

/-- What is wrong with the metadata of a member. -/
inductive Defect where
  | repeatedId
  /-- A type parameter that neither the member nor its type declares. -/
  | unknownTypeParam (name : String)
  | genericEnum
  /-- A delegate that nothing can call. -/
  | noInvoke
  /-- A constructor of something that is not constructed. -/
  | strayConstructor
  /-- A member of a type of this kind, which is declared as a whole. -/
  | noOwnDeclaration (kind : TypeKind)
  deriving DecidableEq

def Defect.describe : Defect → String
  | repeatedId => "duplicate documentation identifier"
  | unknownTypeParam name => "unknown type parameter `" ++ name ++ "`"
  | genericEnum => "enums cannot declare type parameters"
  | noInvoke => "delegate has no invoke method"
  | strayConstructor => "constructor outside a class"
  | noOwnDeclaration kind => kind.describe ++ " members have no declaration of their own"

/-- Why something has no declaration. -/
inductive Fault where
  /-- The metadata contradicts itself. -/
  | malformed (id : String) (defect : Defect)
  /-- Members of this kind have no declaration. -/
  | unsupported (id : String) (kind : MemberKind)
  deriving DecidableEq

namespace Fault

def memberId : Fault → String
  | malformed id _ => id
  | unsupported id _ => id

def message : Fault → String
  | malformed id defect => "malformed member " ++ id ++ ": " ++ defect.describe
  | unsupported id kind => "unsupported " ++ kind.describe ++ " member " ++ id

end Fault

end Ambient
