import Ambient.DocId
import Ambient.Fault

/-!
# Members in the order of a declaration

Constructors come first, then properties and fields, then methods, each in the
order in which they were declared. Static constructors are run by the runtime
and never declared. Every member is checked before any is grouped, also those
that no declaration shows: its kind, then whether its identifier is new, then
whether the type parameters that it refers to are declared.
-/

namespace Ambient

namespace TypeDecl

/-- Whether a member of this type may refer to a type parameter. -/
def declaresFor (t : TypeDecl) (m : Member) (name : String) : Bool :=
  m.typeParams.contains name || t.typeParams.contains name

/-- Checks a member against the identifiers of the members before it. -/
def checkMember (t : TypeDecl) (seen : List String) (m : Member) : Except Fault Unit :=
  if !m.kind.isSupported then .error (.unsupported (t.memberId m) m.kind)
  else if t.memberId m ∈ seen then .error (.malformed (t.memberId m) .repeatedId)
  else
    match m.referenced.find? (!t.declaresFor m ·) with
    | some name => .error (.malformed (t.memberId m) (.unknownTypeParam name))
    | none => .ok ()

def checkMembers (t : TypeDecl) (seen : List String) : List Member → Except Fault Unit
  | [] => .ok ()
  | m :: ms => do
      t.checkMember seen m
      t.checkMembers (t.memberId m :: seen) ms

end TypeDecl

/-- The members that declarations are made of. -/
structure MemberGroups where
  constructors : List Member
  properties : List Member
  methods : List Member

namespace MemberGroups

def group (ms : List Member) : MemberGroups where
  constructors := ms.filter fun m => m.kind == .constructor && !m.isStatic
  properties := ms.filter (·.kind.isPropertyLike)
  methods := ms.filter (·.kind == .method)

/-- The groups of a type whose members are all in order. -/
def ofType (t : TypeDecl) : Except Fault MemberGroups := do
  t.checkMembers [] t.members
  return group t.members

/-- All members, in the order of a declaration. -/
def ordered (g : MemberGroups) : List Member :=
  g.constructors ++ g.properties ++ g.methods

def statics (g : MemberGroups) : List Member :=
  (g.properties ++ g.methods).filter (·.isStatic)

def instances (g : MemberGroups) : List Member :=
  (g.properties ++ g.methods).filter (!·.isStatic)

end MemberGroups

/-- The member that calling a delegate calls. -/
def TypeDecl.invoke (t : TypeDecl) : Except Fault Member :=
  match t.invoke? with
  | some m => .ok m
  | none => .error (.malformed ("M:" ++ t.docName ++ ".Invoke") .noInvoke)

end Ambient
