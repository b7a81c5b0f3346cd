import Ambient.Docs
import Ambient.Factory
import Ambient.MemberGroups
import Ambient.Options
import Ambient.Shape

/-!
# Generating declarations

A generator writes the declarations of one assembly. It holds what does not
change: the name of the assembly, its documentation and the options. The
resolver is handed through, because it may remember what it was asked.

A type is declared as a whole or not at all. Of several types, one without a
declaration is reported and left out of the text, and the others are not
concerned.
-/

namespace Ambient

/-- What the declarations of one assembly are written from. -/
structure Generator where
  /-- The assembly whose types are declared. -/
  assembly : String
  docs : Docs := .empty
  options : Options := {}

namespace Generator

/-! ## Blocks -/

/-- The summary of an identifier, with a warning if there is none. -/
def summary (g : Generator) (id : String) : Render (Option String) :=
  match g.docs.lookup id with
  | some s => pure (some s)
  | none => do
      Render.warn (.missingDocumentation id)
      pure none

def valueLine (g : Generator) (t : TypeDecl) (v : EnumValue) : Render Line := do
  let doc ← g.summary (t.valueId v)
  pure ⟨doc, v.name ++ " = " ++ toString v.value ++ ","⟩

def memberLine (g : Generator) (t : TypeDecl) (place : Placement) (m : Member) : Render Line := do
  let text ← renderMember g.assembly t place m
  let doc ← g.summary (t.memberId m)
  pure ⟨doc, text⟩

def memberLines (g : Generator) (t : TypeDecl) (place : Placement) (ms : List Member) :
    Render (List Line) :=
  ms.mapM (g.memberLine t place)

/-- The signature of what a delegate calls, if all its members are in order. -/
def invokeSignature (g : Generator) (t : TypeDecl) : Render Signature := do
  let _ ← Render.ofExcept (MemberGroups.ofType t)
  let m ← Render.ofExcept t.invoke
  renderSignature g.assembly t m

/-- The rendered members of a generic type. Instance members come first, though
they are declared last. -/
def genericBody (g : Generator) (t : TypeDecl) : GenericBase → Render GenericBody
  | .delegateBase => do
      let s ← g.invokeSignature t
      pure (.delegateBody s)
  | .interfaceBase => do
      let groups ← Render.ofExcept (MemberGroups.ofType t)
      let instances ← g.memberLines t .instanceShape groups.instances
      pure (.interfaceBody instances)
  | .classBase => do
      let groups ← Render.ofExcept (MemberGroups.ofType t)
      let instances ← g.memberLines t .instanceShape groups.instances
      let constructors ← g.memberLines t .staticShape groups.constructors
      let statics ← g.memberLines t .staticShape groups.statics
      pure (.classBody constructors statics instances)

def blocks (g : Generator) (t : TypeDecl) (shape : Shape) : Render (List Block) := do
  let doc ← g.summary t.docId
  match shape with
  | .enumShape =>
      let lines ← t.values.mapM (g.valueLine t)
      pure [⟨t.simpleName, .enumBlock, "export enum " ++ t.simpleName, doc, .members lines⟩]
  | .delegateShape =>
      let s ← g.invokeSignature t
      pure [⟨t.simpleName, .delegateBlock, "export interface " ++ t.simpleName, doc,
        .inline s.call⟩]
  | .classShape =>
      let groups ← Render.ofExcept (MemberGroups.ofType t)
      let lines ← g.memberLines t .classBody groups.ordered
      pure [⟨t.simpleName, .classBlock, "export class " ++ t.simpleName, doc, .members lines⟩]
  | .interfaceShape =>
      let groups ← Render.ofExcept (MemberGroups.ofType t)
      let lines ← g.memberLines t .interfaceBody (groups.ordered.filter (!·.isStatic))
      pure [⟨t.simpleName, .interfaceBlock, "export interface " ++ t.simpleName, doc,
        .members lines⟩]
  | .generic base _ =>
      let body ← g.genericBody t base
      pure (Factory.encode t doc body)

/-! ## Types -/

structure Definition where
  name : String
  text : String
  warnings : List Warning
  deriving DecidableEq

def session (g : Generator) (r : Resolver) : Session :=
  ⟨⟨g.options.suppressWarnings, []⟩, r⟩

/-- The declaration of a type, and the resolver that it leaves. -/
def define (g : Generator) (t : TypeDecl) (r : Resolver) : Except Fault Definition × Resolver :=
  match t.shape with
  | .error f => (.error f, r)
  | .ok shape =>
      match (g.blocks t shape).run (g.session r) with
      | (.error f, s) => (.error f, s.resolver)
      | (.ok bs, s) => (.ok ⟨t.simpleName, emit bs, s.log.warnings⟩, s.resolver)

/-! ## Single members -/

/-- Where the line of a member stands in a type of this shape. Members of enums
and delegates have no lines. -/
def placement? (m : Member) : Shape → Option Placement
  | .classShape => some .classBody
  | .interfaceShape => some .interfaceBody
  | .generic _ _ =>
      if m.isStatic || m.kind == .constructor then some .staticShape else some .instanceShape
  | .enumShape | .delegateShape => none

/-- Whether a member of a type of this shape is written as a call signature. -/
def isCalled (m : Member) : Shape → Bool
  | .delegateShape | .generic .delegateBase _ => m.kind == .method && m.name == "Invoke"
  | _ => false

/-- The line of a member on its own, without its documentation. -/
def renderLine (g : Generator) (t : TypeDecl) (m : Member) : Render String := do
  let shape ← Render.ofExcept t.shape
  if isCalled m shape then
    let s ← renderSignature g.assembly t m
    pure s.call
  else
    match placement? m shape with
    | some place => renderMember g.assembly t place m
    | none => Render.fail (.malformed (t.memberId m) (.noOwnDeclaration t.kind))

/-- The line of a member, and the resolver that it leaves. Its warnings are not
kept. -/
def defineMember (g : Generator) (t : TypeDecl) (m : Member) (r : Resolver) :
    Except Fault String × Resolver :=
  let (line, s) := (g.renderLine t m).run (g.session r)
  (line, s.resolver)

/-! ## Several types -/

/-- The declarations of several types. -/
structure Declarations where
  /-- A heading and the declarations, one empty line apart. -/
  text : String
  /-- The simple names of the types in the text. -/
  generated : List String := []
  warnings : List Warning := []
  /-- The types that are not in the text, by identifier, and why. -/
  failures : List (String × Fault) := []
  deriving DecidableEq

def heading (g : Generator) : Declarations where
  text := "// Type definitions for " ++ g.assembly ++ "\n"

def Declarations.add (d : Declarations) (t : TypeDecl) : Except Fault Definition → Declarations
  | .ok definition =>
      { d with
        text := d.text ++ "\n" ++ definition.text ++ "\n"
        generated := d.generated ++ [definition.name]
        warnings := d.warnings ++ definition.warnings }
  | .error f => { d with failures := d.failures ++ [(t.docId, f)] }

/-- Declares further types behind those declared so far. -/
def declareFrom (g : Generator) (d : Declarations) (r : Resolver) :
    List TypeDecl → Declarations × Resolver
  | [] => (d, r)
  | t :: ts =>
      let (outcome, r) := g.define t r
      g.declareFrom (d.add t outcome) r ts

/-- The declarations of types, and the resolver that they leave. -/
def declare (g : Generator) (ts : List TypeDecl) (r : Resolver) : Declarations × Resolver :=
  g.declareFrom g.heading r ts

end Generator

end Ambient
