import LuaInfer.Decl.Walk
import LuaInfer.Distinct
/-!
# Generic functions

A function with `@generic` annotations has a signature: the names of its type parameters. A result
type that mentions one of them stands for a different type at each call. It is kept as a template, and
every call makes a copy of the template that is bound to the call.
-/

namespace LuaInfer

/-- The type parameters of a function, in the order of declaration and none of them twice. -/
structure Signature where
  func : DeclId
  params : List Atom := []
deriving DecidableEq

/-- A type expression of a generic function for one call. -/
structure Substitution where
  func : DeclId
  /-- The type expression. -/
  proto : DeclId
  /-- The call that supplies the arguments, and nothing for a template. -/
  call : Option DeclId
deriving DecidableEq

namespace Signature

/-- Declares a type parameter, once. -/
def register (s : Signature) (name : Atom) : Signature :=
  { s with params := Distinct.add s.params name }

/-- Whether a name is a type parameter. -/
def isRegistered (s : Signature) (name : Atom) : Bool := name ∈ s.params

/-- The signature of a function, if an annotation declares a type parameter. -/
def of? (a : Arena) (func : DeclId) : Option Signature :=
  let names := (a.docs func).flatMap fun doc =>
    match a.kind? doc with
    | some (.docGeneric params) => params
    | _ => []
  let s := names.foldl register { func }
  if s.params.isEmpty then none else some s

/-- The type parameter that a type expression names. -/
def paramUse? (s : Signature) : DeclKind → Option Atom
  | .tyGeneric name | .tyName name => if s.isRegistered name then some name else none
  | _ => none

/-- Whether a type parameter is mentioned in a type expression. -/
def references (s : Signature) (a : Arena) (ty : DeclId) : Bool :=
  a.anyBelow (fun kind => (s.paramUse? kind).isSome) ty

/-- The type parameters that a type expression is, or has as an alternative. -/
def directUses (s : Signature) (a : Arena) (ty : DeclId) : List Atom :=
  match a.kind? ty with
  | none => []
  | some (.tyUnion alternatives) => alternatives.filterMap fun alt => (a.kind? alt).bind s.paramUse?
  | some kind => (s.paramUse? kind).toList

/-- The template of a result type. -/
def template (s : Signature) (proto : DeclId) : Substitution := ⟨s.func, proto, none⟩

end Signature

/-- All substitutions of a session. -/
structure Substitutions where
  entries : Array Substitution
deriving DecidableEq

namespace Substitutions

/-- No substitutions. -/
def empty : Substitutions := ⟨#[]⟩

/-- Number of substitutions. -/
def size (t : Substitutions) : Nat := t.entries.size

/-- The substitution behind a handle. -/
def get? (t : Substitutions) (i : GenericId) : Option Substitution := t.entries[i.index]?

/-- Adds a substitution. -/
def push (t : Substitutions) (s : Substitution) : GenericId × Substitutions :=
  (⟨t.entries.size⟩, ⟨t.entries.push s⟩)

/-- Whether a substitution is bound to no call. -/
def isTemplate (t : Substitutions) (i : GenericId) : Bool :=
  (t.get? i).any fun s => s.call.isNone

/-- Copies a template, bound to a call; nothing if it is not a template. -/
def rebind? (t : Substitutions) (i : GenericId) (call : DeclId) : Option (GenericId × Substitutions) :=
  match t.get? i with
  | some ⟨func, proto, none⟩ => some (t.push ⟨func, proto, some call⟩)
  | _ => none

end Substitutions

end LuaInfer
