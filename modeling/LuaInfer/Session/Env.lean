import LuaInfer.Generic
import LuaInfer.Options.Basic
import LuaInfer.Program.Basic
/-!
# The environment of a session

What a session reads and never changes: the declarations, the globals, the identity groups, the
options, the atoms of the names that the rules compare with, and the largest index of a result that is
selected. A name that the program does not hold has no atom, and nothing is equal to it.
-/

namespace LuaInfer

/-- What a session reads. -/
structure Env where
  arena : Arena
  globals : Registry
  identities : IdentityTable
  options : Options
  /-- The name of the delegation constructor. -/
  delegator : Option Atom
  /-- The key that delegation follows. -/
  delegationKey : Option Atom
  /-- The name `self`. -/
  selfName : Option Atom
  /-- The name `...`. -/
  varargName : Option Atom
  /-- The largest index of a result that a declaration selects. -/
  maxIndex : Nat

/-- The largest index of a result that a declaration selects, and one at least. -/
def Arena.maxIndex (a : Arena) : Nat :=
  a.decls.foldl
    (fun n d =>
      match d.kind with
      | .select _ index => max n index
      | _ => n)
    1

namespace Env

/-- An environment from its parts; the interner only serves to look the names up. -/
def ofParts (interner : Interner) (arena : Arena) (globals : Registry) (identities : IdentityTable)
    (options : Options) : Env where
  arena
  globals
  identities
  options
  delegator := interner.lookup options.delegationConstructor
  delegationKey := interner.lookup options.delegationField
  selfName := interner.lookup "self"
  varargName := interner.lookup "..."
  maxIndex := arena.maxIndex

/-- The environment of a program. -/
def of (p : Program) (options : Options) : Env :=
  ofParts p.interner p.arena p.globals p.identities options

/-- Whether a call of `callee` is a delegation. -/
def isDelegator (env : Env) (callee : DeclId) : Bool :=
  match env.arena.kind? callee with
  | some (.getGlobal name) => some name == env.delegator
  | _ => false

/-- Whether an assigned value contributes: always without an annotation, and next to one only if it is
a literal and literals narrow. -/
def acceptsValue (env : Env) (documented : Bool) (value : DeclId) : Bool :=
  !documented || (env.options.literalNarrowing && env.arena.isLiteral value)

/-- Whether annotation `doc`, bound to `d`, applies to it: a type to anything but a parameter, a class
to a local that is no parameter and to an assignment to a global, a parameter type to the parameter it
names. -/
def applies (env : Env) (d doc : DeclId) : Bool :=
  match env.arena.kind? doc with
  | some (.docType _) => !env.arena.isParam d
  | some (.docClass ..) =>
    ((env.arena.localName? d).isSome && !env.arena.isParam d)
      || ((env.arena.global? d).isSome && env.arena.isAssignTarget d)
  | some (.docParam name _) => env.arena.isParam d && env.arena.localName? d == some name
  | _ => false

/-- The annotations that apply to a declaration, in the order of binding. -/
def annotations (env : Env) (d : DeclId) : List DeclId :=
  (env.arena.docs d).filter (env.applies d)

/-- Whether a local of that name and role may stand for the object of a method. -/
def isReceiver (env : Env) (name : Atom) : Role → Bool
  | .receiver => true
  | .param => env.options.selfParameterLinking && some name == env.selfName
  | .plain => false

/-- The object that a receiver stands for: `obj` in `function obj:m()`, and, if parameters named `self`
are linked, in `obj.m = function(self)`. -/
def receiver? (env : Env) (d : DeclId) (name : Atom) (role : Role) : Option DeclId := do
  guard (env.isReceiver name role)
  let func ← env.arena.parent? d
  guard ((env.arena.params func).head? == some d)
  match ← env.arena.kind? (← env.arena.parent? func) with
  | .setMember base (.field _) _ => some base
  | .setMember base (.method _) _ => some base
  | _ => none

/-- The argument that a call passes for the parameter at `position`. A call of `obj:m` passes `obj`
first. -/
def argument? (env : Env) (call : DeclId) (position : Nat) : Option DeclId :=
  match env.arena.kind? call with
  | some (.call callee args) =>
    match env.arena.kind? callee, position with
    | some (.getMember base (.method _)), 0 => some base
    | some (.getMember _ (.method _)), p + 1 => args[p]?
    | _, p => args[p]?
  | _ => none

/-- For every `@param` of a function whose type is a type parameter or has one as an alternative, those
type parameters and the argument that a call passes for it. -/
def inferenceSources (env : Env) (func call : DeclId) : List (List Atom × DeclId) :=
  match Signature.of? env.arena func with
  | none => []
  | some sig =>
    (env.arena.docs func).filterMap fun doc =>
      match env.arena.kind? doc with
      | some (.docParam name ty) => do
        let uses := sig.directUses env.arena ty
        guard (!uses.isEmpty)
        let position ← (env.arena.params func).findIdx? fun d => env.arena.localName? d == some name
        return (uses, ← env.argument? call position)
      | _ => none

end Env

end LuaInfer
