import LuaInfer.Node.Basic
import LuaInfer.Session.Env
/-!
# Rules

The rule of a slot says what contributes to its node. It is a list of steps that depends on the
environment alone: whether an annotation applies, and whether a value is accepted next to it, is known
before anything is resolved. What a step brings is known only when it is carried out.
-/

namespace LuaInfer

/-- One contribution to a slot. -/
inductive Step where
  /-- A node. -/
  | own (node : TypeNode)
  /-- The node of a declaration. -/
  | merge (d : DeclId)
  /-- The nodes of everything that defines `key` on the object `base`. -/
  | read (base : DeclId) (key : Atom)
  /-- The nodes of everything that defines `key` on a member of a metatable. -/
  | delegate (metatable : DeclId) (key : Atom)
  /-- The result at `index` of what `callee` may be, for the call `call`. -/
  | result (callee : DeclId) (index : Nat) (call : DeclId)
  /-- A new template of a result type of a generic function. -/
  | template (s : Substitution)
deriving DecidableEq

namespace Env

/-- What declarations of one thing contribute: the annotations that apply to any of them, then the
values that they give and that are accepted. -/
def contributions (env : Env) (ds : List DeclId) : List Step :=
  let docs := ds.flatMap env.annotations
  let values := (ds.filterMap env.arena.value?).filter (env.acceptsValue !docs.isEmpty)
  (docs ++ values).map .merge

/-- A declaration that stands for a global has the global, and what the sites of a variable
contribute. -/
def globalSteps (env : Env) (d : DeclId) : List Step :=
  match env.arena.global? d with
  | none => []
  | some g =>
    .own (.global g) ::
      match env.globals.category? g with
      | some .var => env.contributions (env.globals.sites g)
      | _ => []

/-- What the declarations of the same identity contribute. -/
def identitySteps (env : Env) (d : DeclId) : List Step :=
  match env.identities.group d with
  | [] => env.contributions [d]
  | group => env.contributions group

/-- A local is itself, with its annotations. Without one it has the values assigned to it and the
object it stands for. Its initial value comes last. -/
def localSteps (env : Env) (d : DeclId) (name : Atom) (role : Role) (value : Option DeclId)
    (refs : List DeclId) : List Step :=
  let docs := env.annotations d
  let assigned := refs.filterMap fun use =>
    match env.arena.kind? use with
    | some (.setLocal _ v) => some v
    | _ => none
  let inferred := if docs.isEmpty then assigned ++ (env.receiver? d name role).toList else []
  let initial := value.toList.filter (env.acceptsValue !docs.isEmpty)
  .own (.leaf d) :: (docs ++ inferred ++ initial).map .merge

/-- A delegation has its first argument, and what the second one delegates to. -/
def delegationSteps (env : Env) : List DeclId → List Step
  | [] => []
  | [object] => [.merge object]
  | object :: metatable :: _ => .merge object :: (env.delegationKey.map (.delegate metatable)).toList

/-- The result of a call at an index. A delegation has one result. -/
def callSteps (env : Env) (call callee : DeclId) (args : List DeclId) (index : Nat) : List Step :=
  if env.isDelegator callee then
    if index = 1 then env.delegationSteps args else []
  else [.result callee index call]

/-- The value of an expression list at an index. Past the end, the last expression supplies the value
if it is a call. -/
def listSteps (env : Env) (exprs : List DeclId) (index : Nat) : List Step :=
  match index with
  | 0 => []
  | position + 1 =>
    match exprs[position]? with
    | some expr =>
      match env.arena.kind? expr with
      | some (.call callee args) => env.callSteps expr callee args 1
      | _ => [.merge expr]
    | none =>
      match exprs.getLast? with
      | none => []
      | some expr =>
        match env.arena.kind? expr with
        | some (.call callee args) => env.callSteps expr callee args (index - (exprs.length - 1))
        | _ => []

/-- The annotations of a function that say what `...` is. -/
def varargDocs (env : Env) (func : DeclId) : List DeclId :=
  (env.arena.docs func).filter fun doc =>
    match env.arena.kind? doc with
    | some (.docVararg _) => true
    | some (.docParam name _) => some name == env.varargName
    | _ => false

/-- The overloads of a function. -/
def overloads (env : Env) (func : DeclId) : List DeclId :=
  (env.arena.docs func).filter fun doc =>
    match env.arena.kind? doc with
    | some (.docOverload _) => true
    | _ => false

/-- What a declaration has by its kind. -/
def kindSteps (env : Env) (d : DeclId) : DeclKind → List Step
  | .literal _ | .table _ | .tyLiteral _ | .tyTable _ | .tyFunction .. | .tyArray _ | .tyGeneric _ =>
    [.own (.leaf d)]
  | .function .. => .own (.leaf d) :: (env.overloads d).map .merge
  | .localVar name role value refs => env.localSteps d name role value refs
  | .getLocal target => [.merge target]
  | .setLocal _ value => [.merge value]
  | .tableField _ value => [.merge value]
  | .getGlobal _ | .setGlobal .. | .docClass .. => []
  | .setMember .. => env.identitySteps d
  | .getMember base member => env.identitySteps d ++ (member.key?.map (.read base)).toList
  | .fieldName _ | .methodName _ => ((env.arena.parent? d).map .merge).toList
  | .call callee args => env.callSteps d callee args 1
  | .select source index =>
    match env.arena.kind? source with
    | some (.call callee args) => env.callSteps source callee args index
    | _ => []
  | .varargs =>
    match env.arena.enclosingFunction? d with
    | some func => (env.varargDocs func).map .merge
    | none => []
  | .paren expr => [.merge expr]
  | .docType ty => [.merge ty]
  | .docField _ ty => [.merge ty]
  | .docParam _ ty => [.merge ty]
  | .docVararg ty => [.merge ty]
  | .tyField _ ty => [.merge ty]
  | .docOverload sig => [.merge sig]
  | .tyUnion alternatives => alternatives.map .merge
  | .tyName name => ((env.globals.get? .type name).map fun g => Step.own (.global g)).toList
  | .ret _ | .docReturn .. | .docGeneric _ => []

/-- The rule of a declaration. -/
def declRule (env : Env) (d : DeclId) : List Step :=
  env.globalSteps d ++
    match env.arena.kind? d with
    | some kind => env.kindSteps d kind
    | none => []

/-- The documented types of a result. -/
def returnTypes (env : Env) (func : DeclId) (index : Nat) : List DeclId :=
  (env.arena.docs func).filterMap fun doc =>
    match env.arena.kind? doc with
    | some (.docReturn i ty) => if i = index then some ty else none
    | _ => none

/-- A documented result type: a template if it mentions a type parameter of the function. -/
def returnTypeStep (env : Env) (func ty : DeclId) : Step :=
  match Signature.of? env.arena func with
  | some sig => if sig.references env.arena ty then .template (sig.template ty) else .merge ty
  | none => .merge ty

/-- What the `return` statements of a function give at an index. -/
def returnedSteps (env : Env) (func : DeclId) (index : Nat) : List Step :=
  match env.arena.kind? func with
  | some (.function _ returns _) =>
    returns.flatMap fun d =>
      match env.arena.kind? d with
      | some (.ret exprs) => env.listSteps exprs index
      | _ => []
  | _ => []

/-- The rule of a result: its documented types, or else what the function returns. -/
def returnRule (env : Env) (func : DeclId) (index : Nat) : List Step :=
  match env.returnTypes func index with
  | [] => env.returnedSteps func index
  | types => types.map (env.returnTypeStep func)

end Env

end LuaInfer
