import LuaInfer.Session.Rule
import LuaInfer.Session.Search
/-!
# Resolution

To resolve a slot is to carry out the steps of its rule, once. A slot is marked before its rule starts:
whoever comes back to it on the way reads what it has so far. The operations here take the resolution of
other slots as an argument; `compileSlot` ties the knot, by recursion on the number of slots that may be
under way inside one another.
-/

namespace LuaInfer

/-- Types that were found for type parameters, one entry for each argument that names one. -/
abbrev Bindings := List (Atom × List TypeNode)

/-- All types found for a type parameter. -/
def Bindings.of (b : Bindings) (param : Atom) : List TypeNode :=
  (b.filter fun entry => entry.1 = param).foldl (fun acc entry => Distinct.append acc entry.2) []

namespace Env

/-- What the journal calls a slot. -/
def slotKind (env : Env) : SlotKey → String
  | .decl d =>
    match env.arena.kind? d with
    | some kind => kind.name
    | none => "<invalid>"
  | .ret .. => "function.return"
  | .generic _ => "generic"

section
variable (env : Env) (compile : SlotKey → Resolve (Option TypeNode)) (fuel : Nat) (target : SlotKey)

/-- Merges the node of a declaration. -/
def mergeDecl (d : DeclId) : Resolve Unit := do
  let node ← compile (.decl d)
  Resolve.mergeNode target node

/-- Whether a node is a template. -/
def isTemplate (s : Session) : TypeNode → Bool
  | .generic i => s.substitutions.isTemplate i
  | _ => false

/-- Merges a member of a result for one call: a template is bound to the call first. -/
def mergeBound (call : DeclId) (node : TypeNode) : Resolve Unit := do
  match node with
  | .generic i =>
    match (← get).substitutions.rebind? i call with
    | some (bound, substitutions) => do
      modify ({ · with substitutions })
      Resolve.mergeNode target (some (.generic bound))
    | none => Resolve.mergeNode target (some node)
  | _ => Resolve.mergeNode target (some node)

/-- Merges a result for one call. Without a template among its members it is shared as it is. -/
def mergeReturned (call : DeclId) (returned : Option TypeNode) : Resolve Unit := do
  let s ← get
  if (s.cache.members returned).any (isTemplate s) then
    Resolve.forMembers fuel returned (mergeBound target call)
  else
    Resolve.mergeNode target returned

/-- What can be called: a function literal, or a documented function with its results. -/
def callable? : TypeNode → Option (DeclId × Option (List DeclId))
  | .leaf d =>
    match env.arena.kind? d with
    | some (.function ..) => some (d, none)
    | some (.tyFunction _ returns) => some (d, some returns)
    | _ => none
  | _ => none

/-- Merges a result of the first thing among the members of `callee` that can be called. -/
def mergeResult (callee : DeclId) (index : Nat) (call : DeclId) : Resolve Unit := do
  let node ← compile (.decl callee)
  match ((← get).cache.members node).findSome? env.callable? with
  | none => return
  | some (func, none) =>
    let returned ← compile (.ret func index)
    mergeReturned fuel target call returned
  | some (_, some returns) =>
    match index with
    | 0 => return
    | position + 1 => (returns[position]?).forM (mergeDecl compile target)

/-- Carries out one step of a rule. -/
def runStep : Step → Resolve Unit
  | .own node => Resolve.mergeNode target (some node)
  | .merge d => mergeDecl compile target d
  | .read base key => do
    let found ← env.searchMember compile fuel base key
    found.forM (mergeDecl compile target)
  | .delegate metatable key => do
    let node ← compile (.decl metatable)
    Resolve.forMembers fuel node fun n => do
      let found ← env.searchNode compile fuel n key
      found.forM (mergeDecl compile target)
  | .result callee index call => mergeResult env compile fuel target callee index call
  | .template s => do
    let i ← Resolve.addSubstitution s
    Resolve.mergeNode target (some (.generic i))

/-- The types that the arguments of a call have for the type parameters they stand for. -/
def inferBindings (func call : DeclId) : Resolve Bindings := do
  let entries ← (env.inferenceSources func call).mapM fun (uses, arg) => do
    let node ← compile (.decl arg)
    let members := (← get).cache.members node
    return uses.map fun param => (param, members)
  return entries.flatten

/-- Merges a type expression in which type parameters stand for their types. Type parameters are
replaced where they are the expression or an alternative of it, at any depth of alternatives. -/
def instantiate (sig? : Option Signature) (bindings : Bindings) : Nat → DeclId → Resolve Unit
  | 0, _ => throw .outOfFuel
  | depth + 1, ty =>
    match env.arena.kind? ty with
    | none => return
    | some kind =>
      match sig?.bind (·.paramUse? kind) with
      | some param => (bindings.of param).forM fun n => Resolve.mergeNode target (some n)
      | none =>
        match kind with
        | .tyUnion alternatives => alternatives.forM (instantiate sig? bindings depth)
        | _ => mergeDecl compile target ty

/-- The rule of a substitution. Too many of them inside one another are cut off. -/
def runSubstitution (i : GenericId) : Resolve Unit := do
  let s ← get
  let some sub := s.substitutions.get? i | return
  let (entered, depth) := s.depth.enter
  if entered then
    set { s with depth }
    let bindings ←
      match sub.call with
      | some call => inferBindings env compile sub.func call
      | none => pure []
    instantiate env compile target (Signature.of? env.arena sub.func) bindings (env.arena.size + 1)
      sub.proto
    let depth ← (← get).depth.leave.mapError Fault.misuse
    modify ({ · with depth })

/-- Carries out the rule of a slot. -/
def runRule : Resolve Unit :=
  match target with
  | .decl d => (env.declRule d).forM (runStep env compile fuel target)
  | .ret func index => (env.returnRule func index).forM (runStep env compile fuel target)
  | .generic i => runSubstitution env compile target i

end

/-- Resolves a slot. -/
def compileSlot (env : Env) : Nat → SlotKey → Resolve (Option TypeNode)
  | 0, _ => throw .outOfFuel
  | fuel + 1, key => do
    match (← get).cache.slot? key with
    | some slot =>
      modify (·.hit key (env.slotKind key) slot.state)
      return slot.node
    | none =>
      let query ← modifyGet fun s =>
        let s := s.start key (env.slotKind key)
        (s.lookups, s)
      runRule env (env.compileSlot fuel) fuel key
      modifyGet fun s =>
        let s := s.finish query key
        (s.cache.node? key, s)

end Env

end LuaInfer
