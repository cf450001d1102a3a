import LuaInfer.Session.Compile
/-!
# Queries

The public operations of a session. Each computes a bound on its work from what the environment and the
session hold, and hands it to the resolution.
-/

namespace LuaInfer

/-- Number of members of all unions together. -/
def UnionArena.weight (a : UnionArena) : Nat :=
  a.unions.foldl (fun n data => n + data.members.length) 0

/-- How much there is to resolve: a slot for each declaration and each of its results up to `index`,
and what the session holds already. -/
def Env.extent (env : Env) (s : Session) (index : Nat) : Nat :=
  (env.arena.size + 1) * (max index env.maxIndex + 2) + env.globals.size
    + s.substitutions.size + s.cache.unions.weight + 2

/-- A bound on the work of one query. Slots under way inside one another are different slots. A loop
over members takes one step for each member, and members are declarations, globals and substitutions:
the results of functions have at most `extent ^ 2` templates, and each of at most `extent ^ 2` calls
binds each of them once. -/
def Env.budget (env : Env) (s : Session) (index : Nat) : Nat :=
  let n := env.extent s index
  n * n * n * n

namespace Session

/-- Resolves a slot. -/
def compile (s : Session) (env : Env) (key : SlotKey) : Except Fault (Option TypeNode × Session) :=
  (env.compileSlot (env.budget s key.result) key).run s

/-- Resolves a declaration. -/
def compileDecl (s : Session) (env : Env) (d : DeclId) : Except Fault (Option TypeNode × Session) :=
  s.compile env (.decl d)

/-- Resolves a result of a function. -/
def compileReturn (s : Session) (env : Env) (func : DeclId) (index : Nat) :
    Except Fault (Option TypeNode × Session) :=
  s.compile env (.ret func index)

/-- Resolves a substitution. -/
def compileGeneric (s : Session) (env : Env) (i : GenericId) : Except Fault (Option TypeNode × Session) :=
  s.compile env (.generic i)

/-- What defines a key on a node. -/
def searchNode (s : Session) (env : Env) (node : TypeNode) (key : Atom) :
    Except Fault (List DeclId × Session) :=
  let fuel := env.budget s 1
  (env.searchNode (env.compileSlot fuel) fuel node key).run s

/-- What defines a key on a declaration. -/
def searchMember (s : Session) (env : Env) (base : DeclId) (key : Atom) :
    Except Fault (List DeclId × Session) :=
  let fuel := env.budget s 1
  (env.searchMember (env.compileSlot fuel) fuel base key).run s

end Session

/-- An operation of a session. -/
inductive Query where
  | decl (d : DeclId)
  | result (func : DeclId) (index : Nat)
  | generic (i : GenericId)
  /-- What defines a key on a node. -/
  | search (node : TypeNode) (key : Atom)
  /-- What defines a key on a class. -/
  | searchClass (g : GlobalId) (key : Atom)
  /-- What defines a key on a declaration. -/
  | searchMember (base : DeclId) (key : Atom)
  /-- The type parameters of a function. -/
  | signature (func : DeclId)
  /-- Merges a node into a slot. -/
  | setNode (key : SlotKey) (node : Option TypeNode)
  /-- Forgets everything. -/
  | clear
deriving DecidableEq

/-- What a query answers. -/
inductive Answer where
  | node (n : Option TypeNode)
  | decls (ds : List DeclId)
  | signature (s : Option Signature)
  | done
deriving DecidableEq

namespace Session

/-- Answers a query. -/
def ask (env : Env) (s : Session) : Query → Except Fault (Answer × Session)
  | .decl d => (s.compileDecl env d).map fun (n, s) => (.node n, s)
  | .result func index => (s.compileReturn env func index).map fun (n, s) => (.node n, s)
  | .generic i => (s.compileGeneric env i).map fun (n, s) => (.node n, s)
  | .search node key => (s.searchNode env node key).map fun (ds, s) => (.decls ds, s)
  | .searchClass g key => (env.searchClass g key).map fun ds => (.decls ds, s)
  | .searchMember base key => (s.searchMember env base key).map fun (ds, s) => (.decls ds, s)
  | .signature func => .ok (.signature (Signature.of? env.arena func), s)
  | .setNode key node => .ok (.done, s.setNode key node)
  | .clear => .ok (.done, s.clear)

/-- Answers queries one after the other. -/
def askAll (env : Env) (s : Session) : List Query → Except Fault (List Answer × Session)
  | [] => .ok ([], s)
  | q :: qs => do
    let (a, s) ← s.ask env q
    let (as, s) ← s.askAll env qs
    return (a :: as, s)

end Session

end LuaInfer
