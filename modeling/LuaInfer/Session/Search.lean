import LuaInfer.Session.Basic
import LuaInfer.Session.Env
/-!
# Field search

Which declarations define a key on a node? A table or a documented shape has its fields, a local the
assignments to its members, a global variable the sites of its members. A documented class has its own
fields and those of what it stands above; where one of its declarations has none, the search goes on in
the superclasses. A `Hunt` is a search under way: a guard over the classes being visited, and what was
found.
-/

namespace LuaInfer

/-- A search under way. -/
structure Hunt where
  guard : Guard GlobalId
  found : List DeclId := []
deriving DecidableEq

namespace Hunt

/-- More is found. -/
def add (h : Hunt) (ds : List DeclId) : Hunt := { h with found := Distinct.append h.found ds }

/-- Ends the search. -/
def close (h : Hunt) : Except Fault (List DeclId) := do
  h.guard.drop.mapError .misuse
  return h.found

end Hunt

namespace Env

/-- A search in which nothing was found yet. -/
def hunt (env : Env) : Hunt where
  guard := { limits := ⟨env.options.maxClassDepth, GuardLimits.classHierarchy.maxAttempts⟩ }

/-- The fields with that key. -/
def fieldsNamed (env : Env) (fields : List DeclId) (key : Atom) : List DeclId :=
  fields.filter fun f => env.arena.key? f == some key

/-- What defines a key on a declaration that is a type by itself. -/
def leafFields (env : Env) (d : DeclId) (key : Atom) : List DeclId :=
  match env.arena.kind? d with
  | some (.table fields) => env.fieldsNamed fields key
  | some (.tyTable fields) => env.fieldsNamed fields key
  | some (.localVar ..) => env.identities.sources d key
  | _ => []

/-- What defines a key on a global variable. -/
def variableFields (env : Env) (g : GlobalId) (key : Atom) : List DeclId :=
  match env.globals.getField? g key with
  | some sub => env.globals.sites sub
  | none => []

/-- Searches a global; `classes` searches a class. -/
def huntGlobal (env : Env) (key : Atom) (classes : GlobalId → Hunt → Except Fault Hunt) (g : GlobalId)
    (h : Hunt) : Except Fault Hunt :=
  match env.globals.category? g with
  | some .var => .ok (h.add (env.variableFields g key))
  | some .type => classes g h
  | none => .ok h

/-- Searches a declaration that a class stands above, and the global that it stands for. -/
def huntSource (env : Env) (key : Atom) (classes : GlobalId → Hunt → Except Fault Hunt) (h : Hunt)
    (source : DeclId) : Except Fault Hunt :=
  let h := h.add (env.leafFields source key)
  match env.arena.global? source with
  | some g => env.huntGlobal key classes g h
  | none => .ok h

/-- Searches the class that a superclass name refers to. -/
def huntSuper (env : Env) (classes : GlobalId → Hunt → Except Fault Hunt) (h : Hunt) (name : DeclId) :
    Except Fault Hunt :=
  match env.arena.kind? name with
  | some (.tyName name) =>
    match env.globals.get? .type name with
    | some g => classes g h
    | none => .ok h
  | _ => .ok h

/-- Searches one declaration of a class: its fields and sources, or, if they have nothing, its
superclasses. -/
def huntSite (env : Env) (key : Atom) (classes : GlobalId → Hunt → Except Fault Hunt) (h : Hunt)
    (site : DeclId) : Except Fault Hunt :=
  match env.arena.kind? site with
  | some (.docClass _ supers fields sources) => do
    let own : Hunt := { guard := h.guard, found := Distinct.append [] (env.fieldsNamed fields key) }
    let own ← sources.foldlM (env.huntSource key classes) own
    let h := { h with guard := own.guard }
    if own.found.isEmpty then supers.foldlM (env.huntSuper classes) h else return h.add own.found
  | _ => return h

/-- Searches a class, unless the guard refuses it. -/
def huntClassFrom (env : Env) (key : Atom) : Nat → GlobalId → Hunt → Except Fault Hunt
  | 0, _, _ => throw .outOfFuel
  | fuel + 1, g, h =>
    match h.guard.enter g with
    | (.entered, guard) => do
      let h ← (env.globals.sites g).foldlM (env.huntSite key (env.huntClassFrom key fuel)) { h with guard }
      return { h with guard := ← (h.guard.leave g).mapError .misuse }
    | (_, guard) => return { h with guard }

/-- Searches a class. The guard admits no more classes inside one another than the depth limit says. -/
def huntClass (env : Env) (key : Atom) (g : GlobalId) (h : Hunt) : Except Fault Hunt :=
  env.huntClassFrom key (env.options.maxClassDepth.toNat + 1) g h

/-- Searches a node. A substitution is searched through what it resolves to. -/
def huntNode (env : Env) (compile : SlotKey → Resolve (Option TypeNode)) (key : Atom) :
    Nat → Hunt → TypeNode → Resolve Hunt
  | 0, _, _ => throw .outOfFuel
  | fuel + 1, h, node =>
    match node with
    | .leaf d => return h.add (env.leafFields d key)
    | .global g => env.huntGlobal key (env.huntClass key) g h
    | .generic i => do
      let resolved ← compile (.generic i)
      Resolve.foldMembers (env.huntNode compile key fuel) fuel ⟨resolved, 0⟩ h
    | .union u => Resolve.foldMembers (env.huntNode compile key fuel) fuel ⟨some (.union u), 0⟩ h

/-- Resolves a declaration and searches each of its members. -/
def huntMember (env : Env) (compile : SlotKey → Resolve (Option TypeNode)) (fuel : Nat) (base : DeclId)
    (key : Atom) : Resolve Hunt := do
  let node ← compile (.decl base)
  Resolve.foldMembers (env.huntNode compile key fuel) fuel ⟨node, 0⟩ env.hunt

/-- What defines a key on a node. -/
def searchNode (env : Env) (compile : SlotKey → Resolve (Option TypeNode)) (fuel : Nat) (node : TypeNode)
    (key : Atom) : Resolve (List DeclId) := do
  let h ← env.huntNode compile key fuel env.hunt node
  h.close

/-- What defines a key on a declaration. -/
def searchMember (env : Env) (compile : SlotKey → Resolve (Option TypeNode)) (fuel : Nat) (base : DeclId)
    (key : Atom) : Resolve (List DeclId) := do
  let h ← env.huntMember compile fuel base key
  h.close

/-- What defines a key on a class. -/
def searchClass (env : Env) (g : GlobalId) (key : Atom) : Except Fault (List DeclId) := do
  let h ← env.huntClass key g env.hunt
  h.close

end Env

end LuaInfer
