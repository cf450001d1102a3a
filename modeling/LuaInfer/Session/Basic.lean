import LuaInfer.Generic
import LuaInfer.Guard
import LuaInfer.Node.Cache
/-!
# Sessions

A session owns everything that resolution computes: the node cache, the substitutions, the depth of
generic instantiations, statistics, and a journal of all look-ups. `Resolve` is the monad of its
operations. It fails only with a `Fault`.
-/

namespace LuaInfer

/-- Counts of look-ups. -/
structure Stats where
  /-- Slots whose rule ran. -/
  ruleRuns : Nat := 0
  /-- Look-ups answered by a resolved slot. -/
  cacheHits : Nat := 0
  /-- Look-ups answered by a slot in progress. -/
  cycleHits : Nat := 0
deriving DecidableEq

/-- What the journal records of a look-up. -/
inductive Event where
  /-- A look-up starts; `kind` names what the slot belongs to. -/
  | started (query : Nat) (key : SlotKey) (kind : String)
  /-- A look-up ends with that many members; `hit` if no rule ran for it. -/
  | ended (query : Nat) (key : SlotKey) (members : Nat) (hit : Bool)
deriving DecidableEq

/-- Why an operation of a session does not return. -/
inductive Fault where
  /-- The bound on the work was too small. -/
  | outOfFuel
  /-- A guard or a counter was used wrongly. -/
  | misuse (cause : Misuse)
deriving DecidableEq

/-- The text that reports a fault. -/
def Fault.message : Fault → String
  | .outOfFuel => "resolution does not end"
  | .misuse cause => cause.message

/-- Everything that resolution computes. -/
structure Session where
  cache : NodeCache := .empty
  substitutions : Substitutions := .empty
  /-- How many generic instantiations are under way inside one another. -/
  depth : DepthCounter := { maxDepth := GuardLimits.genericInstantiation.maxDepth }
  stats : Stats := {}
  /-- Number of look-ups so far; look-ups are numbered from one. -/
  lookups : Nat := 0
  /-- The starts and ends of all look-ups, in order. -/
  journal : Array Event := #[]

/-- An operation of a session. -/
abbrev Resolve := StateT Session (Except Fault)

namespace Session

/-- A session in which nothing was asked. -/
def fresh : Session := {}

/-- Forgets everything but the journal and the number of look-ups. -/
def clear (s : Session) : Session :=
  { s with cache := .empty, substitutions := .empty, depth := s.depth.reset, stats := {} }

/-- Merges a node into a slot. -/
def setNode (s : Session) (key : SlotKey) (node : Option TypeNode) : Session :=
  { s with cache := s.cache.setNode key node }

/-- Notes the start of a look-up. -/
def noteStart (s : Session) (key : SlotKey) (kind : String) : Session :=
  let query := s.lookups + 1
  { s with lookups := query, journal := s.journal.push (.started query key kind) }

/-- Notes the end of look-up number `query`, with the members of its slot at this moment. -/
def noteEnd (s : Session) (query : Nat) (key : SlotKey) (hit : Bool) : Session :=
  let members := (s.cache.members (s.cache.node? key)).length
  { s with journal := s.journal.push (.ended query key members hit) }

/-- Answers a look-up from a slot that exists. -/
def hit (s : Session) (key : SlotKey) (kind : String) (state : SlotState) : Session :=
  let s := s.noteStart key kind
  let s :=
    match state with
    | .resolved => { s with stats.cacheHits := s.stats.cacheHits + 1 }
    | .inProgress => { s with stats.cycleHits := s.stats.cycleHits + 1 }
  s.noteEnd s.lookups key true

/-- Starts the rule of a slot that does not exist. -/
def start (s : Session) (key : SlotKey) (kind : String) : Session :=
  let s := s.noteStart key kind
  { s with cache := s.cache.start key, stats.ruleRuns := s.stats.ruleRuns + 1 }

/-- Ends the rule of a slot, whose look-up has number `query`. -/
def finish (s : Session) (query : Nat) (key : SlotKey) : Session :=
  { s with cache := s.cache.finish key }.noteEnd query key false

end Session

namespace Resolve

/-- Merges a node into a slot. -/
def mergeNode (target : SlotKey) (node : Option TypeNode) : Resolve Unit :=
  modify (·.setNode target node)

/-- Adds a substitution. -/
def addSubstitution (s : Substitution) : Resolve GenericId :=
  modifyGet fun t =>
    let (i, substitutions) := t.substitutions.push s
    (i, { t with substitutions })

/-- Goes over the members of a node from a cursor on. The members are read again before each step, so
those that arrive on the way are visited too. -/
def foldMembers {σ : Type} (f : σ → TypeNode → Resolve σ) : Nat → Cursor → σ → Resolve σ
  | 0, _, _ => throw .outOfFuel
  | fuel + 1, cursor, acc => do
    match cursor.next? (← get).cache with
    | none => return acc
    | some (node, cursor) => foldMembers f fuel cursor (← f acc node)

/-- Goes over the members of a node. -/
def forMembers (fuel : Nat) (node : Option TypeNode) (f : TypeNode → Resolve Unit) : Resolve Unit :=
  foldMembers (fun _ n => f n) fuel ⟨node, 0⟩ ()

end Resolve

end LuaInfer
