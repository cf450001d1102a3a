import LuaInfer.Limits
/-!
# Recursion guards

A `Guard` watches a walk over keys: it refuses a key that is being visited, a walk that is too deep,
and a walk that tries too often. A `DepthCounter` only counts how deep a walk is. Both tell when they
are used wrongly: `Misuse` names the cause, and a refused operation changes nothing.
-/

namespace LuaInfer

/-- The limits of one guarded walk. -/
structure GuardLimits where
  maxDepth : UInt32
  maxAttempts : UInt32
deriving DecidableEq

namespace GuardLimits

/-- Limits of a walk up a hierarchy of classes. -/
def classHierarchy : GuardLimits := ⟨Limits.maxClassDepth, Limits.maxGuardAttempts⟩

/-- Limits of generic instantiations inside one another. -/
def genericInstantiation : GuardLimits := ⟨Limits.maxGenericDepth, Limits.maxGuardAttempts⟩

end GuardLimits

/-- What is wrong with a use of a guard or a counter. -/
inductive Misuse where
  /-- A key is left that is not being visited. -/
  | absentKey
  /-- A guard is given up while keys are being visited. -/
  | abandoned (active : Nat)
  /-- A counter is decreased at depth zero. -/
  | depthZero
deriving DecidableEq

/-- The text that reports a misuse. -/
def Misuse.message : Misuse → String
  | .absentKey => "RecursionGuard::leave() called with a key that is not in the visiting set"
  | .abandoned n =>
    "RecursionGuard dropped with " ++ Nat.repr n ++ " active entries still in the visiting set"
  | .depthZero => "DepthCounter::leave() called at depth 0"

/-- The outcome of an attempt to enter a key. -/
inductive Entry where
  | entered
  | cycle
  | depthExceeded
  | attemptsExceeded
deriving DecidableEq

/-- The state of a guarded walk. -/
structure Guard (κ : Type) where
  limits : GuardLimits
  /-- The keys being visited. -/
  visiting : List κ := []
  /-- How deep the walk is. -/
  depth : Nat := 0
  /-- Attempts to enter so far; the count stays at the largest 32-bit number once it is there. -/
  attempts : Nat := 0
deriving DecidableEq

namespace Guard

variable {κ : Type} [DecidableEq κ]

/-- The number at which the count of attempts stays. -/
def attemptCap : Nat := UInt32.size - 1

/-- Tries to enter `key`. Every attempt counts. The limit on attempts is tested first, then the depth,
then whether the key is being visited. -/
def enter (g : Guard κ) (key : κ) : Entry × Guard κ :=
  let g := { g with attempts := min (g.attempts + 1) attemptCap }
  if g.attempts > g.limits.maxAttempts.toNat then (.attemptsExceeded, g)
  else if g.depth ≥ g.limits.maxDepth.toNat then (.depthExceeded, g)
  else if key ∈ g.visiting then (.cycle, g)
  else (.entered, { g with visiting := key :: g.visiting, depth := g.depth + 1 })

/-- Leaves a key that was entered. -/
def leave (g : Guard κ) (key : κ) : Except Misuse (Guard κ) :=
  if key ∈ g.visiting then
    .ok { g with visiting := g.visiting.erase key, depth := g.depth - 1 }
  else .error .absentKey

/-- Gives the guard up, which is right only when every entered key was left. -/
def drop (g : Guard κ) : Except Misuse Unit :=
  if g.visiting.isEmpty then .ok () else .error (.abandoned g.visiting.length)

end Guard

/-- Counts how deep a walk is, up to a limit. -/
structure DepthCounter where
  maxDepth : UInt32
  depth : Nat := 0
deriving DecidableEq

namespace DepthCounter

/-- One step deeper, unless the limit is reached. -/
def enter (c : DepthCounter) : Bool × DepthCounter :=
  if c.depth ≥ c.maxDepth.toNat then (false, c) else (true, { c with depth := c.depth + 1 })

/-- One step back. -/
def leave (c : DepthCounter) : Except Misuse DepthCounter :=
  if c.depth = 0 then .error .depthZero else .ok { c with depth := c.depth - 1 }

/-- Back to depth zero. -/
def reset (c : DepthCounter) : DepthCounter := { c with depth := 0 }

end DepthCounter

end LuaInfer
