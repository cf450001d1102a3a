/-!
# Limits

The bounds of the engine. None of them is what makes resolution end: they bound the work on
hierarchies and instantiations that are deep without being cyclic.
-/

namespace LuaInfer.Limits

/-- Stack left below which an evaluation moves to a fresh segment, in bytes. -/
def stackRedZone : Nat := 64 * 1024

/-- Size of a fresh stack segment, in bytes. -/
def stackSegmentSize : Nat := 1024 * 1024

/-- Default depth limit of a chain of superclasses. -/
def maxClassDepth : UInt32 := 64

/-- Depth limit of generic instantiations inside one another. -/
def maxGenericDepth : UInt32 := 32

/-- Attempts to enter that one guarded walk may make. -/
def maxGuardAttempts : UInt32 := 100000

end LuaInfer.Limits
