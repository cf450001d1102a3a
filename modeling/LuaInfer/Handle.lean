import Std.Data.TreeMap
/-!
# Handles

Texts, declarations, globals, substitutions and unions are kept in tables and referred to by their
position there. Each table has a handle type of its own, so that one cannot be taken for another. A
handle may point past the end of its table: every look-up then finds nothing.
-/

namespace LuaInfer

/-- A text of the interner. -/
structure Atom where
  index : Nat
deriving DecidableEq

/-- A declaration of the arena. -/
structure DeclId where
  index : Nat
deriving DecidableEq

/-- An entity of the registry of globals. -/
structure GlobalId where
  index : Nat
deriving DecidableEq

/-- A generic type expression together with the call it is instantiated for. -/
structure GenericId where
  index : Nat
deriving DecidableEq

/-- A union of type nodes. -/
structure UnionId where
  index : Nat
deriving DecidableEq

namespace DeclId

/-- Declarations are ordered as they were made. -/
instance : Ord DeclId := ⟨compareOn DeclId.index⟩

instance : Std.TransOrd DeclId :=
  inferInstanceAs (Std.TransCmp (compareOn DeclId.index))

instance : Std.LawfulEqOrd DeclId where
  eq_of_compare {a b} h := by
    have h' : compare a.index b.index = .eq := h
    cases a
    cases b
    simpa using h'

end DeclId

end LuaInfer
