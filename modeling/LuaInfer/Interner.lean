import LuaInfer.Handle
/-!
# Interner

Names, keys and string literals are stored once each. The empty text is always the first, and no text
is stored twice, so two atoms of one interner are equal exactly if their texts are.
-/

namespace LuaInfer

/-- The stored texts; an atom is a position among them. -/
structure Interner where
  texts : Array String
deriving DecidableEq

namespace Interner

/-- Holds the empty text only. -/
def empty : Interner := ⟨#[""]⟩

/-- The atom of `text`, if it is stored. -/
def lookup (t : Interner) (text : String) : Option Atom :=
  (t.texts.idxOf? text).map Atom.mk

/-- The atom of `text`, which is stored if it was not. -/
def intern (t : Interner) (text : String) : Atom × Interner :=
  match t.lookup text with
  | some a => (a, t)
  | none => (⟨t.texts.size⟩, ⟨t.texts.push text⟩)

/-- The text of an atom; the empty text for an atom of another interner. -/
def text (t : Interner) (a : Atom) : String :=
  t.texts.getD a.index ""

/-- Number of stored texts. -/
def size (t : Interner) : Nat := t.texts.size

/-- Whether nothing but the empty text is stored. -/
def isEmpty (t : Interner) : Bool := t.size ≤ 1

end Interner

/-- An atom as it is shown in diagnostics. -/
def Atom.display (a : Atom) : String := "#" ++ Nat.repr a.index

end LuaInfer
