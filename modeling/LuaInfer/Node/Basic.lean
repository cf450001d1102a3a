import LuaInfer.Handle
/-!
# Type nodes and slots

A type node is what is known about a declaration. It is a handle: a union lives in an arena, so that
whoever holds it sees it grow. A slot is what a node is attached to.
-/

namespace LuaInfer

/-- What a declaration may be. The absence of a node is `none`. -/
inductive TypeNode where
  /-- A declaration that is a type by itself. -/
  | leaf (d : DeclId)
  /-- A global variable or a documented type. -/
  | global (g : GlobalId)
  /-- A generic type expression, instantiated for one call. -/
  | generic (i : GenericId)
  /-- Any of the members of a union. -/
  | union (u : UnionId)
deriving DecidableEq

namespace TypeNode

/-- Whether the node is a union. -/
def isUnion : TypeNode → Bool
  | union _ => true
  | _ => false

/-- The declaration of a leaf. -/
def leaf? : TypeNode → Option DeclId
  | leaf d => some d
  | _ => none

/-- The global of a global node. -/
def global? : TypeNode → Option GlobalId
  | global g => some g
  | _ => none

end TypeNode

namespace TypeNode

/-- Which of the four sorts of node it is. -/
def sort : TypeNode → Nat
  | leaf _ => 0
  | global _ => 1
  | generic _ => 2
  | union _ => 3

/-- The position of what the node refers to. -/
def id : TypeNode → Nat
  | leaf d => d.index
  | global g => g.index
  | generic i => i.index
  | union u => u.index

/-- Nodes are ordered by sort, then by position. -/
def cmp (m n : TypeNode) : Ordering := (compare m.sort n.sort).then (compare m.id n.id)

instance : Ord TypeNode := ⟨cmp⟩

instance : Std.TransOrd TypeNode :=
  inferInstanceAs (Std.TransCmp (compareLex (compareOn sort) (compareOn id)))

instance : Std.LawfulEqOrd TypeNode where
  eq_of_compare {m n} h := by
    have heq : cmp m n = .eq := h
    simp only [cmp, Ordering.then_eq_eq, Nat.compare_eq_eq] at heq
    rcases m with ⟨⟨_⟩⟩ | ⟨⟨_⟩⟩ | ⟨⟨_⟩⟩ | ⟨⟨_⟩⟩ <;> rcases n with ⟨⟨_⟩⟩ | ⟨⟨_⟩⟩ | ⟨⟨_⟩⟩ | ⟨⟨_⟩⟩ <;>
      simp_all [sort, id]

end TypeNode

/-- What a node is attached to. -/
inductive SlotKey where
  /-- A declaration. -/
  | decl (d : DeclId)
  /-- A result of a function, counted from one. -/
  | ret (func : DeclId) (index : Nat)
  /-- A generic type expression with its call. -/
  | generic (i : GenericId)
deriving DecidableEq

namespace SlotKey

/-- Which of the three sorts of slot it is. -/
def sort : SlotKey → Nat
  | decl _ => 0
  | ret .. => 1
  | generic _ => 2

/-- The position of what the slot belongs to. -/
def id : SlotKey → Nat
  | decl d => d.index
  | ret f _ => f.index
  | generic i => i.index

/-- The index of a result, and zero for other slots. -/
def result : SlotKey → Nat
  | ret _ i => i
  | _ => 0

/-- Slots are ordered by sort, then by position, then by index. -/
def cmp (k l : SlotKey) : Ordering :=
  (compare k.sort l.sort).then ((compare k.id l.id).then (compare k.result l.result))

instance : Ord SlotKey := ⟨cmp⟩

instance : Std.TransOrd SlotKey :=
  inferInstanceAs (Std.TransCmp (compareLex (compareOn sort) (compareLex (compareOn id) (compareOn result))))

theorem cmp_eq_iff {k l : SlotKey} :
    cmp k l = .eq ↔ k.sort = l.sort ∧ k.id = l.id ∧ k.result = l.result := by
  simp only [cmp, Ordering.then_eq_eq, Nat.compare_eq_eq]

instance : Std.LawfulEqOrd SlotKey where
  eq_of_compare {k l} h := by
    have ⟨hs, hi, hr⟩ := cmp_eq_iff.1 h
    rcases k with ⟨⟨_⟩⟩ | ⟨⟨_⟩, _⟩ | ⟨⟨_⟩⟩ <;> rcases l with ⟨⟨_⟩⟩ | ⟨⟨_⟩, _⟩ | ⟨⟨_⟩⟩ <;>
      simp_all [sort, id, result]

end SlotKey

end LuaInfer
