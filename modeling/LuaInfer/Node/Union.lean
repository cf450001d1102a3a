import LuaInfer.Distinct
import LuaInfer.Node.Basic
import Std.Data.TreeSet
/-!
# Unions

Unions are kept in an arena. A union lists its members in the order of first arrival, none of them
twice and none of them a union, and keeps them a second time as a set, for look-up. Each may have an
owner: the slot that may add to it in place.
-/

namespace LuaInfer

/-- One union. -/
structure UnionData where
  /-- The members in the order of first arrival. -/
  members : List TypeNode
  /-- The members for look-up. -/
  seen : Std.TreeSet TypeNode
  owner : Option SlotKey
  /-- The list and the set have the same members. -/
  mem_seen : ∀ n, n ∈ seen ↔ n ∈ members

namespace UnionData

/-- A union without members. -/
def empty (owner : Option SlotKey) : UnionData where
  members := []
  seen := ∅
  owner := owner
  mem_seen _ := iff_of_false Std.TreeSet.not_mem_emptyc List.not_mem_nil

theorem mem_seen_insert (data : UnionData) (node n : TypeNode) :
    n ∈ data.seen.insert node ↔ n ∈ data.members ++ [node] := by
  rw [Std.TreeSet.mem_insert, data.mem_seen, Std.compare_eq_iff_eq, List.mem_append, List.mem_singleton, or_comm,
    eq_comm]

/-- Puts a node at the end unless it is there already, and tells whether it was new. -/
def push (data : UnionData) (node : TypeNode) : Bool × UnionData :=
  if data.seen.contains node then (false, data)
  else
    (true, { data with
      members := data.members ++ [node]
      seen := data.seen.insert node
      mem_seen := data.mem_seen_insert node })

/-- Pushes nodes one after the other, and tells whether any of them was new. -/
def pushAll (data : UnionData) : List TypeNode → Bool × UnionData
  | [] => (false, data)
  | node :: nodes =>
    let (new, data) := data.push node
    let (more, data) := data.pushAll nodes
    (new || more, data)

theorem contains_seen (data : UnionData) (node : TypeNode) : data.seen.contains node = decide (node ∈ data.members) := by
  rw [Bool.eq_iff_iff, decide_eq_true_eq, Std.TreeSet.contains_iff_mem, data.mem_seen]

@[simp] theorem members_push (data : UnionData) (node : TypeNode) :
    (data.push node).2.members = Distinct.add data.members node := by
  simp only [push, contains_seen, Distinct.add, decide_eq_true_eq]
  split <;> rfl

@[simp] theorem owner_push (data : UnionData) (node : TypeNode) : (data.push node).2.owner = data.owner := by
  unfold push
  split <;> rfl

theorem push_new (data : UnionData) (node : TypeNode) : (data.push node).1 = decide (node ∉ data.members) := by
  simp only [push, contains_seen, decide_eq_true_eq, decide_not]
  split <;> simp_all

theorem pushAll_cons (data : UnionData) (node : TypeNode) (nodes : List TypeNode) :
    data.pushAll (node :: nodes) =
      ((data.push node).1 || ((data.push node).2.pushAll nodes).1, ((data.push node).2.pushAll nodes).2) :=
  rfl

@[simp] theorem members_pushAll (data : UnionData) (nodes : List TypeNode) :
    (data.pushAll nodes).2.members = Distinct.append data.members nodes := by
  induction nodes generalizing data with
  | nil => rfl
  | cons node nodes ih => rw [pushAll_cons, ih, members_push, Distinct.append_cons]

@[simp] theorem owner_pushAll (data : UnionData) (nodes : List TypeNode) :
    (data.pushAll nodes).2.owner = data.owner := by
  induction nodes generalizing data with
  | nil => rfl
  | cons node nodes ih => rw [pushAll_cons, ih, owner_push]

/-- Something is new if a node was missing. -/
theorem pushAll_new (data : UnionData) (nodes : List TypeNode) :
    (data.pushAll nodes).1 = true ↔ ∃ n ∈ nodes, n ∉ data.members := by
  induction nodes generalizing data with
  | nil => simp [pushAll]
  | cons node nodes ih =>
    rw [pushAll_cons, Bool.or_eq_true, ih, push_new, members_push]
    by_cases hnode : node ∈ data.members
    · simp [Distinct.add, hnode]
    · simp [hnode]

end UnionData

/-- All unions of a session. -/
structure UnionArena where
  unions : Array UnionData

namespace UnionArena

/-- No unions. -/
def empty : UnionArena := ⟨#[]⟩

/-- Number of unions. -/
def size (a : UnionArena) : Nat := a.unions.size

/-- The members of a union. -/
def members (a : UnionArena) (u : UnionId) : List TypeNode :=
  match a.unions[u.index]? with
  | some data => data.members
  | none => []

/-- Whether a node is in the set of members of a union. -/
def sees (a : UnionArena) (u : UnionId) (node : TypeNode) : Bool :=
  match a.unions[u.index]? with
  | some data => data.seen.contains node
  | none => false

/-- The slot that may add to a union. -/
def owner? (a : UnionArena) (u : UnionId) : Option SlotKey :=
  a.unions[u.index]?.bind UnionData.owner

/-- The nodes that a node stands for: the members of a union, and any other node itself. -/
def flatten (a : UnionArena) : TypeNode → List TypeNode
  | .union u => a.members u
  | node => [node]

/-- Whether a union has everything that a node stands for. -/
def contains (a : UnionArena) (u : UnionId) (node : TypeNode) : Bool :=
  (a.flatten node).all (a.sees u)

/-- Adds what a node stands for to a union, and tells whether anything was new. A union is not added to
itself. -/
def insert (a : UnionArena) (u : UnionId) (node : TypeNode) : Bool × UnionArena :=
  if node = .union u then (false, a)
  else
    match a.unions[u.index]? with
    | none => (false, a)
    | some data =>
      let (new, data) := data.pushAll (a.flatten node)
      (new, ⟨a.unions.setIfInBounds u.index data⟩)

/-- Adds what a node stands for to a union. -/
def add (a : UnionArena) (u : UnionId) (node : TypeNode) : UnionArena := (a.insert u node).2

/-- A new union of two nodes. -/
def make (a : UnionArena) (owner : Option SlotKey) (m n : TypeNode) : UnionId × UnionArena :=
  let u : UnionId := ⟨a.size⟩
  (u, ((⟨a.unions.push (.empty owner)⟩ : UnionArena).add u m).add u n)

/-- The set of members has the members. -/
theorem sees_iff {a : UnionArena} {u : UnionId} {node : TypeNode} : a.sees u node = true ↔ node ∈ a.members u := by
  unfold sees members
  split
  · next data _ => rw [data.contains_seen, decide_eq_true_eq]
  · simp

theorem contains_iff {a : UnionArena} {u : UnionId} {node : TypeNode} :
    a.contains u node = true ↔ ∀ n ∈ a.flatten node, n ∈ a.members u := by
  simp only [contains, List.all_eq_true, sees_iff]

end UnionArena

end LuaInfer
