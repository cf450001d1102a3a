import LuaInfer.Node.Union
/-!
# The node cache

A slot that was never asked for is absent. From the moment its rule starts it is in progress, and holds
what has been merged so far; afterwards it is resolved, possibly to nothing. `setNode` merges a node
into a slot: a node that comes first is stored as it is, so that unions are shared, and only the owner
of a union adds to it in place.
-/

namespace LuaInfer

/-- How far a slot is. -/
inductive SlotState where
  | inProgress
  | resolved
deriving DecidableEq

/-- The content of a slot. -/
structure Slot where
  state : SlotState
  node : Option TypeNode
deriving DecidableEq

/-- All slots and unions of a session. -/
structure NodeCache where
  slots : Std.TreeMap SlotKey Slot := ∅
  unions : UnionArena := .empty

namespace NodeCache

/-- No slots and no unions. -/
def empty : NodeCache := {}

/-- The content of a slot. -/
def slot? (c : NodeCache) (key : SlotKey) : Option Slot := c.slots[key]?

/-- How far a slot is. -/
def state? (c : NodeCache) (key : SlotKey) : Option SlotState := (c.slot? key).map Slot.state

/-- The node of a slot. -/
def node? (c : NodeCache) (key : SlotKey) : Option TypeNode := (c.slot? key).bind Slot.node

/-- Number of slots. -/
def size (c : NodeCache) : Nat := c.slots.size

/-- What a node stands for at this moment. -/
def members (c : NodeCache) : Option TypeNode → List TypeNode
  | none => []
  | some node => c.unions.flatten node

/-- Marks a slot as in progress, with nothing in it. -/
def start (c : NodeCache) (key : SlotKey) : NodeCache :=
  { c with slots := c.slots.insert key ⟨.inProgress, none⟩ }

/-- Marks a slot as resolved. -/
def finish (c : NodeCache) (key : SlotKey) : NodeCache :=
  { c with slots := c.slots.insert key ⟨.resolved, c.node? key⟩ }

/-- Puts a node into a slot in place of what was there. The state of the slot stays; a slot that was
absent counts as resolved. -/
def store (c : NodeCache) (key : SlotKey) (node : TypeNode) : NodeCache :=
  { c with slots := c.slots.insert key ⟨(c.state? key).getD .resolved, some node⟩ }

/-- Replaces the node of a slot by a union of it and another node, owned by the slot. -/
def storeUnion (c : NodeCache) (key : SlotKey) (current node : TypeNode) : NodeCache :=
  let (u, unions) := c.unions.make (some key) current node
  { c with unions }.store key (.union u)

/-- Merges a node into a slot. -/
def setNode (c : NodeCache) (key : SlotKey) : Option TypeNode → NodeCache
  | none => c
  | some node =>
    match c.node? key with
    | none => c.store key node
    | some current =>
      if current = node then c
      else
        match current with
        | .union u =>
          if c.unions.contains u node then c
          else if c.unions.owner? u = some key then { c with unions := c.unions.add u node }
          else c.storeUnion key current node
        | _ => c.storeUnion key current node

end NodeCache

/-- A position among the members of a node. It holds no members: each step reads them again, and so
visits members that arrived in the meantime. -/
structure Cursor where
  node : Option TypeNode
  position : Nat := 0
deriving DecidableEq

namespace Cursor

/-- The member at the position, if there is one, and the position after it. -/
def next? (k : Cursor) (c : NodeCache) : Option (TypeNode × Cursor) :=
  (c.members k.node)[k.position]?.map fun n => (n, { k with position := k.position + 1 })

/-- Back to the first member. -/
def restart (k : Cursor) : Cursor := { k with position := 0 }

end Cursor

end LuaInfer
