import LuaInfer.Proofs.Ownership
/-!
# Cursors neither skip nor repeat

A cursor holds a position and no members: each time it is asked, it looks its next member up in what its node stands for at that
moment. That this is safe while merges go on rests on one fact, that no merge takes a member away or puts a new one
before an old one, whatever it merges and into whichever slot (`NodeCache.isPrefix_members_setNode`). So what a cursor has returned
is always a prefix of the members (`Cursor.Visit.Faithful`), which one turn keeps (`Cursor.Visit.Faithful.turn`), and
`Cursor.run_faithful` says so of all interleavings.
-/

namespace LuaInfer

namespace Cursor

/-- What may happen while a cursor is in use. -/
inductive Turn where
  /-- The cursor is asked for its next member. -/
  | next
  /-- A node is merged into a slot. -/
  | merge (key : SlotKey) (node : Option TypeNode)

/-- A cursor in use. -/
structure Visit where
  cursor : Cursor
  cache : NodeCache
  /-- What the cursor answered each time it was asked. -/
  answers : List (Option TypeNode) := []

namespace Visit

/-- The start of a visit of what a node stands for. -/
def start (c : NodeCache) (node : Option TypeNode) : Visit := { cursor := ⟨node, 0⟩, cache := c }

/-- What the cursor returned so far. -/
def returned (v : Visit) : List TypeNode := v.answers.filterMap id

/-- What the cursor answers if it is asked now. -/
def answer (v : Visit) : Option TypeNode := (v.cursor.next? v.cache).map Prod.fst

/-- One turn. A cursor that finds nothing stays where it is. -/
def turn (v : Visit) : Turn → Visit
  | .next =>
    match v.cursor.next? v.cache with
    | some (n, cursor) => { v with cursor, answers := v.answers ++ [some n] }
    | none => { v with answers := v.answers ++ [none] }
  | .merge key node => { v with cache := v.cache.setNode key node }

/-- One turn after the other. -/
def run (v : Visit) (turns : List Turn) : Visit := turns.foldl turn v

variable {v : Visit} {node : Option TypeNode} {n : TypeNode}

/-! ## One turn -/

theorem answer_eq : v.answer = (v.cache.members v.cursor.node)[v.cursor.position]? := by
  rw [answer, next?, Option.map_map]
  exact Option.map_id'

/-- A cursor moves on by the member that it answers, if it answers one. -/
theorem turn_next (v : Visit) : v.turn .next =
    { v with
      cursor := { v.cursor with position := v.cursor.position + v.answer.toList.length }
      answers := v.answers ++ [v.answer] } := by
  cases ha : v.answer <;> rw [answer_eq] at ha <;> simp [turn, next?, ha]

theorem returned_turn_next (v : Visit) : (v.turn .next).returned = v.returned ++ v.answer.toList := by
  rw [turn_next, returned, List.filterMap_append, returned]
  cases v.answer <;> rfl

theorem cache_turn_next (v : Visit) : (v.turn .next).cache = v.cache := by rw [turn_next]

/-- What was returned is the beginning of what the node stands for now, and the cursor stands right behind it. -/
structure Faithful (node : Option TypeNode) (v : Visit) : Prop where
  node_eq : v.cursor.node = node
  distinct : ∀ u, (v.cache.unions.members u).Nodup
  position : v.cursor.position = v.returned.length
  returned : v.returned <+: v.cache.members node

theorem faithful_start {c : NodeCache} (h : ∀ u, (c.unions.members u).Nodup) : (start c node).Faithful node :=
  ⟨rfl, h, rfl, List.nil_prefix⟩

namespace Faithful

theorem answer_eq (h : v.Faithful node) : v.answer = (v.cache.members node)[v.returned.length]? := by
  rw [Visit.answer_eq, h.node_eq, h.position]

theorem next (h : v.Faithful node) : (v.turn .next).Faithful node where
  node_eq := by
    rw [turn_next]
    exact h.node_eq
  distinct := by
    rw [cache_turn_next]
    exact h.distinct
  position := by
    rw [returned_turn_next, turn_next, List.length_append, ← h.position]
  returned := by
    -- one member more is taken
    have htake : (v.cache.members node).take (v.returned.length + 1) = v.returned ++ v.answer.toList := by
      rw [List.take_add_one, ← List.prefix_iff_eq_take.1 h.returned, ← h.answer_eq]
    rw [returned_turn_next, cache_turn_next, ← htake]
    exact List.take_prefix _ _

theorem merge (h : v.Faithful node) (key : SlotKey) (m : Option TypeNode) : (v.turn (.merge key m)).Faithful node where
  node_eq := h.node_eq
  distinct := by
    have hchange : NodeCache.Change (fun _ _ => True) v.cache (v.cache.setNode key m) := .merge key m fun _ _ => trivial
    exact hchange.nodup h.distinct
  position := h.position
  returned := h.returned.trans (NodeCache.isPrefix_members_setNode v.cache key m node)

/-- One turn keeps a visit faithful. -/
theorem turn (h : v.Faithful node) (t : Turn) : (v.turn t).Faithful node := by
  cases t with
  | next => exact h.next
  | merge key m => exact h.merge key m

end Faithful

/-! ## All turns -/

/-- While nothing is asked, a cursor and what it returned stay, and what its node stands for only grows. -/
theorem run_merges {merges : List Turn} (h : .next ∉ merges) (v : Visit) (node : Option TypeNode) :
    (v.run merges).returned = v.returned ∧ v.cache.members node <+: (v.run merges).cache.members node := by
  induction merges generalizing v with
  | nil => exact ⟨rfl, List.prefix_rfl⟩
  | cons t merges ih =>
    obtain ⟨ht, hmerges⟩ : .next ≠ t ∧ .next ∉ merges := by simpa using h
    cases t with
    | next => exact absurd rfl ht
    | merge key m =>
      obtain ⟨hreturned, hprefix⟩ := ih hmerges (v.turn (.merge key m))
      exact ⟨hreturned, (NodeCache.isPrefix_members_setNode v.cache key m node).trans hprefix⟩

namespace Faithful

theorem run (h : v.Faithful node) (turns : List Turn) : (v.run turns).Faithful node := by
  induction turns generalizing v with
  | nil => exact h
  | cons t turns ih => exact ih (h.turn t)

theorem returned_of_answer (h : v.Faithful node) (hnone : v.answer = none) : v.returned = v.cache.members node := by
  rw [h.answer_eq, List.getElem?_eq_none_iff] at hnone
  exact h.returned.eq_of_length_le hnone

/-- A cursor finds nothing exactly if it has returned everything that is there. -/
theorem answer_eq_none_iff (h : v.Faithful node) : v.answer = none ↔ ∀ n ∈ v.cache.members node, n ∈ v.returned := by
  constructor
  · intro hnone n hn
    rwa [h.returned_of_answer hnone]
  · intro hall
    rw [h.answer_eq, List.getElem?_eq_none_iff]
    exact ((NodeCache.nodup_members h.distinct).subperm hall).length_le

/-- A cursor that found nothing goes on with the first member that merges brought. -/
theorem resumes (h : v.Faithful node) (hnone : v.answer = none) {merges : List Turn} (hmerges : .next ∉ merges) :
    ∃ new, ((v.turn .next).run merges).cache.members node = v.cache.members node ++ new ∧
      ((v.turn .next).run merges).answer = new.head? := by
  obtain ⟨hreturned, new, hnew⟩ := run_merges hmerges (v.turn .next) node
  have hlength : ((v.turn .next).run merges).returned = v.cache.members node := by
    rw [hreturned, returned_turn_next, hnone, ← h.returned_of_answer hnone]
    exact List.append_nil _
  rw [cache_turn_next] at hnew
  refine ⟨new, hnew.symm, ?_⟩
  rw [(h.next.run merges).answer_eq, hlength, ← hnew, List.getElem?_append_right (Nat.le_refl _), Nat.sub_self,
    List.head?_eq_getElem?]

end Faithful

end Visit

/-- Whatever is merged while a cursor is in use: what it has returned are the first members of its node at that moment, no one
twice. It finds nothing exactly if it has returned all of them. And when it found nothing, then after further merges it
goes on with the first member that is new, if there is one. -/
theorem run_faithful {c : NodeCache} (h : NodeCache.Reached (fun _ _ => True) c) (node : Option TypeNode)
    (turns : List Turn) : ∃ v, (Visit.start c node).run turns = v ∧
      (v.returned = (v.cache.members node).take v.returned.length ∧ v.returned.Nodup) ∧
      (v.answer = none ↔ ∀ n ∈ v.cache.members node, n ∈ v.returned) ∧
      (v.answer = none → ∀ merges, .next ∉ merges → ∃ v', (v.turn .next).run merges = v' ∧
        ∃ new, v'.cache.members node = v.cache.members node ++ new ∧ v'.answer = new.head?) := by
  have hv : ((Visit.start c node).run turns).Faithful node := (Visit.faithful_start h.nodup).run turns
  refine ⟨_, rfl, ⟨List.prefix_iff_eq_take.1 hv.returned, ?_⟩, hv.answer_eq_none_iff, fun hnone merges hmerges => ?_⟩
  · exact (NodeCache.nodup_members hv.distinct).sublist hv.returned.sublist
  · exact ⟨_, rfl, hv.resumes hnone hmerges⟩

/-- Two slots share a union of two members, which the first one owns. -/
def sampleUnion : NodeCache :=
  ((NodeCache.empty.setNode (.decl ⟨0⟩) (some (.leaf ⟨0⟩))).setNode (.decl ⟨0⟩) (some (.leaf ⟨1⟩))).setNode (.decl ⟨1⟩)
    (some (.union ⟨0⟩))

theorem reached_sampleUnion : NodeCache.Reached (fun _ _ => True) sampleUnion :=
  ((NodeCache.Reached.empty.change (.merge _ _ fun _ _ => trivial)).change (.merge _ _ fun _ _ => trivial)).change
    (.merge _ _ fun _ _ => trivial)

/-- The union is visited to its end. Then the second slot gets a member, for which it copies the union, and the first one gets
two: the visit goes on with the first of these. -/
theorem run_faithful_shared : NodeCache.Reached (fun _ _ => True) sampleUnion ∧
    ∃ v, (Visit.start sampleUnion (some (.union ⟨0⟩))).run
        [.next, .merge (.decl ⟨0⟩) (some (.leaf ⟨2⟩)), .next, .next] = v ∧
      v.returned = [.leaf ⟨0⟩, .leaf ⟨1⟩, .leaf ⟨2⟩] ∧ v.answer = none ∧
      ∃ v', (v.turn .next).run [.merge (.decl ⟨1⟩) (some (.leaf ⟨3⟩)), .merge (.decl ⟨0⟩) (some (.leaf ⟨4⟩)),
          .merge (.decl ⟨0⟩) (some (.leaf ⟨5⟩))] = v' ∧
        v'.answer = some (.leaf ⟨4⟩) := by
  obtain ⟨v, hv, -, hnone, hresumes⟩ := run_faithful reached_sampleUnion (some (.union ⟨0⟩))
    [.next, .merge (.decl ⟨0⟩) (some (.leaf ⟨2⟩)), .next, .next]
  have hanswer : v.answer = none := hnone.2 (hv ▸ by decide)
  refine ⟨reached_sampleUnion, v, hv, hv ▸ by decide, hanswer, ?_⟩
  obtain ⟨v', hv', new, hnew, hfirst⟩ := hresumes hanswer [.merge (.decl ⟨1⟩) (some (.leaf ⟨3⟩)),
    .merge (.decl ⟨0⟩) (some (.leaf ⟨4⟩)), .merge (.decl ⟨0⟩) (some (.leaf ⟨5⟩))] (by simp)
  have hmembers : v'.cache.members (some (.union ⟨0⟩)) =
      v.cache.members (some (.union ⟨0⟩)) ++ [.leaf ⟨4⟩, .leaf ⟨5⟩] := by
    rw [← hv', ← hv]
    decide
  rw [List.append_cancel_left (hnew.symm.trans hmembers)] at hfirst
  exact ⟨v', hv', hfirst⟩

end Cursor

end LuaInfer
