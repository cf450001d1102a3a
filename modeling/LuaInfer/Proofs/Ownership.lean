import LuaInfer.Proofs.Cache
import Mathlib.Data.List.FinRange
import Mathlib.Data.List.Perm.Subperm
import Mathlib.Logic.Relation
/-!
# Caches that merges reach

A cache starts empty and is changed by merges, by starts of absent slots and by ends of slots, until it is
cleared. `NodeCache.setNode_appends`: whatever unions such merges name, also unions that do not exist,
a merge appends to a slot exactly what is missing there. `NodeCache.union_isolates`: if they name only unions that
exist, every union stands in the one slot that owns it, and a merge into a slot is seen elsewhere only
through the union that the slot owns.
-/

namespace LuaInfer

namespace NodeCache

variable {c c' : NodeCache} {key k : SlotKey} {n : TypeNode} {u : UnionId} {ok : NodeCache → TypeNode → Prop}

/-! ## What may happen to a cache -/

/-- A change of a cache that forgets nothing: the merge of a node that `ok` allows, the start of a slot that
is absent, or the end of a slot. -/
inductive Change (ok : NodeCache → TypeNode → Prop) : NodeCache → NodeCache → Prop
  | merge {c : NodeCache} (key : SlotKey) (node : Option TypeNode) (h : ∀ n, node = some n → ok c n) :
      Change ok c (c.setNode key node)
  | start {c : NodeCache} {key : SlotKey} (h : c.slot? key = none) : Change ok c (c.start key)
  | finish {c : NodeCache} (key : SlotKey) : Change ok c (c.finish key)

/-- The caches that changes reach from the empty one. Clearing a cache makes it empty again. -/
inductive Reached (ok : NodeCache → TypeNode → Prop) : NodeCache → Prop
  | empty : Reached ok .empty
  | change {c c' : NodeCache} : Reached ok c → Change ok c c' → Reached ok c'
  | clear {c : NodeCache} : Reached ok c → Reached ok .empty

/-- What holds of the empty cache and is kept by changes holds of all caches reached. -/
theorem Reached.invariant {P : NodeCache → Prop} (hempty : P .empty)
    (hchange : ∀ c c', P c → Change ok c c' → P c') (h : Reached ok c) : P c := by
  induction h with
  | empty | clear => exact hempty
  | change _ hc ih => exact hchange _ _ ih hc

/-! ## Merging appends -/

theorem Change.nodup (h : Change ok c c') (hc : ∀ u, (c.unions.members u).Nodup) :
    ∀ u, (c'.unions.members u).Nodup := by
  cases h with
  | start | finish => exact hc
  | merge key node =>
    cases node with
    | none => exact hc
    | some n =>
      rcases setNode_cases c key n with ⟨-, e⟩ | ⟨_, -, -, e⟩ | ⟨u, -, -, e⟩ | ⟨_, -, -, e⟩ <;> rw [e]
      · exact hc
      · exact hc
      · exact fun v => UnionArena.nodup_members_add hc
      · exact fun v => UnionArena.nodup_members_make hc

theorem Reached.nodup (h : Reached ok c) : ∀ u, (c.unions.members u).Nodup :=
  h.invariant wellFormed_empty.distinct fun _ _ hc hchange => hchange.nodup hc

/-- The node of a slot is the union that the slot owns. -/
def OwnsUnion (c : NodeCache) (key : SlotKey) (u : UnionId) : Prop :=
  c.node? key = some (.union u) ∧ c.unions.owner? u = some key

theorem OwnsUnion.setNode {node : Option TypeNode} (h : c.OwnsUnion k u) : (c.setNode key node).OwnsUnion k u := by
  obtain ⟨hnode, howner⟩ := h
  refine ⟨?_, owner?_setNode howner⟩
  by_cases hk : k = key
  · subst hk
    cases node with
    | none => exact hnode
    | some n =>
      rcases setNode_cases c k n with ⟨hnone, -⟩ | ⟨_, -, -, e⟩ | ⟨v, -, -, e⟩ | ⟨node, hother, hforeign, -⟩
      · rw [hnone] at hnode
        cases hnode
      · rw [e]
        exact hnode
      · rw [e]
        exact hnode
      · rw [hother] at hnode
        exact absurd howner (hforeign u (Option.some.inj hnode))
  · rw [node?, slot?_setNode_of_ne hk]
    exact hnode

/-- A slot keeps the union that it owns. -/
theorem OwnsUnion.change (h : c.OwnsUnion k u) (hc : Change ok c c') : c'.OwnsUnion k u := by
  cases hc with
  | merge key node => exact h.setNode
  | start habs =>
    refine ⟨?_, h.2⟩
    rw [node?_start, if_neg ?_]
    · exact h.1
    · rintro rfl
      have hnone := h.1
      rw [node?, habs] at hnone
      cases hnone
  | finish key => exact ⟨node?_finish.trans h.1, h.2⟩

theorem OwnsUnion.changes (h : c.OwnsUnion k u) (hc : Relation.ReflTransGen (Change ok) c c') : c'.OwnsUnion k u := by
  induction hc with
  | refl => exact h
  | tail _ hstep ih => exact ih.change hstep

/-- Whatever was merged before, a merge appends to the members of the slot, without repetition, those of the
node that are missing, in their order; to merge nothing changes nothing; no slot that exists changes its
state; and the union that a slot owns stays its node, until the cache is cleared. -/
theorem setNode_appends (h : Reached (fun _ _ => True) c) (key : SlotKey) :
    (∀ n, (c.setNode key (some n)).members ((c.setNode key (some n)).node? key) =
      c.members (c.node? key) ++ (c.members (some n)).filter (· ∉ c.members (c.node? key))) ∧
    (c.members (c.node? key)).Nodup ∧
    c.setNode key none = c ∧
    (∀ k st node, c.state? k = some st → (c.setNode key node).state? k = some st) ∧
    ∀ u, c.node? key = some (.union u) → c.unions.owner? u = some key →
      ∀ c', Relation.ReflTransGen (Change fun _ _ => True) c c' →
        ∀ node, (c'.setNode key node).node? key = some (.union u) := by
  refine ⟨fun n => ?_, ?_, rfl, fun k st node => state?_setNode, ?_⟩
  · rw [members_setNode h.nodup]
    exact Distinct.append_eq_filter (UnionArena.nodup_flatten h.nodup)
  · rcases c.node? key with _ | m
    · exact List.nodup_nil
    · exact UnionArena.nodup_flatten h.nodup
  · intro u hnode howner c' hchanges node
    have howns : c'.OwnsUnion key u := OwnsUnion.changes ⟨hnode, howner⟩ hchanges
    exact howns.setNode.1

/-- A slot that named a union before there was one, and then got a member: the first union that is made, for this slot,
is the one that it named. -/
def sampleDangling : NodeCache :=
  (empty.setNode (.decl ⟨0⟩) (some (.union ⟨0⟩))).setNode (.decl ⟨0⟩) (some (.leaf ⟨1⟩))

theorem reached_sampleDangling : Reached (fun _ _ => True) sampleDangling :=
  (Reached.empty.change (.merge _ _ fun _ _ => trivial)).change (.merge _ _ fun _ _ => trivial)

theorem setNode_appends_dangling :
    Reached (fun _ _ => True) sampleDangling ∧
    (sampleDangling.setNode (.decl ⟨0⟩) (some (.leaf ⟨2⟩))).members
      ((sampleDangling.setNode (.decl ⟨0⟩) (some (.leaf ⟨2⟩))).node? (.decl ⟨0⟩)) = [.leaf ⟨1⟩, .leaf ⟨2⟩] ∧
    ∀ c', Relation.ReflTransGen (Change fun _ _ => True) sampleDangling c' →
      ∀ node, (c'.setNode (.decl ⟨0⟩) node).node? (.decl ⟨0⟩) = some (.union ⟨0⟩) := by
  obtain ⟨happend, -, -, -, hkeep⟩ := setNode_appends reached_sampleDangling (.decl ⟨0⟩)
  refine ⟨reached_sampleDangling, (happend (.leaf ⟨2⟩)).trans ?_, hkeep ⟨0⟩ ?_ ?_⟩ <;> decide

/-! ## Unions that exist -/

/-- A merge of the node that a slot has changes nothing. -/
theorem setNode_self (h : c.node? key = some n) : c.setNode key (some n) = c := by
  simp [setNode, h]

/-- A slot gets a new union only for two nodes that differ. -/
theorem ne_of_setNode_eq {node : TypeNode} (h : c.node? key = some node)
    (e : c.setNode key (some n) = c.storeUnion key node n) : node ≠ n := by
  rintro rfl
  have hsize : c.unions.size = c.unions.size + 1 :=
    congrArg (fun c => c.unions.size) ((setNode_self h).symm.trans e) |>.trans UnionArena.size_make
  omega

theorem two_le_length_of_mem {xs : List TypeNode} {m n : TypeNode} (hm : m ∈ xs) (hn : n ∈ xs) (hne : m ≠ n) :
    2 ≤ xs.length := by
  have hpair : [m, n].Nodup := by simpa using hne
  have hsub : [m, n] ⊆ xs := by simp [hm, hn]
  exact (hpair.subperm hsub).length_le

/-- Merges that name unions that exist keep a cache well formed, and every union in it has two members. -/
structure Isolated (c : NodeCache) : Prop where
  wellFormed : c.WellFormed
  plural : ∀ u, u.index < c.unions.size → 2 ≤ (c.unions.members u).length

theorem isolated_empty : empty.Isolated := ⟨wellFormed_empty, by simp [empty, UnionArena.empty, UnionArena.size]⟩

namespace Isolated

/-- A node that exists stands for two nodes if it is a union. -/
theorem two_le_flatten (h : c.Isolated) (hn : c.unions.Holds n) (hu : n.isUnion = true) :
    2 ≤ (c.unions.flatten n).length := by
  cases n with
  | union u => exact h.plural u hn
  | _ => cases hu

/-- A new union of two nodes that differ has two members: those of the one that is a union, or both nodes. -/
theorem two_le_make {o : Option SlotKey} {m n : TypeNode} (h : c.Isolated) (hm : c.unions.Holds m)
    (hn : c.unions.Holds n) (hne : m ≠ n) : 2 ≤ ((c.unions.make o m n).2.members ⟨c.unions.size⟩).length := by
  rw [UnionArena.members_make_self, Distinct.nil_append h.wellFormed.flatten_distinct]
  have hleft : ∀ x ∈ c.unions.flatten m, x ∈ Distinct.append (c.unions.flatten m) (c.unions.flatten n) :=
    fun x hx => Distinct.mem_append.2 (.inl hx)
  have hright : ∀ x ∈ c.unions.flatten n, x ∈ Distinct.append (c.unions.flatten m) (c.unions.flatten n) :=
    fun x hx => Distinct.mem_append.2 (.inr hx)
  by_cases hmu : m.isUnion = true
  · exact Nat.le_trans (h.two_le_flatten hm hmu) (h.wellFormed.flatten_distinct.subperm hleft).length_le
  · by_cases hnu : n.isUnion = true
    · exact Nat.le_trans (h.two_le_flatten hn hnu) (h.wellFormed.flatten_distinct.subperm hright).length_le
    · have hself : ∀ x : TypeNode, ¬ x.isUnion = true → x ∈ c.unions.flatten x := by
        intro x hx
        cases x <;> simp_all [UnionArena.flatten, TypeNode.isUnion]
      exact two_le_length_of_mem (hleft m (hself m hmu)) (hright n (hself n hnu)) hne

theorem setNode {node : Option TypeNode} (h : c.Isolated) (hn : ∀ n, node = some n → c.unions.Holds n) :
    (c.setNode key node).Isolated := by
  refine ⟨h.wellFormed.setNode hn, ?_⟩
  cases node with
  | none => exact h.plural
  | some n =>
    rcases setNode_cases c key n with ⟨-, e⟩ | ⟨_, -, -, e⟩ | ⟨v, -, -, e⟩ | ⟨node, hk, -, e⟩
    · rw [e]
      exact h.plural
    · rw [e]
      exact h.plural
    · rw [e]
      intro u hu
      have hu' : u.index < c.unions.size := by simpa using hu
      change 2 ≤ ((c.unions.add v n).members u).length
      by_cases huv : u = v
      · subst huv
        rw [UnionArena.members_add_self hu']
        exact Nat.le_trans (h.plural u hu') (Distinct.isPrefix_append _ _).length_le
      · rw [UnionArena.members_add_of_ne huv]
        exact h.plural u hu'
    · have hne : node ≠ n := ne_of_setNode_eq hk e
      rw [e, storeUnion_eq, unions_store]
      intro u hu
      rcases UnionArena.lt_or_eq_of_lt_make hu with hlt | rfl
      · rw [UnionArena.members_make hlt]
        exact h.plural u hlt
      · exact h.two_le_make (h.wellFormed.known key node hk) (hn n rfl) hne

theorem change (h : c.Isolated) (hc : Change (fun c n => c.unions.Holds n) c c') : c'.Isolated := by
  cases hc with
  | merge key node hn => exact h.setNode hn
  | start habs => exact ⟨h.wellFormed.start habs, h.plural⟩
  | finish key => exact ⟨h.wellFormed.finish, h.plural⟩

/-- The slots that own a union are as many as the unions. -/
theorem size_unions_le (h : c.Isolated) : c.unions.size ≤ c.size := by
  -- list the owner of each union; no slot is listed twice, since it holds the union that it owns
  have howner : ∀ i : Fin c.unions.size, ∃ k, c.OwnsUnion k ⟨i⟩ := by
    intro i
    obtain ⟨k, hk⟩ := h.wellFormed.owner ⟨i⟩ i.isLt
    exact ⟨k, h.wellFormed.owned ⟨i⟩ k hk, hk⟩
  choose owner howns using howner
  have hinj : owner.Injective := by
    intro i j hij
    have hi := (howns i).1
    rw [hij, (howns j).1] at hi
    simp only [Option.some.injEq, TypeNode.union.injEq, UnionId.mk.injEq] at hi
    exact Fin.ext hi.symm
  have hnodup : ((List.finRange c.unions.size).map owner).Nodup := List.Nodup.map hinj (List.nodup_finRange _)
  have hsub : (List.finRange c.unions.size).map owner ⊆ c.slots.keys := by
    intro k hk
    obtain ⟨i, -, rfl⟩ := List.mem_map.1 hk
    have hnode := (howns i).1
    rw [Std.TreeMap.mem_keys, ← Std.TreeMap.isSome_getElem?_iff_mem]
    cases hs : c.slots[owner i]? with
    | none => simp [node?, slot?, hs] at hnode
    | some _ => rfl
  simpa [size, Std.TreeMap.length_keys] using (hnodup.subperm hsub).length_le

/-- A slot holds a union exactly if it has two members. -/
theorem isUnion_iff (h : c.Isolated) :
    (∃ u, c.node? k = some (.union u)) ↔ 2 ≤ (c.members (c.node? k)).length := by
  constructor
  · rintro ⟨u, hu⟩
    rw [hu]
    exact h.plural u (h.wellFormed.known k _ hu)
  · intro hlen
    rcases hk : c.node? k with _ | n
    · simp [hk, members] at hlen
    · cases n with
      | union u => exact ⟨u, rfl⟩
      | _ => simp [hk, members, UnionArena.flatten] at hlen

end Isolated

/-- A merge into a slot is seen in another one only through the union that the first one owns, and there the
same members arrive. -/
theorem members_setNode_of_ne {node : Option TypeNode} (h : c.WellFormed) (hk : k ≠ key) :
    (c.setNode key node).members ((c.setNode key node).node? k) = c.members (c.node? k) ∨
    ∃ u, c.node? k = some (.union u) ∧ c.OwnsUnion key u := by
  have hnode : (c.setNode key node).node? k = c.node? k := by rw [node?, slot?_setNode_of_ne hk, node?]
  rw [hnode]
  rcases hn : c.node? k with _ | m
  · exact .inl rfl
  · cases m with
    | union u =>
      by_cases ho : c.unions.owner? u = some key
      · exact .inr ⟨u, rfl, h.owned u key ho, ho⟩
      · exact .inl (UnionArena.members_eq (getElem?_setNode (h.known k _ hn) ho))
    | _ => exact .inl rfl

/-- Whatever merges of existing unions were made: every union has two members at least and stands in the one
slot that owns it, so there are at most as many unions as slots, and a slot holds a union exactly if it has two
members. A further merge changes the members of another slot only if that slot holds the union that the first one owns, and
then appends the same to both. -/
theorem union_isolates (h : Reached (fun c n => c.unions.Holds n) c) :
    (∀ u, u.index < c.unions.size → 2 ≤ (c.unions.members u).length ∧
      ∃! owner, c.unions.owner? u = some owner ∧ c.node? owner = some (.union u)) ∧
    c.unions.size ≤ c.size ∧
    (∀ k, (∃ u, c.node? k = some (.union u)) ↔ 2 ≤ (c.members (c.node? k)).length) ∧
    ∀ key node, (∀ n, node = some n → c.unions.Holds n) → ∀ k, k ≠ key →
      let c' := c.setNode key node
      c'.members (c'.node? k) = c.members (c.node? k) ∨
      (∃ u, c.node? k = some (.union u) ∧ c.unions.owner? u = some key) ∧
      ∃ new, c'.members (c'.node? k) = c.members (c.node? k) ++ new ∧
        c'.members (c'.node? key) = c.members (c.node? key) ++ new := by
  have hc : c.Isolated := h.invariant isolated_empty fun _ _ hc hchange => hc.change hchange
  refine ⟨fun u hu => ⟨hc.plural u hu, ?_⟩, hc.size_unions_le, fun k => hc.isUnion_iff, ?_⟩
  · obtain ⟨k, hk⟩ := hc.wellFormed.owner u hu
    refine ⟨k, ⟨hk, hc.wellFormed.owned u k hk⟩, fun k' hk' => ?_⟩
    exact Option.some.inj (hk'.1.symm.trans hk)
  · intro key node hn k hk
    rcases members_setNode_of_ne hc.wellFormed hk with hsame | ⟨u, hu, howns⟩
    · exact .inl hsame
    · -- both slots hold the union of `key`, before and after
      have hnode : (c.setNode key node).node? k = some (.union u) := by
        rw [node?, slot?_setNode_of_ne hk]
        exact hu
      obtain ⟨new, hnew⟩ := isPrefix_setNode hc.wellFormed key
      rw [howns.setNode.1, howns.1] at hnew
      refine .inr ⟨⟨u, hu, howns.2⟩, new, ?_, ?_⟩
      · rw [hnode, hu]
        exact hnew.symm
      · rw [howns.setNode.1, howns.1]
        exact hnew.symm

/-- The first slot has a union, the second one shares it, and the third one has copied it into its own. -/
def sampleShared : NodeCache :=
  ((((empty.setNode (.decl ⟨0⟩) (some (.leaf ⟨0⟩))).setNode (.decl ⟨0⟩) (some (.leaf ⟨1⟩))).setNode (.decl ⟨1⟩)
    (some (.union ⟨0⟩))).setNode (.decl ⟨2⟩) (some (.leaf ⟨2⟩))).setNode (.decl ⟨2⟩) (some (.union ⟨0⟩))

theorem reached_sampleShared : Reached (fun c n => c.unions.Holds n) sampleShared := by
  refine ((((Reached.empty.change (.merge _ _ ?_)).change (.merge _ _ ?_)).change (.merge _ _ ?_)).change
    (.merge _ _ ?_)).change (.merge _ _ ?_) <;> rintro n ⟨⟩
  · trivial
  · trivial
  · show 0 < UnionArena.size _
    decide
  · trivial
  · show 0 < UnionArena.size _
    decide

/-- A member that the first slot gets arrives in the second one and not in the third one. -/
theorem union_isolates_shared :
    Reached (fun c n => c.unions.Holds n) sampleShared ∧
    sampleShared.unions.size ≤ sampleShared.size ∧
    (∃! owner, sampleShared.unions.owner? ⟨0⟩ = some owner ∧ sampleShared.node? owner = some (.union ⟨0⟩)) ∧
    (sampleShared.setNode (.decl ⟨0⟩) (some (.leaf ⟨3⟩))).members
      ((sampleShared.setNode (.decl ⟨0⟩) (some (.leaf ⟨3⟩))).node? (.decl ⟨1⟩)) = [.leaf ⟨0⟩, .leaf ⟨1⟩, .leaf ⟨3⟩] ∧
    (sampleShared.setNode (.decl ⟨0⟩) (some (.leaf ⟨3⟩))).members
      ((sampleShared.setNode (.decl ⟨0⟩) (some (.leaf ⟨3⟩))).node? (.decl ⟨2⟩)) = [.leaf ⟨2⟩, .leaf ⟨0⟩, .leaf ⟨1⟩] := by
  obtain ⟨hunions, hsize, -, hother⟩ := union_isolates reached_sampleShared
  have hholds : ∀ n, some (TypeNode.leaf ⟨3⟩) = some n → sampleShared.unions.Holds n := by
    rintro n ⟨⟩
    trivial
  refine ⟨reached_sampleShared, hsize, (hunions ⟨0⟩ (by decide)).2, by decide, ?_⟩
  rcases hother (.decl ⟨0⟩) (some (.leaf ⟨3⟩)) hholds (.decl ⟨2⟩) (by decide) with hsame | ⟨⟨u, hu, hown⟩, -⟩
  · exact hsame.trans (by decide)
  · have hnode : sampleShared.node? (.decl ⟨2⟩) = some (.union ⟨1⟩) := by decide
    rw [hnode] at hu
    cases hu
    exact absurd hown (by decide)

end NodeCache

end LuaInfer
