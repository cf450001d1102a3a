import LuaInfer.Proofs.Cache
import LuaInfer.Proofs.Run
import Mathlib.Data.Set.Insert
/-!
# Sessions only grow

While the rule of a slot runs, it merges into that slot alone, and the slot can add in place only to the
union that it owns. `Session.Grows T` says what is left when the slots of `T` are the ones merged into:
other slots keep their nodes, unions that no slot of `T` owns keep their members, no slot loses a member, and
slots that appear on the way are resolved. `Env.compileSlot_visits`: resolving a slot changes nothing that was there
before (`T = ∅`), whatever in-progress slots it meets. A new slot owns no union that exists, because
every union stands in the slot that owns it.
-/

namespace LuaInfer

/-! ## Caches -/

/-- From `c` to `c'`, only the slots of `T` were merged into. -/
structure NodeCache.Grows (T : Set SlotKey) (c c' : NodeCache) : Prop where
  slot : ∀ k ∉ T, ∀ slot, c.slot? k = some slot → c'.slot? k = some slot
  state : ∀ k st, c.state? k = some st → c'.state? k = some st
  fresh : ∀ k, c.slot? k = none → c'.state? k ≠ some .inProgress
  union : ∀ u, u.index < c.unions.size → (∀ k ∈ T, c.unions.owner? u ≠ some k) →
    c'.unions.unions[u.index]? = c.unions.unions[u.index]?
  owner : ∀ u k, c.unions.owner? u = some k → c'.unions.owner? u = some k
  members : ∀ k, c.members (c.node? k) <+: c'.members (c'.node? k)

namespace NodeCache.Grows

variable {T T' : Set SlotKey} {c c' c'' : NodeCache} {key : SlotKey}

theorem refl (T : Set SlotKey) (c : NodeCache) : Grows T c c where
  slot _ _ _ h := h
  state _ _ h := h
  fresh k h hs := by rw [state?, h] at hs; cases hs
  union _ _ _ := rfl
  owner _ _ h := h
  members _ := List.prefix_rfl

theorem exists_slot (h : Grows T c c') {k : SlotKey} (hk : c'.slot? k = none) : c.slot? k = none := by
  cases hs : c.slot? k with
  | none => rfl
  | some slot =>
    obtain ⟨node, hn⟩ := state?_eq_some.1 (h.state k slot.state (by rw [state?, hs, Option.map_some]))
    rw [hk] at hn
    cases hn

/-- A slot under way was under way before. -/
theorem inProgress (h : Grows T c c') {k : SlotKey} (hk : c'.state? k = some .inProgress) : c.state? k = some .inProgress := by
  cases hst : c.state? k with
  | none => exact absurd hk (h.fresh k (Option.map_eq_none_iff.1 hst))
  | some st => rw [← h.state k st hst, hk]

theorem trans (h : Grows T c c') (h' : Grows T c' c'') : Grows T c c'' where
  slot k hk slot hs := h'.slot k hk slot (h.slot k hk slot hs)
  state k st hs := h'.state k st (h.state k st hs)
  fresh k hk hs := h.fresh k hk (h'.inProgress hs)
  union u hu ho := by
    -- a union that no slot of `T` owned is still not owned by one
    have hu' : u.index < c'.unions.size := UnionArena.lt_size_of_eq (h.union u hu ho) hu
    have ho' : ∀ k ∈ T, c'.unions.owner? u ≠ some k := fun k hk => by
      rw [UnionArena.owner?, h.union u hu ho]
      exact ho k hk
    rw [h'.union u hu' ho', h.union u hu ho]
  owner u k ho := h'.owner u k (h.owner u k ho)
  members k := (h.members k).trans (h'.members k)

theorem mono (h : Grows T c c') (hT : T ⊆ T') : Grows T' c c' where
  slot k hk := h.slot k fun hk' => hk (hT hk')
  state := h.state
  fresh := h.fresh
  union u hu ho := h.union u hu fun k hk => ho k (hT hk)
  owner := h.owner
  members := h.members

theorem setNode {node : Option TypeNode} (hw : c.WellFormed) (hn : ∀ n, node = some n → c.unions.Holds n) :
    Grows {key} c (c.setNode key node) where
  slot k hk slot hs := by rwa [slot?_setNode_of_ne hk]
  state _ _ hs := state?_setNode hs
  fresh k hk hs := by
    by_cases hkey : k = key
    · subst hkey
      have hnone : c.node? k = none := by rw [node?, hk]; rfl
      cases node with
      | none => rw [NodeCache.setNode, state?, hk] at hs; cases hs
      | some n =>
        rw [NodeCache.setNode, hnone] at hs
        simp [state?, slot?_store, hk] at hs
    · rw [state?, slot?_setNode_of_ne hkey, hk] at hs
      cases hs
  union u hu ho := getElem?_setNode hu (ho key rfl)
  owner _ _ ho := owner?_setNode ho
  members := isPrefix_setNode hw

/-- The rule of a new slot, from start to finish, changes nothing that was there. -/
theorem of_rule (hw : c.WellFormed) (habs : c.slot? key = none) (h : Grows {key} (c.start key) c') :
    Grows ∅ c (c'.finish key) where
  slot k _ slot hs := by
    have hne : k ≠ key := by rintro rfl; rw [habs] at hs; cases hs
    rw [slot?_finish, if_neg hne]
    exact h.slot k hne slot (by rwa [slot?_start, if_neg hne])
  state k st hs := by
    have hne : k ≠ key := by rintro rfl; rw [state?, habs] at hs; cases hs
    rw [state?, slot?_finish, if_neg hne]
    exact h.state k st (by rwa [state?, slot?_start, if_neg hne])
  fresh k hk := by
    rw [state?, slot?_finish]
    split
    · simp
    · next hne => exact h.fresh k (by rwa [slot?_start, if_neg hne])
  union u hu _ := by
    refine h.union u hu fun k hk ho => ?_
    -- the owner of `u` has a node, and the new slot has none
    have hnode := hw.owned u k ho
    rw [node?, Set.mem_singleton_iff.1 hk, habs] at hnode
    cases hnode
  owner u k ho := h.owner u k ho
  members k := by
    rw [node?_finish]
    refine List.IsPrefix.trans ?_ (h.members k)
    rw [node?_start]
    split
    · next hk => rewrite [hk, node?, habs]; exact List.prefix_rfl
    · exact List.prefix_rfl

/-- A node whose union is not owned by a slot of `T` keeps its members. -/
theorem members_eq (h : Grows T c c') {node : Option TypeNode} (hn : ∀ n, node = some n → c.unions.Holds n)
    (ho : ∀ u, node = some (.union u) → ∀ k ∈ T, c.unions.owner? u ≠ some k) : c'.members node = c.members node := by
  rcases node with _ | n
  · rfl
  · cases n with
    | union u => exact UnionArena.members_eq (h.union u (hn _ rfl) (ho u rfl))
    | _ => rfl

/-- A slot that is not merged into keeps its members, whoever else adds to unions of their own. -/
theorem members_slot (h : Grows ∅ c c') (hw : c.WellFormed) {k : SlotKey} (hk : c.slot? k ≠ none) :
    c'.members (c'.node? k) = c.members (c.node? k) := by
  obtain ⟨slot, hs⟩ := Option.ne_none_iff_exists'.1 hk
  rw [node?_of_slot? (h.slot k (by simp) slot hs), node?_of_slot? hs]
  refine h.members_eq (fun n hn => hw.known k n ?_) (by simp)
  rw [node?_of_slot? hs, hn]

end NodeCache.Grows

namespace NodeCache

variable {c : NodeCache} {key target : SlotKey}

/-- The slot does not share the union of another one that is not finished. -/
def CalmAt (c : NodeCache) (key : SlotKey) : Prop :=
  ∀ u, c.node? key = some (.union u) → ∃ o, c.unions.owner? u = some o ∧ (o = key ∨ c.state? o = some .resolved)

/-- A slot may get a node whose union, if it is one, is that of a finished slot. -/
theorem CalmAt.setNode {node : Option TypeNode} (h : c.CalmAt key) (hw : c.WellFormed)
    (hh : ∀ n, node = some n → c.unions.Holds n)
    (hnode : ∀ u, node = some (.union u) → ∃ o, c.unions.owner? u = some o ∧ c.state? o = some .resolved) :
    (c.setNode target node).CalmAt key := by
  have hg : Grows {target} c (c.setNode target node) := .setNode hw hh
  have hkeep : ∀ {u}, (∃ o, c.unions.owner? u = some o ∧ (o = key ∨ c.state? o = some .resolved)) →
      ∃ o, (c.setNode target node).unions.owner? u = some o ∧
        (o = key ∨ (c.setNode target node).state? o = some .resolved) := by
    rintro u ⟨o, ho, hres⟩
    exact ⟨o, hg.owner u o ho, hres.imp_right (hg.state o _)⟩
  intro u hu
  by_cases hk : key = target
  · subst hk
    cases node with
    | none => exact h u hu
    | some n =>
      rcases setNode_cases c key n with ⟨-, e⟩ | ⟨_, -, -, e⟩ | ⟨v, hv, hown, e⟩ | ⟨_, -, -, e⟩
      · rw [e, node?_store, if_pos rfl] at hu
        cases hu
        obtain ⟨o, ho, hres⟩ := hnode u rfl
        exact hkeep ⟨o, ho, .inr hres⟩
      · refine hkeep (h u ?_)
        rwa [e] at hu
      · refine hkeep (h u ?_)
        rwa [e] at hu
      · rw [e] at hu ⊢
        rw [storeUnion_eq, node?_store, if_pos rfl] at hu
        cases hu
        exact ⟨key, UnionArena.owner?_make_self, .inl rfl⟩
  · refine hkeep (h u ?_)
    rwa [node?, slot?_setNode_of_ne hk] at hu

/-- No slot shares the union of another one that is not finished. -/
def Calm (c : NodeCache) : Prop := ∀ key, c.CalmAt key

namespace Calm

theorem setNode {node : Option TypeNode} (h : c.Calm) (hw : c.WellFormed) (hh : ∀ n, node = some n → c.unions.Holds n)
    (hnode : ∀ u, node = some (.union u) → ∃ o, c.unions.owner? u = some o ∧ c.state? o = some .resolved) :
    (c.setNode target node).Calm :=
  fun key => (h key).setNode hw hh hnode

theorem start (h : c.Calm) (habs : c.slot? key = none) : (c.start key).Calm := by
  intro k u hu
  rw [node?_start] at hu
  split at hu
  · cases hu
  · obtain ⟨o, ho, hres⟩ := h k u hu
    refine ⟨o, ho, hres.imp_right fun hst => ?_⟩
    rw [state?, slot?_start, if_neg]
    · exact hst
    · rintro rfl
      rw [state?, habs] at hst
      cases hst

theorem finish (h : c.Calm) : (c.finish key).Calm := by
  intro k u hu
  rw [node?_finish] at hu
  obtain ⟨o, ho, hres⟩ := h k u hu
  refine ⟨o, ho, hres.imp_right fun hst => ?_⟩
  rw [state?, slot?_finish]
  split
  · rfl
  · exact hst

end Calm

end NodeCache

/-! ## Sessions -/

/-- From `s` to `s'`, only the slots of `T` were merged into, and only rules of new slots ended. -/
structure Session.Grows (T : Set SlotKey) (s s' : Session) : Prop where
  cache : s.cache.Grows T s'.cache
  depth : s'.depth = s.depth
  cycles : s.stats.cycleHits ≤ s'.stats.cycleHits
  substitution : ∀ i sub, s.substitutions.get? i = some sub → s'.substitutions.get? i = some sub
  journal : ∃ events, s'.journal.toList = s.journal.toList ++ events ∧
    ∀ query key members, Event.ended query key members false ∈ events → s.cache.slot? key = none

/-- A well-formed session stays so and grows. -/
def Session.Evolves (T : Set SlotKey) (s s' : Session) : Prop :=
  s.cache.WellFormed → s'.cache.WellFormed ∧ s.Grows T s'

theorem Substitutions.get?_push {t : Substitutions} {i : GenericId} {sub new : Substitution}
    (h : t.get? i = some sub) : (t.push new).2.get? i = some sub := by
  obtain ⟨hlt, -⟩ := Array.getElem?_eq_some_iff.1 h
  rw [get?, push, Array.getElem?_push, if_neg (Nat.ne_of_lt hlt)]
  exact h

theorem DepthCounter.leave_enter {c d : DepthCounter} (h : c.enter = (true, d)) : d.leave = .ok c := by
  unfold enter at h
  split at h
  · cases h
  · cases h
    simp [leave]

namespace Session

variable {T T' : Set SlotKey} {s s' s'' : Session} {key : SlotKey}

theorem slot?_start {k : SlotKey} {kind : String} :
    (s.start key kind).cache.slot? k = if k = key then some ⟨.inProgress, none⟩ else s.cache.slot? k :=
  NodeCache.slot?_start

theorem slot?_finish {k : SlotKey} {query : Nat} :
    (s.finish query key).cache.slot? k = if k = key then some ⟨.resolved, s.cache.node? key⟩ else s.cache.slot? k :=
  NodeCache.slot?_finish

theorem slot?_setNode_of_ne {k : SlotKey} {node : Option TypeNode} (hk : k ≠ key) :
    (s.setNode key node).cache.slot? k = s.cache.slot? k :=
  NodeCache.slot?_setNode_of_ne hk

namespace Grows

theorem refl (T : Set SlotKey) (s : Session) : Grows T s s :=
  ⟨.refl T _, rfl, Nat.le_refl _, fun _ _ h => h, [], by simp, by simp⟩

theorem trans (h : Grows T s s') (h' : Grows T s' s'') : Grows T s s'' := by
  obtain ⟨es, he, hes⟩ := h.journal
  obtain ⟨es', he', hes'⟩ := h'.journal
  refine ⟨h.cache.trans h'.cache, h'.depth.trans h.depth, Nat.le_trans h.cycles h'.cycles,
    fun i sub hi => h'.substitution i sub (h.substitution i sub hi), es ++ es', ?_, ?_⟩
  · rw [he', he, List.append_assoc]
  · intro query key members hmem
    rcases List.mem_append.1 hmem with hm | hm
    · exact hes query key members hm
    · exact h.cache.exists_slot (hes' query key members hm)

theorem mono (h : Grows T s s') (hT : T ⊆ T') : Grows T' s s' :=
  ⟨h.cache.mono hT, h.depth, h.cycles, h.substitution, h.journal⟩

/-- An answer from a slot that exists leaves all slots as they are. -/
theorem hit (T : Set SlotKey) (s : Session) (kind : String) (state : SlotState) : Grows T s (s.hit key kind state) := by
  refine ⟨?_, ?_, ?_, ?_, [.started (s.lookups + 1) key kind,
    .ended (s.lookups + 1) key (s.cache.members (s.cache.node? key)).length true], ?_, by simp⟩
  · cases state <;> exact .refl T _
  · cases state <;> rfl
  · cases state <;> simp [Session.hit, noteStart, noteEnd]
  · cases state <;> exact fun _ _ h => h
  · cases state <;> simp [Session.hit, noteStart, noteEnd]

/-- The rule of a new slot, from start to finish, changes nothing that was there. -/
theorem of_rule {kind : String} {query : Nat} (hw : s.cache.WellFormed) (habs : s.cache.slot? key = none)
    (h : Grows {key} (s.start key kind) s') : Grows ∅ s (s'.finish query key) := by
  obtain ⟨es, he, hes⟩ := h.journal
  refine ⟨.of_rule hw habs h.cache, h.depth, h.cycles, h.substitution, .started (s.lookups + 1) key kind :: es ++
    [.ended query key ((s'.cache.finish key).members ((s'.cache.finish key).node? key)).length false], ?_, ?_⟩
  · simp only [Session.finish, noteEnd, Array.toList_push, he, Session.start, noteStart, List.append_assoc,
      List.cons_append, List.nil_append]
  · intro query' key' members hmem
    simp only [List.cons_append, List.mem_cons, reduceCtorEq, List.mem_append, Event.ended.injEq, List.not_mem_nil,
      or_false, false_or] at hmem
    rcases hmem with hmem | ⟨-, rfl, -, -⟩
    · have hk : (s.cache.start key).slot? key' = none := hes query' key' members hmem
      rw [NodeCache.slot?_start] at hk
      split at hk
      · cases hk
      · exact hk
    · exact habs

end Grows

namespace Evolves

theorem refl (T : Set SlotKey) (s : Session) : Evolves T s s := fun hw => ⟨hw, .refl T s⟩

theorem trans (h : Evolves T s s') (h' : Evolves T s' s'') : Evolves T s s'' := fun hw =>
  have ⟨hw', hg⟩ := h hw
  have ⟨hw'', hg'⟩ := h' hw'
  ⟨hw'', hg.trans hg'⟩

theorem mono (h : Evolves T s s') (hT : T ⊆ T') : Evolves T' s s' := fun hw => ⟨(h hw).1, (h hw).2.mono hT⟩

theorem setNode {node : Option TypeNode} (hn : s.cache.WellFormed → ∀ n, node = some n → s.cache.unions.Holds n) :
    Evolves {key} s (s.setNode key node) := fun hw =>
  ⟨hw.setNode (hn hw), .setNode hw (hn hw), rfl, Nat.le_refl _, fun _ _ h => h, [], by simp [Session.setNode], by simp⟩

/-- A node that is no union can be merged at any time. -/
theorem setNode_flat {n : TypeNode} (hn : n.isUnion = false) : Evolves {key} s (s.setNode key (some n)) :=
  setNode fun _ _ e => by cases e; exact UnionArena.holds_of_not_union hn

theorem addSubstitution (T : Set SlotKey) (s : Session) (sub : Substitution) :
    Evolves T s { s with substitutions := (s.substitutions.push sub).2 } := fun hw =>
  ⟨hw, .refl T _, rfl, Nat.le_refl _, fun _ _ h => Substitutions.get?_push h, [], by simp, by simp⟩

end Evolves

/-- What resolving a slot does: nothing that was there changes, and the slot has the node returned. -/
structure Visits (key : SlotKey) (s : Session) (node : Option TypeNode) (s' : Session) : Prop where
  wellFormed : s'.cache.WellFormed
  grows : s.Grows ∅ s'
  slot : ∃ st, s'.cache.slot? key = some ⟨st, node⟩

theorem Visits.node {node : Option TypeNode} (h : Visits key s node s') : s'.cache.node? key = node := by
  obtain ⟨st, hs⟩ := h.slot
  exact NodeCache.node?_of_slot? hs

theorem Visits.holds {node : Option TypeNode} (h : Visits key s node s') :
    ∀ n, node = some n → s'.cache.unions.Holds n :=
  fun n hn => h.wellFormed.known key n (h.node.trans hn)

end Session

end LuaInfer
