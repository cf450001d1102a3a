import LuaInfer.Proofs.Keep
import LuaInfer.Proofs.Terminate
/-!
# Slots that nothing changes any more

A slot is firm if it is resolved, and the slot that owns the union in it is resolved too: rules merge only into slots in
progress, so its members stay as they are (`NodeCache.Firm.grows`). A resolved slot need not be firm, since it may share the
union of a slot that is still in progress.

Some declarations depend on nothing but one another: literals, documented types, classes. Let `K` be a set of them, closed
under rules (`Env.Closed`). Resolving one of them ends (`Env.compileSlot_closed_returns`), unions that they hold are owned by one of them
(`NodeCache.Housed`), and as soon as none of them is in progress all that are resolved are firm (`NodeCache.Housed.firm`).
-/

namespace LuaInfer

namespace NodeCache

variable {c c' : NodeCache} {key k : SlotKey} {T : Set SlotKey} {u : UnionId}

/-! ## Firm slots -/

/-- The slot is resolved, and so is the owner of the union in it. -/
structure Firm (c : NodeCache) (k : SlotKey) : Prop where
  state : c.state? k = some .resolved
  owner : ∀ u, c.node? k = some (.union u) → ∃ o, c.unions.owner? u = some o ∧ c.state? o = some .resolved

theorem slot?_of_state? {st : SlotState} (h : c.state? k = some st) : c.slot? k = some ⟨st, c.node? k⟩ := by
  obtain ⟨node, hs⟩ := state?_eq_some.1 h
  rw [hs, node?_of_slot? hs]

/-- Merges into slots that are not resolved leave a firm slot as it is, with its members. -/
theorem Firm.grows (h : c.Firm k) (hw : c.WellFormed) (hg : Grows T c c')
    (hT : ∀ k ∈ T, c.state? k ≠ some .resolved) :
    c'.Firm k ∧ c'.node? k = c.node? k ∧ c'.members (c'.node? k) = c.members (c.node? k) := by
  have hslot : c'.slot? k = some ⟨.resolved, c.node? k⟩ :=
    hg.slot k (fun hk => hT k hk h.state) _ (slot?_of_state? h.state)
  have hnode : c'.node? k = c.node? k := node?_of_slot? hslot
  refine ⟨⟨hg.state k _ h.state, fun u hu => ?_⟩, hnode, ?_⟩
  · rw [hnode] at hu
    obtain ⟨o, ho, hst⟩ := h.owner u hu
    exact ⟨o, hg.owner u o ho, hg.state o _ hst⟩
  · rw [hnode]
    refine hg.members_eq (hw.known k) fun u hu k' hk' ho => ?_
    obtain ⟨o, ho', hst⟩ := h.owner u hu
    rw [ho] at ho'
    cases ho'
    exact hT k' hk' hst

theorem Firm.start (h : c.Firm k) (habs : c.slot? key = none) : (c.start key).Firm k ∧ (c.start key).node? k = c.node? k := by
  have hne : ∀ k' st, c.state? k' = some st → k' ≠ key := by
    rintro k' st hst rfl
    rw [state?, habs] at hst
    cases hst
  have hstate : ∀ k' st, c.state? k' = some st → (c.start key).state? k' = some st := by
    intro k' st hst
    rw [state?, slot?_start, if_neg (hne k' st hst)]
    exact hst
  have hnode : (c.start key).node? k = c.node? k := by rw [node?_start, if_neg (hne k _ h.state)]
  refine ⟨⟨hstate k _ h.state, fun u hu => ?_⟩, hnode⟩
  obtain ⟨o, ho, hst⟩ := h.owner u (hnode ▸ hu)
  exact ⟨o, ho, hstate o _ hst⟩

theorem state?_finish (c : NodeCache) (key k : SlotKey) :
    (c.finish key).state? k = if k = key then some .resolved else c.state? k := by
  rw [state?, slot?_finish]
  split <;> rfl

theorem Firm.finish (h : c.Firm k) : (c.finish key).Firm k := by
  have hstate : ∀ k', c.state? k' = some .resolved → (c.finish key).state? k' = some .resolved := by
    intro k' hst
    rw [state?_finish]
    split
    · rfl
    · exact hst
  refine ⟨hstate k h.state, fun u hu => ?_⟩
  obtain ⟨o, ho, hst⟩ := h.owner u (by simpa using hu)
  exact ⟨o, ho, hstate o hst⟩

/-! ## Slots that share no union -/

/-- The slot has a node, and it is not a union of another slot. -/
def Own (c : NodeCache) (k : SlotKey) : Prop :=
  ∃ n, c.node? k = some n ∧ ∀ u, n = .union u → c.unions.owner? u = some k

/-- A slot that has a node of its own never comes to share a union. -/
theorem Own.setNode {node : Option TypeNode} (h : c.Own k) : (c.setNode key node).Own k := by
  obtain ⟨n, hn, hown⟩ := h
  by_cases hk : k = key
  · subst hk
    cases node with
    | none => exact ⟨n, hn, hown⟩
    | some m =>
      rcases setNode_cases c k m with ⟨hnone, -⟩ | ⟨_, -, -, e⟩ | ⟨v, hv, ho, e⟩ | ⟨current, -, -, e⟩
      · rw [hnone] at hn
        cases hn
      · rw [e]
        exact ⟨n, hn, hown⟩
      · rw [e]
        refine ⟨.union v, hv, ?_⟩
        rintro u ⟨⟩
        exact UnionArena.owner?_add.trans ho
      · rw [e, storeUnion_eq]
        refine ⟨.union ⟨c.unions.size⟩, by rw [node?_store, if_pos rfl], ?_⟩
        rintro u ⟨⟩
        exact UnionArena.owner?_make_self
  · refine ⟨n, by rw [node?, slot?_setNode_of_ne hk]; exact hn, fun u hu => owner?_setNode (hown u hu)⟩

theorem Own.grows (h : c.Own k) (hg : Grows T c c') (hk : k ∉ T) : c'.Own k := by
  obtain ⟨n, hn, hown⟩ := h
  obtain ⟨slot, hs, hnode⟩ := Option.bind_eq_some_iff.1 hn
  refine ⟨n, ?_, fun u hu => hg.owner u k (hown u hu)⟩
  rw [node?_of_slot? (hg.slot k hk slot hs), hnode]

theorem node?_setNode_of_none {n : TypeNode} (h : c.node? key = none) :
    (c.setNode key (some n)).node? key = some n := by
  rw [setNode, h]
  exact node?_store.trans (if_pos rfl)

/-- A slot that is given a node first has it for its own, unless it is a union. -/
theorem own_setNode {n : TypeNode} (h : c.node? key = none) (hn : n.isUnion = false) :
    (c.setNode key (some n)).Own key := by
  refine ⟨n, node?_setNode_of_none h, ?_⟩
  rintro u rfl
  cases hn

theorem absorbs_own : Absorbs key fun c => c.WellFormed ∧ c.Own k :=
  ⟨fun _ h => h.1, fun _ _ h hn => ⟨h.1.setNode hn, h.2.setNode⟩⟩

/-- A slot that has a node of its own is firm once it is resolved. -/
theorem Own.firm (h : c.Own k) (hst : c.state? k = some .resolved) : c.Firm k := by
  obtain ⟨n, hn, hown⟩ := h
  refine ⟨hst, fun u hu => ⟨k, hown u ?_, hst⟩⟩
  exact Option.some.inj (hn.symm.trans hu)

/-! ## Sets of declarations that depend on nothing else -/

variable {K : Set DeclId} {d : DeclId}

/-- None of the declarations is in progress. -/
def Still (K : Set DeclId) (c : NodeCache) : Prop := ∀ d ∈ K, c.state? (.decl d) ≠ some .inProgress

/-- The unions that the declarations hold are owned by one of them. -/
def Housed (K : Set DeclId) (c : NodeCache) : Prop :=
  ∀ d ∈ K, ∀ u, c.node? (.decl d) = some (.union u) → ∃ e ∈ K, c.unions.owner? u = some (.decl e)

theorem Still.grows (h : Still K c) (hg : Grows T c c') : Still K c' := fun d hd hst => h d hd (hg.inProgress hst)

theorem Still.resolved (h : Still K c) (hd : d ∈ K) (hs : c.slot? (.decl d) ≠ none) :
    c.state? (.decl d) = some .resolved := by
  obtain ⟨⟨st, node⟩, hslot⟩ := Option.ne_none_iff_exists'.1 hs
  have hst : c.state? (.decl d) = some st := state?_eq_some.2 ⟨node, hslot⟩
  cases st with
  | resolved => exact hst
  | inProgress => exact absurd hst (h d hd)

/-- Where none of the declarations is in progress, those that have a slot are firm. -/
theorem Housed.firm (h : Housed K c) (hw : c.WellFormed) (hstill : Still K c) (hd : d ∈ K)
    (hs : c.slot? (.decl d) ≠ none) : c.Firm (.decl d) := by
  refine ⟨hstill.resolved hd hs, fun u hu => ?_⟩
  obtain ⟨e, he, ho⟩ := h d hd u hu
  refine ⟨.decl e, ho, hstill.resolved he fun hnone => ?_⟩
  -- the owner of a union has it as its node
  have hnode := hw.owned u _ ho
  rw [node?, hnone] at hnode
  cases hnode

/-- Merging into a slot of none of the declarations keeps their unions housed. -/
theorem Housed.setNode_of_not_mem {node : Option TypeNode} (h : Housed K c) (hkey : ∀ d ∈ K, key ≠ .decl d) :
    Housed K (c.setNode key node) := by
  intro d hd u hu
  rw [node?, slot?_setNode_of_ne (hkey d hd).symm] at hu
  obtain ⟨e, he, ho⟩ := h d hd u hu
  exact ⟨e, he, owner?_setNode ho⟩

/-- So does merging a node of one of them into another. -/
theorem Housed.setNode {node : Option TypeNode} (h : Housed K c) (hd : d ∈ K)
    (hnode : ∀ u, node = some (.union u) → ∃ e ∈ K, c.unions.owner? u = some (.decl e)) :
    Housed K (c.setNode (.decl d) node) := by
  intro e he u hu
  by_cases hed : e = d
  · subst hed
    cases node with
    | none => exact h e he u hu
    | some n =>
      rcases setNode_cases c (.decl e) n with ⟨-, eq⟩ | ⟨_, -, -, eq⟩ | ⟨v, -, -, eq⟩ | ⟨current, -, -, eq⟩ <;> rw [eq] at hu ⊢
      · rw [node?_store, if_pos rfl] at hu
        exact hnode u hu
      · exact h e he u hu
      · obtain ⟨o, ho, howner⟩ := h e he u hu
        exact ⟨o, ho, UnionArena.owner?_add.trans howner⟩
      · rw [storeUnion_eq, node?_store, if_pos rfl] at hu
        cases hu
        exact ⟨e, he, UnionArena.owner?_make_self⟩
  · have hne : SlotKey.decl e ≠ .decl d := fun h => hed (SlotKey.decl.inj h)
    rw [node?, slot?_setNode_of_ne hne] at hu
    obtain ⟨o, ho, howner⟩ := h e he u hu
    exact ⟨o, ho, owner?_setNode howner⟩

theorem Housed.start (h : Housed K c) : Housed K (c.start key) := by
  intro d hd u hu
  rw [node?_start] at hu
  split at hu
  · cases hu
  · exact h d hd u hu

theorem Housed.finish (h : Housed K c) : Housed K (c.finish key) :=
  fun d hd u hu => h d hd u (by simpa using hu)

end NodeCache

theorem Compile.Visiting.keeps_own {compile : Compile} {k : SlotKey} (hv : compile.Visiting) :
    compile.Keeps fun c => c.WellFormed ∧ c.Own k := by
  intro key s node s' hs h
  have hvisit := hv _ _ _ _ hs.1 h
  exact ⟨hvisit.wellFormed, hs.2.grows hvisit.grows.cache (by simp)⟩

namespace Env

variable {env : Env} {K : Set DeclId} {d : DeclId} {fuel N : Nat} {s : Session}

/-- The rules of the declarations take nothing but nodes and one another. -/
def Closed (env : Env) (K : Set DeclId) : Prop :=
  ∀ d ∈ K, ∀ st ∈ env.declRule d, (∃ n, st = .own n) ∨ ∃ e ∈ K, st = .merge e

/-- Carrying out the rule of such a declaration ends if resolving the others does. -/
theorem runRule_closed_returns (hK : env.Closed K) (hd : d ∈ K)
    (hc : ∀ e ∈ K, ∀ t : Session, t.cache.WellFormed → env.absent N t < fuel →
      ∃ node t', (env.compileSlot fuel (.decl e)).run t = .ok (node, t'))
    (hw : s.cache.WellFormed) (hfuel : env.declRule d ≠ [] → env.absent N s < fuel) :
    ∃ s', (runRule env (env.compileSlot fuel) fuel (.decl d)).run s = .ok ((), s') := by
  by_cases hempty : env.declRule d = []
  · exact ⟨s, by rw [runRule, hempty]; rfl⟩
  · have hstep : ∀ st ∈ env.declRule d, ∀ t : Session, t.cache.WellFormed ∧ env.absent N t < fuel →
        ∃ t', (runStep env (env.compileSlot fuel) fuel (.decl d) st).run t = .ok ((), t') ∧
          t'.cache.WellFormed ∧ env.absent N t' < fuel := by
      rintro st hst t ⟨ht, habsent⟩
      have hreturns : ∃ t', (runStep env (env.compileSlot fuel) fuel (.decl d) st).run t = .ok ((), t') := by
        rcases hK d hd st hst with ⟨n, rfl⟩ | ⟨e, he, rfl⟩
        · exact ⟨_, rfl⟩
        · obtain ⟨node, t', hr⟩ := hc e he t ht habsent
          exact ⟨_, Resolve.run_bind_of hr⟩
      obtain ⟨t', hr⟩ := hreturns
      have hmem : st ∈ env.rule (.decl d) := hst
      obtain ⟨ht', hg⟩ := runStep_evolves (env.compileSlot_visits fuel) hmem hr ht
      exact ⟨t', hr, ht', Nat.lt_of_le_of_lt (absent_mono fun k => hg.cache.exists_slot) habsent⟩
    obtain ⟨s', hr, -⟩ := Resolve.forM_returns _ hstep ⟨hw, hfuel hempty⟩
    exact ⟨s', hr⟩

/-- Resolving a declaration that depends on nothing but the others ends: whenever a rule is entered, one slot less is
absent. -/
theorem compileSlot_closed_returns (hK : env.Closed K) (hd : d ∈ K) (hw : s.cache.WellFormed)
    (hfuel : env.absent N s < fuel) : ∃ node s', (env.compileSlot fuel (.decl d)).run s = .ok (node, s') := by
  induction fuel generalizing d s with
  | zero => cases hfuel
  | succ fuel ih =>
    cases hs : s.cache.slot? (.decl d) with
    | some slot => exact ⟨_, _, compileSlot_of_slot hs⟩
    | none =>
      obtain ⟨t, hr⟩ := runRule_closed_returns (N := N) (s := s.start (.decl d) (env.slotKind (.decl d))) hK hd
        (fun e he t ht habsent => ih he ht habsent) (hw.start hs) fun hrule => by
          obtain ⟨st, hst⟩ := List.exists_mem_of_ne_nil _ hrule
          have hrule : st ∈ env.rule (.decl d) := hst
          have hmem : SlotKey.decl d ∈ env.slotsUpTo N := mem_slotsUpTo_of_mem_rule hrule (Nat.zero_le _)
          exact Nat.lt_of_lt_of_le (absent_start hs hmem _) (Nat.le_of_lt_succ hfuel)
      exact ⟨_, _, compileSlot_of_rule hs hr⟩

/-! ## What such declarations hold -/

/-- A slot of one of the declarations may hold what one of them is by itself. -/
def Inside (env : Env) (K : Set DeclId) (k : SlotKey) (n : TypeNode) : Prop := ∀ d ∈ K, k = .decl d → ∃ e ∈ K, env.Owns e n

/-- The cache is well-formed, and the slots of the declarations hold only what they are by themselves. -/
def Confines (env : Env) (K : Set DeclId) (c : NodeCache) : Prop := c.WellFormed ∧ c.Sound (env.Inside K)

theorem absorbs_confines {key : SlotKey} (hkey : ∀ d ∈ K, key ≠ .decl d) : NodeCache.Absorbs key (env.Confines K) where
  wellFormed _ h := h.1
  setNode c node h hn := by
    refine ⟨h.1.setNode hn, h.2.setNode fun n hnode => ?_⟩
    have hinside : ∀ m, env.Inside K key m := fun m d hd heq => absurd heq (hkey d hd)
    cases n with
    | union u =>
      obtain ⟨owner, ho⟩ := h.1.owner u (hn _ hnode)
      exact ⟨owner, ho, fun m _ => hinside m⟩
    | _ => exact hinside _

section
variable {compile : Compile} {s' : Session} {key : SlotKey} {st : Step} {u : Unit} (hv : compile.Visiting)
  (hk : compile.Keeps (env.Confines K)) (hK : env.Closed K)
include hv hk hK

theorem runStep_confines (hst : st ∈ env.rule key) (hs : env.Confines K s.cache)
    (h : (runStep env compile fuel key st).run s = .ok (u, s')) : env.Confines K s'.cache := by
  by_cases hin : ∃ d ∈ K, key = .decl d
  · obtain ⟨d, hd, rfl⟩ := hin
    rcases hK d hd st hst with ⟨n, rfl⟩ | ⟨e, he, rfl⟩
    · obtain ⟨_, heq, hown⟩ := explains_declRule hst
      cases heq
      rw [Resolve.mergeNode_ok h]
      have hinside : ∀ m, some n = some m → s.cache.Justified (env.Inside K) (.decl d) m := by
        rintro m ⟨⟩
        exact .of_flat hown.not_union fun _ _ _ => ⟨d, hd, hown⟩
      exact ⟨hs.1.setNode (UnionArena.holds_some hown.not_union), hs.2.setNode hinside⟩
    · obtain ⟨node, t, hr, h⟩ := Resolve.bind_ok h
      rw [Resolve.mergeNode_ok h]
      have hvisit := hv _ _ _ _ hs.1 hr
      have ht := hk _ _ _ _ hs hr
      refine ⟨ht.1.setNode hvisit.holds, ht.2.setNode fun n hn => ?_⟩
      exact (ht.2.node _ n (hvisit.node.trans hn)).feed fun m hm _ _ _ => hm e he rfl
  · exact runStep_keeps (absorbs_confines fun d hd heq => hin ⟨d, hd, heq⟩) hv hk hst hs h

theorem runRule_confines (hs : env.Confines K s.cache) (h : (runRule env compile fuel key).run s = .ok (u, s')) :
    env.Confines K s'.cache := by
  have hsteps : ∀ {u : Unit}, ((env.rule key).forM (runStep env compile fuel key)).run s = .ok (u, s') →
      env.Confines K s'.cache :=
    Resolve.forM_ok (fun t => env.Confines K t.cache) (fun _ hst _ _ ht hr => runStep_confines hv hk hK hst ht hr) hs
  cases key with
  | decl d => exact hsteps h
  | ret f index => exact hsteps h
  | generic i => exact runRule_keeps (absorbs_confines (by simp)) hv hk hs h

end

/-- Whatever slot is resolved, the slots of the declarations hold only what they are by themselves. -/
theorem compileSlot_confines (hK : env.Closed K) (fuel : Nat) : Compile.Keeps (env.Confines K) (env.compileSlot fuel) := by
  refine compileSlot_keeps (fun c key hc habs => ⟨hc.1.start habs, hc.2.start⟩) (fun c key hc => ⟨hc.1.finish, hc.2.finish⟩)
    (fun fuel key s s' u hk hs _ hr => ?_) fuel
  exact runRule_confines (env.compileSlot_visits fuel) hk hK hs hr

end Env

/-- A query for such a declaration returns. -/
theorem Session.compileDecl_closed_returns {env : Env} {K : Set DeclId} {d : DeclId} {s : Session} (hK : env.Closed K)
    (hd : d ∈ K) (hw : s.cache.WellFormed) : ∃ node s', s.compileDecl env d = .ok (node, s') := by
  have hbudget := env.absent_lt_budget s 0
  exact Env.compileSlot_closed_returns hK hd hw (N := max 0 env.maxIndex) (Nat.lt_of_le_of_lt (by omega) hbudget)

end LuaInfer
