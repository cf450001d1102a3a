import LuaInfer.Proofs.Firm
/-!
# What is true of finished slots lasts

As long as no look-up has met a slot under way, a finished slot is firm: nobody shares the union of a slot that is still
under way, so the members of all finished slots stay as they are (`NodeCache.Lasts`). A property of a slot that is about its own
members, those of finished slots and substitutions (`Lasting`) then has to be shown only once, when the rule of the slot ends.
`Session.askAll_settles_values` says so for all sessions that queries reach without merging anything from outside.
-/

namespace LuaInfer

theorem TypeNode.IsPlain.not_union {n : TypeNode} (h : n.IsPlain) : n.isUnion = false := by
  cases n with
  | union u => cases h
  | _ => rfl

namespace NodeCache

variable {c c' c'' : NodeCache} {T : Set SlotKey} {key k : SlotKey}

/-- The slots that are finished in `c` are finished in `c'`, with the same members. -/
def Lasts (c c' : NodeCache) : Prop :=
  ∀ k, c.state? k = some .resolved →
    c'.state? k = some .resolved ∧ c'.members (c'.node? k) = c.members (c.node? k)

theorem Calm.firm (h : c.Calm) (hk : c.state? k = some .resolved) : c.Firm k := by
  refine ⟨hk, fun u hu => ?_⟩
  obtain ⟨o, ho, rfl | hres⟩ := h k u hu
  · exact ⟨o, ho, hk⟩
  · exact ⟨o, ho, hres⟩

theorem Calm.lasts (h : c.Calm) (hw : c.WellFormed) (hg : c.Grows T c') (hT : ∀ k ∈ T, c.state? k ≠ some .resolved) :
    c.Lasts c' := by
  intro k hk
  obtain ⟨hfirm, -, hmembers⟩ := (h.firm hk).grows hw hg hT
  exact ⟨hfirm.state, hmembers⟩

theorem Calm.lasts_start (h : c.Calm) (habs : c.slot? key = none) : c.Lasts (c.start key) := by
  intro k hk
  obtain ⟨hfirm, hnode⟩ := (h.firm hk).start habs
  exact ⟨hfirm.state, by rw [hnode]; rfl⟩

theorem Calm.lasts_finish (h : c.Calm) : c.Lasts (c.finish key) :=
  fun _ hk => ⟨(h.firm hk).finish.state, by rw [node?_finish]; rfl⟩

end NodeCache

/-- Finished slots and substitutions are as before. -/
structure Session.Lasts (s s' : Session) : Prop where
  finished : s.cache.Lasts s'.cache
  substitution : ∀ i sub, s.substitutions.get? i = some sub → s'.substitutions.get? i = some sub

/-- A property of a slot that is about its members, finished slots and substitutions. -/
def Lasting (V : Session → SlotKey → Prop) : Prop :=
  ∀ {s s' k}, s.Lasts s' → s'.cache.members (s'.cache.node? k) = s.cache.members (s.cache.node? k) → V s k → V s' k

namespace Session

variable {env : Env} {s s' : Session} {T : Set SlotKey} {target key k : SlotKey} {n : TypeNode}
  {V : Session → SlotKey → Prop}

/-- If no look-up has met a slot under way, finished slots are as `V` says. -/
structure Settles (V : Session → SlotKey → Prop) (s : Session) : Prop where
  wellFormed : s.cache.WellFormed
  calm : s.stats.cycleHits = 0 → s.cache.Calm
  value : s.stats.cycleHits = 0 → ∀ k, s.cache.state? k = some .resolved → V s k

/-- The union of a node is that of a finished slot, if no look-up has met a slot under way. -/
def Shares (s : Session) (n : TypeNode) : Prop :=
  ∀ u, n = .union u → s.stats.cycleHits = 0 → ∃ o, s.cache.unions.owner? u = some o ∧ s.cache.state? o = some .resolved

theorem shares_of_flat (hn : n.isUnion = false) : s.Shares n := by
  rintro u rfl
  cases hn

theorem Shares.grows (h : s.Shares n) (hg : s.Grows T s') : s'.Shares n := by
  intro u hu h0
  obtain ⟨o, ho, hst⟩ := h u hu (Nat.le_zero.1 (h0 ▸ hg.cycles))
  exact ⟨o, hg.cache.owner u o ho, hg.cache.state o _ hst⟩

namespace Settles

/-- Where there is no slot, none is finished. -/
theorem of_empty (V : Session → SlotKey → Prop) (hcache : s.cache = .empty) : s.Settles V := by
  have hslot : ∀ k, s.cache.slot? k = none := fun k => by rw [hcache]; exact slot?_fresh
  refine ⟨hcache ▸ NodeCache.wellFormed_empty, fun _ k u hu => ?_, fun _ k hk => ?_⟩
  · rw [NodeCache.node?, hslot] at hu
    cases hu
  · rw [NodeCache.state?, hslot] at hk
    cases hk

theorem shares_of_resolved (h : s.Settles V) (hn : s.cache.node? k = some n)
    (hk : s.stats.cycleHits = 0 → s.cache.state? k = some .resolved) : s.Shares n := by
  rintro u rfl h0
  exact ((h.calm h0).firm (hk h0)).owner u hn

/-- While nothing but slots under way is merged into, what is finished stays. -/
theorem lasts (h : s.Settles V) (hg : s.Grows T s') (hT : ∀ k ∈ T, s.cache.state? k ≠ some .resolved)
    (h0 : s'.stats.cycleHits = 0) : s.Lasts s' :=
  ⟨(h.calm (Nat.le_zero.1 (h0 ▸ hg.cycles))).lasts h.wellFormed hg.cache hT, hg.substitution⟩

variable (hV : Lasting V)
include hV

theorem congr (h : s.Settles V) (hcache : s'.cache = s.cache)
    (hsubs : ∀ i sub, s.substitutions.get? i = some sub → s'.substitutions.get? i = some sub)
    (hcycles : s.stats.cycleHits ≤ s'.stats.cycleHits) : s'.Settles V := by
  have h0 : s'.stats.cycleHits = 0 → s.stats.cycleHits = 0 := fun h0 => Nat.le_zero.1 (h0 ▸ hcycles)
  have hlasts : s.Lasts s' := ⟨fun k hk => by rw [hcache]; exact ⟨hk, rfl⟩, hsubs⟩
  refine ⟨hcache ▸ h.wellFormed, fun h' => hcache ▸ h.calm (h0 h'), fun h' k hk => ?_⟩
  exact hV hlasts (by rw [hcache]) (h.value (h0 h') k (by rwa [← hcache]))

theorem setNode (h : s.Settles V) (ht : s.cache.state? target = some .inProgress) (hn : s.Shares n)
    (hholds : s.cache.unions.Holds n) : (s.setNode target (some n)).Settles V := by
  have hh : ∀ m, some n = some m → s.cache.unions.Holds m := by
    rintro _ ⟨⟩
    exact hholds
  have hset : s.Evolves {target} (s.setNode target (some n)) := .setNode fun _ => hh
  obtain ⟨hw, hg⟩ := hset h.wellFormed
  have hT : ∀ k ∈ ({target} : Set SlotKey), s.cache.state? k ≠ some .resolved := by
    rintro _ rfl hk
    rw [ht] at hk
    cases hk
  refine ⟨hw, fun h0 => (h.calm h0).setNode h.wellFormed hh ?_, fun h0 k hk => ?_⟩
  · rintro u ⟨⟩
    exact hn u rfl h0
  · have hlasts := h.lasts hg hT h0
    have hne : k ≠ target := by
      rintro rfl
      rw [hg.cache.state _ _ ht] at hk
      cases hk
    have hk' : s.cache.state? k = some .resolved := by rwa [NodeCache.state?, slot?_setNode_of_ne hne] at hk
    exact hV hlasts (hlasts.finished k hk').2 (h.value h0 k hk')

theorem start (h : s.Settles V) (habs : s.cache.slot? key = none) (kind : String) : (s.start key kind).Settles V := by
  refine ⟨h.wellFormed.start habs, fun h0 => (h.calm h0).start habs, fun h0 k hk => ?_⟩
  have hlasts : s.Lasts (s.start key kind) := ⟨(h.calm h0).lasts_start habs, fun _ _ hi => hi⟩
  have hk' : s.cache.state? k = some .resolved := by
    rw [NodeCache.state?, slot?_start] at hk
    split at hk
    · cases hk
    · exact hk
  exact hV hlasts (hlasts.finished k hk').2 (h.value h0 k hk')

/-- The rule of a slot ends, and the slot has become as `V` says. -/
theorem finish (h : s.Settles V) (query : Nat) (hvalue : s.stats.cycleHits = 0 → V s key) :
    (s.finish query key).Settles V := by
  refine ⟨h.wellFormed.finish, fun h0 => (h.calm h0).finish, fun h0 k hk => ?_⟩
  have hlasts : s.Lasts (s.finish query key) := ⟨(h.calm h0).lasts_finish, fun _ _ hi => hi⟩
  have hmembers : (s.cache.finish key).members ((s.cache.finish key).node? k) = s.cache.members (s.cache.node? k) := by
    rw [NodeCache.node?_finish]
    rfl
  refine hV hlasts hmembers ?_
  by_cases hkey : k = key
  · rw [hkey]
    exact hvalue h0
  · rw [NodeCache.state?, slot?_finish, if_neg hkey] at hk
    exact h.value h0 k hk

end Settles

end Session

/-- Finished slots are as `V` says, and only unions of finished slots are shared. -/
def Regime.settling (env : Env) {V : Session → SlotKey → Prop} (hV : Lasting V) : Regime env where
  Holds s := s.Settles V
  Allows s n := s.Shares n
  wellFormed h := h.wellFormed
  plain hn := Session.shares_of_flat (TypeNode.IsPlain.not_union hn)
  member h hn := Session.shares_of_flat (h.wellFormed.flatten_flat (n := .union _) _ hn)
  grows hg hn := hn.grows hg
  bind _ h := .congr hV h rfl (fun _ _ => Substitutions.get?_push) (Nat.le_refl _)
  new _ _ := Session.shares_of_flat rfl

namespace Env

variable {env : Env} {V : Session → SlotKey → Prop} {fuel : Nat} {target : SlotKey}

theorem absorbs_settling (hV : Lasting V) : ((Regime.settling env hV).during target).Absorbs target := by
  rintro s n ⟨hs, hst⟩ hn hholds
  exact ⟨hs.setNode hV hst hn hholds, NodeCache.state?_setNode hst⟩

/-- Unless a slot under way was met, the slot that is resolved is finished. -/
theorem compileSlot_finished {key : SlotKey} {s s' : Session} {node : Option TypeNode}
    (h : (env.compileSlot fuel key).run s = .ok (node, s')) (h0 : s'.stats.cycleHits = 0) :
    s'.cache.state? key = some .resolved := by
  cases fuel with
  | zero => cases h
  | succ fuel =>
    rcases compileSlot_ok h with ⟨slot, hslot, -, rfl⟩ | ⟨t, query, -, -, -, rfl⟩
    · have hst : s.cache.state? key = some slot.state := by rw [NodeCache.state?, hslot]; rfl
      cases hstate : slot.state with
      | inProgress =>
        -- the cycle was counted
        rw [hstate] at h0
        simp [Session.hit, Session.noteStart, Session.noteEnd] at h0
      | resolved =>
        rw [(Session.cache_hit ..).1]
        rwa [hstate] at hst
    · rw [NodeCache.state?, Session.slot?_finish, if_pos rfl]
      rfl

/-- Rules establish `V` for their slots, which have no node when the rule starts, so resolving a slot upholds it. -/
theorem compileSlot_settling (hV : Lasting V)
    (hrule : ∀ fuel key s t, (Regime.settling env hV).Serves (env.compileSlot fuel) →
      ((Regime.settling env hV).during key).Holds s → s.cache.node? key = none →
      (runRule env (env.compileSlot fuel) fuel key).run s = .ok ((), t) → t.stats.cycleHits = 0 → V t key)
    (fuel : Nat) : (Regime.settling env hV).Serves (env.compileSlot fuel) := by
  refine Regime.compileSlot_serves (fun s key slot hs hslot => ?_) (fun fuel key s t hc hs hkey habs hr => ?_) fuel
  · have hcache := (Session.cache_hit s key (env.slotKind key) slot.state).1
    have hg : s.Grows ∅ (s.hit key (env.slotKind key) slot.state) := .hit ∅ _ _ _
    have hs' : (s.hit key (env.slotKind key) slot.state).Settles V :=
      Session.Settles.congr hV hs hcache hg.substitution hg.cycles
    have hrun : (env.compileSlot 1 key).run s = .ok (slot.node, s.hit key (env.slotKind key) slot.state) :=
      compileSlot_of_slot hslot
    refine ⟨hs', fun n hn => hs'.shares_of_resolved (k := key) ?_ (compileSlot_finished hrun)⟩
    rw [hcache, NodeCache.node?_of_slot? hslot, hn]
  · have hempty : (s.start key (env.slotKind key)).cache.slot? key = some ⟨.inProgress, none⟩ := by
      rw [Session.slot?_start, if_pos rfl]
    have hstart : ((Regime.settling env hV).during key).Holds (s.start key (env.slotKind key)) :=
      ⟨Session.Settles.start hV hs habs _, NodeCache.state?_eq_some.2 ⟨none, hempty⟩⟩
    have hv := env.compileSlot_visits fuel
    have hrun := compileSlot_of_rule habs hr
    have hvis := env.compileSlot_visits (fuel + 1) _ _ _ _ hs.wellFormed hrun
    have ht : ((Regime.settling env hV).during key).Holds t := by
      refine Regime.runRule_upholds (R := (Regime.settling env hV).during key) (fun s depth h => ⟨?_, h.2⟩)
        (absorbs_settling hV) hv (hc.during hv key) hstart hr
      exact Session.Settles.congr hV h.1 rfl (fun _ _ hi => hi) (Nat.le_refl _)
    have hfinish : (t.finish (s.start key (env.slotKind key)).lookups key).Settles V :=
      Session.Settles.finish hV ht.1 _ (hrule fuel key _ t hc hstart (NodeCache.node?_of_slot? hempty) hr)
    exact ⟨hfinish, fun n hn => hfinish.shares_of_resolved (hvis.node.trans hn) (compileSlot_finished hrun)⟩

end Env

theorem Query.merges_of_isInquiry {q : Query} (h : q.isInquiry = true) : q.merges = false := by
  cases q <;> first | rfl | cases h

/-- Queries that merge nothing from outside leave finished slots as `V` says. -/
theorem Session.askAll_settles_values {env : Env} {V : Session → SlotKey → Prop} {hV : Lasting V} {qs : List Query}
    {answers : List Answer} {s s' : Session} (hc : ∀ fuel, (Regime.settling env hV).Serves (env.compileSlot fuel))
    (hqs : ∀ q ∈ qs, q.merges = false) (hs : s.Settles V) (h : s.askAll env qs = .ok (answers, s')) : s'.Settles V := by
  refine askAll_ok (fun t => t.Settles V) (fun q hq t _ t' ht ha => ?_) hs h
  by_cases hin : q.isInquiry = true
  · exact Regime.ask_upholds (R := Regime.settling env hV) hc hin (fun _ _ => shares_of_flat rfl) ht ha
  · cases q with
    | clear => cases ha; exact .of_empty V rfl
    | setNode key node => cases hqs _ hq
    | _ => exact absurd rfl hin

end LuaInfer
