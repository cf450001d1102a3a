import LuaInfer.Program.Command
import LuaInfer.Proofs.Visit
/-!
# Finished results are final

Between two queries nothing is under way (`Session.Idle`), and a query that only asks changes nothing
that is there (`Session.ask_evolves`). `Session.reached_final` puts the two together for every session
that queries reach, substitutions and merges from outside included: what is resolved stays as it is until
someone merges a node or clears the session.
-/

namespace LuaInfer

/-- A query that asks, and neither merges nor clears. -/
def Query.isInquiry : Query → Bool
  | .setNode .. | .clear => false
  | _ => true

/-- A query that merges a node from outside. -/
def Query.merges : Query → Bool
  | .setNode .. => true
  | _ => false

/-- A union that a query merges exists in the session. -/
def Query.Valid (s : Session) : Query → Prop
  | .setNode _ (some node) => s.cache.unions.Holds node
  | _ => True

/-- `local x = y; local y = x; x = {}`, where each local stands for the other. -/
def Env.sampleLoop : Env :=
  .of (Program.empty.build [.localVar "x" (some ⟨2⟩), .localVar "y" (some ⟨3⟩), .getLocal ⟨1⟩, .getLocal ⟨0⟩,
    .table [], .setLocal ⟨0⟩ ⟨4⟩]).2 {}

namespace Session

variable {env : Env} {s s' : Session} {q : Query} {a : Answer} {key : SlotKey}

/-! ## One query -/

theorem compile_visits {node : Option TypeNode} (hw : s.cache.WellFormed) (h : s.compile env key = .ok (node, s')) :
    Visits key s node s' :=
  env.compileSlot_visits _ key s node s' hw h

/-- An inquiry keeps what resolving any slot keeps. A search consists of such resolutions, and the search
of a class resolves nothing. -/
theorem ask_ok (I : Session → Prop)
    (hc : ∀ fuel key t node t', I t → (env.compileSlot fuel key).run t = .ok (node, t') → I t')
    (hq : q.isInquiry = true) (hs : I s) (h : s.ask env q = .ok (a, s')) : I s' := by
  have hunt : ∀ {fuel name hunt hunt' n t t'}, I t →
      (env.huntNode (env.compileSlot fuel) name fuel hunt n).run t = .ok (hunt', t') → I t' :=
    fun ht hh => Env.huntNode_ok I (fun i => hc _ (.generic i)) ht hh
  cases q with
  | decl d =>
    obtain ⟨⟨node, t⟩, hd, hr⟩ := Except.map_ok h
    cases hr
    exact hc _ _ _ _ _ hs hd
  | result f index =>
    obtain ⟨⟨node, t⟩, hd, hr⟩ := Except.map_ok h
    cases hr
    exact hc _ _ _ _ _ hs hd
  | generic i =>
    obtain ⟨⟨node, t⟩, hd, hr⟩ := Except.map_ok h
    cases hr
    exact hc _ _ _ _ _ hs hd
  | search n name =>
    obtain ⟨⟨ds, t⟩, hd, hr⟩ := Except.map_ok h
    cases hr
    obtain ⟨_, t', hh, hd⟩ := Resolve.bind_ok hd
    rw [(Resolve.lift_ok hd).2]
    exact hunt hs hh
  | searchMember base name =>
    obtain ⟨⟨ds, t⟩, hd, hr⟩ := Except.map_ok h
    cases hr
    obtain ⟨_, t', hh, hd⟩ := Resolve.bind_ok hd
    rw [(Resolve.lift_ok hd).2]
    obtain ⟨node, t₁, hb, hh⟩ := Resolve.bind_ok hh
    exact Resolve.foldMembers_ok (fun _ t => I t) (fun _ _ _ _ _ _ ht hf => hunt ht hf) (hc _ _ _ _ _ hs hb) hh
  | searchClass g name =>
    obtain ⟨ds, -, hr⟩ := Except.map_ok h
    cases hr
    exact hs
  | signature f => cases h; exact hs
  | setNode key node => cases hq
  | clear => cases hq

theorem ask_evolves (hq : q.isInquiry = true) (h : s.ask env q = .ok (a, s')) : s.Evolves ∅ s' :=
  ask_ok (fun t => s.Evolves ∅ t) (fun fuel _ _ _ _ ht hc => ht.trans (Env.compile_evolves (env.compileSlot_visits fuel) hc))
    hq (.refl _ _) h

/-- What one inquiry keeps, a list of them keeps. -/
theorem askAll_ok (I : Session → Prop) {qs : List Query} {answers : List Answer}
    (hstep : ∀ q ∈ qs, ∀ t b t', I t → t.ask env q = .ok (b, t') → I t') (hs : I s)
    (h : s.askAll env qs = .ok (answers, s')) : I s' := by
  induction qs generalizing s answers with
  | nil => cases h; exact hs
  | cons q qs ih =>
    obtain ⟨⟨b, t⟩, hq, h⟩ := Except.bind_ok h
    obtain ⟨⟨bs, t'⟩, hqs, h⟩ := Except.bind_ok h
    cases h
    exact ih (fun p hp => hstep p (by simp [hp])) (hstep q (by simp) _ _ _ hs hq) hqs

theorem askAll_evolves {qs : List Query} {answers : List Answer} (hqs : ∀ q ∈ qs, q.isInquiry = true)
    (h : s.askAll env qs = .ok (answers, s')) : s.Evolves ∅ s' :=
  askAll_ok (fun t => s.Evolves ∅ t) (fun q hq _ _ _ ht ha => ht.trans (ask_evolves (hqs q hq) ha)) (.refl _ _) h

/-! ## Idle sessions -/

/-- Nothing is under way. -/
structure Idle (s : Session) : Prop where
  wellFormed : s.cache.WellFormed
  state : ∀ key, s.cache.state? key ≠ some .inProgress
  depth : s.depth.depth = 0

theorem slot?_fresh : fresh.cache.slot? key = none := by
  simp [fresh, NodeCache.slot?, NodeCache.empty]

theorem idle_fresh : fresh.Idle := ⟨NodeCache.wellFormed_empty, by simp [NodeCache.state?, slot?_fresh], rfl⟩

/-- Between queries, a slot that exists is finished. -/
theorem Idle.resolved (hs : s.Idle) {key : SlotKey} {slot : Slot} (hslot : s.cache.slot? key = some slot) :
    s.cache.state? key = some .resolved := by
  have hst : s.cache.state? key = some slot.state := NodeCache.state?_eq_some.2 ⟨slot.node, hslot⟩
  cases hstate : slot.state with
  | resolved => rw [hst, hstate]
  | inProgress => exact absurd (hst.trans (congrArg some hstate)) (hs.state key)

theorem Evolves.idle {T : Set SlotKey} (h : Evolves T s s') (hs : s.Idle) : s'.Idle := by
  obtain ⟨hw, hg⟩ := h hs.wellFormed
  exact ⟨hw, fun key hkey => hs.state key (hg.cache.inProgress hkey), hg.depth ▸ hs.depth⟩

theorem ask_idle (hs : s.Idle) (hv : q.Valid s) (h : s.ask env q = .ok (a, s')) : s'.Idle := by
  by_cases hq : q.isInquiry = true
  · exact (ask_evolves hq h).idle hs
  · cases q with
    | setNode key node =>
      cases h
      refine Evolves.idle (T := {key}) (.setNode fun _ n hn => ?_) hs
      subst hn
      exact hv
    | clear =>
      cases h
      exact ⟨NodeCache.wellFormed_empty, idle_fresh.state, rfl⟩
    | _ => exact absurd rfl hq

/-- The sessions that queries reach from a fresh one, each query returning, and each merge from outside
naming a union that exists. -/
inductive Reached (env : Env) : Session → Prop
  | fresh : Reached env .fresh
  | ask {s s' : Session} {q : Query} {a : Answer} : Reached env s → q.Valid s → s.ask env q = .ok (a, s') →
      Reached env s'

theorem Reached.idle (h : Reached env s) : s.Idle := by
  induction h with
  | fresh => exact idle_fresh
  | ask _ hv ha ih => exact ask_idle ih hv ha

/-! ## What later queries leave -/

/-- All that `s` holds is in `s'` as it was, and no rule of a slot of `s` ran on the way. -/
structure Settled (s s' : Session) : Prop where
  slot : ∀ key slot, s.cache.slot? key = some slot → s'.cache.slot? key = some slot
  members : ∀ key slot, s.cache.slot? key = some slot → s'.cache.members slot.node = s.cache.members slot.node
  union : ∀ u, u.index < s.cache.unions.size → s'.cache.unions.members u = s.cache.unions.members u
  runs : ∃ events, s'.journal.toList = s.journal.toList ++ events ∧
    ∀ query key members, Event.ended query key members false ∈ events → s.cache.slot? key = none

theorem Evolves.settled (h : Evolves ∅ s s') (hw : s.cache.WellFormed) : s.Settled s' := by
  obtain ⟨-, hg⟩ := h hw
  refine ⟨fun key slot => hg.cache.slot key (by simp) slot, fun key slot hs => ?_,
    fun u hu => UnionArena.members_eq (hg.cache.union u hu (by simp)), hg.journal⟩
  have hm := hg.cache.members_slot hw (k := key) (by simp [hs])
  rwa [NodeCache.node?_of_slot? (hg.cache.slot key (by simp) slot hs), NodeCache.node?_of_slot? hs] at hm

theorem budget_pos (env : Env) (s : Session) (index : Nat) : 0 < env.budget s index := by
  have h : 0 < env.extent s index := by unfold Env.extent; omega
  exact Nat.mul_pos (Nat.mul_pos (Nat.mul_pos h h) h) h

/-- A slot that exists answers from the cache. -/
theorem compile_of_slot {slot : Slot} (hs : s.cache.slot? key = some slot) :
    s.compile env key = .ok (slot.node, s.hit key (env.slotKind key) slot.state) := by
  obtain ⟨fuel, hf⟩ := Nat.exists_eq_succ_of_ne_zero (Nat.ne_of_gt (budget_pos env s key.result))
  rw [compile, hf]
  exact Env.compileSlot_of_slot hs

theorem cache_hit (s : Session) (key : SlotKey) (kind : String) (state : SlotState) :
    (s.hit key kind state).cache = s.cache ∧ (s.hit key kind state).stats.ruleRuns = s.stats.ruleRuns := by
  cases state <;> exact ⟨rfl, rfl⟩

/-- In every session that queries reach, nothing is under way; inquiries leave all that it holds as it
is; and a slot that was resolved once is answered with the same handle and the same members, without
running a rule, whatever is asked in between. -/
theorem reached_final (env : Env) {s : Session} (h : Reached env s) :
    ((∀ key, s.cache.state? key ≠ some .inProgress) ∧ s.depth.depth = 0) ∧
    (∀ qs answers s', (∀ q ∈ qs, q.isInquiry = true) → s.askAll env qs = .ok (answers, s') → s.Settled s') ∧
    ∀ key node s₁, s.compile env key = .ok (node, s₁) →
      ∀ qs answers s₂, (∀ q ∈ qs, q.isInquiry = true) → s₁.askAll env qs = .ok (answers, s₂) →
        ∃ s₃, s₂.compile env key = .ok (node, s₃) ∧ s₃.cache.members node = s₁.cache.members node ∧
          s₃.stats.ruleRuns = s₂.stats.ruleRuns := by
  have hs := h.idle
  refine ⟨⟨hs.state, hs.depth⟩, fun qs answers s' hqs ha => (askAll_evolves hqs ha).settled hs.wellFormed, ?_⟩
  intro key node s₁ hk qs answers s₂ hqs ha
  have hv := compile_visits hs.wellFormed hk
  obtain ⟨st, hslot⟩ := hv.slot
  have hfinal := (askAll_evolves hqs ha).settled hv.wellFormed
  obtain ⟨hcache, hruns⟩ := cache_hit s₂ key (env.slotKind key) st
  refine ⟨_, compile_of_slot (hfinal.slot key _ hslot), ?_, hruns⟩
  rw [hcache]
  exact hfinal.members key _ hslot

/-- Slot 3 was read while slot 0 was under way, and it shares the union of slot 0 for good. -/
theorem reached_final_loop : ∃ s, Reached .sampleLoop s ∧ s.cache.node? (.decl ⟨3⟩) = some (.union ⟨0⟩) ∧
    ∀ qs answers s', (∀ q ∈ qs, q.isInquiry = true) → s.askAll .sampleLoop qs = .ok (answers, s') → s.Settled s' := by
  obtain ⟨⟨a, s⟩, hask, hnode⟩ := Except.exists_ok (x := fresh.ask .sampleLoop (.decl ⟨0⟩))
    (f := fun r => r.2.cache.node? (.decl ⟨3⟩)) (b := some (.union ⟨0⟩)) (by decide +kernel)
  have hs : Reached .sampleLoop s := .ask (q := .decl ⟨0⟩) .fresh trivial hask
  exact ⟨s, hs, hnode, (reached_final .sampleLoop hs).2.1⟩

end Session

end LuaInfer
