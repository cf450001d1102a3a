import LuaInfer.Proofs.Lasting
import LuaInfer.Proofs.Piecewise
/-!
# Delegation is look-up in prototypes

A delegation has its first argument, and what its metatable has under the delegation key. `Env.Takes` says which declarations the
rule of a slot takes as a whole, and `Env.Filled` that a slot has all their members. In a session that has met no slot under
way every finished slot is filled (`Env.runRule_filled`), and so are those behind it, at any distance (`Env.Draws`).

What is found on a declaration is found on its members, one by one (`Env.exists_parts`), and what is found on one
member does not depend on the declaration it is a member of. So whatever is found on an object or on its prototype is found on
the delegation: `Session.askAll_delegation`.
-/

namespace LuaInfer

/-- The declaration is finished, and the slot has all its members. -/
def NodeCache.Has (c : NodeCache) (key : SlotKey) (d : DeclId) : Prop :=
  c.state? (.decl d) = some .resolved ∧ ∀ n ∈ c.members (c.node? (.decl d)), n ∈ c.members (c.node? key)

namespace Env

/-- The rule of a slot takes all of a declaration: it merges it, or it finds it as a field of a metatable. -/
inductive Takes (env : Env) : SlotKey → DeclId → Prop
  | merge {key d} : .merge d ∈ env.rule key → Takes env key d
  | delegate {key metatable name f} : .delegate metatable name ∈ env.rule key →
      .own (.leaf metatable) ∈ env.declRule metatable → f ∈ env.leafFields metatable name → Takes env key f

/-- The slot has what it is by itself, and all that its rule takes. -/
structure Filled (env : Env) (c : NodeCache) (key : SlotKey) : Prop where
  own : ∀ n, .own n ∈ env.rule key → n ∈ c.members (c.node? key)
  takes : ∀ d, env.Takes key d → c.Has key d

variable {env : Env} {s s' t t' : Session} {target key : SlotKey} {fuel : Nat} {d f : DeclId} {name : Atom} {u : Unit}

theorem lasting_filled (env : Env) : Lasting fun s => env.Filled s.cache := by
  intro s s' k hlasts hmembers h
  refine ⟨fun n hn => hmembers ▸ h.own n hn, fun d hd => ?_⟩
  obtain ⟨hst, hsub⟩ := h.takes d hd
  obtain ⟨hst', hmembers'⟩ := hlasts.finished _ hst
  refine ⟨hst', ?_⟩
  rw [hmembers', hmembers]
  exact hsub

section Rule

/-- What a slot under way has, it keeps while its rule goes on. -/
theorem has_grows (hs : ((Regime.settling env (lasting_filled env)).during target).Holds t) (hg : t.Grows {target} t')
    (h0 : t'.stats.cycleHits = 0) (h : t.cache.Has target d) : t'.cache.Has target d := by
  have hlasts : t.Lasts t' := by
    refine hs.1.lasts hg ?_ h0
    rintro _ rfl hk
    rw [hs.2] at hk
    cases hk
  obtain ⟨hst, hmembers⟩ := hlasts.finished _ h.1
  refine ⟨hst, fun n hn => (hg.cache.members target).subset (h.2 n ?_)⟩
  rwa [← hmembers]

variable (hc : (Regime.settling env (lasting_filled env)).Serves (env.compileSlot fuel))
include hc

theorem mergeDecl_has (hs : ((Regime.settling env (lasting_filled env)).during target).Holds s)
    (h : (mergeDecl (env.compileSlot fuel) target d).run s = .ok (u, s')) (h0 : s'.stats.cycleHits = 0) :
    s'.cache.Has target d := by
  have hv := env.compileSlot_visits fuel
  obtain ⟨node, t, hd, h⟩ := Resolve.bind_ok h
  have hvis := hv _ _ _ _ hs.1.wellFormed hd
  have ht := (hc.during hv target _ _ _ _ hs (by simp) hd).1
  rw [Resolve.mergeNode_ok h] at h0 ⊢
  have hset : t.Evolves {target} (t.setNode target node) := .setNode fun _ => hvis.holds
  obtain ⟨-, hg⟩ := hset hvis.wellFormed
  have hst : t.cache.state? (.decl d) = some .resolved := compileSlot_finished hd h0
  have hlasts : t.Lasts (t.setNode target node) := by
    refine ht.1.lasts hg ?_ h0
    rintro _ rfl hk
    rw [ht.2] at hk
    cases hk
  obtain ⟨hst', hmembers⟩ := hlasts.finished _ hst
  refine ⟨hst', fun n hn => (NodeCache.mem_setNode hvis.wellFormed).2 (.inr ?_)⟩
  rwa [hmembers, hvis.node] at hn

theorem forM_mergeDecl_has {ds : List DeclId} (hd : d ∈ ds) (hs : ((Regime.settling env (lasting_filled env)).during target).Holds s)
    (h : (ds.forM (mergeDecl (env.compileSlot fuel) target)).run s = .ok (u, s')) (h0 : s'.stats.cycleHits = 0) :
    s'.cache.Has target d := by
  have hv := env.compileSlot_visits fuel
  refine Resolve.forM_ok_of_mem ((Regime.settling env (lasting_filled env)).during target).Holds
    (fun t => t.stats.cycleHits = 0 → t.cache.Has target d) hd (fun e _ t t' ht hr => ?_)
    (fun t t' ht hr h0 => mergeDecl_has hc ht hr h0) hs h h0
  have hg := (mergeDecl_evolves hv hr ht.1.wellFormed).2
  refine ⟨Regime.mergeDecl_upholds (absorbs_settling (lasting_filled env)) hv (hc.during hv target) ht hr, fun hhas h0 => ?_⟩
  exact has_grows ht hg h0 (hhas (Nat.le_zero.1 (h0 ▸ hg.cycles)))

/-- The loop of a delegation comes to each member of the metatable, which is finished. -/
theorem mergeFound_has {metatable : DeclId} {node : Option TypeNode} {rounds position : Nat}
    (hs : ((Regime.settling env (lasting_filled env)).during target).Holds s)
    (hst : s.cache.state? (.decl metatable) = some .resolved) (hnode : s.cache.node? (.decl metatable) = node)
    (hmem : .leaf metatable ∈ (s.cache.members node).drop position) (hf : f ∈ env.leafFields metatable name)
    (h : (Resolve.foldMembers (fun _ n => do
      let found ← env.searchNode (env.compileSlot fuel) fuel n name
      found.forM (mergeDecl (env.compileSlot fuel) target)) rounds ⟨node, position⟩ ()).run s = .ok (u, s'))
    (h0 : s'.stats.cycleHits = 0) : s'.cache.Has target f := by
  have hv := env.compileSlot_visits fuel
  induction rounds generalizing position s with
  | zero => cases h
  | succ rounds ih =>
    rw [Resolve.foldMembers] at h
    obtain ⟨_, _, hg, h⟩ := Resolve.bind_ok h
    cases hg
    cases hp : (s.cache.members node)[position]? with
    | none =>
      rw [List.drop_eq_nil_of_le (List.getElem?_eq_none_iff.1 hp)] at hmem
      cases hmem
    | some n =>
      simp only [Cursor.next?, hp, Option.map_some] at h
      obtain ⟨_, t, hbody, hrest⟩ := Resolve.bind_ok h
      obtain ⟨hpos, hget⟩ := List.getElem?_eq_some_iff.1 hp
      rw [List.drop_eq_getElem_cons hpos, hget] at hmem
      obtain ⟨found, s₁, hfound, hmerge⟩ := Resolve.bind_ok hbody
      have hflat := hs.1.wellFormed.members_flat n (List.mem_of_getElem? hp)
      obtain ⟨hw₁, hg₁⟩ := searchNode_evolves hv hfound hs.1.wellFormed
      obtain ⟨hw, hgt⟩ := forM_mergeDecl_evolves hv hmerge hw₁
      have hg : s.Grows {target} t := (hg₁.mono (Set.empty_subset _)).trans hgt
      obtain ⟨-, hg'⟩ := mergeFound_evolves hv hrest hw
      have h0t : t.stats.cycleHits = 0 := Nat.le_zero.1 (h0 ▸ hg'.cycles)
      have hs₁ : ((Regime.settling env (lasting_filled env)).during target).Holds s₁ :=
        Regime.searchNode_upholds hv (hc.during hv target) (fun _ _ => Session.shares_of_flat hflat) hs hfound
      have ht : ((Regime.settling env (lasting_filled env)).during target).Holds t :=
        Regime.forM_mergeDecl_upholds (absorbs_settling (lasting_filled env)) hv (hc.during hv target) hs₁ hmerge
      rcases List.mem_cons.1 hmem with rfl | hmem
      · -- the metatable itself: the field is found and merged now
        obtain ⟨hplain, -⟩ := searchNode_plain (n := .leaf metatable) trivial hfound
        cases hplain
        have hf' : f ∈ Distinct.append [] (env.leafFields metatable name) := Distinct.mem_append.2 (.inr hf)
        exact has_grows ht hg' h0 (forM_mergeDecl_has hc hf' hs₁ hmerge h0t)
      · have hfirm := (hs.1.calm (Nat.le_zero.1 (h0t ▸ hg.cycles))).firm hst
        obtain ⟨hfirm', hnode', hmembers⟩ := hfirm.grows hs.1.wellFormed hg.cache fun k hk hres => by
          rw [hk, hs.2] at hres
          cases hres
        rw [hnode', hnode] at hmembers
        exact ih ht hfirm'.state (hnode'.trans hnode) (hmembers ▸ hmem) hrest

/-- When the rule of a slot has come to its end, the slot is filled. -/
theorem steps_filled (hs : ((Regime.settling env (lasting_filled env)).during target).Holds s)
    (h : ((env.rule target).forM (runStep env (env.compileSlot fuel) fuel target)).run s = .ok (u, s'))
    (h0 : s'.stats.cycleHits = 0) : env.Filled s'.cache target := by
  have hv := env.compileSlot_visits fuel
  have hstep : ∀ st ∈ env.rule target, ∀ t t', ((Regime.settling env (lasting_filled env)).during target).Holds t →
      (runStep env (env.compileSlot fuel) fuel target st).run t = .ok ((), t') →
      ((Regime.settling env (lasting_filled env)).during target).Holds t' ∧ t.Grows {target} t' := by
    intro st hst t t' ht hr
    exact ⟨Regime.runStep_upholds (absorbs_settling (lasting_filled env)) hv (hc.during hv target) hst ht hr,
      (runStep_evolves hv hst hr ht.1.wellFormed).2⟩
  refine ⟨fun n hn => ?_, fun d hd => ?_⟩
  · refine Resolve.forM_ok_of_mem ((Regime.settling env (lasting_filled env)).during target).Holds
      (fun t => n ∈ t.cache.members (t.cache.node? target)) hn (fun st hst t t' ht hr => ?_) (fun t t' ht hr => ?_) hs h
    · obtain ⟨ht', hg⟩ := hstep st hst t t' ht hr
      exact ⟨ht', fun hmem => (hg.cache.members target).subset hmem⟩
    · obtain ⟨_, -, hown⟩ := explains_of_mem_rule hn
      rw [Resolve.mergeNode_ok hr]
      refine (NodeCache.mem_setNode ht.1.wellFormed).2 (.inr ?_)
      cases hown <;> exact List.mem_singleton.2 rfl
  · have hkeep : ∀ st ∈ env.rule target, ∀ t t', ((Regime.settling env (lasting_filled env)).during target).Holds t →
        (runStep env (env.compileSlot fuel) fuel target st).run t = .ok ((), t') →
        ((Regime.settling env (lasting_filled env)).during target).Holds t' ∧
          ((t.stats.cycleHits = 0 → t.cache.Has target d) → t'.stats.cycleHits = 0 → t'.cache.Has target d) := by
      intro st hst t t' ht hr
      obtain ⟨ht', hg⟩ := hstep st hst t t' ht hr
      exact ⟨ht', fun hhas h0 => has_grows ht hg h0 (hhas (Nat.le_zero.1 (h0 ▸ hg.cycles)))⟩
    cases hd with
    | merge hd =>
      exact Resolve.forM_ok_of_mem _ (fun t => t.stats.cycleHits = 0 → t.cache.Has target d) hd hkeep
        (fun t t' ht hr h0 => mergeDecl_has hc ht hr h0) hs h h0
    | delegate hd hown hf =>
      refine Resolve.forM_ok_of_mem _ (fun t => t.stats.cycleHits = 0 → t.cache.Has target d) hd hkeep
        (fun t t' ht hr h0 => ?_) hs h h0
      obtain ⟨node, t₁, hmeta, hr⟩ := Resolve.bind_ok hr
      have hvis := hv _ _ _ _ ht.1.wellFormed hmeta
      obtain ⟨-, hg⟩ := mergeFound_evolves hv hr hvis.wellFormed
      have h0₁ : t₁.stats.cycleHits = 0 := Nat.le_zero.1 (h0 ▸ hg.cycles)
      have ht₁ := (hc.during hv target _ _ _ _ ht (by simp) hmeta).1
      have hst := compileSlot_finished hmeta h0₁
      have hmem := (ht₁.1.value h0₁ _ hst).own _ hown
      rw [hvis.node, ← List.drop_zero (l := t₁.cache.members node)] at hmem
      exact mergeFound_has hc ht₁ hst hvis.node hmem hf hr h0

end Rule

theorem compileSlot_filling (env : Env) (fuel : Nat) : (Regime.settling env (lasting_filled env)).Serves (env.compileSlot fuel) := by
  refine compileSlot_settling (lasting_filled env) (fun fuel key s t hc hs _ hr h0 => ?_) fuel
  cases key with
  | decl d => exact steps_filled hc hs hr h0
  | ret g index => exact steps_filled hc hs hr h0
  | generic i => exact ⟨by simp [rule], fun d hd => by cases hd <;> simp_all [rule]⟩


/-- `part` is taken by `whole`, at any distance. -/
def Draws (env : Env) : DeclId → DeclId → Prop := Relation.ReflTransGen fun whole part => env.Takes (.decl whole) part

/-- Where no slot under way was met, a finished declaration has all that it draws on. -/
theorem Draws.has {whole part : DeclId} (h : env.Draws whole part) (hs : s.Settles fun s => env.Filled s.cache) (h0 : s.stats.cycleHits = 0)
    (hwhole : s.cache.state? (.decl whole) = some .resolved) : s.cache.Has (.decl whole) part := by
  induction h with
  | refl => exact ⟨hwhole, fun _ hn => hn⟩
  | tail _ htakes ih =>
    obtain ⟨hst, hsub⟩ := (hs.value h0 _ ih.1).takes _ htakes
    exact ⟨hst, fun n hn => ih.2 n (hsub n hn)⟩

end Env

/-! ## Delegations of a program -/

/-- `c` calls the delegation constructor with `object` and a table that has `proto` under the delegation key. -/
def Program.IsDelegation (p : Program) (options : Options) (c object proto : DeclId) : Prop :=
  ∃ callee metatable args constructor fields field key,
    p.arena.kind? c = some (.call callee (object :: metatable :: args)) ∧
    p.arena.kind? callee = some (.getGlobal constructor) ∧
    p.interner.lookup options.delegationConstructor = some constructor ∧
    p.arena.kind? metatable = some (.table fields) ∧ field ∈ fields ∧
    p.arena.kind? field = some (.tableField key proto) ∧ p.interner.lookup options.delegationField = some key

/-- `part` is the object or the prototype of the delegation `whole`, or its node is merged into that of `whole`. -/
inductive Program.Inherits (p : Program) (options : Options) : DeclId → DeclId → Prop
  | object {c object proto} : p.IsDelegation options c object proto → Inherits p options c object
  | prototype {c object proto} : p.IsDelegation options c object proto → Inherits p options c proto
  | feeds {d e} : (Env.of p options).Feeds (.decl d) e → Inherits p options d e

theorem Program.Inherits.draws {p : Program} {options : Options} {whole part : DeclId} (h : p.Inherits options whole part) :
    (Env.of p options).Draws whole part := by
  have hfeeds : ∀ {d e}, (Env.of p options).Feeds (.decl d) e → (Env.of p options).Takes (.decl d) e :=
    fun hf => .merge (Env.merge_mem_declRule.2 hf)
  have hdelegator : ∀ {callee constructor}, p.arena.kind? callee = some (.getGlobal constructor) →
      p.interner.lookup options.delegationConstructor = some constructor → (Env.of p options).isDelegator callee = true := by
    intro callee constructor hcallee hname
    have hkind : (Env.of p options).arena.kind? callee = some (.getGlobal constructor) := hcallee
    have hdelegator : (Env.of p options).delegator = some constructor := hname
    rw [Env.isDelegator, hkind]
    simp [hdelegator]
  cases h with
  | object hd =>
    obtain ⟨callee, metatable, args, _, _, _, _, hcall, hcallee, hname, -⟩ := hd
    exact .single (hfeeds (.object .call hcall (hdelegator hcallee hname)))
  | prototype hd =>
    obtain ⟨callee, metatable, args, _, fields, field, key, hcall, hcallee, hname, htable, hmem, hfield, hkey⟩ := hd
    have hstep : .delegate metatable key ∈ (Env.of p options).declRule whole := by
      refine Env.mem_declRule_of_kind hcall ?_
      have hkey' : (Env.of p options).delegationKey = some key := hkey
      simp [Env.kindSteps, Env.callSteps, hdelegator hcallee hname, Env.delegationSteps, hkey']
    have hleaf : .own (.leaf metatable) ∈ (Env.of p options).declRule metatable :=
      Env.own_mem_declRule.2 (.leaf htable rfl)
    have hfound : field ∈ (Env.of p options).leafFields metatable key := by
      have htable' : (Env.of p options).arena.kind? metatable = some (.table fields) := htable
      have hnamed : (Env.of p options).arena.key? field = some key := by
        rw [Arena.key?, show (Env.of p options).arena.kind? field = _ from hfield]
        rfl
      rw [Env.leafFields, htable']
      exact List.mem_filter.2 ⟨hmem, by rw [hnamed]; simp⟩
    have hvalue : (Env.of p options).Feeds (.decl field) part := .part hfield (List.mem_singleton.2 rfl)
    exact .tail (.single (.delegate hstep hleaf hfound)) (hfeeds hvalue)
  | feeds hf => exact .single (hfeeds hf)

/-! ## Sessions -/

namespace Session

variable {env : Env} {s s' : Session} {qs : List Query} {answers : List Answer}

/-- The search of a declaration stays within the limit on attempts. -/
def searchWithin (env : Env) (s : Session) : Query → Bool
  | .searchMember base name =>
    match (env.huntMember (env.compileSlot (env.budget s 1)) (env.budget s 1) base name).run s with
    | .ok (h, _) => h.guard.attempts ≤ Limits.maxGuardAttempts.toNat
    | .error _ => true
  | _ => true

/-- All searches of declarations among the queries stay within the limit. -/
def searchesWithin (env : Env) (s : Session) : List Query → Bool
  | [] => true
  | q :: qs => s.searchWithin env q &&
    match s.ask env q with
    | .ok (_, t) => t.searchesWithin env qs
    | .error _ => true

/-- One of the queries, in the session where it was asked. -/
theorem askAll_at {i : Nat} {q : Query} (hqs : ∀ q ∈ qs, q.isInquiry = true) (h : s.askAll env qs = .ok (answers, s'))
    (hw : s.searchesWithin env qs = true) (hi : qs[i]? = some q) : ∃ t a t', t.ask env q = .ok (a, t') ∧ answers[i]? = some a ∧
      t.searchWithin env q = true ∧ s.Evolves ∅ t ∧ t'.Evolves ∅ s' := by
  induction qs generalizing s answers i with
  | nil => cases hi
  | cons q' qs ih =>
    obtain ⟨⟨b, t⟩, hq, h⟩ := Except.bind_ok h
    obtain ⟨⟨bs, t'⟩, hrest, h⟩ := Except.bind_ok h
    cases h
    obtain ⟨hfirst, hothers⟩ := Bool.and_eq_true_iff.1 hw
    have hlater : ∀ q ∈ qs, q.isInquiry = true := fun q hq => hqs q (by simp [hq])
    cases i with
    | zero =>
      cases hi
      exact ⟨s, b, t, hq, rfl, hfirst, .refl _ _, askAll_evolves hlater hrest⟩
    | succ i =>
      rw [hq] at hothers
      obtain ⟨t₁, a, t₂, ha, hanswer, hwithin, hto, hfrom⟩ := ih hlater hrest hothers hi
      exact ⟨t₁, a, t₂, ha, hanswer, hwithin, (ask_evolves (hqs q' (by simp)) hq).trans hto, hfrom⟩

section Answers

variable (hqs : ∀ q ∈ qs, q.isInquiry = true) (h : fresh.askAll env qs = .ok (answers, s))
  (hw : fresh.searchesWithin env qs = true)
include hqs h hw

/-- A declaration that was resolved is finished in the end, with the node that was answered. -/
theorem node_of_answer {i : Nat} {d : DeclId} {node : Option TypeNode} (hi : qs[i]? = some (.decl d))
    (ha : answers[i]? = some (.node node)) : s.cache.state? (.decl d) = some .resolved ∧ s.cache.node? (.decl d) = node := by
  obtain ⟨t, a, t', hask, hanswer, -, hto, hfrom⟩ := askAll_at hqs h hw hi
  rw [ha] at hanswer
  cases hanswer
  obtain ⟨⟨_, _⟩, hcompile, hr⟩ := Except.map_ok hask
  cases hr
  have hvis := compile_visits (hto NodeCache.wellFormed_empty).1 hcompile
  obtain ⟨st, hslot⟩ := hvis.slot
  have hslot' := (hfrom hvis.wellFormed).2.cache.slot _ (by simp) _ hslot
  exact ⟨((askAll_evolves hqs h).idle idle_fresh).resolved hslot', NodeCache.node?_of_slot? hslot'⟩

/-- What the search of a declaration has answered, in terms of the last session: each member of the declaration has
found its part. -/
theorem parts_of_answer {i : Nat} {base : DeclId} {name : Atom} {ds : List DeclId}
    (hi : qs[i]? = some (.searchMember base name)) (ha : answers[i]? = some (.decls ds)) :
    s.cache.state? (.decl base) = some .resolved ∧ ∃ fuel found, ds = Distinct.concat found ∧
      List.Forall₂ (env.FindsAlone s.cache fuel name) (s.cache.members (s.cache.node? (.decl base))) found := by
  obtain ⟨t, a, t', hask, hanswer, hwithin, hto, hfrom⟩ := askAll_at hqs h hw hi
  rw [ha] at hanswer
  cases hanswer
  obtain ⟨⟨_, _⟩, hsearch, hr⟩ := Except.map_ok hask
  cases hr
  obtain ⟨hunt, t₂, hrun, hlift⟩ := Resolve.bind_ok hsearch
  obtain ⟨hclose, rfl⟩ := Resolve.lift_ok hlift
  rw [searchWithin, hrun] at hwithin
  obtain ⟨hw₂, -, hk, st, node, hslot, hparts⟩ :=
    Env.huntMember_parts (env.compileSlot_visits _) (hto NodeCache.wellFormed_empty).1 hrun
  obtain ⟨-, hg⟩ := hfrom hw₂
  have hslot' := hg.cache.slot _ (by simp) _ hslot
  refine ⟨((askAll_evolves hqs h).idle idle_fresh).resolved hslot', ?_⟩
  obtain ⟨found, hfound, hforall⟩ := hparts (hk.within.2 (of_decide_eq_true hwithin))
  refine ⟨env.budget t 1, found, (Hunt.close_ok hclose).trans hfound, ?_⟩
  rw [NodeCache.node?_of_slot? hslot', hg.cache.members_of_slot hw₂ hslot]
  exact hforall.imp fun n ds hn => hn.grows hg.cache hw₂

end Answers

/-- In every session of inquiries that has met no slot under way and whose searches have stayed within the limit on attempts:
a declaration that inherits from another one, through delegations and through whatever feeds a declaration, at any distance, has
its members, and what is found on the other one is found on it, whichever was asked first. -/
theorem askAll_delegation {p : Program} {options : Options} {whole part : DeclId} (hqs : ∀ q ∈ qs, q.isInquiry = true)
    (h : fresh.askAll (.of p options) qs = .ok (answers, s)) (h0 : s.stats.cycleHits = 0)
    (hw : fresh.searchesWithin (.of p options) qs = true)
    (hpart : Relation.ReflTransGen (p.Inherits options) whole part) :
    (s.cache.state? (.decl whole) = some .resolved → s.cache.state? (.decl part) = some .resolved ∧
      ∀ n ∈ s.cache.members (s.cache.node? (.decl part)), n ∈ s.cache.members (s.cache.node? (.decl whole))) ∧
    (∀ (i j : Nat) m n, qs[i]? = some (.decl part) → answers[i]? = some (.node m) →
      qs[j]? = some (.decl whole) → answers[j]? = some (.node n) → ∀ x ∈ s.cache.members m, x ∈ s.cache.members n) ∧
    ∀ (i j : Nat) name ds ds', qs[i]? = some (.searchMember part name) → answers[i]? = some (.decls ds) →
      qs[j]? = some (.searchMember whole name) → answers[j]? = some (.decls ds') → ∀ d ∈ ds, d ∈ ds' := by
  have hmerges : ∀ q ∈ qs, q.merges = false := fun q hq => Query.merges_of_isInquiry (hqs q hq)
  have hsettles : s.Settles fun s => (Env.of p options).Filled s.cache :=
    askAll_settles_values (Env.compileSlot_filling _) hmerges (.of_empty _ rfl) h
  have hdraws : (Env.of p options).Draws whole part := by
    induction hpart with
    | refl => exact .refl
    | tail _ hlast ih => exact ih.trans hlast.draws
  have hhas := hdraws.has hsettles h0
  refine ⟨hhas, fun i j m n hi ha hj hb => ?_, fun i j name ds ds' hi ha hj hb d hd => ?_⟩
  · obtain ⟨-, rfl⟩ := node_of_answer hqs h hw hi ha
    obtain ⟨hst, rfl⟩ := node_of_answer hqs h hw hj hb
    exact (hhas hst).2
  · obtain ⟨-, fuel, found, rfl, hparts⟩ := parts_of_answer hqs h hw hi ha
    obtain ⟨hst, fuel', found', rfl, hparts'⟩ := parts_of_answer hqs h hw hj hb
    -- the member on which it was found is a member of the whole too, and has found the same there
    obtain ⟨own, hown, hd⟩ := Distinct.mem_concat.1 hd
    obtain ⟨n, hn, halone⟩ := List.Forall₂.exists_of_mem_right hparts hown
    obtain ⟨own', hown', halone'⟩ := List.Forall₂.exists_of_mem_left hparts' ((hhas hst).2 n hn)
    rw [halone.unique halone'] at hd
    exact Distinct.mem_concat.2 ⟨own', hown', hd⟩

end Session

/-- `local Root = { f = 1 }; local Base = setmetatable({}, { __index = Root })`, and
`setmetatable({}, { __index = Base })` as the last declaration. -/
def Program.samplePrototypes : Program :=
  (empty.build [.integer 1, .table [("f", ⟨0⟩)], .localVar "Root" (some ⟨2⟩), .getGlobal "setmetatable", .table [], .getLocal ⟨3⟩,
    .table [("__index", ⟨6⟩)], .call ⟨4⟩ [⟨5⟩, ⟨8⟩], .localVar "Base" (some ⟨9⟩), .getGlobal "setmetatable", .table [],
    .getLocal ⟨10⟩, .table [("__index", ⟨13⟩)], .call ⟨11⟩ [⟨12⟩, ⟨15⟩]]).2

/-- The last delegation inherits from the table behind `Root`, through two prototypes and the locals that hold them. -/
theorem Program.inherits_samplePrototypes : Relation.ReflTransGen (Program.samplePrototypes.Inherits {}) ⟨16⟩ ⟨2⟩ := by
  have hfeeds : ∀ {d e}, .merge e ∈ (Env.of .samplePrototypes {}).declRule d → Program.samplePrototypes.Inherits {} d e :=
    fun h => .feeds (Env.merge_mem_declRule.1 h)
  have hlast : Program.samplePrototypes.IsDelegation {} ⟨16⟩ ⟨12⟩ ⟨13⟩ := by
    refine ⟨⟨11⟩, ⟨15⟩, [], ⟨3⟩, [⟨14⟩], ⟨14⟩, ⟨4⟩, ?_⟩
    decide +kernel
  have hfirst : Program.samplePrototypes.IsDelegation {} ⟨9⟩ ⟨5⟩ ⟨6⟩ := by
    refine ⟨⟨4⟩, ⟨8⟩, [], ⟨3⟩, [⟨7⟩], ⟨7⟩, ⟨4⟩, ?_⟩
    decide +kernel
  have hbase : Relation.ReflTransGen (Program.samplePrototypes.Inherits {}) ⟨16⟩ ⟨9⟩ :=
    ((Relation.ReflTransGen.single (.prototype hlast)).tail (hfeeds (e := ⟨10⟩) (by decide +kernel))).tail
      (hfeeds (by decide +kernel))
  exact ((hbase.tail (.prototype hfirst)).tail (hfeeds (e := ⟨3⟩) (by decide +kernel))).tail (hfeeds (by decide +kernel))

namespace Session

/-- The field of the root is found on the last delegation, which was searched first. -/
theorem askAll_delegation_chain : ∃ answers s,
    fresh.askAll (.of .samplePrototypes {}) [.searchMember ⟨16⟩ ⟨1⟩, .searchMember ⟨2⟩ ⟨1⟩] = .ok (answers, s) ∧
    answers[1]? = some (.decls [⟨1⟩]) ∧
    (∀ n ∈ s.cache.members (s.cache.node? (.decl ⟨2⟩)), n ∈ s.cache.members (s.cache.node? (.decl ⟨16⟩))) ∧
    ∃ ds, answers[0]? = some (.decls ds) ∧ ⟨1⟩ ∈ ds := by
  obtain ⟨⟨answers, s⟩, hask, hvalue⟩ := Except.exists_ok
    (x := fresh.askAll (.of .samplePrototypes {}) [.searchMember ⟨16⟩ ⟨1⟩, .searchMember ⟨2⟩ ⟨1⟩])
    (f := fun r => (r.1, r.2.stats.cycleHits, r.2.cache.state? (.decl ⟨16⟩)))
    (b := ([.decls [⟨1⟩], .decls [⟨1⟩]], 0, some .resolved)) (by decide +kernel)
  obtain ⟨hanswers, hvalue⟩ := Prod.mk.inj hvalue
  obtain ⟨h0, hst⟩ := Prod.mk.inj hvalue
  obtain ⟨hmembers, -, hsearch⟩ := askAll_delegation (by decide) hask h0 (by decide +kernel) Program.inherits_samplePrototypes
  have hpart : answers[1]? = some (.decls [⟨1⟩]) := congrArg (·[1]?) hanswers
  have hwhole : answers[0]? = some (.decls [⟨1⟩]) := congrArg (·[0]?) hanswers
  exact ⟨answers, s, hask, hpart, (hmembers hst).2, [⟨1⟩], hwhole, hsearch 1 0 ⟨1⟩ _ _ rfl hpart rfl hwhole ⟨1⟩ (by simp)⟩

end Session

end LuaInfer
