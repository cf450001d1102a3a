import LuaInfer.Proofs.Evaluate
import LuaInfer.Proofs.Lasting
import LuaInfer.Proofs.Template
/-!
# What calls pass on

Where no look-up has met a slot under way, a rule takes what it takes from finished slots. So a declaration has no template among
its members: a template is a member of results alone, and a call binds it before it takes it. A slot whose rule is one step then
has just what the step takes, where that is a declaration or a result without templates (`Env.Follows`). This holds of every finished slot
and of whatever literals are at the bottom (`Env.compileSlot_following`).
-/

namespace LuaInfer

namespace Session

variable {s s' : Session} {T : Set SlotKey} {key : SlotKey} {n : TypeNode} {d : DeclId}

/-- What a finished slot may hold: substitutions that are bound to a call, and a result templates too. -/
def Binds (s : Session) : SlotKey → TypeNode → Prop
  | .decl _, .generic i => ∃ sub, s.substitutions.get? i = some sub ∧ sub.call ≠ none
  | .ret _ _, .generic i => ∃ sub, s.substitutions.get? i = some sub
  | _, _ => True

theorem Binds.of_plain (h : n.IsPlain) : s.Binds key n := by
  cases n with
  | generic i => cases h
  | _ => cases key <;> trivial

theorem Binds.lasts (h : s.Binds key n)
    (hsubs : ∀ i sub, s.substitutions.get? i = some sub → s'.substitutions.get? i = some sub) : s'.Binds key n := by
  cases n with
  | generic i =>
    cases key with
    | decl d => exact h.imp fun sub hsub => ⟨hsubs i sub hsub.1, hsub.2⟩
    | ret f index => exact h.imp fun sub hsub => hsubs i sub hsub
    | generic j => trivial
  | _ => cases key <;> trivial

/-- What a declaration may hold, any slot may. -/
theorem Binds.of_decl (h : s.Binds (.decl d) n) : s.Binds key n := by
  cases n with
  | generic i =>
    cases key with
    | decl e => exact h
    | ret f index => exact h.imp fun _ hsub => hsub.1
    | generic j => trivial
  | _ => cases key <;> trivial

theorem Binds.not_template (h : s.Binds (.decl d) n) : Env.isTemplate s n = false := by
  cases n with
  | generic i =>
    obtain ⟨sub, hi, hcall⟩ := h
    simp [Env.isTemplate, Substitutions.isTemplate, hi, Option.isSome_iff_ne_none.2 hcall]
  | _ => rfl

/-- What a result may hold and is no template, any slot may. -/
theorem Binds.of_ret {f : DeclId} {index : Nat} (h : s.Binds (.ret f index) n) (hn : Env.isTemplate s n = false) :
    s.Binds key n := by
  cases n with
  | generic i =>
    obtain ⟨sub, hi⟩ := h
    have hcall : sub.call ≠ none := by
      intro hnone
      simp [Env.isTemplate, Substitutions.isTemplate, hi, hnone] at hn
    exact .of_decl (d := ⟨0⟩) ⟨sub, hi, hcall⟩
  | _ => cases key <;> trivial

/-- A substitution that has just been made for a call. -/
theorem binds_new {f ty c : DeclId} :
    (s.withSubstitution ⟨f, ty, some c⟩).Binds key (.generic (s.substitutions.push ⟨f, ty, some c⟩).1) :=
  .of_decl (d := ⟨0⟩) ⟨⟨f, ty, some c⟩, Substitutions.get?_push_self _ _, by simp⟩

theorem isTemplate_of_lasts (hsubs : ∀ i sub, s.substitutions.get? i = some sub → s'.substitutions.get? i = some sub)
    (h : Env.isTemplate s' n = false) : Env.isTemplate s n = false := by
  cases n with
  | generic i =>
    cases hi : s.substitutions.get? i with
    | none => simp [Env.isTemplate, Substitutions.isTemplate, hi]
    | some sub =>
      rw [Env.isTemplate, Substitutions.isTemplate, hsubs i sub hi] at h
      rwa [Env.isTemplate, Substitutions.isTemplate, hi]
  | _ => rfl

end Session

namespace Env

/-- A finished slot holds what it may hold, and if its rule is no step or one step that takes a declaration or a result, it has
what is taken. -/
structure Follows (env : Env) (s : Session) (key : SlotKey) : Prop where
  binds : ∀ n ∈ s.cache.members (s.cache.node? key), s.Binds key n
  nothing : env.rule key = [] → (∀ i, key ≠ .generic i) → s.cache.members (s.cache.node? key) = []
  merge : ∀ d, env.rule key = [.merge d] → s.cache.state? (.decl d) = some .resolved ∧
    s.cache.members (s.cache.node? key) = s.cache.members (s.cache.node? (.decl d))
  result : ∀ callee index call f, env.rule key = [.result callee index call] →
    s.cache.state? (.decl callee) = some .resolved ∧
    ((s.cache.members (s.cache.node? (.decl callee))).findSome? env.callable? = some (f, none) →
      s.cache.state? (.ret f index) = some .resolved ∧
      ((∀ n ∈ s.cache.members (s.cache.node? (.ret f index)), isTemplate s n = false) →
        s.cache.members (s.cache.node? key) = s.cache.members (s.cache.node? (.ret f index))))

theorem lasting_follows (env : Env) : Lasting env.Follows := by
  intro s s' k hlasts hmembers h
  refine ⟨fun n hn => ?_, fun hrule hk => hmembers.trans (h.nothing hrule hk), fun d hrule => ?_, fun callee index call f hrule => ?_⟩
  · rw [hmembers] at hn
    exact (h.binds n hn).lasts hlasts.substitution
  · obtain ⟨hst, hsame⟩ := h.merge d hrule
    obtain ⟨hst', hmembers'⟩ := hlasts.finished _ hst
    exact ⟨hst', by rw [hmembers, hmembers', hsame]⟩
  · obtain ⟨hst, hresult⟩ := h.result callee index call f hrule
    obtain ⟨hst', hmembers'⟩ := hlasts.finished _ hst
    refine ⟨hst', fun hfind => ?_⟩
    rw [hmembers'] at hfind
    obtain ⟨hret, hsame⟩ := hresult hfind
    obtain ⟨hret', hmembers''⟩ := hlasts.finished _ hret
    refine ⟨hret', fun hplain => ?_⟩
    rw [hmembers'', hmembers]
    refine hsame fun n hn => Session.isTemplate_of_lasts hlasts.substitution (hplain n ?_)
    rwa [hmembers'']

section Rule

variable {env : Env} {fuel index : Nat} {s s' t : Session} {target key : SlotKey} {d callee call f : DeclId} {node : Option TypeNode}
  {st : Step} {u : Unit}

/-- The rule of the slot is under way, and the slot holds what it may hold. -/
structure Binding (env : Env) (target : SlotKey) (s : Session) : Prop where
  holds : ((Regime.settling env (lasting_follows env)).during target).Holds s
  binds : s.stats.cycleHits = 0 → ∀ n ∈ s.cache.members (s.cache.node? target), s.Binds target n

/-- What is not merged into keeps its members. -/
theorem members_of_evolves (hs : ((Regime.settling env (lasting_follows env)).during target).Holds s) (hg : s.Grows ∅ t) :
    t.cache.members (t.cache.node? target) = s.cache.members (s.cache.node? target) :=
  hg.cache.members_slot hs.1.wellFormed (by simp [NodeCache.slot?_of_state? hs.2])

/-- Finished slots keep their members while the rule goes on. -/
theorem finished_lasts (hs : ((Regime.settling env (lasting_follows env)).during target).Holds s) (hg : s.Grows {target} t)
    (h0 : t.stats.cycleHits = 0) : s.Lasts t := by
  refine hs.1.lasts hg ?_ h0
  rintro _ rfl hres
  rw [hs.2] at hres
  cases hres

theorem Binding.evolves (h : env.Binding target s) (hg : s.Grows ∅ t)
    (ht : ((Regime.settling env (lasting_follows env)).during target).Holds t) : env.Binding target t := by
  refine ⟨ht, fun h0 n hn => ?_⟩
  rw [members_of_evolves h.holds hg] at hn
  exact (h.binds (Nat.le_zero.1 (h0 ▸ hg.cycles)) n hn).lasts hg.substitution

theorem Binding.setNode (h : env.Binding target s)
    (ht : ((Regime.settling env (lasting_follows env)).during target).Holds (s.setNode target node))
    (hnode : s.stats.cycleHits = 0 → ∀ n ∈ s.cache.members node, s.Binds target n) : env.Binding target (s.setNode target node) := by
  refine ⟨ht, fun h0 n hn => ?_⟩
  rcases (NodeCache.mem_setNode h.holds.1.wellFormed).1 hn with hn | hn
  · exact h.binds h0 n hn
  · exact hnode h0 n hn

theorem Binding.withSubstitution {sub : Substitution} (h : env.Binding target s) (hsub : env.Makes s sub) :
    env.Binding target (s.withSubstitution sub) :=
  ⟨Regime.bind _ hsub h.holds, fun h0 n hn => (h.binds h0 n hn).lasts fun _ _ => Substitutions.get?_push⟩

theorem Binding.flat {n : TypeNode} (h : env.Binding target s)
    (ht : ((Regime.settling env (lasting_follows env)).during target).Holds (s.setNode target (some n))) (hflat : n.isUnion = false)
    (hn : s.stats.cycleHits = 0 → s.Binds target n) : env.Binding target (s.setNode target (some n)) := by
  refine h.setNode ht fun h0 m hm => ?_
  have hmembers : s.cache.members (some n) = [n] := by
    cases n with
    | union v => cases hflat
    | _ => rfl
  rw [hmembers, List.mem_singleton] at hm
  exact hm ▸ hn h0

/-- A result without templates is merged as it is. -/
theorem mergeReturned_of_none (hnone : (s.cache.members node).any (isTemplate s) = false)
    (h : (mergeReturned fuel target call node).run s = .ok (u, s')) : s' = s.setNode target node := by
  obtain ⟨_, _, hget, h⟩ := Resolve.bind_ok h
  cases hget
  rw [hnone] at h
  exact Resolve.mergeNode_ok h

/-- What a result holds is taken, and a template is bound to the call first. -/
theorem mergeReturned_binding (hs : env.Binding target s) (hret : s.stats.cycleHits = 0 → s.cache.state? (.ret f index) = some .resolved)
    (hnode : s.cache.node? (.ret f index) = node) (hholds : ∀ n, node = some n → s.cache.unions.Holds n)
    (h : (mergeReturned fuel target call node).run s = .ok (u, s')) : env.Binding target s' := by
  have hallows : ∀ n, node = some n → s.Shares n :=
    fun n hn => hs.holds.1.shares_of_resolved (k := .ret f index) (hnode.trans hn) hret
  have hholds' := Regime.mergeReturned_upholds (absorbs_settling (lasting_follows env)) hs.holds hallows hholds h
  obtain ⟨_, _, hg, h⟩ := Resolve.bind_ok h
  cases hg
  split at h
  · -- the result is finished, so its members stay as they are while they are taken one by one
    have hknown : ∀ v : Session, env.Binding target v → s.Grows {target} v → v.stats.cycleHits = 0 →
        ∀ n ∈ v.cache.members node, v.Binds (.ret f index) n := by
      intro v hv hg h0 n hn
      have h0' : s.stats.cycleHits = 0 := Nat.le_zero.1 (h0 ▸ hg.cycles)
      obtain ⟨hfirm, hnode', -⟩ := ((hs.holds.1.calm h0').firm (hret h0')).grows hs.holds.1.wellFormed hg.cache (by
        rintro _ rfl hres
        rw [hs.holds.2] at hres
        cases hres)
      exact (hv.holds.1.value h0 _ hfirm.state).binds n (by rwa [hnode', hnode])
    refine (Resolve.foldMembers_ok (fun _ v => env.Binding target v ∧ s.Grows {target} v) ?_ ⟨hs, .refl _ _⟩ h).1
    rintro n _ v _ v' hn ⟨hv, hg⟩ hb
    have hflat := hv.holds.1.wellFormed.members_flat n hn
    have hv' := Regime.mergeBound_upholds (absorbs_settling (lasting_follows env)) hv.holds (Session.shares_of_flat hflat) hflat hb
    have hg' := (mergeBound_evolves hflat hb hv.holds.1.wellFormed).2
    refine ⟨?_, hg.trans hg'⟩
    rcases mergeBound_ok hb with ⟨hbound, rfl⟩ | ⟨i, func, proto, rfl, hi, rfl⟩
    · exact hv.flat hv' hflat fun h0 => (hknown v hv hg h0 n hn).of_ret hbound
    · exact (hv.withSubstitution (.copy hi)).flat hv' rfl fun _ => Session.binds_new
  · next hnone =>
    rw [Resolve.mergeNode_ok h] at hholds' ⊢
    refine hs.setNode hholds' fun h0 n hn => ?_
    have hplain := List.any_eq_false.1 (Bool.eq_false_iff.2 hnone) n hn
    rw [← hnode] at hn
    exact ((hs.holds.1.value h0 _ (hret h0)).binds n hn).of_ret (Bool.eq_false_iff.2 hplain)

variable (hc : (Regime.settling env (lasting_follows env)).Serves (env.compileSlot fuel))
include hc

theorem compile_binding (hs : ((Regime.settling env (lasting_follows env)).during target).Holds s) (hkey : ∀ i, key ≠ .generic i)
    (hr : (env.compileSlot fuel key).run s = .ok (node, t)) :
    ((Regime.settling env (lasting_follows env)).during target).Holds t ∧ s.Grows ∅ t ∧ t.cache.node? key = node ∧
      (∀ n, node = some n → t.cache.unions.Holds n) ∧ (t.stats.cycleHits = 0 → t.cache.state? key = some .resolved) := by
  have hv := env.compileSlot_visits fuel
  have hvis := hv _ _ _ _ hs.1.wellFormed hr
  exact ⟨(hc.during hv target _ _ _ _ hs (fun i hi => absurd hi (hkey i)) hr).1, hvis.grows, hvis.node, hvis.holds,
    compileSlot_finished hr⟩

/-- A declaration that is merged is finished, and the slot has its members now. -/
theorem mergeDecl_members (hs : ((Regime.settling env (lasting_follows env)).during target).Holds s)
    (h : (mergeDecl (env.compileSlot fuel) target d).run s = .ok (u, s')) (h0 : s'.stats.cycleHits = 0) :
    s'.cache.state? (.decl d) = some .resolved ∧ s'.cache.members (s'.cache.node? target) =
      Distinct.append (s.cache.members (s.cache.node? target)) (s'.cache.members (s'.cache.node? (.decl d))) := by
  obtain ⟨node, t, hd, h⟩ := Resolve.bind_ok h
  obtain ⟨ht, hg, hnode, hholds, hres⟩ := compile_binding hc hs (by simp) hd
  rw [Resolve.mergeNode_ok h] at h0 ⊢
  have hset : t.Grows {target} (t.setNode target node) := (Session.Evolves.setNode (fun _ => hholds) ht.1.wellFormed).2
  obtain ⟨hst, hmembers⟩ := (finished_lasts ht hset h0).finished _ (hres h0)
  refine ⟨hst, ?_⟩
  rw [hmembers, hnode, ← members_of_evolves hs hg]
  exact NodeCache.members_setNode ht.1.wellFormed.distinct

theorem mergeDecl_binding (hs : env.Binding target s)
    (h : (mergeDecl (env.compileSlot fuel) target d).run s = .ok (u, s')) : env.Binding target s' := by
  have hv := env.compileSlot_visits fuel
  have ht := Regime.mergeDecl_upholds (absorbs_settling (lasting_follows env)) hv (hc.during hv target) hs.holds h
  have hg := (mergeDecl_evolves hv h hs.holds.1.wellFormed).2
  refine ⟨ht, fun h0 n hn => ?_⟩
  obtain ⟨hst, hmembers⟩ := mergeDecl_members hc hs.holds h h0
  rw [hmembers] at hn
  rcases Distinct.mem_append.1 hn with hn | hn
  · exact (hs.binds (Nat.le_zero.1 (h0 ▸ hg.cycles)) n hn).lasts hg.substitution
  · exact .of_decl ((ht.1.value h0 _ hst).binds n hn)

theorem forM_mergeDecl_binding {ds : List DeclId} (hs : env.Binding target s)
    (h : (ds.forM (mergeDecl (env.compileSlot fuel) target)).run s = .ok (u, s')) : env.Binding target s' :=
  Resolve.forM_ok (env.Binding target) (fun _ _ _ _ ht hd => mergeDecl_binding hc ht hd) hs h

theorem mergeResult_binding (hs : env.Binding target s)
    (h : (mergeResult env (env.compileSlot fuel) fuel target callee index call).run s = .ok (u, s')) : env.Binding target s' := by
  obtain ⟨node, t, hd, h⟩ := mergeResult_ok h
  obtain ⟨ht, hg, -⟩ := compile_binding hc hs.holds (by simp) hd
  have hbinding := hs.evolves hg ht
  rcases h with ⟨-, rfl⟩ | ⟨f, _, _, _, returned, t', -, -, -, hr, h⟩ | ⟨f, _, _, _, e, -, -, -, -, -, h⟩
  · exact hbinding
  · obtain ⟨ht', hg', hnode, hholds, hres⟩ := compile_binding hc ht (by simp) hr
    exact mergeReturned_binding (hbinding.evolves hg' ht') hres hnode hholds h
  · exact mergeDecl_binding hc hbinding h

theorem runStep_binding (hst : st ∈ env.rule target) (hs : env.Binding target s)
    (h : (runStep env (env.compileSlot fuel) fuel target st).run s = .ok (u, s')) : env.Binding target s' := by
  have hv := env.compileSlot_visits fuel
  have hserves := hc.during hv target
  have hs' := Regime.runStep_upholds (absorbs_settling (lasting_follows env)) hv hserves hst hs.holds h
  cases st with
  | own n =>
    obtain ⟨d, -, hown⟩ := explains_of_mem_rule hst
    rw [Resolve.mergeNode_ok h] at hs' ⊢
    exact hs.flat hs' hown.not_union fun _ => .of_plain hown.plain
  | merge d => exact mergeDecl_binding hc hs h
  | read base name =>
    obtain ⟨found, t, hf, h⟩ := Resolve.bind_ok h
    obtain ⟨-, hg⟩ := searchMember_evolves hv hf hs.holds.1.wellFormed
    exact forM_mergeDecl_binding hc (hs.evolves hg (Regime.searchMember_upholds hv hserves hs.holds hf)) h
  | delegate metatable name =>
    obtain ⟨node, t, hd, h⟩ := Resolve.bind_ok h
    obtain ⟨ht, hg, -⟩ := compile_binding hc hs.holds (by simp) hd
    refine Resolve.foldMembers_ok (fun _ v => env.Binding target v) (fun n _ v _ v' hn hv' hb => ?_) (hs.evolves hg ht) h
    obtain ⟨found, w, hf, hb⟩ := Resolve.bind_ok hb
    have hflat := hv'.holds.1.wellFormed.members_flat n hn
    obtain ⟨-, hgw⟩ := searchNode_evolves hv hf hv'.holds.1.wellFormed
    have hw := Regime.searchNode_upholds hv hserves (fun _ _ => Session.shares_of_flat hflat) hv'.holds hf
    exact forM_mergeDecl_binding hc (hv'.evolves hgw hw) hb
  | result callee index call => exact mergeResult_binding hc hs h
  | template sub =>
    obtain ⟨f, index, -, rfl, -⟩ := explains_of_mem_rule hst
    obtain ⟨i, t, ha, h⟩ := Resolve.bind_ok h
    cases ha
    rw [Resolve.mergeNode_ok h] at hs' ⊢
    exact (hs.withSubstitution (.template hst)).flat hs' rfl fun _ => ⟨sub, Substitutions.get?_push_self _ _⟩

/-- A rule that takes the result of one call: if the first thing among the members of what is called is a function literal, and
there is no template among what it returns, the slot gets what it returns. -/
theorem mergeResult_members (hs : ((Regime.settling env (lasting_follows env)).during target).Holds s)
    (h : (mergeResult env (env.compileSlot fuel) fuel target callee index call).run s = .ok (u, s')) (h0 : s'.stats.cycleHits = 0) :
    s'.cache.state? (.decl callee) = some .resolved ∧
    ((s'.cache.members (s'.cache.node? (.decl callee))).findSome? env.callable? = some (f, none) →
      s'.cache.state? (.ret f index) = some .resolved ∧
      ((∀ n ∈ s'.cache.members (s'.cache.node? (.ret f index)), isTemplate s' n = false) →
        s'.cache.members (s'.cache.node? target) = Distinct.append (s.cache.members (s.cache.node? target))
          (s'.cache.members (s'.cache.node? (.ret f index))))) := by
  have hv := env.compileSlot_visits fuel
  obtain ⟨node, t, hd, h⟩ := mergeResult_ok h
  obtain ⟨ht, hg, hnode, -, hres⟩ := compile_binding hc hs (by simp) hd
  -- the members of what is called stay as they are from here on
  have hcallee : ∀ hg' : t.Grows {target} s', s'.cache.state? (.decl callee) = some .resolved ∧
      s'.cache.members (s'.cache.node? (.decl callee)) = t.cache.members node := by
    intro hg'
    rw [← hnode]
    exact (finished_lasts ht hg' h0).finished _ (hres (Nat.le_zero.1 (h0 ▸ hg'.cycles)))
  have hslots : ∀ {ms}, ms.findSome? env.callable? = some (f, none) → env.resultSlots index ms = [.ret f index] := by
    intro ms hfind
    simp only [resultSlots, hfind]
  rcases h with ⟨hnone, rfl⟩ | ⟨g, _, _, _, returned, t', -, -, hret, hr, h⟩ | ⟨g, _, _, _, e, -, -, -, -, hdoc, h⟩
  · obtain ⟨hst, hmembers⟩ := hcallee (.refl _ _)
    refine ⟨hst, fun hfind => ?_⟩
    rw [hmembers] at hfind
    rw [hslots hfind] at hnone
    cases hnone
  · obtain ⟨ht', hg', hnode', hholds, hres'⟩ := compile_binding hc ht (by simp) hr
    have hlast := (mergeReturned_evolves (fun _ => hholds) h ht'.1.wellFormed).2
    obtain ⟨hst, hmembers⟩ := hcallee ((hg'.mono (Set.empty_subset _)).trans hlast)
    refine ⟨hst, fun hfind => ?_⟩
    rw [hmembers] at hfind
    rw [hslots hfind] at hret
    cases hret
    have hlasts := finished_lasts ht' hlast h0
    obtain ⟨hst', hmembers'⟩ := hlasts.finished _ (hres' (Nat.le_zero.1 (h0 ▸ hlast.cycles)))
    refine ⟨hst', fun hplain => ?_⟩
    rw [hmembers', hnode'] at hplain
    have hnone : (t'.cache.members returned).any (isTemplate t') = false := by
      rw [List.any_eq_false]
      exact fun n hn => Bool.eq_false_iff.1 (Session.isTemplate_of_lasts hlasts.substitution (hplain n hn))
    rw [hmembers', hnode', ← members_of_evolves hs hg, ← members_of_evolves ht hg', mergeReturned_of_none hnone h]
    exact NodeCache.members_setNode ht'.1.wellFormed.distinct
  · have hlast := (mergeDecl_evolves hv h ht.1.wellFormed).2
    obtain ⟨hst, hmembers⟩ := hcallee hlast
    refine ⟨hst, fun hfind => ?_⟩
    rw [hmembers] at hfind
    rw [hslots hfind] at hdoc
    cases hdoc

end Rule

/-- Whatever slot is resolved, finished slots follow their rules. -/
theorem compileSlot_following (env : Env) (fuel : Nat) :
    (Regime.settling env (lasting_follows env)).Serves (env.compileSlot fuel) := by
  refine compileSlot_settling (lasting_follows env) (fun fuel key s t hc hs hempty hr h0 => ?_) fuel
  have hnil : s.cache.members (s.cache.node? key) = [] := by rw [hempty]; rfl
  have hstart : env.Binding key s := ⟨hs, by simp [hnil]⟩
  by_cases hkey : ∃ i, key = .generic i
  · obtain ⟨i, rfl⟩ := hkey
    exact ⟨fun n _ => by cases n <;> trivial, fun _ hk => absurd rfl (hk i), by simp [rule], by simp [rule]⟩
  · have hk : ∀ i, key ≠ .generic i := fun i hi => hkey ⟨i, hi⟩
    rw [runRule_eq_steps hk] at hr
    have hend : env.Binding key t :=
      Resolve.forM_ok (env.Binding key) (fun _ hst _ _ ht hr => runStep_binding hc hst ht hr) hstart hr
    have happend : ∀ {ms : List TypeNode}, ms.Nodup → Distinct.append (s.cache.members (s.cache.node? key)) ms = ms := by
      intro ms hms
      rw [hnil]
      exact Distinct.nil_append hms
    refine ⟨hend.binds h0, fun hrule _ => ?_, fun d hrule => ?_, fun callee index call f hrule => ?_⟩
    · rw [hrule] at hr
      cases hr
      exact hnil
    · rw [hrule] at hr
      obtain ⟨_, _, hr, hdone⟩ := Resolve.bind_ok hr
      cases hdone
      obtain ⟨hst, hmembers⟩ := mergeDecl_members hc hs hr h0
      exact ⟨hst, hmembers.trans (happend (NodeCache.nodup_members hend.holds.1.wellFormed.distinct))⟩
    · rw [hrule] at hr
      obtain ⟨_, _, hr, hdone⟩ := Resolve.bind_ok hr
      cases hdone
      obtain ⟨hst, hresult⟩ := mergeResult_members (f := f) hc hs hr h0
      refine ⟨hst, fun hfind => ?_⟩
      obtain ⟨hret, hmembers⟩ := hresult hfind
      exact ⟨hret, fun hplain => (hmembers hplain).trans (happend (NodeCache.nodup_members hend.holds.1.wellFormed.distinct))⟩

end Env

end LuaInfer
