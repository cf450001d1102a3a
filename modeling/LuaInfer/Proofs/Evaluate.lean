import LuaInfer.Proofs.Firm
import Mathlib.Data.List.Forall2
/-!
# Rules that evaluate

Some slots have members that can be told without a session: their rules take nodes, other such declarations and results of
function literals, and nothing leads back to where it came from. `Env.Evaluates` is a big-step semantics of these rules. A
derivation has a height, and what a rule takes evaluates in less than the rule itself.

While the rule of such a slot runs, it resolves only slots that evaluate in less, so it never meets one that is under way, and a
rule that does not evaluate is never inside one that does. That is the precondition of `Env.compileSlot_evaluating`
(`Session.Awaits`): whatever slots are resolved, in whatever order, those that evaluate come to have what they evaluate to, and
nobody adds to it later. `Session.compile_evaluates`: a query for such a slot returns, with exactly these members.
-/

namespace LuaInfer

/-! ## The semantics -/

/-- What a step contributes, where `E` tells the members of other slots. A result may hold no substitution: a template would have
to be bound to the call. -/
inductive Step.Gives (env : Env) (E : SlotKey → List TypeNode → Prop) : Step → List TypeNode → Prop
  | own {n : TypeNode} : n.isUnion = false → Gives env E (.own n) [n]
  | merge {d : DeclId} {ms : List TypeNode} : E (.decl d) ms → Gives env E (.merge d) ms
  | result {callee call f : DeclId} {index : Nat} {ms ns : List TypeNode} : E (.decl callee) ms →
      ms.findSome? env.callable? = some (f, none) → E (.ret f index) ns → (∀ n ∈ ns, n.IsPlain) →
      Gives env E (.result callee index call) ns

/-- What steps contribute together. -/
def Step.AllGive (env : Env) (E : SlotKey → List TypeNode → Prop) (steps : List Step) (ms : List TypeNode) : Prop :=
  ∃ parts, List.Forall₂ (Step.Gives env E) steps parts ∧ ms = Distinct.concat parts

/-- The slot has these members, by a derivation of at most this height. -/
def Env.Evaluates (env : Env) : Nat → SlotKey → List TypeNode → Prop
  | 0, _, _ => False
  | n + 1, key, ms => (∀ i, key ≠ .generic i) ∧ Step.AllGive env (env.Evaluates n) (env.rule key) ms

section Semantics

variable {env : Env} {E E' : SlotKey → List TypeNode → Prop} {st : Step} {key : SlotKey} {ms ms' : List TypeNode} {m n : Nat}

theorem Step.Gives.imp (hE : ∀ k ms, E k ms → E' k ms) (h : st.Gives env E ms) : st.Gives env E' ms := by
  cases h with
  | own hn => exact .own hn
  | merge hd => exact .merge (hE _ _ hd)
  | result hc hf hr hplain => exact .result (hE _ _ hc) hf (hE _ _ hr) hplain

theorem Step.Gives.unique (hE : ∀ k ms ms', E k ms → E k ms' → ms = ms') (h : st.Gives env E ms)
    (h' : st.Gives env E ms') : ms = ms' := by
  cases h with
  | own _ => cases h'; rfl
  | merge hd =>
    cases h' with
    | merge hd' => exact hE _ _ _ hd hd'
  | result hc hf hr _ =>
    cases h' with
    | result hc' hf' hr' _ =>
      rw [hE _ _ _ hc hc', hf'] at hf
      cases hf
      exact hE _ _ _ hr hr'

namespace Env.Evaluates

theorem succ (h : env.Evaluates n key ms) : env.Evaluates (n + 1) key ms := by
  induction n generalizing key ms with
  | zero => cases h
  | succ n ih =>
    obtain ⟨hkey, parts, hparts, rfl⟩ := h
    exact ⟨hkey, parts, hparts.imp fun _ _ hst => hst.imp fun _ _ hk => ih hk, rfl⟩

theorem not_generic (h : env.Evaluates n key ms) (i : GenericId) : key ≠ .generic i := by
  cases n with
  | zero => cases h
  | succ n => exact h.1 i

theorem mono (h : env.Evaluates m key ms) (hmn : m ≤ n) : env.Evaluates n key ms := by
  induction hmn with
  | refl => exact h
  | step _ ih => exact ih.succ

theorem unique (h : env.Evaluates m key ms) (h' : env.Evaluates n key ms') : ms = ms' := by
  have hsame : ∀ n key ms ms', env.Evaluates n key ms → env.Evaluates n key ms' → ms = ms' := by
    intro n
    induction n with
    | zero => intro _ _ _ h; cases h
    | succ n ih =>
      rintro key _ _ ⟨-, parts, hparts, rfl⟩ ⟨-, parts', hparts', rfl⟩
      have hright : Relator.RightUnique (Step.Gives env (env.Evaluates n)) := fun _ _ _ hst hst' => hst.unique ih hst'
      rw [List.right_unique_forall₂' hright hparts hparts']
  exact hsame _ _ _ _ (h.mono (Nat.le_max_left m n)) (h'.mono (Nat.le_max_right m n))

theorem nodup (h : env.Evaluates n key ms) : ms.Nodup := by
  cases n with
  | zero => cases h
  | succ n =>
    obtain ⟨-, parts, -, rfl⟩ := h
    exact Distinct.nodup_concat parts

/-- No substitution comes up: what a rule has by itself is none, and no result that is taken holds one. -/
theorem plain (h : env.Evaluates n key ms) : ∀ m ∈ ms, m.IsPlain := by
  induction n generalizing key ms with
  | zero => cases h
  | succ n ih =>
    obtain ⟨-, parts, hparts, rfl⟩ := h
    intro m hm
    obtain ⟨part, hpart, hm⟩ := Distinct.mem_concat.1 hm
    obtain ⟨st, hst, hgives⟩ := hparts.exists_of_mem_right hpart
    cases hgives with
    | own _ =>
      obtain ⟨d, -, hown⟩ := explains_of_mem_rule hst
      rw [List.mem_singleton.1 hm]
      exact hown.plain
    | merge he => exact ih he m hm
    | result _ _ _ hplain => exact hplain m hm

end Env.Evaluates

namespace Step.AllGive

theorem nil : AllGive env E [] [] := ⟨[], .nil, rfl⟩

theorem singleton (h : st.Gives env E ms) (hms : ms.Nodup) : AllGive env E [st] ms :=
  ⟨[ms], .cons h .nil, (Distinct.nil_append hms).symm⟩

end Step.AllGive

end Semantics

/-! ## Sessions -/

namespace Session

variable {env : Env} {s s' t : Session} {T : Set SlotKey} {target key k : SlotKey} {node : Option TypeNode}
  {acc ms : List TypeNode} {n : Nat}

/-- Slots that evaluate have what they evaluate to once they are resolved, and nobody adds to it. -/
structure Evaluated (env : Env) (s : Session) : Prop where
  wellFormed : s.cache.WellFormed
  value : ∀ k n ms, env.Evaluates n k ms → s.cache.state? k = some .resolved →
    s.cache.Firm k ∧ s.cache.members (s.cache.node? k) = ms

/-- Slots under way that evaluate take longer than `n`. -/
def Outlasts (env : Env) (n : Nat) (s : Session) : Prop :=
  ∀ k m ms, s.cache.state? k = some .inProgress → env.Evaluates m k ms → n < m

/-- Slots under way that evaluate take longer than `key`: a slot may be resolved inside them only if it evaluates too. -/
def Awaits (env : Env) (s : Session) (key : SlotKey) : Prop :=
  ∀ k n ms, s.cache.state? k = some .inProgress → env.Evaluates n k ms → ∃ m < n, ∃ ns, env.Evaluates m key ns

theorem Outlasts.grows (h : s.Outlasts env n) (hg : s.Grows T s') : s'.Outlasts env n :=
  fun k m ms hk he => h k m ms (hg.cache.inProgress hk) he

theorem Outlasts.awaits (h : s.Outlasts env n) (he : env.Evaluates n key ms) : s.Awaits env key :=
  fun k m ms hk he' => ⟨n, h k m ms hk he', _, he⟩

theorem Awaits.state_ne (h : s.Awaits env key) (he : env.Evaluates n key ms) : s.cache.state? key ≠ some .inProgress := by
  induction n using Nat.strong_induction_on generalizing ms with
  | _ n ih =>
    intro hk
    obtain ⟨m, hm, ns, he'⟩ := h key n ms hk he
    exact ih m hm he' hk

namespace Evaluated

theorem congr (h : s.Evaluated env) (hcache : s'.cache = s.cache) : s'.Evaluated env :=
  ⟨hcache ▸ h.wellFormed, by rw [hcache]; exact h.value⟩

theorem setNode (h : s.Evaluated env) (ht : s.cache.state? target = some .inProgress)
    (hholds : ∀ n, node = some n → s.cache.unions.Holds n) : (s.setNode target node).Evaluated env := by
  have hset : s.Evolves {target} (s.setNode target node) := .setNode fun _ => hholds
  obtain ⟨hw, hg⟩ := hset h.wellFormed
  refine ⟨hw, fun k n ms he hk => ?_⟩
  have hk' : s.cache.state? k = some .resolved := by
    by_cases hkt : k = target
    · subst hkt
      rw [hg.cache.state k _ ht] at hk
      cases hk
    · rwa [NodeCache.state?, slot?_setNode_of_ne hkt] at hk
  obtain ⟨hfirm, hmembers⟩ := h.value k n ms he hk'
  obtain ⟨hfirm', -, hmembers'⟩ := hfirm.grows h.wellFormed hg.cache (by
    rintro _ rfl hres
    rw [ht] at hres
    cases hres)
  exact ⟨hfirm', hmembers'.trans hmembers⟩

theorem start (h : s.Evaluated env) (habs : s.cache.slot? key = none) (kind : String) : (s.start key kind).Evaluated env := by
  refine ⟨h.wellFormed.start habs, fun k n ms he hk => ?_⟩
  have hk' : s.cache.state? k = some .resolved := by
    rw [NodeCache.state?, slot?_start] at hk
    split at hk
    · cases hk
    · exact hk
  obtain ⟨hfirm, hmembers⟩ := h.value k n ms he hk'
  obtain ⟨hfirm', hnode⟩ := hfirm.start habs
  refine ⟨hfirm', Eq.trans ?_ hmembers⟩
  change (s.cache.start key).members ((s.cache.start key).node? k) = _
  rw [hnode]
  rfl

/-- The rule of a slot ends, with what the slot evaluates to if it does. -/
theorem finish (h : s.Evaluated env) (query : Nat)
    (hkey : ∀ n ms, env.Evaluates n key ms → s.cache.CalmAt key ∧ s.cache.members (s.cache.node? key) = ms) :
    (s.finish query key).Evaluated env := by
  have hmembers : ∀ k, (s.finish query key).cache.members ((s.finish query key).cache.node? k) =
      s.cache.members (s.cache.node? k) := by
    intro k
    change (s.cache.finish key).members ((s.cache.finish key).node? k) = _
    rw [NodeCache.node?_finish]
    rfl
  refine ⟨h.wellFormed.finish, fun k n ms he hk => ?_⟩
  rw [hmembers]
  by_cases hkk : k = key
  · subst hkk
    obtain ⟨hcalm, hms⟩ := hkey n ms he
    refine ⟨⟨hk, fun u hu => ?_⟩, hms⟩
    obtain ⟨o, ho, hres⟩ := hcalm u (by rwa [show (s.finish query k).cache.node? k = s.cache.node? k from
      NodeCache.node?_finish] at hu)
    refine ⟨o, ho, ?_⟩
    rw [show (s.finish query k).cache.state? o = _ from NodeCache.state?_finish s.cache k o]
    split
    · rfl
    · next hne => exact hres.resolve_left hne
  · rw [NodeCache.state?, slot?_finish, if_neg hkk] at hk
    obtain ⟨hfirm, hms⟩ := h.value k n ms he hk
    exact ⟨hfirm.finish, hms⟩

end Evaluated

/-! ## The rule of a slot that evaluates -/

/-- The rule of `target` runs and has merged `acc` so far. -/
structure Builds (env : Env) (target : SlotKey) (acc : List TypeNode) (s : Session) : Prop where
  evaluated : s.Evaluated env
  state : s.cache.state? target = some .inProgress
  calm : s.cache.CalmAt target
  members : s.cache.members (s.cache.node? target) = acc

theorem Builds.start (h : s.Evaluated env) (habs : s.cache.slot? key = none) (kind : String) :
    (s.start key kind).Builds env key [] := by
  have hslot : (s.start key kind).cache.slot? key = some ⟨.inProgress, none⟩ := by rw [slot?_start, if_pos rfl]
  refine ⟨h.start habs kind, NodeCache.state?_eq_some.2 ⟨none, hslot⟩, fun u hu => ?_, ?_⟩
  · rw [NodeCache.node?_of_slot? hslot] at hu
    cases hu
  · rw [NodeCache.node?_of_slot? hslot]
    rfl

/-- Resolving another slot leaves what was built. -/
theorem Builds.visits (h : s.Builds env target acc) (hv : Visits key s node t) (ht : t.Evaluated env) :
    t.Builds env target acc := by
  have hslot := NodeCache.slot?_of_state? h.state
  have hnode : t.cache.node? target = s.cache.node? target :=
    NodeCache.node?_of_slot? (hv.grows.cache.slot target (by simp) _ hslot)
  refine ⟨ht, hv.grows.cache.state _ _ h.state, fun u hu => ?_, ?_⟩
  · obtain ⟨o, ho, hres⟩ := h.calm u (hnode ▸ hu)
    exact ⟨o, hv.grows.cache.owner u o ho, hres.imp_right (hv.grows.cache.state o _)⟩
  · rw [hv.grows.cache.members_slot h.evaluated.wellFormed (by simp [hslot]), h.members]

theorem Builds.setNode (h : s.Builds env target acc) (hholds : ∀ n, node = some n → s.cache.unions.Holds n)
    (hnode : ∀ u, node = some (.union u) → ∃ o, s.cache.unions.owner? u = some o ∧ s.cache.state? o = some .resolved) :
    (s.setNode target node).Builds env target (Distinct.append acc (s.cache.members node)) := by
  refine ⟨h.evaluated.setNode h.state hholds, NodeCache.state?_setNode h.state,
    h.calm.setNode h.evaluated.wellFormed hholds hnode, ?_⟩
  rw [← h.members]
  exact NodeCache.members_setNode h.evaluated.wellFormed.distinct

end Session

/-- Resolving a slot, where it may be, leaves slots with what they evaluate to; it is resolved then if it evaluates. -/
def Compile.Evaluating (env : Env) (compile : Compile) : Prop :=
  ∀ key s node s', Session.Evaluated env s → s.Awaits env key → (compile key).run s = .ok (node, s') →
    s'.Evaluated env ∧ ∀ n ms, env.Evaluates n key ms → s'.cache.state? key = some .resolved

namespace Env

variable {env : Env} {compile : Compile} {fuel n N : Nat} {target key : SlotKey} {s s' t : Session} {st : Step}
  {acc ms : List TypeNode} {u : Unit}

open Session

theorem runRule_eq_steps (h : ∀ i, key ≠ .generic i) :
    runRule env compile fuel key = (env.rule key).forM (runStep env compile fuel key) := by
  cases key with
  | decl d => rfl
  | ret f index => rfl
  | generic i => exact absurd rfl (h i)

/-- Without a substitution among its members a result is merged as it is. -/
theorem mergeReturned_of_plain {call : DeclId} {returned : Option TypeNode}
    (h : ∀ n ∈ s.cache.members returned, n.IsPlain) :
    (mergeReturned fuel target call returned).run s = .ok ((), s.setNode target returned) := by
  have hnone : (s.cache.members returned).any (isTemplate s) = false := by
    rw [List.any_eq_false]
    intro n hn
    cases n with
    | generic i => cases h _ hn
    | _ => simp [isTemplate]
  rw [mergeReturned, Resolve.run_bind_of (a := s) (t := s) rfl, hnone]
  rfl

section Compile

variable (hv : compile.Visiting) (hc : compile.Evaluating env)
include hv hc

/-- A slot that evaluates is resolved on the way: its node may be merged, and has what the slot evaluates to. -/
theorem compile_builds {node : Option TypeNode} (h : s.Builds env target acc) (hn : s.Outlasts env n)
    (he : env.Evaluates n key ms) (hr : (compile key).run s = .ok (node, t)) :
    t.Builds env target acc ∧ t.Outlasts env n ∧ t.cache.members node = ms ∧
      (∀ m, node = some m → t.cache.unions.Holds m) ∧
      ∀ u, node = some (.union u) → ∃ o, t.cache.unions.owner? u = some o ∧ t.cache.state? o = some .resolved := by
  have hvis := hv _ _ _ _ h.evaluated.wellFormed hr
  obtain ⟨ht, hres⟩ := hc _ _ _ _ h.evaluated (hn.awaits he) hr
  obtain ⟨hfirm, hmembers⟩ := ht.value _ _ _ he (hres n ms he)
  rw [hvis.node] at hmembers
  exact ⟨h.visits hvis ht, hn.grows hvis.grows, hmembers, hvis.holds, fun u hu => hfirm.owner u (hvis.node.trans hu)⟩

theorem runStep_builds (h : s.Builds env target acc) (hn : s.Outlasts env n) (hst : st.Gives env (env.Evaluates n) ms)
    (hr : (runStep env compile fuel target st).run s = .ok (u, s')) :
    s'.Builds env target (Distinct.append acc ms) ∧ s'.Outlasts env n := by
  have hset : ∀ {t : Session} {node : Option TypeNode}, t.cache.WellFormed → t.Outlasts env n →
      (∀ m, node = some m → t.cache.unions.Holds m) → (t.setNode target node).Outlasts env n :=
    fun hw hn hholds => hn.grows (Evolves.setNode (fun _ => hholds) hw).2
  cases hst with
  | @own m hm =>
    rw [Resolve.mergeNode_ok hr]
    have hmembers : s.cache.members (some m) = [m] := by
      cases m with
      | union u => cases hm
      | _ => rfl
    refine ⟨?_, hset h.evaluated.wellFormed hn (UnionArena.holds_some hm)⟩
    rw [← hmembers]
    refine h.setNode (UnionArena.holds_some hm) ?_
    rintro u ⟨⟩
    cases hm
  | merge he =>
    obtain ⟨node, t, hd, hr⟩ := Resolve.bind_ok hr
    rw [Resolve.mergeNode_ok hr]
    obtain ⟨ht, hn', rfl, hholds, howner⟩ := compile_builds hv hc h hn he hd
    exact ⟨ht.setNode hholds howner, hset ht.evaluated.wellFormed hn' hholds⟩
  | result hcallee hf hresult hplain =>
    obtain ⟨node, t, hd, hr⟩ := Resolve.bind_ok hr
    obtain ⟨_, _, hg, hr⟩ := Resolve.bind_ok hr
    cases hg
    obtain ⟨ht, hn', rfl, -, -⟩ := compile_builds hv hc h hn hcallee hd
    simp only [hf] at hr
    obtain ⟨returned, t', hd', hr⟩ := Resolve.bind_ok hr
    obtain ⟨ht', hn'', rfl, hholds, howner⟩ := compile_builds hv hc ht hn' hresult hd'
    rw [mergeReturned_of_plain hplain] at hr
    cases hr
    exact ⟨ht'.setNode hholds howner, hset ht'.evaluated.wellFormed hn'' hholds⟩

theorem steps_build {steps : List Step} {parts : List (List TypeNode)}
    (hsteps : List.Forall₂ (Step.Gives env (env.Evaluates n)) steps parts) (h : s.Builds env target acc)
    (hn : s.Outlasts env n) (hr : (steps.forM (runStep env compile fuel target)).run s = .ok (u, s')) :
    s'.Builds env target (Distinct.append acc (Distinct.concat parts)) := by
  induction hsteps generalizing s acc with
  | nil => cases hr; exact h
  | cons hst _ ih =>
    obtain ⟨_, t, hx, hr⟩ := Resolve.bind_ok hr
    obtain ⟨ht, hn'⟩ := runStep_builds hv hc h hn hst hx
    rw [Distinct.append_concat_cons]
    exact ih ht hn' hr

end Compile

end Env

/-! ## The rule of a slot that does not evaluate -/

/-- Slots have what they evaluate to, and none that evaluates is under way. -/
def Regime.evaluating (env : Env) : Regime env where
  Holds s := s.Evaluated env ∧ ∀ k n ms, s.cache.state? k = some .inProgress → ¬ env.Evaluates n k ms
  Allows _ _ := True
  wellFormed h := h.1.wellFormed
  plain _ := trivial
  member _ _ := trivial
  grows _ _ := trivial
  bind _ h := ⟨h.1.congr rfl, h.2⟩
  new _ _ := trivial

namespace Env

variable {env : Env} {compile : Compile} {fuel n N : Nat} {target key : SlotKey} {s s' t : Session} {ms : List TypeNode}
  {u : Unit}

open Session

theorem absorbs_evaluating (target : SlotKey) : ((Regime.evaluating env).during target).Absorbs target := by
  rintro s m ⟨⟨hs, hstill⟩, hst⟩ - hholds
  have hholds' : ∀ x, some m = some x → s.cache.unions.Holds x := by
    rintro _ ⟨⟩
    exact hholds
  have hg : s.Grows {target} (s.setNode target (some m)) := (Evolves.setNode (fun _ => hholds') hs.wellFormed).2
  exact ⟨⟨hs.setNode hst hholds', fun k n ms hk => hstill k n ms (hg.cache.inProgress hk)⟩, NodeCache.state?_setNode hst⟩

theorem serves_evaluating (hv : compile.Visiting) (hc : compile.Evaluating env) : (Regime.evaluating env).Serves compile := by
  rintro key s node s' ⟨hs, hstill⟩ - hr
  have hawaits : s.Awaits env key := fun k n ms hk he => absurd he (hstill k n ms hk)
  have hvis := hv _ _ _ _ hs.wellFormed hr
  exact ⟨⟨(hc _ _ _ _ hs hawaits hr).1, fun k n ms hk => hstill k n ms (hvis.grows.cache.inProgress hk)⟩,
    fun _ _ => trivial⟩

theorem runRule_evaluated (hv : compile.Visiting) (hc : compile.Evaluating env) (hs : ((Regime.evaluating env).during target).Holds s)
    (hr : (runRule env compile fuel target).run s = .ok (u, s')) : s'.Evaluated env :=
  (Regime.runRule_upholds (R := (Regime.evaluating env).during target)
    (fun _ _ h => ⟨⟨h.1.1.congr rfl, h.1.2⟩, h.2⟩) (absorbs_evaluating target) hv ((serves_evaluating hv hc).during hv target) hs
    hr).1.1

/-! ## Slots -/

/-- A derivation of least height: what the rule takes evaluates in less than any slot under way, its own included. -/
theorem exists_outlasts (he : env.Evaluates n key ms) (h : s.Awaits env key) (kind : String) :
    ∃ m parts, List.Forall₂ (Step.Gives env (env.Evaluates m)) (env.rule key) parts ∧ ms = Distinct.concat parts ∧
      (s.start key kind).Outlasts env m := by
  classical
  have hex : ∃ n, env.Evaluates n key ms := ⟨n, he⟩
  have hleast : ∀ m ns, env.Evaluates m key ns → Nat.find hex ≤ m :=
    fun m ns hm => Nat.find_le (hm.unique he ▸ hm)
  obtain ⟨m, hm⟩ : ∃ m, Nat.find hex = m + 1 := by
    refine Nat.exists_eq_succ_of_ne_zero fun hzero => ?_
    have hspec := Nat.find_spec hex
    rw [hzero] at hspec
    exact hspec
  have hspec := Nat.find_spec hex
  rw [hm] at hspec hleast
  obtain ⟨-, parts, hparts, hms⟩ := hspec
  refine ⟨m, parts, hparts, hms, fun k j ns hk hj => ?_⟩
  rw [NodeCache.state?, Session.slot?_start] at hk
  split at hk
  · next heq =>
    subst heq
    exact hleast j ns hj
  · obtain ⟨i, hi, ns', hkey⟩ := h k j ns hk hj
    exact Nat.lt_trans (hleast i ns' hkey) hi

/-- By induction on the fuel: whatever slot is resolved, those that evaluate come to have what they evaluate to. -/
theorem compileSlot_evaluating (env : Env) (fuel : Nat) : Compile.Evaluating env (env.compileSlot fuel) := by
  induction fuel with
  | zero => intro key s node s' _ _ hr; cases hr
  | succ fuel ih =>
    intro key s node s' hs hawaits hr
    have hv := env.compileSlot_visits fuel
    rcases compileSlot_ok hr with ⟨slot, hslot, -, rfl⟩ | ⟨t, query, habs, hrule, -, rfl⟩
    · have hcache := (Session.cache_hit s key (env.slotKind key) slot.state).1
      refine ⟨hs.congr hcache, fun n ms he => ?_⟩
      rw [hcache]
      have hst : s.cache.state? key = some slot.state := by rw [NodeCache.state?, hslot]; rfl
      cases hstate : slot.state with
      | resolved => rw [hst, hstate]
      | inProgress => exact absurd (hst.trans (congrArg some hstate)) (hawaits.state_ne he)
    · have hresolved : (t.finish query key).cache.state? key = some .resolved := by
        rw [NodeCache.state?, Session.slot?_finish, if_pos rfl]
        rfl
      refine ⟨?_, fun _ _ _ => hresolved⟩
      by_cases hev : ∃ n ms, env.Evaluates n key ms
      · obtain ⟨n, ms, he⟩ := hev
        obtain ⟨m, parts, hparts, rfl, hm⟩ := exists_outlasts he hawaits (env.slotKind key)
        rw [runRule_eq_steps he.not_generic] at hrule
        have ht := steps_build hv ih hparts (Builds.start hs habs _) hm hrule
        rw [Distinct.nil_append (Distinct.nodup_concat parts)] at ht
        exact ht.evaluated.finish query fun n' ms' he' => ⟨ht.calm, ht.members.trans (he.unique he')⟩
      · have hstill : ∀ k n ms, (s.start key (env.slotKind key)).cache.state? k = some .inProgress →
            ¬ env.Evaluates n k ms := by
          intro k n ms hk he
          rw [NodeCache.state?, Session.slot?_start] at hk
          split at hk
          · next heq => exact hev ⟨n, ms, heq ▸ he⟩
          · obtain ⟨m, -, ns, hkey⟩ := hawaits k n ms hk he
            exact hev ⟨m, ns, hkey⟩
        have hbuilds := Builds.start hs habs (env.slotKind key)
        have ht := runRule_evaluated hv ih ⟨⟨hbuilds.evaluated, hstill⟩, hbuilds.state⟩ hrule
        exact ht.finish query fun n ms he => absurd ⟨n, ms, he⟩ hev

/-- Each slot that evaluates within `n` is resolved, if there is fuel for the slots that are absent. -/
def Finishing (env : Env) (N n fuel : Nat) (compile : Compile) : Prop :=
  ∀ key ms s, env.Evaluates n key ms → key.result ≤ N → s.Evaluated env → s.Awaits env key → env.absent N s < fuel →
    ∃ node s', (compile key).run s = .ok (node, s')

section Returns

variable {acc : List TypeNode} {st : Step} (hv : compile.Visiting) (hc : compile.Evaluating env)
  (hret : env.Finishing N n fuel compile)
include hv hc hret

theorem compile_builds_returns (he : env.Evaluates n key ms) (hkey : key.result ≤ N) (h : s.Builds env target acc)
    (hn : s.Outlasts env n) (hfuel : env.absent N s < fuel) :
    ∃ node t, (compile key).run s = .ok (node, t) ∧ t.Builds env target acc ∧ t.Outlasts env n ∧
      t.cache.members node = ms ∧ env.absent N t < fuel := by
  obtain ⟨node, t, hr⟩ := hret key ms s he hkey h.evaluated (hn.awaits he) hfuel
  obtain ⟨ht, hn', hms, -, -⟩ := compile_builds hv hc h hn he hr
  have hg := (hv _ _ _ _ h.evaluated.wellFormed hr).grows
  exact ⟨node, t, hr, ht, hn', hms, Nat.lt_of_le_of_lt (absent_mono fun _ => hg.cache.exists_slot) hfuel⟩

theorem runStep_builds_returns (hmax : env.maxIndex = env.arena.maxIndex) (hN : env.maxIndex ≤ N)
    (htarget : target.result ≤ N) (hrule : st ∈ env.rule target) (hst : st.Gives env (env.Evaluates n) ms)
    (h : s.Builds env target acc) (hn : s.Outlasts env n) (hfuel : env.absent N s < fuel) :
    ∃ s', (runStep env compile fuel target st).run s = .ok ((), s') := by
  cases hst with
  | own _ => exact ⟨_, rfl⟩
  | merge he =>
    obtain ⟨node, t, hr, -⟩ := compile_builds_returns hv hc hret he (Nat.zero_le _) h hn hfuel
    exact ⟨_, Resolve.run_bind_of hr⟩
  | @result callee call f index _ _ hcallee hf hresult hplain =>
    have hindex : index ≤ N := by
      obtain ⟨args, hcall, -, -⟩ := explains_of_mem_rule hrule
      have := hcall.index_le
      omega
    obtain ⟨node, t, hr, ht, hn', rfl, hfuel'⟩ := compile_builds_returns hv hc hret hcallee (Nat.zero_le _) h hn hfuel
    obtain ⟨returned, t', hr', -, -, rfl, -⟩ := compile_builds_returns hv hc hret hresult hindex ht hn' hfuel'
    refine ⟨t'.setNode target returned, ?_⟩
    rw [runStep, mergeResult, Resolve.run_bind_of hr, Resolve.run_bind_of (a := t) (t := t) rfl, hf]
    exact (Resolve.run_bind_of hr').trans (mergeReturned_of_plain hplain)

theorem steps_build_return (hmax : env.maxIndex = env.arena.maxIndex) (hN : env.maxIndex ≤ N) (htarget : target.result ≤ N)
    {steps : List Step} {parts : List (List TypeNode)} (hrule : ∀ st ∈ steps, st ∈ env.rule target)
    (hsteps : List.Forall₂ (Step.Gives env (env.Evaluates n)) steps parts) (h : s.Builds env target acc)
    (hn : s.Outlasts env n) (hfuel : steps ≠ [] → env.absent N s < fuel) :
    ∃ s', (steps.forM (runStep env compile fuel target)).run s = .ok ((), s') := by
  induction hsteps generalizing s acc with
  | nil => exact ⟨s, rfl⟩
  | @cons st _ _ _ hst _ ih =>
    have hmem := hrule st (by simp)
    obtain ⟨t, hx⟩ := runStep_builds_returns hv hc hret hmax hN htarget hmem hst h hn (hfuel (by simp))
    obtain ⟨ht, hn'⟩ := runStep_builds hv hc h hn hst hx
    have hg := (runStep_evolves hv hmem hx h.evaluated.wellFormed).2
    obtain ⟨s', hr⟩ := ih (fun st' hst' => hrule st' (by simp [hst'])) ht hn' fun _ =>
      Nat.lt_of_le_of_lt (absent_mono fun _ => hg.cache.exists_slot) (hfuel (by simp))
    exact ⟨s', (Resolve.run_bind_of hx).trans hr⟩

end Returns

/-- By induction on the fuel: a slot that evaluates is resolved, since whenever a rule is entered, one slot less is absent. -/
theorem compileSlot_finishing (hmax : env.maxIndex = env.arena.maxIndex) (hN : env.maxIndex ≤ N) (fuel n : Nat) :
    env.Finishing N n fuel (env.compileSlot fuel) := by
  induction fuel generalizing n with
  | zero => intro key ms s _ _ _ _ hfuel; cases hfuel
  | succ fuel ih =>
    intro key ms s he hkey hs hawaits hfuel
    cases hslot : s.cache.slot? key with
    | some slot => exact ⟨_, _, compileSlot_of_slot hslot⟩
    | none =>
      obtain ⟨m, parts, hparts, -, hm⟩ := exists_outlasts he hawaits (env.slotKind key)
      have hstart : env.rule key ≠ [] → env.absent N (s.start key (env.slotKind key)) < fuel := by
        intro hne
        obtain ⟨st, hst⟩ := List.exists_mem_of_ne_nil _ hne
        exact Nat.lt_of_lt_of_le (absent_start hslot (mem_slotsUpTo_of_mem_rule hst hkey) _) (Nat.le_of_lt_succ hfuel)
      obtain ⟨t, hr⟩ := steps_build_return (env.compileSlot_visits fuel) (env.compileSlot_evaluating fuel) (ih m) hmax hN hkey
        (fun _ hst => hst) hparts (Builds.start hs hslot _) hm hstart
      refine ⟨_, _, compileSlot_of_rule (t := t) (u := ()) hslot ?_⟩
      rwa [runRule_eq_steps he.not_generic]

end Env

namespace Session

variable {env : Env} {s : Session} {key : SlotKey} {ms : List TypeNode} {n : Nat}

/-- Nothing is under way between queries, so every slot may be resolved. -/
theorem awaits_of_idle (h : s.Idle) (key : SlotKey) : s.Awaits env key := fun k _ _ hk _ => absurd hk (h.state k)

theorem evaluated_fresh : fresh.Evaluated env := by
  refine ⟨NodeCache.wellFormed_empty, fun k n ms _ hk => ?_⟩
  rw [NodeCache.state?, slot?_fresh] at hk
  cases hk

theorem askAll_evaluated {s' : Session} {qs : List Query} {answers : List Answer} (hqs : ∀ q ∈ qs, q.merges = false)
    (hs : s.Evaluated env ∧ s.Idle) (h : s.askAll env qs = .ok (answers, s')) : s'.Evaluated env ∧ s'.Idle := by
  refine askAll_ok (fun t => t.Evaluated env ∧ t.Idle) (fun q hq t b t' ht ha => ?_) hs h
  by_cases hin : q.isInquiry = true
  · refine ask_ok (fun t => t.Evaluated env ∧ t.Idle) (fun fuel key t node t' ht hr => ?_) hin ht ha
    have hg : t.Evolves ∅ t' := Env.compile_evolves (env.compileSlot_visits fuel) hr
    exact ⟨(env.compileSlot_evaluating fuel _ _ _ _ ht.1 (awaits_of_idle ht.2 key) hr).1, hg.idle ht.2⟩
  · cases q with
    | clear => cases ha; exact ⟨evaluated_fresh.congr rfl, NodeCache.wellFormed_empty, idle_fresh.state, rfl⟩
    | setNode key node => cases hqs _ hq
    | _ => exact absurd rfl hin

/-- A query for a slot that evaluates returns, and the slot has what it evaluates to. -/
theorem compile_evaluates (hmax : env.maxIndex = env.arena.maxIndex) (hs : s.Evaluated env) (hidle : s.Idle)
    (he : env.Evaluates n key ms) : ∃ node s', s.compile env key = .ok (node, s') ∧ s'.cache.members node = ms := by
  have hawaits : s.Awaits env key := awaits_of_idle hidle key
  have hbudget := env.absent_lt_budget s key.result
  obtain ⟨node, s', hr⟩ := Env.compileSlot_finishing hmax (Nat.le_max_right key.result _) (env.budget s key.result) n key ms s he
    (Nat.le_max_left _ _) hs hawaits (Nat.lt_of_le_of_lt (by omega) hbudget)
  obtain ⟨hs', hres⟩ := env.compileSlot_evaluating _ _ _ _ _ hs hawaits hr
  obtain ⟨-, hms⟩ := hs'.value key n ms he (hres n ms he)
  rw [(compile_visits hidle.wellFormed hr).node] at hms
  exact ⟨node, s', hr, hms⟩

end Session

end LuaInfer
