import LuaInfer.Proofs.Flow
import LuaInfer.Proofs.Terminate
import Mathlib.Algebra.Order.BigOperators.Group.Finset
/-!
# How many substitutions a query can make

A step of a rule makes one template, or it takes the result of a call and copies the templates that it meets. Each slot runs its
rule once, so what is still to come are the steps of the rules under way and those of absent slots (`Env.toCome`). A session
`Env.Affords` a bound if what it has and what is to come stay below it: each template step counts for one template, and each
step that takes a result for as many copies as there may be templates. A step is paid from what was reserved for it.

`Env.affords_budget` then says that the bound on the work of a query leaves room for all of this.
-/

namespace LuaInfer

namespace Step

/-- Steps that make a template. -/
def isTemplate : Step → Bool
  | .template _ => true
  | _ => false

/-- Steps that take the result of a call. -/
def isResult : Step → Bool
  | .result .. => true
  | _ => false

end Step

namespace Substitutions

variable {t : Substitutions} {i : GenericId} {sub : Substitution}

theorem isTemplate_iff : t.isTemplate i = true ↔ ∃ f ty, t.get? i = some ⟨f, ty, none⟩ := by
  unfold isTemplate
  rcases t.get? i with _ | ⟨f, ty, _ | call⟩ <;> simp

theorem index_lt_of_get? (h : t.get? i = some sub) : i.index < t.size := (Array.getElem?_eq_some_iff.1 h).1

theorem size_push (t : Substitutions) (sub : Substitution) : (t.push sub).2.size = t.size + 1 := Array.size_push _

/-- The templates among all substitutions. -/
def templates (t : Substitutions) : List GenericId := ((List.range t.size).map GenericId.mk).filter t.isTemplate

theorem mem_templates : i ∈ t.templates ↔ t.isTemplate i = true := by
  simp only [templates, List.mem_filter, List.mem_map, List.mem_range, and_iff_right_iff_imp]
  intro h
  obtain ⟨f, ty, hi⟩ := isTemplate_iff.1 h
  exact ⟨i.index, index_lt_of_get? hi, rfl⟩

theorem length_templates_le (t : Substitutions) : t.templates.length ≤ t.size := by
  have h := List.length_filter_le t.isTemplate ((List.range t.size).map GenericId.mk)
  rwa [List.length_map, List.length_range] at h

theorem templates_push (t : Substitutions) (sub : Substitution) :
    (t.push sub).2.templates = t.templates ++ if sub.call = none then [(t.push sub).1] else [] := by
  have hold : ∀ i ∈ (List.range t.size).map GenericId.mk, (t.push sub).2.isTemplate i = t.isTemplate i := by
    intro i hi
    obtain ⟨j, hj, rfl⟩ := List.mem_map.1 hi
    simp only [isTemplate, get?, push, Array.getElem?_push, if_neg (Nat.ne_of_lt (List.mem_range.1 hj) : j ≠ t.entries.size)]
  have hnew : (t.push sub).2.isTemplate (t.push sub).1 = decide (sub.call = none) := by
    simp only [isTemplate, get?_push_self, Option.any_some]
    cases sub.call <;> rfl
  rw [templates, size_push, List.range_succ, List.map_append, List.filter_append, List.filter_congr hold, templates]
  congr 1
  change [(t.push sub).1].filter _ = _
  rw [List.filter_cons, hnew]
  split <;> simp_all

end Substitutions

namespace Env

variable {env : Env} {N : Nat} {s s' : Session} {key : SlotKey} {p : Step → Bool} {rest : List Step} {st : Step}

/-- The absent slots that may have a rule. -/
def absentSlots (env : Env) (N : Nat) (s : Session) : Finset SlotKey :=
  (env.slotsUpTo N).filter fun k => s.cache.slot? k = none

/-- How many steps of a kind are still to come: those that are left of rules under way, and those of absent slots. -/
def toCome (env : Env) (N : Nat) (s : Session) (p : Step → Bool) (rest : List Step) : Nat :=
  rest.countP p + ∑ k ∈ env.absentSlots N s, (env.rule k).countP p

theorem toCome_cons : env.toCome N s p (st :: rest) = env.toCome N s p rest + if p st then 1 else 0 := by
  rw [toCome, toCome, List.countP_cons]
  omega

theorem toCome_mono (h : ∀ k, s'.cache.slot? k = none → s.cache.slot? k = none) :
    env.toCome N s' p rest ≤ env.toCome N s p rest := by
  refine Nat.add_le_add_left (Finset.sum_le_sum_of_subset fun k hk => ?_) _
  rw [absentSlots, Finset.mem_filter] at hk ⊢
  exact ⟨hk.1, h k hk.2⟩

/-- A rule that starts moves the steps of its slot to those of the rules under way. -/
theorem toCome_start (habs : s.cache.slot? key = none) (hkey : key.result ≤ N) (kind : String) :
    env.toCome N (s.start key kind) p (env.rule key ++ rest) ≤ env.toCome N s p rest := by
  have hsub : env.absentSlots N (s.start key kind) ⊆ (env.absentSlots N s).erase key := by
    intro k hk
    rw [absentSlots, Finset.mem_filter, Session.slot?_start] at hk
    rw [Finset.mem_erase, absentSlots, Finset.mem_filter]
    by_cases heq : k = key
    · rw [if_pos heq] at hk
      cases hk.2
    · rw [if_neg heq] at hk
      exact ⟨heq, hk⟩
  have hsum := Finset.sum_le_sum_of_subset (f := fun k => (env.rule k).countP p) hsub
  rw [toCome, toCome, List.countP_append]
  by_cases hmem : key ∈ env.absentSlots N s
  · have := Finset.add_sum_erase _ (fun k => (env.rule k).countP p) hmem
    omega
  · -- a slot that has steps counts among the absent ones
    have hrule : env.rule key = [] := by
      refine List.eq_nil_iff_forall_not_mem.2 fun st hst => hmem ?_
      rw [absentSlots, Finset.mem_filter]
      exact ⟨mem_slotsUpTo_of_mem_rule hst hkey, habs⟩
    rw [Finset.erase_eq_of_notMem hmem] at hsum
    rw [hrule, List.countP_nil]
    omega

end Env

/-- Bounds for a query: the largest index of a result, the number of templates, and the number of all substitutions. -/
structure Reserve where
  index : Nat
  templates : Nat
  size : Nat

namespace Env

variable {env : Env} {r : Reserve} {fuel f f' : Nat} {s s' : Session} {key target : SlotKey} {rest : List Step} {st : Step}
  {T : Set SlotKey} {node : Option TypeNode}

/-- Fuel for a loop over the members of a node, and for a search through as many substitutions as there may be. -/
def reach (env : Env) (r : Reserve) : Nat := env.nodes.length + 2 * r.size + 1

theorem length_nodes_lt_reach : env.nodes.length + r.size < env.reach r := by
  unfold reach
  omega

/-- A session in which the steps of rules under way are paid for, and so are the rules of absent slots. -/
structure Affords (env : Env) (r : Reserve) (fuel : Nat) (rest : List Step) (s : Session) : Prop where
  flowing : s.Flowing env
  /-- No type that a substitution instantiates stands below itself. -/
  types : ∀ i sub, s.substitutions.get? i = some sub → env.arena.AcyclicBelow sub.proto
  templates : s.substitutions.templates.length + env.toCome r.index s Step.isTemplate rest ≤ r.templates
  size : s.substitutions.size + r.templates * env.toCome r.index s Step.isResult rest +
    env.toCome r.index s Step.isTemplate rest ≤ r.size
  /-- Between the rules of two slots, a substitution may be under way. -/
  fuel : 2 * env.absent r.index s + env.reach r < fuel

namespace Affords

theorem mono (h : env.Affords r f rest s) (hf : f ≤ f') : env.Affords r f' rest s :=
  ⟨h.flowing, h.types, h.templates, h.size, Nat.lt_of_lt_of_le h.fuel hf⟩

theorem size_le (h : env.Affords r f rest s) : s.substitutions.size ≤ r.size := by
  have := h.size
  omega

theorem reach_lt (h : env.Affords r f rest s) : env.reach r < f := by
  have := h.fuel
  omega

/-- There are no more substitutions than were reserved. -/
theorem card_le {W : Finset Nat} (h : env.Affords r f rest s) (hW : ∀ w ∈ W, ∃ a, s.substitutions.get? ⟨w⟩ = some a) :
    W.card ≤ r.size := by
  have hsub : W ⊆ Finset.range s.substitutions.size := by
    intro w hw
    obtain ⟨a, hw⟩ := hW w hw
    exact Finset.mem_range.2 (Substitutions.index_lt_of_get? hw)
  have hle := Finset.card_le_card hsub
  rw [Finset.card_range] at hle
  exact hle.trans h.size_le

/-- Steps that are paid for need not be carried out. -/
theorem drop (h : env.Affords r f (st :: rest) s) : env.Affords r f rest s := by
  have htemplates := h.templates
  have hsize := h.size
  rw [toCome_cons] at htemplates hsize
  refine ⟨h.flowing, h.types, by omega, ?_, h.fuel⟩
  rw [toCome_cons, Nat.mul_add] at hsize
  omega

/-- As long as no substitution is made, a session stays as it is. -/
theorem grows (h : env.Affords r f rest s) (hs : s'.Flowing env) (hsubs : s'.substitutions = s.substitutions)
    (hslots : ∀ k, s'.cache.slot? k = none → s.cache.slot? k = none) : env.Affords r f rest s' := by
  have htemplates := h.templates
  have hsize := h.size
  have hfuel := h.fuel
  have habsent : env.absent r.index s' ≤ env.absent r.index s := absent_mono hslots
  have htoCome : ∀ p, env.toCome r.index s' p rest ≤ env.toCome r.index s p rest := fun p => toCome_mono hslots
  have hresult := Nat.mul_le_mul_left r.templates (htoCome Step.isResult)
  have htemplate := htoCome Step.isTemplate
  refine ⟨hs, by rw [hsubs]; exact h.types, ?_, ?_, by omega⟩ <;> rw [hsubs] <;> omega

theorem setNode (h : env.Affords r f rest s) (hs : (s.setNode target node).Flowing env)
    (hholds : ∀ n, node = some n → s.cache.unions.Holds n) : env.Affords r f rest (s.setNode target node) := by
  have hset : s.Evolves {target} (s.setNode target node) := .setNode fun _ => hholds
  exact h.grows hs rfl fun k => (hset h.flowing.wellFormed).2.cache.exists_slot

theorem hit (h : env.Affords r f rest s) (kind : String) (state : SlotState) : env.Affords r f rest (s.hit key kind state) :=
  h.grows (h.flowing.hit kind state) (by cases state <;> rfl) fun k hk => by rwa [(Session.cache_hit ..).1] at hk

theorem finish (h : env.Affords r f rest s) (query : Nat) : env.Affords r f rest (s.finish query key) := by
  refine h.grows (h.flowing.finish query) rfl fun k hk => ?_
  rw [Session.slot?_finish] at hk
  split at hk
  · cases hk
  · exact hk

/-- The steps of a rule that starts were reserved for its slot. -/
theorem start (h : env.Affords r f rest s) (habs : s.cache.slot? key = none) (hkey : key.result ≤ r.index) (kind : String) :
    env.Affords r f (env.rule key ++ rest) (s.start key kind) := by
  have htemplates := h.templates
  have hsize := h.size
  have hfuel := h.fuel
  have hslots : ∀ k, (s.start key kind).cache.slot? k = none → s.cache.slot? k = none := by
    intro k hk
    rw [Session.slot?_start] at hk
    split at hk
    · cases hk
    · exact hk
  have habsent : env.absent r.index (s.start key kind) ≤ env.absent r.index s := absent_mono hslots
  have htoCome : ∀ p, env.toCome r.index (s.start key kind) p (env.rule key ++ rest) ≤ env.toCome r.index s p rest :=
    fun p => toCome_start habs hkey kind
  have hresult := Nat.mul_le_mul_left r.templates (htoCome Step.isResult)
  have htemplate := htoCome Step.isTemplate
  refine ⟨h.flowing.start habs kind, h.types, ?_, ?_, by omega⟩
  · change s.substitutions.templates.length + _ ≤ _
    omega
  · change s.substitutions.size + _ + _ ≤ _
    omega

/-- A template is made, as was reserved for the step. -/
theorem template {sub : Substitution} (h : env.Affords r f (.template sub :: rest) s) (hty : env.arena.AcyclicBelow sub.proto) :
    env.Affords r f rest (s.withSubstitution sub) := by
  have htemplates := h.templates
  have hsize := h.size
  have hone : env.toCome r.index s Step.isTemplate (.template sub :: rest) = env.toCome r.index s Step.isTemplate rest + 1 :=
    toCome_cons
  have hnone : env.toCome r.index s Step.isResult (.template sub :: rest) = env.toCome r.index s Step.isResult rest :=
    toCome_cons
  rw [hone] at htemplates hsize
  rw [hnone] at hsize
  have hlength : ((s.substitutions.push sub).2.templates).length ≤ s.substitutions.templates.length + 1 := by
    rw [Substitutions.templates_push, List.length_append]
    split <;> simp
  refine ⟨h.flowing.withSubstitution sub, fun i sub' hi => ?_, ?_, ?_, h.fuel⟩
  · rcases Substitutions.get?_push_cases hi with hi | rfl
    · exact h.types i sub' hi
    · exact hty
  · change (s.substitutions.push sub).2.templates.length + env.toCome r.index s _ rest ≤ _
    omega
  · change (s.substitutions.push sub).2.size + _ * env.toCome r.index s _ rest + env.toCome r.index s _ rest ≤ _
    rw [Substitutions.size_push]
    omega

/-- Templates are copied, as was reserved for the step. -/
theorem copied {callee call : DeclId} {index : Nat} (h : env.Affords r f (.result callee index call :: rest) s)
    (hs : s'.Flowing env) (hg : s.Grows T s')
    (htypes : ∀ i sub, s'.substitutions.get? i = some sub → env.arena.AcyclicBelow sub.proto)
    (htemplates : s'.substitutions.templates = s.substitutions.templates)
    (hsize : s'.substitutions.size ≤ s.substitutions.size + s.substitutions.templates.length) :
    env.Affords r f rest s' := by
  have hbefore := h.templates
  have hpaid := h.size
  have hfuel := h.fuel
  have hnone : env.toCome r.index s Step.isTemplate (.result callee index call :: rest) =
      env.toCome r.index s Step.isTemplate rest := toCome_cons
  have hone : env.toCome r.index s Step.isResult (.result callee index call :: rest) =
      env.toCome r.index s Step.isResult rest + 1 := toCome_cons
  rw [hnone] at hbefore hpaid
  rw [hone, Nat.mul_succ] at hpaid
  have habsent : env.absent r.index s' ≤ env.absent r.index s := absent_mono fun _ => hg.cache.exists_slot
  have htoCome : ∀ p, env.toCome r.index s' p rest ≤ env.toCome r.index s p rest :=
    fun p => toCome_mono fun _ => hg.cache.exists_slot
  have hresult := Nat.mul_le_mul_left r.templates (htoCome Step.isResult)
  have htemplate := htoCome Step.isTemplate
  refine ⟨hs, htypes, by rw [htemplates]; omega, by omega, by omega⟩

end Affords

end Env

end LuaInfer
