import LuaInfer.Proofs.Grounded
import LuaInfer.Proofs.Sparse
import Mathlib.Tactic.Linarith
/-!
# The bound of a query

A rule makes no more templates, and takes no more results, than there are declarations: it has one step for each documented
result type, or one for each `return`, and no declaration has an annotation twice or more returns than there are declarations
(`Arena.Sparse`). So `Env.affords_budget`: the bound on the work of a query leaves room for all substitutions that can be made
on the way. `Session.askAll_returns_grounded` concludes that all queries of a built program return if no substitution contains
itself.
-/

namespace LuaInfer

/-- Steps that substitutions are reserved for. -/
def Step.isPaid (st : Step) : Bool := st.isTemplate || st.isResult

namespace Env

variable {env : Env} {n N : Nat} {s s' : Session} {key : SlotKey} {d f call callee : DeclId} {index : Nat}

/-! ## Rules -/

@[simp] theorem countP_merge (ds : List DeclId) : (ds.map Step.merge).countP Step.isPaid = 0 := by
  rw [List.countP_eq_zero]
  intro st hst
  obtain ⟨d, -, rfl⟩ := List.mem_map.1 hst
  exact Bool.false_ne_true

theorem countP_delegationSteps (args : List DeclId) : (env.delegationSteps args).countP Step.isPaid = 0 := by
  unfold delegationSteps
  split
  · rfl
  · rfl
  · cases env.delegationKey <;> rfl

theorem countP_callSteps_le (call callee : DeclId) (args : List DeclId) (index : Nat) :
    (env.callSteps call callee args index).countP Step.isPaid ≤ 1 := by
  unfold callSteps
  split
  · split
    · rw [countP_delegationSteps]
      exact Nat.zero_le _
    · exact Nat.zero_le _
  · exact Nat.le_refl _

theorem countP_listSteps_le (exprs : List DeclId) (index : Nat) :
    (env.listSteps exprs index).countP Step.isPaid ≤ 1 := by
  unfold listSteps
  repeat' split
  all_goals first
    | exact countP_callSteps_le ..
    | exact Nat.zero_le _

theorem countP_globalSteps (d : DeclId) : (env.globalSteps d).countP Step.isPaid = 0 := by
  unfold globalSteps
  split
  · rfl
  · rw [List.countP_cons]
    split
    · exact countP_merge _
    · rfl

theorem countP_identitySteps (d : DeclId) : (env.identitySteps d).countP Step.isPaid = 0 := by
  unfold identitySteps
  split <;> exact countP_merge _

theorem countP_kindSteps_le (d : DeclId) (kind : DeclKind) : (env.kindSteps d kind).countP Step.isPaid ≤ 1 := by
  cases kind with
  | call callee args => exact countP_callSteps_le ..
  | select source index =>
    rw [kindSteps]
    split
    · exact countP_callSteps_le ..
    · exact Nat.zero_le _
  | function | localVar =>
    rw [kindSteps]
    try rw [localSteps]
    rw [List.countP_cons, countP_merge]
    exact Nat.zero_le _
  | varargs =>
    rw [kindSteps]
    split
    · rw [countP_merge]
      exact Nat.zero_le _
    · exact Nat.zero_le _
  | setMember =>
    rw [kindSteps, countP_identitySteps]
    exact Nat.zero_le _
  | getMember base member =>
    rw [kindSteps, List.countP_append, countP_identitySteps]
    cases member.key? <;> exact Nat.zero_le _
  | fieldName | methodName =>
    rw [kindSteps]
    cases env.arena.parent? d <;> exact Nat.zero_le _
  | tyUnion alternatives =>
    rw [kindSteps, countP_merge]
    exact Nat.zero_le _
  | tyName name =>
    rw [kindSteps]
    cases env.globals.get? .type name <;> exact Nat.zero_le _
  | _ => exact Nat.zero_le _

theorem countP_declRule_le (d : DeclId) : (env.declRule d).countP Step.isPaid ≤ env.arena.size := by
  rw [declRule, List.countP_append, countP_globalSteps, Nat.zero_add]
  split
  · next kind hk =>
    have hsize := Arena.index_lt_of_kind? hk
    have := env.countP_kindSteps_le d kind
    omega
  · exact Nat.zero_le _

/-- Each documented result type belongs to an annotation of its own. -/
theorem length_returnTypes_le (hsparse : env.arena.Sparse n) (f : DeclId) (index : Nat) :
    (env.returnTypes f index).length ≤ env.arena.size := by
  have hnodup : (env.arena.docs f).Nodup := by
    unfold Arena.docs
    split
    · next decl hd => exact (hsparse f decl hd).1
    · exact List.nodup_nil
  have hdocs : ((env.arena.docs f).filter fun doc => (env.arena.kind? doc).isSome) ⊆
      (List.range env.arena.size).map DeclId.mk := by
    intro doc hdoc
    obtain ⟨-, hdoc⟩ := List.mem_filter.1 hdoc
    obtain ⟨kind, hk⟩ := Option.isSome_iff_exists.1 hdoc
    exact List.mem_map.2 ⟨doc.index, List.mem_range.2 (Arena.index_lt_of_kind? hk), rfl⟩
  have hlength := (List.subperm_of_subset (hnodup.filter _) hdocs).length_le
  rw [List.length_map, List.length_range, ← List.countP_eq_length_filter] at hlength
  refine Nat.le_trans ?_ hlength
  rw [returnTypes, List.length_filterMap_eq_countP]
  refine List.countP_mono_left fun doc _ hdoc => ?_
  cases hk : env.arena.kind? doc with
  | none => simp [hk] at hdoc
  | some kind => rfl

/-- Each `return` has at most one call that supplies the result. -/
theorem countP_returnedSteps_le (hsparse : env.arena.Sparse n) (f : DeclId) (index : Nat) :
    (env.returnedSteps f index).countP Step.isPaid ≤ n := by
  unfold returnedSteps
  split
  · next params returns isMethod hk =>
    obtain ⟨decl, hd, hkind⟩ := Option.map_eq_some_iff.1 hk
    have hreturns : returns.length ≤ n := by
      have := (hsparse f decl hd).2
      rwa [hkind] at this
    rw [List.countP_flatMap]
    calc _ ≤ (returns.map _).length * 1 := List.sum_le_card_nsmul _ 1 fun m hm => ?_
      _ = returns.length := by rw [Nat.mul_one, List.length_map]
      _ ≤ n := hreturns
    obtain ⟨d, -, rfl⟩ := List.mem_map.1 hm
    dsimp only [Function.comp_apply]
    split
    · exact countP_listSteps_le ..
    · exact Nat.zero_le _
  · exact Nat.zero_le _

theorem countP_rule_le (hsparse : env.arena.Sparse env.arena.size) (key : SlotKey) :
    (env.rule key).countP Step.isPaid ≤ env.arena.size := by
  cases key with
  | decl d => exact env.countP_declRule_le d
  | ret f index =>
    rw [rule, returnRule]
    split
    · exact countP_returnedSteps_le hsparse f index
    · calc ((env.returnTypes f index).map (env.returnTypeStep f)).countP Step.isPaid
          ≤ ((env.returnTypes f index).map (env.returnTypeStep f)).length := List.countP_le_length
        _ = (env.returnTypes f index).length := List.length_map _
        _ ≤ env.arena.size := length_returnTypes_le hsparse f index
  | generic i => exact Nat.zero_le _

/-- Steps to come, before a rule is under way. -/
theorem toCome_le (hsparse : env.arena.Sparse env.arena.size) {p : Step → Bool} (hp : ∀ st, p st = true → st.isPaid = true)
    (s : Session) : env.toCome N s p [] ≤ env.arena.size * (N + 2) * env.arena.size := by
  rw [toCome, List.countP_nil, Nat.zero_add]
  calc ∑ k ∈ env.absentSlots N s, (env.rule k).countP p
      ≤ (env.absentSlots N s).card • env.arena.size := Finset.sum_le_card_nsmul _ _ _ fun k _ =>
        (List.countP_mono_left fun st _ => hp st).trans (countP_rule_le hsparse k)
    _ ≤ env.arena.size * (N + 2) * env.arena.size :=
        Nat.mul_le_mul_right _ ((Finset.card_filter_le _ _).trans (card_slotsUpTo_le env N))

/-! ## The bound -/

/-- What is reserved for a query: for each template step one template, and for each step that takes a result as many copies as
there may be templates. -/
def reserve (env : Env) (s : Session) (index : Nat) : Reserve :=
  let N := max index env.maxIndex
  let T := s.substitutions.templates.length + env.toCome N s Step.isTemplate []
  ⟨N, T, s.substitutions.size + T * env.toCome N s Step.isResult [] + env.toCome N s Step.isTemplate []⟩

/-- The arithmetic of the bound: `K` substitutions there are, `x` more templates there may be, and each of `x` steps may copy
all of them. -/
theorem reserve_lt_fourth {a S K G n x : Nat} (hS : 2 * a ≤ S) (hx : x ≤ S * a) (hn : S + K + G + 4 ≤ n) :
    2 * S + (2 * a + G + 2 * (K + (K + x) * x + x) + 1) + 1 < n * n * n * n := by
  have hq : 2 * (K + x) + 3 * S + G + 16 ≤ n * n := by
    have hsquare : (S + K + G + 4) * (S + K + G + 4) ≤ n * n := Nat.mul_le_mul hn hn
    have h2x : 2 * x ≤ S * S := by nlinarith
    nlinarith [Nat.zero_le (K * K), Nat.zero_le (G * G), Nat.zero_le (S * K), Nat.zero_le (S * G), Nat.zero_le (K * G)]
  have hyx : (K + x) * x ≤ (K + x) * (K + x) := Nat.mul_le_mul_left _ (Nat.le_add_left _ _)
  have hy : 2 * ((K + x) * (K + x)) ≤ n * n * (K + x) := by
    rw [← Nat.mul_assoc]
    exact Nat.mul_le_mul_right _ (by omega)
  calc 2 * S + (2 * a + G + 2 * (K + (K + x) * x + x) + 1) + 1
      ≤ n * n * (K + x) + n * n := by omega
    _ = n * n * (K + x + 1) := (Nat.mul_succ _ _).symm
    _ < n * n * (n * n) := Nat.mul_lt_mul_of_pos_left (by omega) (by omega)
    _ = n * n * n * n := (Nat.mul_assoc _ _ _).symm

end Env

/-! ## Queries -/

/-- Members are where they flow, and no type that a substitution instantiates stands below itself. -/
structure Session.Regular (env : Env) (s : Session) : Prop where
  flowing : s.Flowing env
  types : ∀ i sub, s.substitutions.get? i = some sub → env.arena.AcyclicBelow sub.proto

namespace Env

variable {env : Env} {s : Session}

theorem Affords.regular {r : Reserve} {f : Nat} {rest : List Step} (h : env.Affords r f rest s) : s.Regular env :=
  ⟨h.flowing, h.types⟩

/-- The bound of a query is enough for its slots, its loops and its substitutions. -/
theorem affords_budget (hsparse : env.arena.Sparse env.arena.size) (hs : s.Regular env) (index : Nat) :
    env.Affords (env.reserve s index) (env.budget s index - 1) [] s := by
  refine ⟨hs.flowing, hs.types, Nat.le_refl _, Nat.le_refl _, ?_⟩
  let N := max index env.maxIndex
  let S := env.arena.size * (N + 2)
  let K := s.substitutions.size
  let x := S * env.arena.size
  have htemplate : env.toCome N s Step.isTemplate [] ≤ x := toCome_le hsparse (fun st h => by simp [Step.isPaid, h]) s
  have hresult : env.toCome N s Step.isResult [] ≤ x := toCome_le hsparse (fun st h => by simp [Step.isPaid, h]) s
  have hsize : (env.reserve s index).size ≤ K + (K + x) * x + x :=
    Nat.add_le_add (Nat.add_le_add_left (Nat.mul_le_mul (Nat.add_le_add s.substitutions.length_templates_le htemplate) hresult) _)
      htemplate
  have habsent : env.absent N s ≤ S := (Finset.card_filter_le _ _).trans (card_slotsUpTo_le _ _)
  have hnodes := env.length_nodes_le
  have hextent : S + K + env.globals.size + 4 ≤ env.extent s index := by
    have hmul : (env.arena.size + 1) * (N + 2) = S + (N + 2) := Nat.succ_mul _ _
    change _ ≤ (env.arena.size + 1) * (N + 2) + env.globals.size + K + s.cache.unions.weight + 2
    omega
  have htwo : 2 * env.arena.size ≤ S := Nat.mul_comm 2 _ ▸ Nat.mul_le_mul_left _ (Nat.le_add_left _ _)
  have hbudget := reserve_lt_fourth htwo (Nat.le_refl x) hextent
  change 2 * env.absent N s + (env.nodes.length + 2 * (env.reserve s index).size + 1) < env.budget s index - 1
  change _ < env.budget s index at hbudget
  omega

theorem Affords.fuel_pos {r : Reserve} {f : Nat} {rest : List Step} (h : env.Affords r f rest s) : 0 < f :=
  Nat.lt_of_le_of_lt (Nat.zero_le _) h.fuel

end Env

namespace Session

variable {env : Env} {s s' : Session}

theorem regular_fresh : fresh.Regular env := ⟨flowing_fresh, fun i sub hi => by cases hi⟩

theorem Regular.congr (h : s.Regular env) (hcache : s'.cache = s.cache) (hsubs : s'.substitutions = s.substitutions) :
    s'.Regular env :=
  ⟨h.flowing.congr hcache hsubs, hsubs ▸ h.types⟩

section Grounded

variable (hground : env.Grounded) (htypes : ∀ key sub, .template sub ∈ env.rule key → env.arena.AcyclicBelow sub.proto)
  (hsparse : env.arena.Sparse env.arena.size) (hmax : env.maxIndex = env.arena.maxIndex)
include hground htypes hsparse hmax

omit hsparse in
theorem compileSlot_budget (s : Session) (index : Nat) :
    Compile.Answering env (env.reserve s index) (env.budget s index) (env.compileSlot (env.budget s index)) :=
  Env.compileSlot_answering hground htypes (hmax ▸ Nat.le_max_right index _) _

theorem compile_returns_grounded (hs : s.Regular env) (key : SlotKey) :
    ∃ node s', s.compile env key = .ok (node, s') ∧ s'.Regular env := by
  have haffords := env.affords_budget hsparse hs key.result
  have hfuel : env.budget s key.result - 1 + (if key.isGeneric then 1 else 0) ≤ env.budget s key.result := by
    have := haffords.fuel_pos
    split <;> omega
  obtain ⟨node, s', hr, hs'⟩ := compileSlot_budget hground htypes hmax s key.result key s [] _
    (Nat.le_max_left _ _) hfuel haffords
  exact ⟨node, s', hr, hs'.regular⟩

theorem searchMember_returns_grounded (hs : s.Regular env) (base : DeclId) (name : Atom) :
    ∃ found s', s.searchMember env base name = .ok (found, s') ∧ s'.Regular env := by
  have haffords := env.affords_budget hsparse hs 1
  have := haffords.fuel_pos
  obtain ⟨found, s', hr, hs'⟩ := Env.searchMember_returns_grounded (env.compileSlot_visits _)
    (compileSlot_budget hground htypes hmax s 1) hground base (by omega) haffords
  exact ⟨found, s', hr, hs'.regular⟩

theorem searchNode_returns_grounded (hs : s.Regular env) (node : TypeNode) (name : Atom) :
    ∃ found s', s.searchNode env node name = .ok (found, s') ∧ s'.Regular env := by
  have haffords := env.affords_budget hsparse hs 1
  have := haffords.fuel_pos
  obtain ⟨found, s', hr, hs'⟩ := Env.searchAny_returns_grounded (env.compileSlot_visits _)
    (compileSlot_budget hground htypes hmax s 1) hground node (by omega) haffords
  exact ⟨found, s', hr, hs'.regular⟩

theorem answers_regular : Answers env (Session.Regular env) where
  compile _ key hs := compile_returns_grounded hground htypes hsparse hmax hs key
  searchNode _ node name hs := searchNode_returns_grounded hground htypes hsparse hmax hs node name
  searchMember _ base name hs := searchMember_returns_grounded hground htypes hsparse hmax hs base name
  clear _ _ := regular_fresh.congr rfl rfl

end Grounded

/-- In a built program in which no substitution contains itself and no documented result type stands below itself, all queries
return that merge nothing from outside, with type parameters or without: those from a fresh session on, whatever they are, and
each one asked after them. -/
theorem askAll_returns_grounded {p : Program} {options : Options} (hp : p.Built) (hground : (Env.of p options).Grounded)
    (htypes : ∀ doc index ty, p.arena.kind? doc = some (.docReturn index ty) → p.arena.AcyclicBelow ty) {qs : List Query}
    (hqs : ∀ q ∈ qs, q.merges = false) : ∃ answers s, fresh.askAll (.of p options) qs = .ok (answers, s) ∧
      ∀ q, q.merges = false → ∃ a s', s.ask (.of p options) q = .ok (a, s') := by
  have htemplates : ∀ key sub, .template sub ∈ (Env.of p options).rule key → p.arena.AcyclicBelow sub.proto := by
    intro key sub hsub
    obtain ⟨doc, index, ty, hk, hwithin⟩ := Env.inReturnType_of_template hsub
    exact fun e he => htypes doc index ty hk e (hwithin.trans he)
  have hanswers : Answers (.of p options) (Session.Regular (.of p options)) := answers_regular hground htemplates hp.sparse rfl
  obtain ⟨answers, s, hall, hs⟩ := hanswers.askAll regular_fresh hqs
  refine ⟨answers, s, hall, fun q hq => ?_⟩
  obtain ⟨a, s', hask, -⟩ := hanswers.ask hs hq
  exact ⟨a, s', hask⟩

end Session

/-- `---@generic T; ---@param x T; ---@return T; function(x) end`, and with it as `id`: `id(id({ k = 1 })).k`. -/
def Program.sampleNested : Program :=
  (empty.build [.function ["x"], .docGeneric ⟨1⟩ ["T"], .tyName "T", .docParam ⟨1⟩ "x" ⟨3⟩, .tyName "T", .docReturn ⟨1⟩ 1 ⟨5⟩,
    .integer 1, .table [("k", ⟨7⟩)], .call ⟨1⟩ [⟨9⟩], .call ⟨1⟩ [⟨10⟩], .getField ⟨11⟩ "k"]).2

namespace Env

/-- All steps of all its rules. -/
def nestedSteps : List (SlotKey × Step) :=
  [(.decl ⟨0⟩, .own (.leaf ⟨0⟩)), (.decl ⟨0⟩, .merge ⟨4⟩), (.decl ⟨1⟩, .own (.leaf ⟨1⟩)), (.decl ⟨4⟩, .merge ⟨3⟩),
    (.decl ⟨7⟩, .own (.leaf ⟨7⟩)), (.decl ⟨8⟩, .merge ⟨7⟩), (.decl ⟨9⟩, .own (.leaf ⟨9⟩)), (.decl ⟨10⟩, .result ⟨1⟩ 1 ⟨10⟩),
    (.decl ⟨11⟩, .result ⟨1⟩ 1 ⟨11⟩), (.decl ⟨12⟩, .read ⟨11⟩ ⟨3⟩), (.ret ⟨1⟩ 1, .template ⟨⟨1⟩, ⟨5⟩, none⟩)]

theorem size_nested : (Env.of .sampleNested {}).arena.size = 13 := by decide +kernel

theorem mem_nestedSteps {key : SlotKey} {st : Step} (h : st ∈ (Env.of .sampleNested {}).rule key) : (key, st) ∈ nestedSteps := by
  cases key with
  | decl d =>
    have hrules : ∀ i < 13, ∀ st ∈ (Env.of .sampleNested {}).declRule ⟨i⟩, (SlotKey.decl ⟨i⟩, st) ∈ nestedSteps := by
      decide +kernel
    have hrule : st ∈ (Env.of .sampleNested {}).declRule d := h
    exact hrules d.index (Nat.lt_of_lt_of_eq (index_lt_of_mem_declRule hrule) size_nested) st hrule
  | ret f index =>
    have hrule : st ∈ (Env.of .sampleNested {}).returnRule f index := h
    have hf : f.index < 13 := Nat.lt_of_lt_of_eq (index_lt_of_mem_returnRule hrule) size_nested
    have hreturned : ∀ i < 13, ((Env.of .sampleNested {}).arena.kind? ⟨i⟩).all fun kind => kind.returned = [] := by decide +kernel
    have hdocs : ∀ i < 13, ∀ doc ∈ (Env.of .sampleNested {}).arena.docs ⟨i⟩, i = 1 ∧
        (Env.of .sampleNested {}).arena.kind? doc = some (.docReturn 1 ⟨5⟩) ∨
        ((Env.of .sampleNested {}).arena.kind? doc).all fun kind => kind.name ≠ "doc.return" := by decide +kernel
    unfold returnRule at hrule
    split at hrule
    · unfold returnedSteps at hrule
      split at hrule
      · next params returns isMethod hk =>
        have hnone := hreturned f.index hf
        rw [show (⟨f.index⟩ : DeclId) = f from rfl, hk] at hnone
        cases of_decide_eq_true hnone
        cases hrule
      · cases hrule
    · obtain ⟨ty, hty, rfl⟩ := List.mem_map.1 hrule
      obtain ⟨doc, hdoc, hk⟩ := mem_returnTypes.1 hty
      rcases hdocs f.index hf doc hdoc with ⟨hindex, hk'⟩ | hname
      · cases hk.symm.trans hk'
        rw [show f = ⟨1⟩ from congrArg DeclId.mk hindex]
        decide +kernel
      · simp [hk, DeclKind.name] at hname
  | generic i => cases h

/-- The outer call is above the inner one, and the read of the member is above everything. -/
def nestedRank : SlotKey → Nat
  | .decl d => if d.index < 10 then 0 else if d.index = 10 then 1 else 2
  | .ret .. => 1
  | .generic _ => 0

theorem nestedRank_le (key : SlotKey) : nestedRank key ≤ 2 := by
  unfold nestedRank
  repeat' split
  all_goals omega

theorem ranked_nested : (Env.of .sampleNested {}).Ranked nestedRank := by
  have hkinds : ∀ i < 13, ((Env.of .sampleNested {}).arena.kind? ⟨i⟩).all fun kind =>
      kind.name ≠ "doc.type.union" ∧ kind.name ≠ "doc.type.function" := by decide +kernel
  have hkind : ∀ d kind, (Env.of .sampleNested {}).arena.kind? d = some kind →
      kind.name ≠ "doc.type.union" ∧ kind.name ≠ "doc.type.function" := by
    intro d kind hk
    have hall := hkinds d.index (Nat.lt_of_lt_of_eq (Arena.index_lt_of_kind? hk) size_nested)
    simpa [hk] using hall
  refine ⟨fun k d h => ?_, fun k base name m d h _ => ?_, fun k callee index call f _ _ _ h _ => ?_,
    fun k callee index call f params returns d h hk _ => ?_, fun k sub h => ?_, fun f call uses arg h => ?_⟩
  · have hmem := mem_nestedSteps h
    simp [nestedSteps] at hmem
    rcases hmem with ⟨rfl, rfl⟩ | ⟨rfl, rfl⟩ | ⟨rfl, rfl⟩ <;> decide
  · have hmem := h.imp mem_nestedSteps mem_nestedSteps
    simp [nestedSteps] at hmem
    obtain ⟨rfl, rfl, rfl⟩ := hmem
    exact nestedRank_le _
  · have hmem := mem_nestedSteps h
    simp [nestedSteps] at hmem
    rcases hmem with ⟨rfl, rfl, rfl, rfl⟩ | ⟨rfl, rfl, rfl, rfl⟩
    · exact ⟨Nat.le_refl 1, fun _ => Nat.le_refl 1⟩
    · exact ⟨Nat.le_succ 1, fun _ => Nat.le_refl 2⟩
  · exact ((hkind f _ hk).2 rfl).elim
  · have hmem := mem_nestedSteps h
    simp [nestedSteps] at hmem
    obtain ⟨rfl, rfl⟩ := hmem
    refine ⟨rfl, by decide, fun ty halt => ?_⟩
    cases halt with
    | refl => rfl
    | step _ hk => exact ((hkind _ _ hk).1 rfl).elim
  · obtain ⟨hf, hcall⟩ := index_lt_of_mem_inferenceSources h
    have hsources : ∀ i < 13, ∀ j < 13, ∀ p ∈ (Env.of .sampleNested {}).inferenceSources ⟨i⟩ ⟨j⟩,
        nestedRank (.decl p.2) < nestedRank (.decl ⟨j⟩) := by decide +kernel
    exact hsources f.index (Nat.lt_of_lt_of_eq hf size_nested) call.index (Nat.lt_of_lt_of_eq hcall size_nested) _ h

end Env

namespace Session

/-- The inner substitution is a member of the outer one, and the search for `k` goes through both. -/
theorem askAll_returns_grounded_nested : ∃ answers s,
    fresh.askAll (.of .sampleNested {}) [.decl ⟨12⟩, .generic ⟨2⟩] = .ok (answers, s) ∧
      ∀ q, q.merges = false → ∃ a s', s.ask (.of .sampleNested {}) q = .ok (a, s') := by
  have hbuilt : Program.sampleNested.Built := ⟨_, .inl rfl⟩
  have htypes : ∀ doc index ty, Program.sampleNested.arena.kind? doc = some (.docReturn index ty) →
      Program.sampleNested.arena.AcyclicBelow ty :=
    fun _ _ ty _ => Arena.acyclicBelow_of_children_lt (by decide +kernel) ty
  exact askAll_returns_grounded hbuilt Env.ranked_nested.grounded htypes (by decide)

end Session

end LuaInfer
