import LuaInfer.Proofs.Derive
import LuaInfer.Proofs.Growth
/-!
# Resolving a slot changes nothing that was there

One lemma for each operation that a rule consists of, given that resolving other slots does as
`Session.Visits` says: the operation merges into its own slot alone. `Env.compileSlot_visits` ties the
knot by induction on the fuel.
-/

namespace LuaInfer

/-- Resolution as the rules use it. -/
abbrev Compile := SlotKey → Resolve (Option TypeNode)

/-- Each slot is resolved as `Session.Visits` says. -/
def Compile.Visiting (compile : Compile) : Prop :=
  ∀ key s node s', s.cache.WellFormed → (compile key).run s = .ok (node, s') → Session.Visits key s node s'

theorem Bindings.exists_of_mem_of {bindings : Bindings} {param : Atom} {n : TypeNode} (h : n ∈ bindings.of param) :
    ∃ entry ∈ bindings, n ∈ entry.2 := by
  have hfold : ∀ (entries : Bindings) (acc : List TypeNode),
      n ∈ entries.foldl (fun acc entry => Distinct.append acc entry.2) acc → n ∈ acc ∨ ∃ entry ∈ entries, n ∈ entry.2 := by
    intro entries
    induction entries with
    | nil => intro acc hn; exact .inl hn
    | cons entry entries ih =>
      intro acc hn
      rcases ih _ hn with hn | ⟨e, he, hn⟩
      · rcases Distinct.mem_append.1 hn with hn | hn
        · exact .inl hn
        · exact .inr ⟨entry, by simp, hn⟩
      · exact .inr ⟨e, by simp [he], hn⟩
  rcases hfold _ _ h with hn | ⟨entry, he, hn⟩
  · cases hn
  · exact ⟨entry, List.mem_of_mem_filter he, hn⟩

namespace Env

variable {env : Env} {compile : Compile} {fuel : Nat} {target key : SlotKey} {s s' : Session}

section Visiting

variable (hc : compile.Visiting)
include hc

theorem compile_evolves {node : Option TypeNode} (h : (compile key).run s = .ok (node, s')) : s.Evolves ∅ s' :=
  fun hw => ⟨(hc _ _ _ _ hw h).wellFormed, (hc _ _ _ _ hw h).grows⟩

/-- Resolving a slot and merging its node. -/
theorem compile_setNode_evolves {node : Option TypeNode} (h : (compile key).run s = .ok (node, s')) :
    s.Evolves {target} (s'.setNode target node) := fun hw =>
  have hv := hc _ _ _ _ hw h
  ((compile_evolves hc h).mono (Set.empty_subset _)).trans (.setNode fun _ => hv.holds) hw

theorem mergeDecl_evolves {d : DeclId} {u : Unit} (h : (mergeDecl compile target d).run s = .ok (u, s')) :
    s.Evolves {target} s' := by
  obtain ⟨node, t, hd, h⟩ := Resolve.bind_ok h
  rw [Resolve.mergeNode_ok h]
  exact compile_setNode_evolves hc hd

theorem forM_mergeDecl_evolves {ds : List DeclId} {u : Unit}
    (h : (ds.forM (mergeDecl compile target)).run s = .ok (u, s')) : s.Evolves {target} s' :=
  Resolve.forM_ok (fun t => s.Evolves {target} t) (fun _ _ _ _ ht hd => ht.trans (mergeDecl_evolves hc hd))
    (.refl _ _) h

end Visiting

/-- All that merging a member of a result can do: take it as it is, or bind a template and take the copy. -/
theorem mergeBound_ok {call : DeclId} {n : TypeNode} {u : Unit} (h : (mergeBound target call n).run s = .ok (u, s')) :
    (isTemplate s n = false ∧ s' = s.setNode target (some n)) ∨
    ∃ i func proto, n = .generic i ∧ s.substitutions.get? i = some ⟨func, proto, none⟩ ∧
      s' = Session.setNode { s with substitutions := (s.substitutions.push ⟨func, proto, some call⟩).2 } target
        (some (.generic (s.substitutions.push ⟨func, proto, some call⟩).1)) := by
  cases n with
  | generic i =>
    obtain ⟨_, _, hg, h⟩ := Resolve.bind_ok h
    cases hg
    unfold Substitutions.rebind? at h
    rcases hi : s.substitutions.get? i with _ | ⟨func, proto, _ | c⟩ <;> simp only [hi] at h
    · exact .inl ⟨by simp [isTemplate, Substitutions.isTemplate, hi], Resolve.mergeNode_ok h⟩
    · obtain ⟨_, _, hm, h⟩ := Resolve.bind_ok h
      cases hm
      exact .inr ⟨i, func, proto, rfl, hi, Resolve.mergeNode_ok h⟩
    · exact .inl ⟨by simp [isTemplate, Substitutions.isTemplate, hi], Resolve.mergeNode_ok h⟩
  | leaf d => exact .inl ⟨rfl, Resolve.mergeNode_ok h⟩
  | global g => exact .inl ⟨rfl, Resolve.mergeNode_ok h⟩
  | union v => exact .inl ⟨rfl, Resolve.mergeNode_ok h⟩

theorem mergeBound_evolves {call : DeclId} {n : TypeNode} {u : Unit} (hn : n.isUnion = false)
    (h : (mergeBound target call n).run s = .ok (u, s')) : s.Evolves {target} s' := by
  rcases mergeBound_ok h with ⟨-, rfl⟩ | ⟨i, func, proto, rfl, -, rfl⟩
  · exact .setNode_flat hn
  · exact (Session.Evolves.addSubstitution _ _ _).trans (.setNode_flat rfl)

theorem mergeReturned_evolves {call : DeclId} {returned : Option TypeNode} {u : Unit}
    (hn : s.cache.WellFormed → ∀ n, returned = some n → s.cache.unions.Holds n)
    (h : (mergeReturned fuel target call returned).run s = .ok (u, s')) : s.Evolves {target} s' := by
  obtain ⟨_, _, hg, h⟩ := Resolve.bind_ok h
  cases hg
  split at h
  · intro hw
    refine Resolve.foldMembers_ok (fun _ t => t.cache.WellFormed ∧ s.Grows {target} t) ?_ ⟨hw, .refl _ _⟩ h
    rintro n _ t _ t' hmem ⟨ht, hg⟩ hb
    obtain ⟨ht', hg'⟩ := mergeBound_evolves (ht.members_flat n hmem) hb ht
    exact ⟨ht', hg.trans hg'⟩
  · rw [Resolve.mergeNode_ok h]
    exact .setNode hn

/-- Without substitutions there is no template, and a result is merged as it is. -/
theorem mergeReturned_of_empty {call : DeclId} {returned : Option TypeNode} {u : Unit}
    (hs : s.substitutions = .empty) (h : (mergeReturned fuel target call returned).run s = .ok (u, s')) :
    s' = s.setNode target returned := by
  obtain ⟨_, _, hg, h⟩ := Resolve.bind_ok h
  cases hg
  split at h
  · next htemplate =>
    obtain ⟨n, -, hn⟩ := List.any_eq_true.1 htemplate
    cases n with
    | generic i => simp [isTemplate, Substitutions.isTemplate, hs, Substitutions.get?, Substitutions.empty] at hn
    | _ => cases hn
  · exact Resolve.mergeNode_ok h

/-- The slot that has the result of a call, given the members of what is called. -/
def resultSlots (env : Env) (index : Nat) (callee : List TypeNode) : List SlotKey :=
  match callee.findSome? env.callable? with
  | none => []
  | some (f, none) => [.ret f index]
  | some (_, some returns) =>
    match index with
    | 0 => []
    | position + 1 => (returns[position]?).toList.map .decl

/-- All that taking the result of a call can do once the callee is resolved: nothing, or take the result of
a function literal, or take the documented result of a function type. -/
theorem mergeResult_ok {callee call : DeclId} {index : Nat} {u : Unit}
    (h : (mergeResult env compile fuel target callee index call).run s = .ok (u, s')) :
    ∃ node t, (compile (.decl callee)).run s = .ok (node, t) ∧
      ((env.resultSlots index (t.cache.members node) = [] ∧ s' = t) ∨
      (∃ f params returns isMethod returned t', .leaf f ∈ t.cache.members node ∧
        env.arena.kind? f = some (.function params returns isMethod) ∧
        env.resultSlots index (t.cache.members node) = [.ret f index] ∧
        (compile (.ret f index)).run t = .ok (returned, t') ∧
        (mergeReturned fuel target call returned).run t' = .ok ((), s')) ∨
      ∃ f params returns position e, .leaf f ∈ t.cache.members node ∧
        env.arena.kind? f = some (.tyFunction params returns) ∧ index = position + 1 ∧
        returns[position]? = some e ∧ env.resultSlots index (t.cache.members node) = [.decl e] ∧
        (mergeDecl compile target e).run t = .ok ((), s')) := by
  obtain ⟨node, t, hd, h⟩ := Resolve.bind_ok h
  obtain ⟨_, _, hg, h⟩ := Resolve.bind_ok h
  cases hg
  refine ⟨node, t, hd, ?_⟩
  cases hfind : (t.cache.members node).findSome? env.callable? with
  | none =>
    simp only [hfind] at h
    exact .inl ⟨by simp only [resultSlots, hfind], (Resolve.pure_ok h).2⟩
  | some found =>
    obtain ⟨m, hmem, hcallable⟩ := List.exists_of_findSome?_eq_some hfind
    unfold callable? at hcallable
    split at hcallable
    · next f =>
      split at hcallable
      · next hf =>
        cases hcallable
        simp only [hfind] at h
        obtain ⟨returned, t', hr, h⟩ := Resolve.bind_ok h
        exact .inr (.inl ⟨f, _, _, _, returned, t', hmem, hf, by simp only [resultSlots, hfind], hr, h⟩)
      · next returns hf =>
        cases hcallable
        simp only [hfind] at h
        cases index with
        | zero => exact .inl ⟨by simp only [resultSlots, hfind], (Resolve.pure_ok h).2⟩
        | succ position =>
          cases hp : returns[position]? with
          | none =>
            simp only [hp] at h
            exact .inl ⟨by simp [resultSlots, hfind, hp], (Resolve.pure_ok h).2⟩
          | some e =>
            simp only [hp] at h
            exact .inr (.inr ⟨f, _, returns, position, e, hmem, hf, rfl, hp, by simp [resultSlots, hfind, hp], h⟩)
      · cases hcallable
    · cases hcallable

/-- A search reaches other slots only through the substitutions that it meets. -/
theorem huntNode_ok (I : Session → Prop) {name : Atom} {hunt hunt' : Hunt} {n : TypeNode}
    (hc : ∀ i t node t', I t → (compile (.generic i)).run t = .ok (node, t') → I t') (hs : I s)
    (h : (env.huntNode compile name fuel hunt n).run s = .ok (hunt', s')) : I s' := by
  induction fuel generalizing hunt hunt' n s s' with
  | zero => cases h
  | succ fuel ih =>
    cases n with
    | leaf d => rw [(Resolve.pure_ok h).2]; exact hs
    | global g => rw [(Resolve.lift_ok h).2]; exact hs
    | generic i =>
      obtain ⟨node, t, hi, h⟩ := Resolve.bind_ok h
      exact Resolve.foldMembers_ok (fun _ t => I t) (fun _ _ _ _ _ _ ht hf => ih ht hf) (hc i _ _ _ hs hi) h
    | union u => exact Resolve.foldMembers_ok (fun _ t => I t) (fun _ _ _ _ _ _ ht hf => ih ht hf) hs h

section Visiting

variable (hc : compile.Visiting)
include hc

theorem huntNode_evolves {name : Atom} {hunt hunt' : Hunt} {n : TypeNode}
    (h : (env.huntNode compile name fuel hunt n).run s = .ok (hunt', s')) : s.Evolves ∅ s' :=
  huntNode_ok (fun t => s.Evolves ∅ t) (fun _ _ _ _ ht hi => ht.trans (compile_evolves hc hi)) (.refl _ _) h

theorem searchNode_evolves {name : Atom} {n : TypeNode} {found : List DeclId}
    (h : (env.searchNode compile fuel n name).run s = .ok (found, s')) : s.Evolves ∅ s' := by
  obtain ⟨hunt, t, hh, h⟩ := Resolve.bind_ok h
  rw [(Resolve.lift_ok h).2]
  exact huntNode_evolves hc hh

/-- The search of a declaration resolves it first. -/
theorem searchMember_ok {name : Atom} {base : DeclId} {found : List DeclId}
    (h : (env.searchMember compile fuel base name).run s = .ok (found, s')) :
    ∃ node t, (compile (.decl base)).run s = .ok (node, t) ∧ t.Evolves ∅ s' := by
  obtain ⟨hunt, t, hh, h⟩ := Resolve.bind_ok h
  rw [(Resolve.lift_ok h).2]
  obtain ⟨node, t', hd, hh⟩ := Resolve.bind_ok hh
  exact ⟨node, t', hd, Resolve.foldMembers_ok (fun _ t => t'.Evolves ∅ t)
    (fun _ _ _ _ _ _ ht hf => ht.trans (huntNode_evolves hc hf)) (.refl _ _) hh⟩

theorem searchMember_evolves {name : Atom} {base : DeclId} {found : List DeclId}
    (h : (env.searchMember compile fuel base name).run s = .ok (found, s')) : s.Evolves ∅ s' := by
  obtain ⟨node, t, hd, ht⟩ := searchMember_ok hc h
  exact (compile_evolves hc hd).trans ht

theorem mergeReturned_compile_evolves {call : DeclId} {returned : Option TypeNode} {t : Session} {u : Unit}
    (hr : (compile key).run s = .ok (returned, t))
    (h : (mergeReturned fuel target call returned).run t = .ok (u, s')) : s.Evolves {target} s' := by
  intro hw
  have hv := hc _ _ _ _ hw hr
  exact ((compile_evolves hc hr).mono (Set.empty_subset _)).trans (mergeReturned_evolves (fun _ => hv.holds) h) hw

theorem mergeResult_evolves {callee call : DeclId} {index : Nat} {u : Unit}
    (h : (mergeResult env compile fuel target callee index call).run s = .ok (u, s')) : s.Evolves {target} s' := by
  obtain ⟨node, t, hd, h⟩ := mergeResult_ok h
  refine ((compile_evolves hc hd).mono (Set.empty_subset _)).trans ?_
  rcases h with ⟨-, rfl⟩ | ⟨f, _, _, _, returned, t', -, -, -, hr, h⟩ | ⟨f, _, _, _, e, -, -, -, -, -, h⟩
  · exact .refl _ _
  · exact mergeReturned_compile_evolves hc hr h
  · exact mergeDecl_evolves hc h

/-- The loop of a delegation: each member of the metatable is searched, and what is found is merged. -/
theorem mergeFound_evolves {name : Atom} {rounds : Nat} {cursor : Cursor} {u : Unit}
    (h : (Resolve.foldMembers (fun _ n => do
      let found ← env.searchNode compile fuel n name
      found.forM (mergeDecl compile target)) rounds cursor ()).run s = .ok (u, s')) : s.Evolves {target} s' := by
  refine Resolve.foldMembers_ok (fun _ t => s.Evolves {target} t) ?_ (.refl _ _) h
  intro n _ t₁ _ t₂ _ ht hb
  obtain ⟨found, t₃, hf, hb⟩ := Resolve.bind_ok hb
  exact ht.trans (((searchNode_evolves hc hf).mono (Set.empty_subset _)).trans (forM_mergeDecl_evolves hc hb))

theorem runStep_evolves {step : Step} {u : Unit} (hstep : step ∈ env.rule key)
    (h : (runStep env compile fuel target step).run s = .ok (u, s')) : s.Evolves {target} s' := by
  cases step with
  | own n =>
    obtain ⟨d, -, hown⟩ := explains_of_mem_rule hstep
    rw [Resolve.mergeNode_ok h]
    exact .setNode_flat hown.not_union
  | merge d => exact mergeDecl_evolves hc h
  | read base name =>
    obtain ⟨found, t, hf, h⟩ := Resolve.bind_ok h
    exact ((searchMember_evolves hc hf).mono (Set.empty_subset _)).trans (forM_mergeDecl_evolves hc h)
  | delegate metatable name =>
    obtain ⟨node, t, hd, h⟩ := Resolve.bind_ok h
    exact ((compile_evolves hc hd).mono (Set.empty_subset _)).trans (mergeFound_evolves hc h)
  | result callee index call => exact mergeResult_evolves hc h
  | template sub =>
    obtain ⟨i, t, ha, h⟩ := Resolve.bind_ok h
    cases ha
    rw [Resolve.mergeNode_ok h]
    exact (Session.Evolves.addSubstitution _ _ _).trans (.setNode_flat rfl)

theorem steps_evolve {steps : List Step} {u : Unit} (hsteps : ∀ step ∈ steps, step ∈ env.rule key)
    (h : (steps.forM (runStep env compile fuel target)).run s = .ok (u, s')) : s.Evolves {target} s' :=
  Resolve.forM_ok (fun t => s.Evolves {target} t)
    (fun step hs _ _ ht hr => ht.trans (runStep_evolves hc (hsteps step hs) hr)) (.refl _ _) h

end Visiting

/-! ## Substitutions -/

/-- All that the rule of a substitution can do: nothing, if there is no such substitution or too many are
under way, or else find types for its type parameters and merge what it is for them. -/
theorem runSubstitution_cases {i : GenericId} {u : Unit}
    (h : (runSubstitution env compile target i).run s = .ok (u, s')) :
    (s' = s ∧ (s.substitutions.get? i = none ∨ s.depth.enter.1 = false)) ∨
    ∃ sub depth bindings t t' left, s.substitutions.get? i = some sub ∧ s.depth.enter = (true, depth) ∧
      (match sub.call with
        | some call => inferBindings env compile sub.func call
        | none => pure []).run { s with depth } = .ok (bindings, t) ∧
      (instantiate env compile target (Signature.of? env.arena sub.func) bindings (env.arena.size + 1)
        sub.proto).run t = .ok ((), t') ∧ t'.depth.leave = .ok left ∧ s' = { t' with depth := left } := by
  obtain ⟨_, _, hg, h⟩ := Resolve.bind_ok h
  cases hg
  split at h
  · next sub hsub =>
    cases he : s.depth.enter with
    | mk entered depth =>
      simp only [he] at h
      split at h
      · next hen =>
        obtain ⟨_, _, hset, h⟩ := Resolve.bind_ok h
        cases hset
        rcases hcall : sub.call with _ | call <;> simp only [hcall] at h <;>
        · obtain ⟨bindings, t, hb, h⟩ := Resolve.bind_ok h
          obtain ⟨_, t', hi, h⟩ := Resolve.bind_ok h
          obtain ⟨_, _, hg, h⟩ := Resolve.bind_ok h
          cases hg
          obtain ⟨left, _, hl, hm⟩ := Resolve.bind_ok h
          obtain ⟨hl, rfl⟩ := Resolve.lift_ok hl
          cases hm
          exact .inr ⟨sub, depth, bindings, t, _, left, hsub, by rw [hen], by rw [hcall]; exact hb, hi,
            Except.mapError_ok hl, rfl⟩
      · next hen => exact .inl ⟨(Resolve.pure_ok h).2, .inr (by simpa using hen)⟩
  · next hsub =>
    refine .inl ⟨(Resolve.pure_ok h).2, .inl ?_⟩
    cases hget : s.substitutions.get? i with
    | none => rfl
    | some sub => exact absurd hget (hsub sub)

theorem runSubstitution_ok {i : GenericId} {u : Unit} (h : (runSubstitution env compile target i).run s = .ok (u, s')) :
    s' = s ∨ ∃ sub depth bindings t t' left, s.substitutions.get? i = some sub ∧ s.depth.enter = (true, depth) ∧
      (match sub.call with
        | some call => inferBindings env compile sub.func call
        | none => pure []).run { s with depth } = .ok (bindings, t) ∧
      (instantiate env compile target (Signature.of? env.arena sub.func) bindings (env.arena.size + 1)
        sub.proto).run t = .ok ((), t') ∧ t'.depth.leave = .ok left ∧ s' = { t' with depth := left } :=
  (runSubstitution_cases h).imp_left And.left

section Visiting

variable (hc : compile.Visiting)
include hc

/-- The types found for type parameters are members of nodes, hence no unions. -/
theorem inferBindings_evolves {func call : DeclId} {bindings : Bindings} (hw : s.cache.WellFormed)
    (h : (inferBindings env compile func call).run s = .ok (bindings, s')) :
    s.Evolves ∅ s' ∧ ∀ entry ∈ bindings, ∀ n ∈ entry.2, n.isUnion = false := by
  obtain ⟨entries, t, hm, h⟩ := Resolve.bind_ok h
  obtain ⟨rfl, rfl⟩ := Resolve.pure_ok h
  have hkeep := Resolve.mapM_ok (fun t => t.cache.WellFormed ∧ s.Grows ∅ t)
    (fun _ entry => ∀ binding ∈ entry, ∀ n ∈ binding.2, n.isUnion = false) ?_ ⟨hw, .refl _ _⟩ hm
  · obtain ⟨⟨hw', hg⟩, hflat, -⟩ := hkeep
    refine ⟨fun _ => ⟨hw', hg⟩, fun entry hentry => ?_⟩
    obtain ⟨l, hl, hentry⟩ := List.mem_flatten.1 hentry
    exact hflat l hl entry hentry
  · rintro ⟨uses, arg⟩ _ t₁ entry t₂ ⟨hw₁, hg₁⟩ hr
    obtain ⟨node, t₃, hd, hr⟩ := Resolve.bind_ok hr
    obtain ⟨_, _, hg, hr⟩ := Resolve.bind_ok hr
    cases hg
    obtain ⟨rfl, rfl⟩ := Resolve.pure_ok hr
    have hv := hc _ _ _ _ hw₁ hd
    refine ⟨⟨hv.wellFormed, hg₁.trans hv.grows⟩, fun binding hb n hn => ?_, fun _ hc => hc⟩
    obtain ⟨param, -, rfl⟩ := List.mem_map.1 hb
    exact hv.wellFormed.members_flat n hn

theorem instantiate_evolves {sig? : Option Signature} {bindings : Bindings} {depth : Nat} {ty : DeclId} {u : Unit}
    (hflat : ∀ entry ∈ bindings, ∀ n ∈ entry.2, n.isUnion = false)
    (h : (instantiate env compile target sig? bindings depth ty).run s = .ok (u, s')) : s.Evolves {target} s' := by
  induction depth generalizing ty s s' with
  | zero => cases h
  | succ depth ih =>
    rw [instantiate] at h
    split at h
    · rw [(Resolve.pure_ok h).2]
      exact .refl _ _
    · split at h
      · next param _ =>
        refine Resolve.forM_ok (fun t => s.Evolves {target} t) (fun n hn t t' ht hm => ht.trans ?_) (.refl _ _) h
        rw [Resolve.mergeNode_ok hm]
        obtain ⟨entry, he, hn⟩ := Bindings.exists_of_mem_of hn
        exact .setNode_flat (hflat entry he n hn)
      · split at h
        · exact Resolve.forM_ok (fun t => s.Evolves {target} t) (fun _ _ _ _ ht hi => ht.trans (ih hi)) (.refl _ _) h
        · exact mergeDecl_evolves hc h

theorem runSubstitution_evolves {i : GenericId} {u : Unit}
    (h : (runSubstitution env compile target i).run s = .ok (u, s')) : s.Evolves {target} s' := by
  intro hw
  rcases runSubstitution_ok h with rfl | ⟨sub, depth, bindings, t, t', left, -, he, hb, hi, hl, rfl⟩
  · exact ⟨hw, .refl _ _⟩
  · have hbind : Session.Evolves ∅ { s with depth } t ∧ ∀ entry ∈ bindings, ∀ n ∈ entry.2, n.isUnion = false := by
      split at hb
      · exact inferBindings_evolves hc hw hb
      · obtain ⟨rfl, rfl⟩ := Resolve.pure_ok hb
        exact ⟨.refl _ _, by simp⟩
    obtain ⟨hw', hg⟩ := ((hbind.1.mono (Set.empty_subset _)).trans (instantiate_evolves hc hbind.2 hi)) hw
    -- nothing in between has changed the depth, so what is left is what was entered
    have hleft : left = s.depth := by
      rw [show t'.depth = depth from hg.depth, DepthCounter.leave_enter he] at hl
      cases hl
      rfl
    exact ⟨hw', hg.cache, hleft, hg.cycles, hg.substitution, hg.journal⟩

theorem runRule_evolves {u : Unit} (h : (runRule env compile fuel target).run s = .ok (u, s')) :
    s.Evolves {target} s' := by
  cases target with
  | decl d => exact steps_evolve hc (fun _ hs => show _ ∈ env.rule (.decl d) from hs) h
  | ret f index => exact steps_evolve hc (fun _ hs => show _ ∈ env.rule (.ret f index) from hs) h
  | generic i => exact runSubstitution_evolves hc h

end Visiting

/-! ## Slots -/

theorem compileSlot_of_slot {slot : Slot} (hs : s.cache.slot? key = some slot) :
    (env.compileSlot (fuel + 1) key).run s = .ok (slot.node, s.hit key (env.slotKind key) slot.state) := by
  rw [compileSlot, StateT.run_bind]
  simp only [StateT.run_get, pure_bind, hs]
  rfl

theorem compileSlot_of_rule {t : Session} {u : Unit} (habs : s.cache.slot? key = none)
    (hr : (runRule env (env.compileSlot fuel) fuel key).run (s.start key (env.slotKind key)) = .ok (u, t)) :
    (env.compileSlot (fuel + 1) key).run s =
      .ok (t.cache.node? key, t.finish (s.start key (env.slotKind key)).lookups key) := by
  rw [compileSlot, StateT.run_bind]
  simp only [StateT.run_get, pure_bind, habs]
  rw [StateT.run_bind]
  simp only [StateT.run_modifyGet, pure_bind]
  rw [StateT.run_bind, hr]
  simp only [StateT.run_modifyGet]
  exact congrArg (fun n => Except.ok (n, _)) NodeCache.node?_finish

/-- All that resolving a slot can do: answer from the slot, or run its rule. -/
theorem compileSlot_ok {node : Option TypeNode} (h : (env.compileSlot (fuel + 1) key).run s = .ok (node, s')) :
    (∃ slot, s.cache.slot? key = some slot ∧ node = slot.node ∧ s' = s.hit key (env.slotKind key) slot.state) ∨
    ∃ t query, s.cache.slot? key = none ∧
      (runRule env (env.compileSlot fuel) fuel key).run (s.start key (env.slotKind key)) = .ok ((), t) ∧
      node = t.cache.node? key ∧ s' = t.finish query key := by
  cases hs : s.cache.slot? key with
  | some slot =>
    rw [compileSlot_of_slot hs] at h
    cases h
    exact .inl ⟨slot, rfl, rfl, rfl⟩
  | none =>
    rw [compileSlot] at h
    obtain ⟨_, _, hg, h⟩ := Resolve.bind_ok h
    cases hg
    simp only [hs] at h
    obtain ⟨query, _, hm, h⟩ := Resolve.bind_ok h
    cases hm
    obtain ⟨_, t, hr, h⟩ := Resolve.bind_ok h
    cases h
    exact .inr ⟨t, _, rfl, hr, NodeCache.node?_finish, rfl⟩

/-- Resolving a slot, whether it is there or not, changes nothing that was there. -/
theorem compileSlot_visits (env : Env) (fuel : Nat) : Compile.Visiting (env.compileSlot fuel) := by
  induction fuel with
  | zero => intro key s node s' _ h; cases h
  | succ fuel ih =>
    intro key s node s' hw h
    rcases compileSlot_ok h with ⟨slot, hs, rfl, rfl⟩ | ⟨t, query, habs, hr, rfl, rfl⟩
    · -- an answer from the slot is only noted
      have hcache : (s.hit key (env.slotKind key) slot.state).cache = s.cache := by
        cases hst : slot.state <;> rfl
      exact ⟨hcache ▸ hw, .hit _ _ _ _, slot.state, by rw [hcache, hs]⟩
    · -- the rule merges into the new slot alone, and the new slot was nobody's before
      obtain ⟨hw', hg⟩ := runRule_evolves ih hr (hw.start habs)
      exact ⟨hw'.finish, .of_rule hw habs hg, .resolved, by rw [Session.slot?_finish, if_pos rfl]⟩

end Env

end LuaInfer
