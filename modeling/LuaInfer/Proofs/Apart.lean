import LuaInfer.Proofs.Template
/-!
# Calls share no substitution

The operations of a rule keep a session on the way to the last one (`Session.Works`), given that resolving other slots
does (`Compile.Leading`). The step that takes the result of a call is where templates could get out
(`Env.mergeReturned_works`): a result that is taken as a whole has no template then, and it gets none later, because
documented results are resolved before a call takes them. `Session.templates_stay_apart` is the result for all
sessions that queries reach.
-/

namespace LuaInfer

/-- Resolving a slot keeps a session on the way. In the middle of a documented result only type expressions are
resolved. -/
def Compile.Leading (env : Env) (F : Session) (compile : Compile) : Prop :=
  ∀ key s node s', (s.Quiet env ∨ ∃ d, key = .decl d ∧ env.arena.InReturnType d) → s.Leads env F →
    (compile key).run s = .ok (node, s') → s'.Leads env F

namespace Env

variable {env : Env} {compile : Compile} {F s s' t : Session} {target key : SlotKey} {fuel index : Nat} {d c f : DeclId}
  {st : Step} {name : Atom} {node returned : Option TypeNode} {n : TypeNode} {u : Unit}

/-- Parts of a documented result hold no substitution, so they can be merged anywhere. -/
theorem Admits.of_inReturnType (hd : env.arena.InReturnType d) (hn : env.Admits F (.decl d) n) : env.Admits F key n :=
  hn.mono fun _ hfits => absurd hd hfits.not_inReturnType

theorem TakesBound.admits (h : env.TakesBound F key) (hn : env.Admits F (.decl d) n) : env.Admits F key n :=
  hn.mono fun sub hfits => h sub hfits.bound_of_decl

theorem isFree_generic (i : GenericId) : env.IsFree (.generic i) := trivial

theorem takesBound_generic (i : GenericId) : env.TakesBound F (.generic i) := fun _ hsub => hsub

/-! ## Results of calls -/

theorem findSome?_of_resultSlots_ret {ms : List TypeNode} (h : env.resultSlots index ms = [.ret f index]) :
    ms.findSome? env.callable? = some (f, none) := by
  unfold resultSlots at h
  split at h
  · cases h
  · next g hg => cases h; exact hg
  · next g returns hg =>
    split at h
    · cases h
    · next position => cases hp : returns[position]? <;> simp [hp] at h

theorem findSome?_of_resultSlots_decl {ms : List TypeNode} (h : env.resultSlots index ms = [.decl d]) :
    ∃ g returns, ms.findSome? env.callable? = some (g, some returns) := by
  unfold resultSlots at h
  split at h
  · cases h
  · cases h
  · next g returns hg => exact ⟨g, returns, hg⟩

section Result

variable (h : env.Typed) {callee : DeclId} (hst : .result callee index c ∈ env.rule target)
include h hst

/-- One member of a result is merged for a call. -/
theorem mergeBound_works (hs : s.Works env target F) (hflat : n.isUnion = false)
    (hfirst : s.Before F → env.firstCallable? F callee = some (f, none))
    (hn : s.Before F → env.Admits F (.ret f index) n ∧ s.Knows n)
    (hr : (mergeBound target c n).run s = .ok (u, s')) : s'.Works env target F := by
  have hg := (mergeBound_evolves hflat hr hs.leads.wellFormed).2
  refine hs.grows hg ?_
  rcases mergeBound_ok hr with ⟨hbound, rfl⟩ | ⟨i, func, proto, rfl, hi, rfl⟩
  · refine hs.leads.own hs.slot hflat fun hb _ => ⟨?_, (hn hb).2⟩
    obtain ⟨hadmits, hknows⟩ := hn hb
    cases n with
    | generic i =>
      obtain ⟨sub, hsub, hfits⟩ := hadmits
      obtain ⟨sub', hi⟩ := hknows
      have heq : sub' = sub := Option.some.inj ((hb.substitution i sub' hi).symm.trans hsub)
      subst heq
      -- it is bound already, so the result is not a documented one
      have hcall : sub'.call ≠ none := by
        intro hnone
        simp [isTemplate, Substitutions.isTemplate, hi, hnone] at hbound
      exact ⟨sub', hsub, fits_of_result h hst (hfirst hb) hcall fun _ hdoc => absurd (hfits.1 hdoc).2.2 hcall⟩
    | _ => trivial
  · refine (hs.leads.addSubstitution ⟨func, proto, some c⟩).own hs.slot rfl fun hb₁ _ => ?_
    have hnew := Substitutions.get?_push_self s.substitutions ⟨func, proto, some c⟩
    refine ⟨⟨_, hb₁.substitution _ _ hnew, ?_⟩, _, hnew⟩
    -- the copy is bound to the call, and to the function whose template it is
    have hb := Session.Before.of_grows (Session.Evolves.addSubstitution ∅ s _ hs.leads.wellFormed).2 hb₁
    obtain ⟨⟨sub, hsub, hfits⟩, -⟩ := hn hb
    rw [hb.substitution i _ hi] at hsub
    cases hsub
    exact fits_of_result h hst (hfirst hb) (by simp) fun _ hdoc => ⟨(hfits.1 hdoc).2.1, rfl⟩

/-- A result is taken as a whole only if it has no template, and then it never gets one: it is resolved, or its
function has no documentation of it. -/
theorem mergeReturned_works (hfree : env.IsFree target) (ht : t.Works env target F)
    (hvis : Session.Visits (.ret f index) s returned t)
    (hfirst : t.Before F → env.firstCallable? F callee = some (f, none))
    (hr : (mergeReturned fuel target c returned).run t = .ok (u, s')) : s'.Works env target F := by
  have hg := (mergeReturned_evolves (fun _ => hvis.holds) hr ht.leads.wellFormed).2
  obtain ⟨_, _, hget, hr⟩ := Resolve.bind_ok hr
  cases hget
  split at hr
  · refine (Resolve.foldMembers_ok (fun _ v => v.Works env target F ∧ t.Grows {target} v) ?_ ⟨ht, .refl _ _⟩ hr).1
    rintro n _ v _ v' hmem ⟨hv, htv⟩ hb
    have hflat := hv.leads.wellFormed.members_flat n hmem
    refine ⟨mergeBound_works h hst hv hflat (fun hb => hfirst (.of_grows htv hb)) (fun hb => ?_) hb,
      htv.trans (mergeBound_evolves hflat hb hv.leads.wellFormed).2⟩
    exact ht.leads.of_mem_members hvis htv hv.leads hb hmem
  · next hnone =>
    rw [Resolve.mergeNode_ok hr] at hg ⊢
    refine ht.grows hg (ht.leads.merge ht.slot hvis fun hb htidy n hn => hn.mono fun sub hfits => ?_)
    by_cases hdoc : env.Documented f index
    · -- a documented result that is resolved would show its template
      obtain ⟨st, hslot⟩ := hvis.slot
      have hstate : t.cache.state? (.ret f index) = some st := by rw [NodeCache.state?, hslot]; rfl
      have hresolved : st = .resolved := by
        cases st with
        | resolved => rfl
        | inProgress => exact absurd hstate (ht.quiet hfree f index hdoc)
      have htemplate := (htidy.template f index (hfits.1 hdoc).1 (hresolved ▸ hstate)).any_isTemplate
      rw [hvis.node] at htemplate
      exact absurd htemplate hnone
    · exact fits_of_result h hst (hfirst hb) (hfits.2 hdoc) fun _ hd => absurd hd hdoc

end Result

/-! ## Other slots -/

section Compile

variable (hv : compile.Visiting) (hc : compile.Leading env F)
include hv hc

theorem compile_works (hs : s.Works env target F)
    (hkey : s.Quiet env ∨ ∃ d, key = .decl d ∧ env.arena.InReturnType d) (h : (compile key).run s = .ok (node, s')) :
    s'.Works env target F ∧ Session.Visits key s node s' :=
  have hvis := hv _ _ _ _ hs.leads.wellFormed h
  ⟨hs.grows hvis.grows (hc _ _ _ _ hkey hs.leads h), hvis⟩

theorem mergeDecl_works (hs : s.Works env target F) (hkey : s.Quiet env ∨ env.arena.InReturnType d)
    (hfeed : s.Before F → ∀ n, env.Admits F (.decl d) n → env.Admits F target n)
    (h : (mergeDecl compile target d).run s = .ok (u, s')) : s'.Works env target F := by
  have hg := (mergeDecl_evolves hv h hs.leads.wellFormed).2
  obtain ⟨node, t, hd, h⟩ := Resolve.bind_ok h
  obtain ⟨ht, hvis⟩ := compile_works hv hc hs (hkey.imp_right fun hin => ⟨d, rfl, hin⟩) hd
  rw [Resolve.mergeNode_ok h] at hg ⊢
  exact hs.grows hg (ht.leads.merge ht.slot hvis fun hb _ => hfeed (.of_grows hvis.grows hb))

section Free

variable (hfree : env.IsFree target)
include hfree

theorem forM_mergeDecl_works {ds : List DeclId} (htakes : env.TakesBound F target) (hs : s.Works env target F)
    (h : (ds.forM (mergeDecl compile target)).run s = .ok (u, s')) : s'.Works env target F :=
  Resolve.forM_ok (fun t => t.Works env target F) (fun _ _ _ _ ht hm =>
    mergeDecl_works hv hc ht (.inl (ht.quiet hfree)) (fun _ _ => htakes.admits) hm) hs h

theorem huntNode_works {hunt hunt' : Hunt} (hs : s.Works env target F)
    (h : (env.huntNode compile name fuel hunt n).run s = .ok (hunt', s')) : s'.Works env target F :=
  huntNode_ok (fun t => t.Works env target F)
    (fun _ _ _ _ ht hi => (compile_works hv hc ht (.inl (ht.quiet hfree)) hi).1) hs h

theorem searchNode_works {found : List DeclId} (hs : s.Works env target F)
    (h : (env.searchNode compile fuel n name).run s = .ok (found, s')) : s'.Works env target F := by
  obtain ⟨hunt, t, hh, h⟩ := Resolve.bind_ok h
  rw [(Resolve.lift_ok h).2]
  exact huntNode_works hv hc hfree hs hh

theorem searchMember_works {base : DeclId} {found : List DeclId} (hs : s.Works env target F)
    (h : (env.searchMember compile fuel base name).run s = .ok (found, s')) : s'.Works env target F := by
  obtain ⟨hunt, t, hh, h⟩ := Resolve.bind_ok h
  rw [(Resolve.lift_ok h).2]
  obtain ⟨node, t', hd, hh⟩ := Resolve.bind_ok hh
  obtain ⟨ht', -⟩ := compile_works hv hc hs (.inl (hs.quiet hfree)) hd
  exact Resolve.foldMembers_ok (fun _ t => t.Works env target F)
    (fun _ _ _ _ _ _ ht hf => huntNode_works hv hc hfree ht hf) ht' hh

theorem delegate_works {metatable : DeclId} (htakes : env.TakesBound F target) (hs : s.Works env target F)
    (h : (runStep env compile fuel target (.delegate metatable name)).run s = .ok (u, s')) : s'.Works env target F := by
  obtain ⟨node, t, hd, h⟩ := Resolve.bind_ok h
  obtain ⟨ht, -⟩ := compile_works hv hc hs (.inl (hs.quiet hfree)) hd
  refine Resolve.foldMembers_ok (fun _ t => t.Works env target F) ?_ ht h
  intro n _ t₁ _ t₂ _ ht₁ hb
  obtain ⟨found, t₃, hf, hm⟩ := Resolve.bind_ok hb
  exact forM_mergeDecl_works hv hc hfree htakes (searchNode_works hv hc hfree ht₁ hf) hm

end Free

/-! ## Rules -/

theorem mergeResult_works (h : env.Typed) {callee : DeclId} (hfree : env.IsFree target)
    (hst : .result callee index c ∈ env.rule target) (hs : s.Works env target F)
    (hr : (mergeResult env compile fuel target callee index c).run s = .ok (u, s')) : s'.Works env target F := by
  obtain ⟨node, t, hd, hr⟩ := mergeResult_ok hr
  obtain ⟨ht, hvis⟩ := compile_works hv hc hs (.inl (hs.quiet hfree)) hd
  have hfirst : ∀ {r}, (t.cache.members node).findSome? env.callable? = some r → t.Before F →
      env.firstCallable? F callee = some r := by
    intro r hfind hb
    refine hb.firstCallable? ?_
    rw [firstCallable?, hvis.node]
    exact hfind
  rcases hr with ⟨-, rfl⟩ | ⟨f, _, _, _, returned, t', -, -, hslots, hret, hr⟩ | ⟨f, _, _, _, e, -, -, -, -, hslots, hr⟩
  · exact ht
  · obtain ⟨ht', hvis'⟩ := compile_works hv hc ht (.inl (ht.quiet hfree)) hret
    exact mergeReturned_works h hst hfree ht' hvis'
      (fun hb => hfirst (findSome?_of_resultSlots_ret hslots) (.of_grows hvis'.grows hb)) hr
  · obtain ⟨g, returns, hfind⟩ := findSome?_of_resultSlots_decl hslots
    refine mergeDecl_works hv hc ht (.inl (ht.quiet hfree)) (fun hb n hn => hn.mono fun sub hfits => ?_) hr
    exact fits_of_result h hst (hfirst hfind hb) hfits.bound_of_decl fun hnone => by cases hnone

theorem runStep_works (h : env.Typed) (hst : st ∈ env.rule target) (hs : s.Works env target F)
    (hr : (runStep env compile fuel target st).run s = .ok (u, s')) : s'.Works env target F := by
  have hg := (runStep_evolves hv hst hr hs.leads.wellFormed).2
  have hfree : (∀ n, st ≠ .own n) → (∀ sub, st ≠ .template sub) → (∀ d, st ≠ .merge d) → env.IsFree target := by
    intro hown htemplate hmerge
    by_contra hfree
    rcases mem_rule_of_not_free h hfree hst with ⟨n, rfl⟩ | ⟨sub, rfl⟩ | ⟨d, rfl, -⟩
    · exact hown n rfl
    · exact htemplate sub rfl
    · exact hmerge d rfl
  cases st with
  | own n =>
    obtain ⟨d, -, hown⟩ := explains_of_mem_rule hst
    rw [Resolve.mergeNode_ok hr] at hg ⊢
    exact hs.grows hg (hs.leads.own hs.slot hown.not_union fun _ _ => ⟨.of_plain hown.plain, .of_plain hown.plain⟩)
  | merge d =>
    by_cases htarget : env.IsFree target
    · have htakes : env.TakesBound F target := takesBound_of_mem_rule h htarget hst (by simp)
      exact mergeDecl_works hv hc hs (.inl (hs.quiet htarget)) (fun _ _ => htakes.admits) hr
    · rcases mem_rule_of_not_free h htarget hst with ⟨_, heq⟩ | ⟨_, heq⟩ | ⟨e, heq, hin⟩ <;> cases heq
      exact mergeDecl_works hv hc hs (.inr hin) (fun _ _ => .of_inReturnType hin) hr
  | read base name =>
    have htarget := hfree (by simp) (by simp) (by simp)
    obtain ⟨found, t, hf, hr⟩ := Resolve.bind_ok hr
    exact forM_mergeDecl_works hv hc htarget (takesBound_of_mem_rule h htarget hst (by simp))
      (searchMember_works hv hc htarget hs hf) hr
  | delegate metatable name =>
    have htarget := hfree (by simp) (by simp) (by simp)
    exact delegate_works hv hc htarget (takesBound_of_mem_rule h htarget hst (by simp)) hs hr
  | result callee index c => exact mergeResult_works hv hc h (hfree (by simp) (by simp) (by simp)) hst hs hr
  | template sub =>
    obtain ⟨f, index, -, rfl, -⟩ := explains_of_mem_rule hst
    obtain ⟨hdoc, hfunc, hcall⟩ := template_mem_returnRule hst
    obtain ⟨i, t, ha, hr⟩ := Resolve.bind_ok hr
    cases ha
    rw [Resolve.mergeNode_ok hr] at hg ⊢
    have hnew := Substitutions.get?_push_self s.substitutions sub
    refine hs.grows hg ((hs.leads.addSubstitution sub).own hs.slot rfl fun hb _ => ⟨?_, sub, hnew⟩)
    exact ⟨sub, hb.substitution _ _ hnew, fun _ => ⟨⟨sub, hst⟩, hfunc, hcall⟩, fun hn => absurd hdoc hn⟩

/-! ## Substitutions -/

/-- The types found for type parameters may stand in the slot, judged at the time when they are merged. -/
theorem inferBindings_works {func call : DeclId} {bindings : Bindings} (hfree : env.IsFree target)
    (htakes : env.TakesBound F target) (hs : s.Works env target F)
    (h : (inferBindings env compile func call).run s = .ok (bindings, s')) :
    s'.Works env target F ∧ ∀ entry ∈ bindings, ∀ n ∈ entry.2, s'.Offers env F target n := by
  obtain ⟨entries, t, hm, h⟩ := Resolve.bind_ok h
  obtain ⟨rfl, rfl⟩ := Resolve.pure_ok h
  have hkeep := Resolve.mapM_ok (fun t => t.Works env target F)
    (fun t entry => ∀ binding ∈ entry, ∀ n ∈ binding.2, t.Offers env F target n) ?_ hs hm
  · obtain ⟨hs', hoffers, -⟩ := hkeep
    refine ⟨hs', fun entry hentry => ?_⟩
    obtain ⟨l, hl, hentry⟩ := List.mem_flatten.1 hentry
    exact hoffers l hl entry hentry
  · rintro ⟨uses, arg⟩ _ t₁ entry t₂ ht₁ hr
    obtain ⟨node, t₃, hd, hr⟩ := Resolve.bind_ok hr
    obtain ⟨_, _, hget, hr⟩ := Resolve.bind_ok hr
    cases hget
    obtain ⟨rfl, rfl⟩ := Resolve.pure_ok hr
    obtain ⟨ht₂, hvis⟩ := compile_works hv hc ht₁ (.inl (ht₁.quiet hfree)) hd
    refine ⟨ht₂, fun binding hb n hn => ?_, fun entry hentry binding hb n hn => ?_⟩
    · obtain ⟨param, -, rfl⟩ := List.mem_map.1 hb
      refine ⟨ht₂.leads.wellFormed.members_flat n hn, fun hbefore => ?_⟩
      have htidy := ht₂.leads.tidy hbefore
      rw [← hvis.node] at hn
      exact ⟨htakes.admits (htidy.admits.members hn), htidy.knows.members hn⟩
    · exact (hentry binding hb n hn).grows hvis.grows

theorem instantiate_works {sig? : Option Signature} {bindings : Bindings} {depth : Nat} {ty : DeclId}
    (hfree : env.IsFree target) (htakes : env.TakesBound F target) (hs : s.Works env target F)
    (hoffers : ∀ entry ∈ bindings, ∀ n ∈ entry.2, s.Offers env F target n)
    (h : (instantiate env compile target sig? bindings depth ty).run s = .ok (u, s')) : s'.Works env target F := by
  have hflat : ∀ entry ∈ bindings, ∀ n ∈ entry.2, n.isUnion = false := fun entry he n hn => (hoffers entry he n hn).1
  induction depth generalizing ty s s' with
  | zero => cases h
  | succ depth ih =>
    rw [instantiate] at h
    split at h
    · rw [(Resolve.pure_ok h).2]
      exact hs
    · split at h
      · next param _ =>
        refine (Resolve.forM_ok (fun t => t.Works env target F ∧ s.Grows {target} t) (fun n hn t t' ht hm => ?_)
          ⟨hs, .refl _ _⟩ h).1
        obtain ⟨entry, he, hn⟩ := Bindings.exists_of_mem_of hn
        have hoffer := (hoffers entry he n hn).grows ht.2
        have hset : t.Evolves {target} (t.setNode target (some n)) := .setNode_flat hoffer.1
        have hg := (hset ht.1.leads.wellFormed).2
        rw [Resolve.mergeNode_ok hm]
        exact ⟨ht.1.grows hg (ht.1.leads.own ht.1.slot hoffer.1 fun hb _ => hoffer.2 hb), ht.2.trans hg⟩
      · split at h
        · refine (Resolve.forM_ok (fun t => t.Works env target F ∧ s.Grows {target} t) (fun _ _ t t' ht hi => ?_)
            ⟨hs, .refl _ _⟩ h).1
          have hg := (instantiate_evolves hv hflat hi ht.1.leads.wellFormed).2
          exact ⟨ih ht.1 (fun entry he n hn => (hoffers entry he n hn).grows ht.2) hi, ht.2.trans hg⟩
        · exact mergeDecl_works hv hc hs (.inl (hs.quiet hfree)) (fun _ _ => htakes.admits) h

theorem runSubstitution_works {i : GenericId} (hs : s.Works env (.generic i) F)
    (h : (runSubstitution env compile (.generic i) i).run s = .ok (u, s')) : s'.Works env (.generic i) F := by
  rcases runSubstitution_ok h with rfl | ⟨sub, depth, bindings, t, t', left, -, -, hb, hi, -, rfl⟩
  · exact hs
  · -- the depth is nothing that the invariant looks at
    have hs₀ : Session.Works env (.generic i) { s with depth } F := ⟨hs.leads.congr rfl rfl, hs.slot, hs.quiet⟩
    have hbind : t.Works env (.generic i) F ∧ ∀ entry ∈ bindings, ∀ n ∈ entry.2, t.Offers env F (.generic i) n := by
      split at hb
      · exact inferBindings_works hv hc (isFree_generic i) (takesBound_generic i) hs₀ hb
      · obtain ⟨rfl, rfl⟩ := Resolve.pure_ok hb
        exact ⟨hs₀, by simp⟩
    have ht' := instantiate_works hv hc (isFree_generic i) (takesBound_generic i) hbind.1 hbind.2 hi
    exact ⟨ht'.leads.congr rfl rfl, ht'.slot, ht'.quiet⟩

/-! ## Slots -/

theorem runRule_works (h : env.Typed) (hs : s.Works env target F)
    (hr : (runRule env compile fuel target).run s = .ok (u, s')) : s'.Works env target F := by
  have hsteps : ∀ {u : Unit}, ((env.rule target).forM (runStep env compile fuel target)).run s = .ok (u, s') →
      s'.Works env target F :=
    Resolve.forM_ok (fun t => t.Works env target F) (fun _ hst _ _ ht hr => runStep_works hv hc h hst ht hr) hs
  cases target with
  | decl d => exact hsteps hr
  | ret f index => exact hsteps hr
  | generic i => exact runSubstitution_works hv hc hs hr

omit hc in
/-- The rule of a documented result that is a template leaves it in the slot. -/
theorem exists_template_of_runRule (hf : env.Templated f index) (hw : s.cache.WellFormed)
    (hr : (runRule env compile fuel (.ret f index)).run s = .ok (u, s')) : s'.HasTemplate (.ret f index) := by
  obtain ⟨sub, hsub⟩ := hf
  refine Resolve.forM_ok_of_mem (fun t => t.cache.WellFormed) (fun t => t.HasTemplate (.ret f index)) hsub ?_ ?_ hw hr
  · intro st hst t t' ht hstep
    have hrule : st ∈ env.rule (.ret f index) := hst
    obtain ⟨hw', hg⟩ := runStep_evolves hv hrule hstep ht
    exact ⟨hw', fun hhas => hhas.grows hg⟩
  · intro t t' ht hstep
    obtain ⟨i, t₁, ha, hstep⟩ := Resolve.bind_ok hstep
    cases ha
    rw [Resolve.mergeNode_ok hstep]
    refine ⟨_, sub, ?_, Substitutions.get?_push_self t.substitutions sub, (template_mem_returnRule hsub).2.2⟩
    exact (NodeCache.mem_setNode ht).2 (.inr (List.mem_singleton.2 rfl))

end Compile

theorem compileSlot_leading (h : env.Typed) (F : Session) (fuel : Nat) :
    Compile.Leading env F (env.compileSlot fuel) := by
  induction fuel with
  | zero => intro key s node s' _ _ hr; cases hr
  | succ fuel ih =>
    intro key s node s' hkey hs hr
    rcases compileSlot_ok hr with ⟨slot, -, rfl, rfl⟩ | ⟨t, query, habs, hrule, rfl, rfl⟩
    · exact hs.hit _ _
    · have hv := env.compileSlot_visits fuel
      have hstart : (s.start key (env.slotKind key)).Works env key F := by
        refine ⟨hs.start habs _, by rw [Session.slot?_start, if_pos rfl]; simp, fun hfree f index hdoc hst => ?_⟩
        rw [NodeCache.state?, Session.slot?_start] at hst
        split at hst
        · next hk => exact (hk ▸ hfree : env.IsFree (.ret f index)) hdoc
        · rcases hkey with hquiet | ⟨d, rfl, hin⟩
          · exact hquiet f index hdoc hst
          · exact hfree hin
      refine (runRule_works hv ih h hstart hrule).leads.finish query ?_
      rintro f index rfl ht
      exact exists_template_of_runRule hv ht hstart.leads.wellFormed hrule

end Env

theorem Program.Formed.typed {p : Program} (h : p.Formed) (htypes : p.arena.ReturnsTypes) (options : Options) :
    (Env.of p options).Typed := by
  refine ⟨htypes, fun d kind hk hl => ?_⟩
  obtain ⟨decl, hd, rfl⟩ := Option.map_eq_some_iff.1 hk
  by_contra hne
  have hglobal : decl.global ≠ none := by rwa [Arena.global?, hd] at hne
  rw [h.link d decl hd hglobal] at hl
  cases hl

/-- `---@generic T; ---@param x T; ---@return T; function(x) end`, called with `1` and with `"a"`. -/
def Program.sampleIdentity : Program :=
  (empty.build [.function ["x"], .docGeneric ⟨1⟩ ["T"], .tyName "T", .docParam ⟨1⟩ "x" ⟨3⟩, .tyName "T",
    .docReturn ⟨1⟩ 1 ⟨5⟩, .integer 1, .string "a", .call ⟨1⟩ [⟨7⟩], .call ⟨1⟩ [⟨8⟩]]).2

/-- `c` is a call of the function literal `f`, and an annotation says what the result of `f` is. -/
def Session.CallsDocumented (env : Env) (s : Session) (c f : DeclId) : Prop :=
  ∃ callee args, env.arena.kind? c = some (.call callee args) ∧ env.isDelegator callee = false ∧
    env.firstCallable? s callee = some (f, none) ∧ ∃ doc ∈ env.arena.docs f, ∃ ty,
      env.arena.kind? doc = some (.docReturn 1 ty)

namespace Session

variable {env : Env} {F s s' : Session} {q : Query} {a : Answer} {qs : List Query} {answers : List Answer}

theorem Idle.quiet (h : s.Idle) : s.Quiet env := fun _ _ _ => h.state _

theorem ask_leads (ht : env.Typed) (hq : q.merges = false) (hs : s.Quiet env ∧ s.Leads env F)
    (h : s.ask env q = .ok (a, s')) : s'.Quiet env ∧ s'.Leads env F := by
  by_cases hin : q.isInquiry = true
  · refine ask_ok (fun t => t.Quiet env ∧ t.Leads env F) (fun fuel key t node t' hs hc => ?_) hin hs h
    have hg := (env.compileSlot_visits fuel key t node t' hs.2.wellFormed hc).grows
    exact ⟨hs.1.grows hg, Env.compileSlot_leading ht F fuel key t node t' (.inl hs.1) hs.2 hc⟩
  · cases q with
    | clear => cases h; exact ⟨fun _ _ _ => idle_fresh.state _, leads_fresh.congr rfl rfl⟩
    | setNode key node => cases hq
    | _ => exact absurd rfl hin

/-- What queries reach is tidy, judged by itself. -/
theorem askAll_tidy (ht : env.Typed) (hqs : ∀ q ∈ qs, q.merges = false)
    (h : fresh.askAll env qs = .ok (answers, s)) : s.Tidy env s := by
  have hleads := askAll_ok (fun t => t.Quiet env ∧ t.Leads env s) (fun q hq _ _ _ hs ha => ask_leads ht (hqs q hq) hs ha)
    ⟨idle_fresh.quiet, leads_fresh⟩ h
  exact hleads.2.tidy (.refl s)

theorem Tidy.fits (h : s.Tidy env F) {key : SlotKey} {i : GenericId}
    (hi : .generic i ∈ s.cache.members (s.cache.node? key)) :
    ∃ sub, F.substitutions.get? i = some sub ∧ env.Fits F key sub :=
  h.admits.members hi

theorem Tidy.of_callsDocumented (h : s.Tidy env s) {c f : DeclId} (hc : s.CallsDocumented env c f) {i : GenericId}
    (hi : .generic i ∈ s.cache.members (s.cache.node? (.decl c))) :
    ∃ sub, s.substitutions.get? i = some sub ∧ sub.func = f ∧ sub.call = some c := by
  obtain ⟨callee, args, hk, hd, hfirst, doc, hdoc, ty, hty⟩ := hc
  obtain ⟨sub, hget, hfits⟩ := h.fits hi
  have hdocumented : env.Documented f 1 := List.ne_nil_of_mem (Env.mem_returnTypes.2 ⟨doc, hdoc, hty⟩)
  exact ⟨sub, hget, hfits.2.2 callee args f hk hd hfirst hdocumented⟩

/-- If documented results are type expressions, then whatever is asked and in whatever order, a substitution that is
bound to no call is a member of results alone. What a call of a function with a documented result has, is bound to that
function and that call, so different calls have no substitution in common. -/
theorem templates_stay_apart {p : Program} {options : Options} (hp : p.Built) (htypes : p.arena.ReturnsTypes)
    (hqs : ∀ q ∈ qs, q.merges = false) (h : fresh.askAll (.of p options) qs = .ok (answers, s)) :
    (∀ key i, .generic i ∈ s.cache.members (s.cache.node? key) →
      ∃ sub, s.substitutions.get? i = some sub ∧ (sub.call = none → ∃ f index, key = .ret f index)) ∧
    (∀ c f, s.CallsDocumented (.of p options) c f → ∀ i, .generic i ∈ s.cache.members (s.cache.node? (.decl c)) →
      ∃ sub, s.substitutions.get? i = some sub ∧ sub.func = f ∧ sub.call = some c) ∧
    ∀ c c' f f', c ≠ c' → s.CallsDocumented (.of p options) c f → s.CallsDocumented (.of p options) c' f' →
      ∀ i, .generic i ∈ s.cache.members (s.cache.node? (.decl c)) →
        .generic i ∉ s.cache.members (s.cache.node? (.decl c')) := by
  have htidy := askAll_tidy (hp.formed.typed htypes options) hqs h
  refine ⟨fun key i hi => ?_, fun c f hc i hi => htidy.of_callsDocumented hc hi, fun c c' f f' hne hc hc' i hi hi' => ?_⟩
  · obtain ⟨sub, hget, hfits⟩ := htidy.fits hi
    refine ⟨sub, hget, fun hnone => ?_⟩
    cases key with
    | decl d => exact absurd hnone hfits.bound_of_decl
    | ret f index => exact ⟨f, index, rfl⟩
    | generic j => exact absurd hnone hfits
  · obtain ⟨sub, hget, -, hcall⟩ := htidy.of_callsDocumented hc hi
    obtain ⟨sub', hget', -, hcall'⟩ := htidy.of_callsDocumented hc' hi'
    rw [hget] at hget'
    cases hget'
    rw [hcall] at hcall'
    cases hcall'
    exact hne rfl

/-- Both calls of the identity have a copy of its template, each its own. -/
theorem templates_stay_apart_identity : ∃ answers s,
    fresh.askAll (.of .sampleIdentity {}) [.decl ⟨9⟩, .decl ⟨10⟩] = .ok (answers, s) ∧
    s.cache.members (s.cache.node? (.decl ⟨9⟩)) = [.generic ⟨1⟩] ∧
    s.cache.members (s.cache.node? (.decl ⟨10⟩)) = [.generic ⟨2⟩] ∧
    s.CallsDocumented (.of .sampleIdentity {}) ⟨9⟩ ⟨1⟩ ∧ s.CallsDocumented (.of .sampleIdentity {}) ⟨10⟩ ⟨1⟩ ∧
    ∃ sub, s.substitutions.get? ⟨1⟩ = some sub ∧ sub.func = ⟨1⟩ ∧ sub.call = some ⟨9⟩ := by
  have hbuilt : Program.sampleIdentity.Built := ⟨_, .inl rfl⟩
  have htypes : Program.sampleIdentity.arena.ReturnsTypes := Arena.returnsTypes_of_children (by decide +kernel)
  obtain ⟨⟨answers, s⟩, hask, hs⟩ := Except.exists_ok
    (x := fresh.askAll (.of .sampleIdentity {}) [.decl ⟨9⟩, .decl ⟨10⟩])
    (f := fun r => (r.2.cache.members (r.2.cache.node? (.decl ⟨9⟩)), r.2.cache.members (r.2.cache.node? (.decl ⟨10⟩)),
      (Env.of .sampleIdentity {}).firstCallable? r.2 ⟨1⟩))
    (b := ([.generic ⟨1⟩], [.generic ⟨2⟩], some (⟨1⟩, none))) (by decide +kernel)
  simp only [Prod.mk.injEq] at hs
  obtain ⟨h9, h10, hfirst⟩ := hs
  have hcalls : ∀ c arg, (Env.of .sampleIdentity {}).arena.kind? c = some (.call ⟨1⟩ [arg]) →
      s.CallsDocumented (.of .sampleIdentity {}) c ⟨1⟩ := fun c arg hk =>
    ⟨⟨1⟩, [arg], hk, by decide +kernel, hfirst, ⟨6⟩, by decide +kernel, ⟨5⟩, by decide +kernel⟩
  have hcall := hcalls ⟨9⟩ ⟨7⟩ (by decide +kernel)
  have hapart := templates_stay_apart hbuilt htypes (by decide) hask
  exact ⟨answers, s, hask, h9, h10, hcall, hcalls ⟨10⟩ ⟨8⟩ (by decide +kernel),
    hapart.2.1 ⟨9⟩ ⟨1⟩ hcall ⟨1⟩ (by rw [h9]; exact List.mem_singleton.2 rfl)⟩

end Session

end LuaInfer
