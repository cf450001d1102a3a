import LuaInfer.Proofs.Sound
/-!
# What rules uphold

While a rule runs, it resolves other slots, searches nodes, makes substitutions, and merges nodes into its own slot. A `Regime`
says what a session keeps meanwhile, and which nodes may be merged and searched: those that are declarations or globals, new
substitutions, members of unions, and whatever resolving a slot returns. If resolving other slots serves a regime
(`Regime.Serves`) and the slot of the rule absorbs what is allowed (`Regime.Absorbs`), then the rule upholds it. There is one
lemma for each operation that a rule consists of.
-/

namespace LuaInfer

/-- The session with one more substitution. -/
def Session.withSubstitution (s : Session) (sub : Substitution) : Session :=
  { s with substitutions := (s.substitutions.push sub).2 }

/-- The substitutions that rules make: templates of results, and copies of templates that are bound to calls. -/
inductive Env.Makes (env : Env) (s : Session) : Substitution → Prop
  | template {key : SlotKey} {sub : Substitution} : .template sub ∈ env.rule key → Makes env s sub
  | copy {i : GenericId} {func proto call : DeclId} : s.substitutions.get? i = some ⟨func, proto, none⟩ →
      Makes env s ⟨func, proto, some call⟩

/-- What is kept while rules run, and which nodes may be merged and searched. -/
structure Regime (env : Env) where
  Holds : Session → Prop
  Allows : Session → TypeNode → Prop
  wellFormed : ∀ {s}, Holds s → s.cache.WellFormed
  plain : ∀ {s n}, n.IsPlain → Allows s n
  member : ∀ {s u n}, Holds s → n ∈ s.cache.unions.members u → Allows s n
  grows : ∀ {T s s' n}, s.Grows T s' → Allows s n → Allows s' n
  bind : ∀ {s : Session} {sub : Substitution}, env.Makes s sub → Holds s → Holds (s.withSubstitution sub)
  new : ∀ (s : Session) (sub : Substitution), Allows (s.withSubstitution sub) (.generic (s.substitutions.push sub).1)

namespace Regime

variable {env : Env} {R : Regime env} {compile : Compile} {fuel : Nat} {target key : SlotKey} {s s' : Session}
  {node : Option TypeNode} {n : TypeNode}

/-- Whatever is allowed may be merged into the slot. -/
def Absorbs (R : Regime env) (target : SlotKey) : Prop :=
  ∀ s n, R.Holds s → R.Allows s n → s.cache.unions.Holds n → R.Holds (s.setNode target (some n))

/-- Resolving a slot upholds the regime, and what it returns is allowed. A substitution is resolved only if it is allowed. -/
def Serves (R : Regime env) (compile : Compile) : Prop :=
  ∀ key s node s', R.Holds s → (∀ i, key = .generic i → R.Allows s (.generic i)) → (compile key).run s = .ok (node, s') →
    R.Holds s' ∧ ∀ n, node = some n → R.Allows s' n

/-- What is allowed has members that are allowed. -/
theorem allows_member (hs : R.Holds s) (hnode : ∀ m, node = some m → R.Allows s m) (hn : n ∈ s.cache.members node) :
    R.Allows s n := by
  rcases node with _ | m
  · cases hn
  · cases m with
    | union u => exact R.member hs hn
    | _ =>
      cases List.mem_singleton.1 hn
      exact hnode _ rfl

theorem Absorbs.setNode (habs : R.Absorbs target) (hs : R.Holds s) (hnode : ∀ n, node = some n → R.Allows s n)
    (hholds : ∀ n, node = some n → s.cache.unions.Holds n) : R.Holds (s.setNode target node) := by
  cases node with
  | none => exact hs
  | some n => exact habs s n hs (hnode n rfl) (hholds n rfl)

theorem Absorbs.flat (habs : R.Absorbs target) (hs : R.Holds s) (hn : R.Allows s n) (hflat : n.isUnion = false) :
    R.Holds (s.setNode target (some n)) :=
  habs s n hs hn (UnionArena.holds_of_not_union hflat)

/-! ## Searches -/

section Searches

variable (hv : compile.Visiting) (hc : R.Serves compile)
include hv hc

theorem huntNode_upholds {name : Atom} {hunt hunt' : Hunt} (hn : ∀ i, n = .generic i → R.Allows s n) (hs : R.Holds s)
    (h : (env.huntNode compile name fuel hunt n).run s = .ok (hunt', s')) : R.Holds s' := by
  induction fuel generalizing hunt hunt' n s s' with
  | zero => cases h
  | succ fuel ih =>
    cases n with
    | leaf d => rw [(Resolve.pure_ok h).2]; exact hs
    | global g => rw [(Resolve.lift_ok h).2]; exact hs
    | generic i =>
      obtain ⟨resolved, t, hr, h⟩ := Resolve.bind_ok h
      obtain ⟨ht, hresolved⟩ := hc _ _ _ _ hs (by rintro _ ⟨⟩; exact hn i rfl) hr
      refine (Resolve.foldMembers_ok (fun _ t => R.Holds t ∧ ∀ m, resolved = some m → R.Allows t m) ?_ ⟨ht, hresolved⟩ h).1
      rintro m _ t₁ _ t₂ hm ⟨ht₁, hallows⟩ hh
      have ht₂ := ih (fun _ _ => allows_member ht₁ hallows hm) ht₁ hh
      have hg := (Env.huntNode_evolves hv hh (R.wellFormed ht₁)).2
      exact ⟨ht₂, fun x hx => R.grows hg (hallows x hx)⟩
    | union u =>
      refine Resolve.foldMembers_ok (fun _ t => R.Holds t) (fun m _ t₁ _ t₂ hm ht₁ hh => ?_) hs h
      exact ih (fun _ _ => R.member ht₁ hm) ht₁ hh

theorem searchNode_upholds {name : Atom} {found : List DeclId} (hn : ∀ i, n = .generic i → R.Allows s n) (hs : R.Holds s)
    (h : (env.searchNode compile fuel n name).run s = .ok (found, s')) : R.Holds s' := by
  obtain ⟨hunt, t, hh, h⟩ := Resolve.bind_ok h
  rw [(Resolve.lift_ok h).2]
  exact huntNode_upholds hv hc hn hs hh

theorem searchMember_upholds {name : Atom} {base : DeclId} {found : List DeclId} (hs : R.Holds s)
    (h : (env.searchMember compile fuel base name).run s = .ok (found, s')) : R.Holds s' := by
  obtain ⟨hunt, t, hh, h⟩ := Resolve.bind_ok h
  rw [(Resolve.lift_ok h).2]
  obtain ⟨node, t', hr, hh⟩ := Resolve.bind_ok hh
  refine (Resolve.foldMembers_ok (fun _ t => R.Holds t ∧ ∀ m, node = some m → R.Allows t m) ?_
    (hc _ _ _ _ hs (by simp) hr) hh).1
  rintro m _ t₁ _ t₂ hm ⟨ht₁, hallows⟩ hh
  have hg := (Env.huntNode_evolves hv hh (R.wellFormed ht₁)).2
  exact ⟨huntNode_upholds hv hc (fun _ _ => allows_member ht₁ hallows hm) ht₁ hh, fun x hx => R.grows hg (hallows x hx)⟩

end Searches

/-! ## Merges -/

section Merges

variable (habs : R.Absorbs target)
include habs

theorem mergeBound_upholds {call : DeclId} {u : Unit} (hs : R.Holds s) (hn : R.Allows s n) (hflat : n.isUnion = false)
    (h : (Env.mergeBound target call n).run s = .ok (u, s')) : R.Holds s' := by
  rcases Env.mergeBound_ok h with ⟨-, rfl⟩ | ⟨i, func, proto, rfl, hi, rfl⟩
  · exact habs.flat hs hn hflat
  · exact habs.flat (R.bind (.copy hi) hs) (R.new s _) rfl

theorem mergeReturned_upholds {call : DeclId} {u : Unit} (hs : R.Holds s) (hnode : ∀ n, node = some n → R.Allows s n)
    (hholds : ∀ n, node = some n → s.cache.unions.Holds n)
    (h : (Env.mergeReturned fuel target call node).run s = .ok (u, s')) : R.Holds s' := by
  obtain ⟨_, _, hg, h⟩ := Resolve.bind_ok h
  cases hg
  split at h
  · refine (Resolve.foldMembers_ok (fun _ t => R.Holds t ∧ ∀ m, node = some m → R.Allows t m) ?_ ⟨hs, hnode⟩ h).1
    rintro m _ t _ t' hm ⟨ht, hallows⟩ hb
    have hflat := (R.wellFormed ht).members_flat m hm
    have hg := (Env.mergeBound_evolves hflat hb (R.wellFormed ht)).2
    exact ⟨mergeBound_upholds habs ht (allows_member ht hallows hm) hflat hb, fun x hx => R.grows hg (hallows x hx)⟩
  · rw [Resolve.mergeNode_ok h]
    exact habs.setNode hs hnode hholds

variable (hv : compile.Visiting) (hc : R.Serves compile)
include hv hc

theorem mergeDecl_upholds {d : DeclId} {u : Unit} (hs : R.Holds s)
    (h : (Env.mergeDecl compile target d).run s = .ok (u, s')) : R.Holds s' := by
  obtain ⟨node, t, hr, h⟩ := Resolve.bind_ok h
  rw [Resolve.mergeNode_ok h]
  obtain ⟨ht, hnode⟩ := hc _ _ _ _ hs (by simp) hr
  exact habs.setNode ht hnode (hv _ _ _ _ (R.wellFormed hs) hr).holds

theorem forM_mergeDecl_upholds {ds : List DeclId} {u : Unit} (hs : R.Holds s)
    (h : (ds.forM (Env.mergeDecl compile target)).run s = .ok (u, s')) : R.Holds s' :=
  Resolve.forM_ok R.Holds (fun _ _ _ _ ht hd => mergeDecl_upholds habs hv hc ht hd) hs h

theorem mergeResult_upholds {callee call : DeclId} {index : Nat} {u : Unit} (hs : R.Holds s)
    (h : (Env.mergeResult env compile fuel target callee index call).run s = .ok (u, s')) : R.Holds s' := by
  obtain ⟨node, t, hd, h⟩ := Env.mergeResult_ok h
  obtain ⟨ht, -⟩ := hc _ _ _ _ hs (by simp) hd
  rcases h with ⟨-, rfl⟩ | ⟨f, _, _, _, returned, t', -, -, -, hr, h⟩ | ⟨f, _, _, _, e, -, -, -, -, -, h⟩
  · exact ht
  · obtain ⟨ht', hnode⟩ := hc _ _ _ _ ht (by simp) hr
    exact mergeReturned_upholds habs ht' hnode (hv _ _ _ _ (R.wellFormed ht) hr).holds h
  · exact mergeDecl_upholds habs hv hc ht h

theorem runStep_upholds {step : Step} {u : Unit} (hstep : step ∈ env.rule key) (hs : R.Holds s)
    (h : (Env.runStep env compile fuel target step).run s = .ok (u, s')) : R.Holds s' := by
  cases step with
  | own n =>
    obtain ⟨d, -, hown⟩ := Env.explains_of_mem_rule hstep
    rw [Resolve.mergeNode_ok h]
    exact habs.flat hs (R.plain hown.plain) hown.not_union
  | merge d => exact mergeDecl_upholds habs hv hc hs h
  | read base name =>
    obtain ⟨found, t, hf, h⟩ := Resolve.bind_ok h
    exact forM_mergeDecl_upholds habs hv hc (searchMember_upholds hv hc hs hf) h
  | delegate metatable name =>
    obtain ⟨node, t, hd, h⟩ := Resolve.bind_ok h
    refine (Resolve.foldMembers_ok (fun _ t => R.Holds t ∧ ∀ m, node = some m → R.Allows t m) ?_
      (hc _ _ _ _ hs (by simp) hd) h).1
    rintro m _ t₁ _ t₂ hm ⟨ht₁, hallows⟩ hb
    obtain ⟨found, t₃, hf, hb⟩ := Resolve.bind_ok hb
    have hg := (((Env.searchNode_evolves hv hf).mono (Set.empty_subset {target})).trans
      (Env.forM_mergeDecl_evolves hv hb) (R.wellFormed ht₁)).2
    have ht₃ := searchNode_upholds hv hc (fun _ _ => allows_member ht₁ hallows hm) ht₁ hf
    exact ⟨forM_mergeDecl_upholds habs hv hc ht₃ hb, fun x hx => R.grows hg (hallows x hx)⟩
  | result callee index call => exact mergeResult_upholds habs hv hc hs h
  | template sub =>
    obtain ⟨i, t, ha, h⟩ := Resolve.bind_ok h
    cases ha
    rw [Resolve.mergeNode_ok h]
    exact habs.flat (R.bind (.template hstep) hs) (R.new s sub) rfl

theorem steps_uphold {steps : List Step} {u : Unit} (hsteps : ∀ step ∈ steps, step ∈ env.rule key) (hs : R.Holds s)
    (h : (steps.forM (Env.runStep env compile fuel target)).run s = .ok (u, s')) : R.Holds s' :=
  Resolve.forM_ok R.Holds (fun step hmem _ _ ht hr => runStep_upholds habs hv hc (hsteps step hmem) ht hr) hs h

end Merges

/-! ## Substitutions -/

/-- The types found for type parameters are members of nodes: they are allowed. -/
theorem inferBindings_upholds {func call : DeclId} {bindings : Bindings} (hv : compile.Visiting) (hc : R.Serves compile)
    (hs : R.Holds s) (h : (Env.inferBindings env compile func call).run s = .ok (bindings, s')) :
    R.Holds s' ∧ ∀ entry ∈ bindings, ∀ n ∈ entry.2, R.Allows s' n := by
  obtain ⟨entries, t, hm, h⟩ := Resolve.bind_ok h
  obtain ⟨rfl, rfl⟩ := Resolve.pure_ok h
  have hkeep := Resolve.mapM_ok R.Holds (fun t entry => ∀ binding ∈ entry, ∀ n ∈ binding.2, R.Allows t n) ?_ hs hm
  · refine ⟨hkeep.1, fun entry hentry => ?_⟩
    obtain ⟨l, hl, hentry⟩ := List.mem_flatten.1 hentry
    exact hkeep.2.1 l hl entry hentry
  · rintro ⟨uses, arg⟩ _ t₁ entry t₂ ht₁ hr
    obtain ⟨node, t₃, hd, hr⟩ := Resolve.bind_ok hr
    obtain ⟨_, _, hg, hr⟩ := Resolve.bind_ok hr
    cases hg
    obtain ⟨rfl, rfl⟩ := Resolve.pure_ok hr
    obtain ⟨ht₃, hnode⟩ := hc _ _ _ _ ht₁ (by simp) hd
    refine ⟨ht₃, fun binding hb n hn => ?_, fun c hallows binding hb n hn => ?_⟩
    · obtain ⟨param, -, rfl⟩ := List.mem_map.1 hb
      exact allows_member ht₃ hnode hn
    · exact R.grows (hv _ _ _ _ (R.wellFormed ht₁) hd).grows (hallows binding hb n hn)

theorem instantiate_upholds {sig? : Option Signature} {bindings : Bindings} {depth : Nat} {ty : DeclId} {u : Unit}
    (habs : R.Absorbs target) (hv : compile.Visiting) (hc : R.Serves compile)
    (hflat : ∀ entry ∈ bindings, ∀ n ∈ entry.2, n.isUnion = false)
    (hallows : ∀ entry ∈ bindings, ∀ n ∈ entry.2, R.Allows s n) (hs : R.Holds s)
    (h : (Env.instantiate env compile target sig? bindings depth ty).run s = .ok (u, s')) : R.Holds s' := by
  induction depth generalizing ty s s' with
  | zero => cases h
  | succ depth ih =>
    rw [Env.instantiate] at h
    split at h
    · rw [(Resolve.pure_ok h).2]
      exact hs
    · split at h
      · next param _ =>
        refine (Resolve.forM_ok (fun t => R.Holds t ∧ s.Grows {target} t) (fun n hn t t' ht hm => ?_) ⟨hs, .refl _ _⟩ h).1
        rw [Resolve.mergeNode_ok hm]
        obtain ⟨entry, he, hn⟩ := Bindings.exists_of_mem_of hn
        have hset : t.Evolves {target} (t.setNode target (some n)) := .setNode_flat (hflat entry he n hn)
        exact ⟨habs.flat ht.1 (R.grows ht.2 (hallows entry he n hn)) (hflat entry he n hn),
          ht.2.trans (hset (R.wellFormed ht.1)).2⟩
      · split at h
        · refine (Resolve.forM_ok (fun t => R.Holds t ∧ s.Grows {target} t) (fun x _ t t' ht hi => ?_) ⟨hs, .refl _ _⟩ h).1
          have hg := (Env.instantiate_evolves hv hflat hi (R.wellFormed ht.1)).2
          exact ⟨ih (fun entry he n hn => R.grows ht.2 (hallows entry he n hn)) ht.1 hi, ht.2.trans hg⟩
        · exact mergeDecl_upholds habs hv hc hs h

/-- A regime that does not depend on the depth of instantiations is upheld by the rules of substitutions too. -/
theorem runRule_upholds {u : Unit} (hdepth : ∀ (s : Session) (depth : DepthCounter), R.Holds s → R.Holds { s with depth })
    (habs : R.Absorbs target) (hv : compile.Visiting) (hc : R.Serves compile) (hs : R.Holds s)
    (h : (Env.runRule env compile fuel target).run s = .ok (u, s')) : R.Holds s' := by
  cases target with
  | decl d => exact steps_uphold habs hv hc (fun _ hst => show _ ∈ env.rule (.decl d) from hst) hs h
  | ret f index => exact steps_uphold habs hv hc (fun _ hst => show _ ∈ env.rule (.ret f index) from hst) hs h
  | generic i =>
    rcases Env.runSubstitution_ok h with rfl | ⟨sub, depth, bindings, t, t', left, -, -, hb, hi, -, rfl⟩
    · exact hs
    · have hentered : R.Holds ({ s with depth } : Session) := hdepth s depth hs
      split at hb
      · obtain ⟨ht, hallows⟩ := inferBindings_upholds hv hc hentered hb
        have hflat := (Env.inferBindings_evolves hv (R.wellFormed hentered) hb).2
        exact hdepth _ _ (instantiate_upholds habs hv hc hflat hallows ht hi)
      · obtain ⟨rfl, rfl⟩ := Resolve.pure_ok hb
        exact hdepth _ _ (instantiate_upholds habs hv hc (by simp) (by simp) hentered hi)

/-! ## Slots -/

/-- The regime, while the rule of a slot runs. -/
def during (R : Regime env) (target : SlotKey) : Regime env where
  Holds s := R.Holds s ∧ s.cache.state? target = some .inProgress
  Allows := R.Allows
  wellFormed h := R.wellFormed h.1
  plain := R.plain
  member h := R.member h.1
  grows := R.grows
  bind hsub h := ⟨R.bind hsub h.1, h.2⟩
  new := R.new

/-- Resolving other slots leaves a slot under way. -/
theorem Serves.during (hc : R.Serves compile) (hv : compile.Visiting) (target : SlotKey) :
    (R.during target).Serves compile := by
  rintro key s node s' ⟨hs, hst⟩ hkey h
  obtain ⟨hs', hnode⟩ := hc key s node s' hs hkey h
  exact ⟨⟨hs', (hv _ _ _ _ (R.wellFormed hs) h).grows.cache.state _ _ hst⟩, hnode⟩

/-- What answers from slots and rules uphold, resolving a slot upholds. -/
theorem compileSlot_serves
    (hhit : ∀ s key slot, R.Holds s → s.cache.slot? key = some slot →
      R.Holds (s.hit key (env.slotKind key) slot.state) ∧
      ∀ n, slot.node = some n → R.Allows (s.hit key (env.slotKind key) slot.state) n)
    (hrule : ∀ fuel key s t, R.Serves (env.compileSlot fuel) → R.Holds s →
      (∀ i, key = .generic i → R.Allows s (.generic i)) → s.cache.slot? key = none →
      (env.runRule (env.compileSlot fuel) fuel key).run (s.start key (env.slotKind key)) = .ok ((), t) →
      R.Holds (t.finish (s.start key (env.slotKind key)).lookups key) ∧
      ∀ n, t.cache.node? key = some n → R.Allows (t.finish (s.start key (env.slotKind key)).lookups key) n)
    (fuel : Nat) : R.Serves (env.compileSlot fuel) := by
  induction fuel with
  | zero => intro key s node s' _ _ h; cases h
  | succ fuel ih =>
    intro key s node s' hs hkey h
    rcases Env.compileSlot_ok h with ⟨slot, hslot, rfl, rfl⟩ | ⟨t, _, habs, hr, -, -⟩
    · exact hhit s key slot hs hslot
    · rw [Env.compileSlot_of_rule habs hr] at h
      cases h
      exact hrule fuel key s t ih hs hkey habs hr

/-- An inquiry upholds what resolving slots upholds. A substitution that it names has to be allowed. -/
theorem ask_upholds {q : Query} {a : Answer} (hc : ∀ fuel, R.Serves (env.compileSlot fuel)) (hq : q.isInquiry = true)
    (hgeneric : ∀ i, (q = .generic i ∨ ∃ name, q = .search (.generic i) name) → R.Allows s (.generic i)) (hs : R.Holds s)
    (h : s.ask env q = .ok (a, s')) : R.Holds s' := by
  cases q with
  | decl d =>
    obtain ⟨⟨node, t⟩, hd, hr⟩ := Except.map_ok h
    cases hr
    exact (hc _ _ _ _ _ hs (by simp) hd).1
  | result f index =>
    obtain ⟨⟨node, t⟩, hd, hr⟩ := Except.map_ok h
    cases hr
    exact (hc _ _ _ _ _ hs (by simp) hd).1
  | generic i =>
    obtain ⟨⟨node, t⟩, hd, hr⟩ := Except.map_ok h
    cases hr
    refine (hc _ _ _ _ _ hs ?_ hd).1
    rintro _ ⟨⟩
    exact hgeneric i (.inl rfl)
  | search n name =>
    obtain ⟨⟨ds, t⟩, hd, hr⟩ := Except.map_ok h
    cases hr
    refine searchNode_upholds (env.compileSlot_visits _) (hc _) ?_ hs hd
    rintro i rfl
    exact hgeneric i (.inr ⟨name, rfl⟩)
  | searchMember base name =>
    obtain ⟨⟨ds, t⟩, hd, hr⟩ := Except.map_ok h
    cases hr
    exact searchMember_upholds (env.compileSlot_visits _) (hc _) hs hd
  | searchClass g name =>
    obtain ⟨ds, -, hr⟩ := Except.map_ok h
    cases hr
    exact hs
  | signature f => cases h; exact hs
  | setNode key node => cases hq
  | clear => cases hq

end Regime

end LuaInfer
