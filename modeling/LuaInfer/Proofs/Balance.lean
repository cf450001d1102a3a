import LuaInfer.Proofs.Run
/-!
# A search leaves its guard as it found it

A search of a class enters the class, goes on in its sources and superclasses, and leaves it again, on
whatever path it comes back. `Hunt.Keeps` says that two stages of a search have the same classes under
way. `Env.huntClass_returns`: the search of a class returns, and keeps them. The depth limit bounds the
recursion: a class that is entered stands one deeper than the class it was reached from.
-/

namespace LuaInfer

/-! ## One guard -/

namespace Guard

variable {κ : Type} [DecidableEq κ]

/-- All that an attempt can do: enter a key that is not being visited, one deeper, or refuse it. -/
theorem enter_cases (g : Guard κ) (key : κ) :
    (∃ g', g.enter key = (.entered, g') ∧ key ∉ g.visiting ∧ g.depth < g.limits.maxDepth.toNat ∧
      g'.limits = g.limits ∧ g'.visiting = key :: g.visiting ∧ g'.depth = g.depth + 1) ∨
    ∃ e g', g.enter key = (e, g') ∧ e ≠ .entered ∧
      g'.limits = g.limits ∧ g'.visiting = g.visiting ∧ g'.depth = g.depth := by
  unfold enter
  dsimp only
  split
  · exact .inr ⟨_, _, rfl, by simp, rfl, rfl, rfl⟩
  · split
    · exact .inr ⟨_, _, rfl, by simp, rfl, rfl, rfl⟩
    · next hdepth =>
      split
      · exact .inr ⟨_, _, rfl, by simp, rfl, rfl, rfl⟩
      · next hkey => exact .inl ⟨_, rfl, hkey, Nat.lt_of_not_le hdepth, rfl, rfl, rfl⟩

theorem leave_of_head {g : Guard κ} {key : κ} {rest : List κ} (h : g.visiting = key :: rest) :
    g.leave key = .ok { g with visiting := rest, depth := g.depth - 1 } := by
  rw [leave, if_pos (by simp [h]), h, List.erase_cons_head]

end Guard

namespace Hunt

/-- The same classes are under way in `h` and `h'`. -/
structure Keeps (h h' : Hunt) : Prop where
  limits : h'.guard.limits = h.guard.limits
  visiting : h'.guard.visiting = h.guard.visiting
  depth : h'.guard.depth = h.guard.depth

variable {h h' h'' : Hunt}

theorem Keeps.refl (h : Hunt) : h.Keeps h := ⟨rfl, rfl, rfl⟩

theorem Keeps.trans (hk : h.Keeps h') (hk' : h'.Keeps h'') : h.Keeps h'' :=
  ⟨hk'.limits.trans hk.limits, hk'.visiting.trans hk.visiting, hk'.depth.trans hk.depth⟩

/-- Only the guard counts, not what was found. -/
theorem Keeps.of_guard (hk : h.Keeps h') (hg : h''.guard = h'.guard) : h.Keeps h'' :=
  ⟨hg ▸ hk.limits, hg ▸ hk.visiting, hg ▸ hk.depth⟩

theorem Keeps.add (hk : h.Keeps h') (ds : List DeclId) : h.Keeps (h'.add ds) := hk.of_guard rfl

/-- A search that began with no class under way can be closed. -/
theorem Keeps.close (hk : h.Keeps h') (hempty : h.guard.visiting = []) : h'.close = .ok h'.found := by
  have hv : h'.guard.visiting = [] := hk.visiting.trans hempty
  have hdrop : h'.guard.drop = .ok () := by rw [Guard.drop, hv]; rfl
  rw [Hunt.close, hdrop]
  rfl

/-- A part of a search returns, with the classes under way that `h` has. -/
def Returned (h : Hunt) (x : Except Fault Hunt) : Prop := ∃ h', x = .ok h' ∧ h.Keeps h'

theorem Keeps.returned (hk : h.Keeps h') : h.Returned (.ok h') := ⟨h', rfl, hk⟩

theorem Returned.foldlM {α : Type} {f : Hunt → α → Except Fault Hunt} {xs : List α}
    (hstep : ∀ x ∈ xs, ∀ a, h.Keeps a → h.Returned (f a x)) (hk : h.Keeps h') : h.Returned (xs.foldlM f h') :=
  Except.foldlM_returns h.Keeps hstep hk

end Hunt

/-! ## Classes -/

namespace Env

variable {env : Env} {name : Atom} {h h' : Hunt} {classes : GlobalId → Hunt → Except Fault Hunt}

section Classes

variable (hc : ∀ g a, h.Keeps a → h.Returned (classes g a))
include hc

theorem huntGlobal_returns (g : GlobalId) (hk : h.Keeps h') : h.Returned (env.huntGlobal name classes g h') := by
  unfold huntGlobal
  split
  · exact (hk.add _).returned
  · exact hc g h' hk
  · exact hk.returned

theorem huntSource_returns (source : DeclId) (hk : h.Keeps h') :
    h.Returned (env.huntSource name classes h' source) := by
  unfold huntSource
  dsimp only
  split
  · exact huntGlobal_returns hc _ (hk.add _)
  · exact (hk.add _).returned

theorem huntSuper_returns (super : DeclId) (hk : h.Keeps h') : h.Returned (env.huntSuper classes h' super) := by
  unfold huntSuper
  split
  · split
    · exact hc _ h' hk
    · exact hk.returned
  · exact hk.returned

theorem huntSite_returns (site : DeclId) (hk : h.Keeps h') : h.Returned (env.huntSite name classes h' site) := by
  unfold huntSite
  split
  · next supers fields sources _ =>
    -- the sources are searched with a list of their own, under the guard of the whole search
    have hstart : h.Keeps { guard := h'.guard, found := Distinct.append [] (env.fieldsNamed fields name) } :=
      hk.of_guard rfl
    have hsources : h.Returned (sources.foldlM (env.huntSource name classes) _) :=
      .foldlM (fun source _ a ha => huntSource_returns hc source ha) hstart
    obtain ⟨own, hown, hkeep⟩ := hsources
    have hback : h.Keeps { h' with guard := own.guard } := hkeep.of_guard rfl
    dsimp only
    rw [hown]
    change h.Returned (if own.found.isEmpty then _ else _)
    split
    · exact Hunt.Returned.foldlM (fun super _ a ha => huntSuper_returns hc super ha) hback
    · exact (hback.add _).returned
  · exact hk.returned

end Classes

/-- By induction on the fuel: a class that is entered is left again, at the depth where it was entered. -/
theorem huntClassFrom_returns {fuel : Nat} (g : GlobalId) (hdepth : h.guard.depth ≤ h.guard.limits.maxDepth.toNat)
    (hfuel : h.guard.limits.maxDepth.toNat < h.guard.depth + fuel) : h.Returned (env.huntClassFrom name fuel g h) := by
  induction fuel generalizing g h with
  | zero => omega
  | succ fuel ih =>
    rw [huntClassFrom]
    rcases h.guard.enter_cases g with ⟨g', he, -, hlt, hl, hv, hd⟩ | ⟨e, g', he, hne, hl, hv, hd⟩
    · -- inside, the class is under way on top of those that were
      have hinside : ∀ k a, Hunt.Keeps { h with guard := g' } a →
          Hunt.Returned { h with guard := g' } (env.huntClassFrom name fuel k a) := by
        intro k a ha
        have hlim : a.guard.limits.maxDepth = h.guard.limits.maxDepth := by rw [ha.limits]; exact congrArg _ hl
        have hdep : a.guard.depth = h.guard.depth + 1 := ha.depth.trans hd
        obtain ⟨a', hr, ha'⟩ := ih (h := a) k (by rw [hlim, hdep]; omega) (by rw [hlim, hdep]; omega)
        exact ⟨a', hr, ha.trans ha'⟩
      have hsites : Hunt.Returned { h with guard := g' }
          ((env.globals.sites g).foldlM (env.huntSite name (env.huntClassFrom name fuel)) { h with guard := g' }) :=
        .foldlM (fun site _ a ha => huntSite_returns hinside site ha) (.refl _)
      obtain ⟨a, ha, hkeep⟩ := hsites
      rw [he]
      dsimp only
      rw [ha]
      have hleave : a.guard.leave g = .ok { a.guard with visiting := h.guard.visiting, depth := a.guard.depth - 1 } :=
        Guard.leave_of_head (hkeep.visiting.trans hv)
      change h.Returned (((a.guard.leave g).mapError Fault.misuse) >>= _)
      rw [hleave]
      refine ⟨_, rfl, hkeep.limits.trans hl, rfl, ?_⟩
      change a.guard.depth - 1 = _
      rw [hkeep.depth]
      change g'.depth - 1 = _
      omega
    · rw [he]
      cases e with
      | entered => exact absurd rfl hne
      | _ => exact ⟨_, rfl, hl, hv, hd⟩

/-- The search of a class returns, if it is under the limit of the environment, as all searches are. -/
theorem huntClass_returns (g : GlobalId) (hk : env.hunt.Keeps h) : env.hunt.Returned (env.huntClass name g h) := by
  have hlim : h.guard.limits.maxDepth = env.options.maxClassDepth := congrArg GuardLimits.maxDepth hk.limits
  have hdep : h.guard.depth = 0 := hk.depth
  have hsearch : h.Returned (env.huntClassFrom name (env.options.maxClassDepth.toNat + 1) g h) :=
    huntClassFrom_returns g (by omega) (by rw [hlim, hdep]; omega)
  obtain ⟨h', hr, hk'⟩ := hsearch
  exact ⟨h', hr, hk.trans hk'⟩

theorem searchClass_returns (env : Env) (g : GlobalId) (name : Atom) : ∃ found, env.searchClass g name = .ok found := by
  obtain ⟨h, hr, hk⟩ := env.huntClass_returns g (.refl env.hunt)
  refine ⟨h.found, ?_⟩
  rw [searchClass, hr]
  exact hk.close rfl

end Env

end LuaInfer
