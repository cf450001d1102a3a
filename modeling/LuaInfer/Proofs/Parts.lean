import LuaInfer.Proofs.Ancestry
/-!
# A search is made of parts

A search hands one guard and one list of results from part to part. What a part adds to them depends on the classes that
are under way, and on nothing else that happened before: not on what was found, and not on how many attempts were made, as
long as the limit admits those of the part too. `Hunt.Steady` says this of a part, and parts that are steady make up a whole
that is (`Hunt.Steady.bind`, `Hunt.Steady.foldlM`). `Env.huntClass_steady` is the result for classes, by induction on
the fuel, and `Env.huntPlain_steady` the one for nodes that are no substitutions.
-/

namespace LuaInfer

namespace Guard

variable {κ : Type} [DecidableEq κ] {g : Guard κ}

/-- An attempt that the limit admits: it is refused at the depth limit and for a key that is being visited. -/
theorem enter_admitted (key : κ) (hcap : g.limits.maxAttempts.toNat < attemptCap) (h : g.attempts + 1 ≤ g.limits.maxAttempts.toNat) :
    g.enter key =
      if g.limits.maxDepth.toNat ≤ g.depth then (.depthExceeded, { g with attempts := g.attempts + 1 })
      else if key ∈ g.visiting then (.cycle, { g with attempts := g.attempts + 1 })
      else (.entered, { g with attempts := g.attempts + 1, visiting := key :: g.visiting, depth := g.depth + 1 }) := by
  have hmin : min (g.attempts + 1) attemptCap = g.attempts + 1 := by omega
  unfold enter
  dsimp only
  rw [hmin, if_neg (by omega)]

/-- An attempt too many leaves a trace: the count is past the limit from then on. -/
theorem not_within_enter (key : κ) (hcap : g.limits.maxAttempts.toNat < attemptCap) (h : ¬ g.attempts + 1 ≤ g.limits.maxAttempts.toNat) :
    ∃ g', g.enter key = (.attemptsExceeded, g') ∧ ¬ g'.Within := by
  have hmany : min (g.attempts + 1) attemptCap > g.limits.maxAttempts.toNat := by omega
  unfold enter
  dsimp only
  rw [if_pos hmany]
  exact ⟨_, rfl, Nat.not_le_of_lt hmany⟩

end Guard

namespace Hunt

variable {start h h' : Hunt} {F G : Hunt → Except Fault Hunt} {k m : Nat} {ds es : List DeclId}

/-- The search after `k` more attempts, with `ds` found as well. -/
def advance (h : Hunt) (k : Nat) (ds : List DeclId) : Hunt :=
  ⟨{ h.guard with attempts := h.guard.attempts + k }, Distinct.append h.found ds⟩

theorem advance_advance : (h.advance k ds).advance m es = h.advance (k + m) (Distinct.append ds es) := by
  simp only [advance, Nat.add_assoc, Distinct.append_assoc]

theorem Keeps.advance (hk : start.Keeps h) : start.Keeps (h.advance k ds) := ⟨hk.limits, hk.visiting, hk.depth⟩

/-- The search inside of a class. -/
def under (h : Hunt) (g : GlobalId) : Hunt :=
  { h with guard := { h.guard with visiting := g :: h.guard.visiting, depth := h.guard.depth + 1 } }

/-- The search with a class left that was entered last. -/
def out (h : Hunt) : Hunt :=
  { h with guard := { h.guard with visiting := h.guard.visiting.tail, depth := h.guard.depth - 1 } }

theorem Keeps.leave {g : GlobalId} (hk : (start.under g).Keeps h) : h.guard.leave g = .ok h.out.guard := by
  have hv : h.guard.visiting = g :: start.guard.visiting := hk.visiting
  rw [Guard.leave_of_head hv, out, hv]
  rfl

theorem Keeps.out {g : GlobalId} (hk : (start.under g).Keeps h) : start.Keeps h.out :=
  ⟨hk.limits, congrArg List.tail hk.visiting, congrArg Nat.pred hk.depth⟩

theorem Keeps.under (g : GlobalId) (hk : start.Keeps h) : (start.under g).Keeps (h.under g) :=
  ⟨hk.limits, congrArg (g :: ·) hk.visiting, congrArg (· + 1) hk.depth⟩

theorem out_advance_under (g : GlobalId) : (((h.advance k []).under g).advance m ds).out = h.advance (k + m) ds := by
  simp only [advance, out, under, Nat.add_assoc]
  rfl

/-- The most attempts that a search may make. -/
def limit (h : Hunt) : Nat := h.guard.limits.maxAttempts.toNat

theorem Keeps.limit_eq (hk : start.Keeps h) : h.limit = start.limit := by
  unfold limit
  rw [hk.limits]

theorem Keeps.within (hk : start.Keeps h) : h.guard.Within ↔ h.guard.attempts ≤ start.limit := by
  rw [← hk.limit_eq]
  rfl

/-- Whether a class is refused depends on the classes under way, if the limit admits the attempt. -/
theorem Keeps.enter (hcap : start.Capped) (hk : start.Keeps h) (hlimit : h.guard.attempts + 1 ≤ start.limit)
    (g : GlobalId) : h.guard.enter g =
      if start.guard.limits.maxDepth.toNat ≤ start.guard.depth then (.depthExceeded, (h.advance 1 []).guard)
      else if g ∈ start.guard.visiting then (.cycle, (h.advance 1 []).guard)
      else (.entered, ((h.advance 1 []).under g).guard) := by
  rw [← hk.limit_eq] at hlimit
  rw [Guard.enter_admitted g (by rw [hk.limits]; exact hcap) hlimit, ← hk.limits, ← hk.depth, ← hk.visiting]
  rfl

/-- A part of a search makes `k` attempts and finds `ds`, if the classes of `start` are under way and the limit admits
the attempts. -/
def Adds (start : Hunt) (F : Hunt → Except Fault Hunt) (k : Nat) (ds : List DeclId) : Prop :=
  ∀ h, start.Keeps h → h.guard.attempts + k ≤ start.limit → F h = .ok (h.advance k ds)

/-- If a part of a search has once stayed within the limit, it makes the same attempts and finds the same whenever the
classes of `start` are under way. -/
structure Steady (start : Hunt) (F : Hunt → Except Fault Hunt) : Prop where
  keeps : ∀ {h h'}, start.Keeps h → F h = .ok h' → start.Keeps h'
  adds : ∀ {h h'}, start.Keeps h → F h = .ok h' → h'.guard.Within →
    ∃ k ds, h.guard.attempts + k ≤ start.limit ∧ start.Adds F k ds

namespace Steady

/-- What a steady part has done, where it stayed within the limit. -/
theorem run (hF : start.Steady F) (hk : start.Keeps h) (hr : F h = .ok h') (hw : h'.guard.Within) :
    ∃ k ds, h.guard.attempts + k ≤ start.limit ∧ start.Adds F k ds ∧ h' = h.advance k ds := by
  obtain ⟨k, ds, hle, hadds⟩ := hF.adds hk hr hw
  have heq := hadds h hk hle
  rw [hr] at heq
  exact ⟨k, ds, hle, hadds, Except.ok.inj heq⟩

theorem congr (hF : start.Steady F) (h : ∀ x, G x = F x) : start.Steady G := (funext h : G = F) ▸ hF

theorem add (start : Hunt) (ds : List DeclId) : start.Steady fun h => .ok (h.add ds) where
  keeps := by
    rintro h _ hk ⟨⟩
    exact hk.add ds
  adds := by
    rintro h _ hk ⟨⟩ hw
    exact ⟨0, ds, (hk.add ds).within.1 hw, fun _ _ _ => rfl⟩

theorem pure (start : Hunt) : start.Steady fun h => .ok h :=
  (Steady.add start []).congr fun _ => rfl

theorem throw (start : Hunt) (e : Fault) : start.Steady fun _ => .error e where
  keeps _ hr := nomatch hr
  adds _ hr := nomatch hr

theorem bind (hF : start.Steady F) (hG : start.Steady G) : start.Steady fun h => F h >>= G where
  keeps hk hr := by
    obtain ⟨a, ha, hr⟩ := Except.bind_ok hr
    exact hG.keeps (hF.keeps hk ha) hr
  adds {h h'} hk hr hw := by
    obtain ⟨a, ha, hr⟩ := Except.bind_ok hr
    have hka := hF.keeps hk ha
    obtain ⟨m, es, hm, hGadds⟩ := hG.adds hka hr hw
    -- what the second part admits tells that the first one stayed within the limit
    obtain ⟨k, ds, -, hFadds, rfl⟩ := hF.run hk ha (hka.within.2 (by omega))
    have hle : h.guard.attempts + (k + m) ≤ start.limit := by
      rw [← Nat.add_assoc]
      exact hm
    refine ⟨k + m, Distinct.append ds es, hle, fun b hb hlimit => ?_⟩
    change F b >>= G = _
    rw [hFadds b hb (by omega), ← advance_advance]
    refine hGadds _ hb.advance ?_
    change b.guard.attempts + k + m ≤ start.limit
    omega

theorem foldlM {α : Type} {f : Hunt → α → Except Fault Hunt} {xs : List α} (hf : ∀ x ∈ xs, start.Steady fun h => f h x) :
    start.Steady fun h => xs.foldlM f h := by
  induction xs with
  | nil => exact .pure start
  | cons x xs ih =>
    refine ((hf x (by simp)).bind (ih fun y hy => hf y (by simp [hy]))).congr fun h => ?_
    rw [List.foldlM_cons]

/-- A part that searches with a list of its own, and goes on in another way if the list stays empty. Whether it does is
not a matter of what was found before, so it is always the same way that the search goes on. -/
theorem aside (hF : start.Steady F) (hG : start.Steady G) (first : List DeclId) : start.Steady fun h => do
    let own ← F { guard := h.guard, found := first }
    let h := { h with guard := own.guard }
    if own.found.isEmpty then G h else return h.add own.found where
  keeps {h h'} hk hr := by
    obtain ⟨own, hown, hr⟩ := Except.bind_ok hr
    have hstart : start.Keeps { guard := h.guard, found := first } := hk.of_guard rfl
    have hback : start.Keeps { h with guard := own.guard } := (hF.keeps hstart hown).of_guard rfl
    split at hr
    · exact hG.keeps hback hr
    · cases hr
      exact hback.add _
  adds {h h'} hk hr hw := by
    obtain ⟨own, hown, hr⟩ := Except.bind_ok hr
    have hstart : start.Keeps { guard := h.guard, found := first } := hk.of_guard rfl
    have hkown : start.Keeps own := hF.keeps hstart hown
    have hback : start.Keeps { h with guard := own.guard } := hkown.of_guard rfl
    split at hr
    · next hempty =>
      obtain ⟨m, es, hm, hes⟩ := hG.adds hback hr hw
      obtain ⟨k, ds, -, hds, rfl⟩ := hF.run hstart hown (hkown.within.2 (Nat.le_of_add_right_le hm))
      have hle : h.guard.attempts + (k + m) ≤ start.limit := by
        rw [← Nat.add_assoc]
        exact hm
      refine ⟨k + m, Distinct.append [] es, hle, fun b hb hlimit => ?_⟩
      have hown' := hds { guard := b.guard, found := first } (hb.of_guard rfl)
        (Nat.le_trans (Nat.add_le_add_left (Nat.le_add_right k m) _) hlimit)
      have hback' : start.Keeps (b.advance k []) := hb.advance
      have hrest := hes (b.advance k []) hback' (by rw [← Nat.add_assoc] at hlimit; exact hlimit)
      dsimp only
      rw [hown']
      rw [advance_advance] at hrest
      exact (if_pos hempty).trans hrest
    · next hsome =>
      cases hr
      obtain ⟨k, ds, hle, hds, rfl⟩ := hF.run hstart hown (hkown.within.2 ((hback.add _).within.1 hw))
      refine ⟨k, Distinct.append first ds, hle, fun b hb hlimit => ?_⟩
      dsimp only
      rw [hds { guard := b.guard, found := first } (hb.of_guard rfl) hlimit]
      exact if_neg hsome

/-- A part that enters a class, with what is searched inside it. -/
theorem guarded (hcap : start.Capped) {g : GlobalId} (hF : (start.under g).Steady F) : start.Steady fun h =>
    match h.guard.enter g with
    | (.entered, guard) => do
      let h ← F { h with guard }
      return { h with guard := ← (h.guard.leave g).mapError .misuse }
    | (_, guard) => return { h with guard } where
  keeps {h h'} hk hr := by
    rcases h.guard.enter_cases g with ⟨g', he, -, -, hl, hv, hd⟩ | ⟨e, g', he, hne, hl, hv, hd⟩
    · rw [he] at hr
      obtain ⟨a, ha, hr⟩ := Except.bind_ok hr
      have hin : (start.under g).Keeps { h with guard := g' } := by
        refine ⟨hl.trans hk.limits, hv.trans ?_, hd.trans ?_⟩
        · rw [hk.visiting]
          rfl
        · rw [hk.depth]
          rfl
      have hka := hF.keeps hin ha
      rw [hka.leave] at hr
      cases hr
      exact hka.out
    · rw [he] at hr
      cases e with
      | entered => exact absurd rfl hne
      | _ =>
        cases hr
        exact ⟨hl.trans hk.limits, hv.trans hk.visiting, hd.trans hk.depth⟩
  adds {h h'} hk hr hw := by
    by_cases hone : h.guard.attempts + 1 ≤ start.limit
    · rw [hk.enter hcap hone] at hr
      by_cases hdeep : start.guard.limits.maxDepth.toNat ≤ start.guard.depth
      · refine ⟨1, [], hone, fun b hb hlimit => ?_⟩
        dsimp only
        rw [hb.enter hcap hlimit, if_pos hdeep]
        rfl
      · rw [if_neg hdeep] at hr
        by_cases hmem : g ∈ start.guard.visiting
        · refine ⟨1, [], hone, fun b hb hlimit => ?_⟩
          dsimp only
          rw [hb.enter hcap hlimit, if_neg hdeep, if_pos hmem]
          rfl
        · rw [if_neg hmem] at hr
          obtain ⟨a, ha, hr⟩ := Except.bind_ok hr
          have hin : (start.under g).Keeps ((h.advance 1 []).under g) := hk.advance.under g
          have hka := hF.keeps hin ha
          rw [hka.leave] at hr
          cases hr
          obtain ⟨k, ds, hle, hds⟩ := hF.adds hin ha hw
          refine ⟨1 + k, ds, ?_, fun b hb hlimit => ?_⟩
          · rw [← Nat.add_assoc]
            exact hle
          · have hb' : (start.under g).Keeps ((b.advance 1 []).under g) := hb.advance.under g
            have hbk : b.guard.attempts + 1 + k ≤ start.limit := by omega
            dsimp only
            rw [hb.enter hcap (by omega), if_neg hdeep, if_neg hmem]
            change (F ((b.advance 1 []).under g) >>= _) = _
            rw [hds ((b.advance 1 []).under g) hb' hbk]
            change ((Guard.leave _ g).mapError Fault.misuse >>= _) = _
            rw [hb'.advance.leave, ← out_advance_under]
            rfl
    · have hcap' : h.guard.limits.maxAttempts.toNat < Guard.attemptCap := by
        rw [hk.limits]
        exact hcap
      rw [← hk.limit_eq] at hone
      obtain ⟨g', he, hout⟩ := Guard.not_within_enter g hcap' hone
      rw [he] at hr
      cases hr
      exact absurd hw hout

end Steady

end Hunt

/-! ## Classes -/

namespace Env

variable {env : Env} {name : Atom} {start : Hunt} {classes : GlobalId → Hunt → Except Fault Hunt}

section Classes

variable (hc : ∀ g, start.Steady (classes g))
include hc

theorem huntGlobal_steady (g : GlobalId) : start.Steady (env.huntGlobal name classes g) := by
  unfold huntGlobal
  split
  · exact .add start _
  · exact hc g
  · exact .pure start

theorem huntSource_steady (source : DeclId) : start.Steady fun h => env.huntSource name classes h source := by
  unfold huntSource
  dsimp only
  cases env.arena.global? source with
  | none => exact .add start _
  | some g => exact (Hunt.Steady.add start _).bind (huntGlobal_steady hc g)

theorem huntSuper_steady (super : DeclId) : start.Steady fun h => env.huntSuper classes h super := by
  unfold huntSuper
  cases env.arena.kind? super with
  | none => exact .pure start
  | some kind =>
    cases kind with
    | tyName name =>
      dsimp only
      cases env.globals.get? .type name with
      | none => exact .pure start
      | some g => exact hc g
    | _ => exact .pure start

theorem huntSite_steady (site : DeclId) : start.Steady fun h => env.huntSite name classes h site := by
  unfold huntSite
  cases env.arena.kind? site with
  | none => exact .pure start
  | some kind =>
    cases kind with
    | docClass x supers fields sources =>
      have hsources : start.Steady fun h => sources.foldlM (env.huntSource name classes) h :=
        .foldlM fun source _ => huntSource_steady hc source
      have hsupers : start.Steady fun h => supers.foldlM (env.huntSuper classes) h :=
        .foldlM fun super _ => huntSuper_steady hc super
      exact hsources.aside hsupers _
    | _ => exact .pure start

end Classes

/-- By induction on the fuel: a class is refused or entered whatever was found before, and inside an entered class the
search is steady with that class under way too. -/
theorem huntClassFrom_steady (hcap : start.Capped) (fuel : Nat) (g : GlobalId) :
    start.Steady (env.huntClassFrom name fuel g) := by
  induction fuel generalizing start g with
  | zero => exact .throw start _
  | succ fuel ih =>
    have hinside : ∀ k, (start.under g).Steady (env.huntClassFrom name fuel k) := ih hcap
    have hsites : (start.under g).Steady fun h =>
        (env.globals.sites g).foldlM (env.huntSite name (env.huntClassFrom name fuel)) h :=
      .foldlM fun site _ => huntSite_steady hinside site
    exact hsites.guarded hcap

theorem capped_hunt (env : Env) : env.hunt.Capped := by
  change (100000 : UInt32).toNat < UInt32.size - 1
  decide

theorem huntClass_steady (g : GlobalId) : env.hunt.Steady (env.huntClass name g) :=
  huntClassFrom_steady env.capped_hunt _ g

theorem huntPlain_steady (node : TypeNode) : env.hunt.Steady fun h => env.huntPlain name h node := by
  unfold huntPlain
  cases node with
  | leaf d => exact .add _ _
  | global g => exact huntGlobal_steady huntClass_steady g
  | _ => exact .pure _

end Env

end LuaInfer
