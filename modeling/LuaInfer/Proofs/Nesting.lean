import LuaInfer.Proofs.Flow
import LuaInfer.Proofs.Piecewise
/-!
# Substitutions inside one another

A substitution may have others as members, where an argument of its call has them. `Env.Grounded` says that none contains itself,
by where nodes flow. A program is grounded if its slots can be ranked so that what is passed to a call is lower than the call
(`Env.Ranked.grounded`), and a program without type parameters always is.

A substitution that does contain itself is resolved like any other. But a search of it does not end, since nothing notes which
substitutions a search is in: `Env.searchNode_never` says so of all substitutions that have one of their own kind, and `x = id(x)`
makes one (`Session.never_endless`). So what is said of the answer of a search, and of whatever reads a member, is said on the
condition that there is one.
-/

namespace LuaInfer

namespace Env

/-- Substitution `a` may have `b` as a member. -/
def Contains (env : Env) (a b : Substitution) : Prop := env.Flows (.inst a) (.inst b)

/-- No substitution contains itself, through however many others. -/
def Grounded (env : Env) : Prop := ∀ a, ¬ Relation.TransGen env.Contains a a

/-! ## Ranks -/

/-- Ranks of slots: nothing comes to a slot from a higher one, a slot of rank 0 has no substitution, and what is passed to a call
is lower than the call. -/
structure Ranked (env : Env) (rank : SlotKey → Nat) : Prop where
  merge : ∀ k d, .merge d ∈ env.rule k → rank (.decl d) ≤ rank k
  found : ∀ k base name m d, .read base name ∈ env.rule k ∨ .delegate base name ∈ env.rule k → env.Finds name m d →
    rank (.decl d) ≤ rank k
  result : ∀ k callee index call f params returns isMethod, .result callee index call ∈ env.rule k →
    env.arena.kind? f = some (.function params returns isMethod) →
    rank (.ret f index) ≤ rank k ∧ (0 < rank (.ret f index) → rank (.decl call) ≤ rank k)
  declared : ∀ k callee index call f params returns d, .result callee index call ∈ env.rule k →
    env.arena.kind? f = some (.tyFunction params returns) → d ∈ returns → rank (.decl d) ≤ rank k
  template : ∀ k sub, .template sub ∈ env.rule k → sub.call = none ∧ 0 < rank k ∧
    ∀ ty, env.arena.Alternative sub.proto ty → rank (.decl ty) = 0
  argument : ∀ f call uses arg, (uses, arg) ∈ env.inferenceSources f call → rank (.decl arg) < rank (.decl call)

/-- What is passed is passed by a call that exists, for a function that exists. -/
theorem index_lt_of_mem_inferenceSources {env : Env} {f call : DeclId} {source : List Atom × DeclId}
    (h : source ∈ env.inferenceSources f call) : f.index < env.arena.size ∧ call.index < env.arena.size := by
  unfold inferenceSources at h
  split at h
  · cases h
  · obtain ⟨doc, hdoc, hsource⟩ := List.mem_filterMap.1 h
    split at hsource
    · simp only [Option.bind_eq_bind, Option.bind_eq_some_iff] at hsource
      obtain ⟨-, -, position, -, arg, hargument, -⟩ := hsource
      constructor
      · by_contra hf
        have hdecl : env.arena.decl? f = none := Array.getElem?_eq_none_iff.2 (Nat.le_of_not_lt hf)
        simp [Arena.docs, hdecl] at hdoc
      · unfold argument? at hargument
        split at hargument
        · next hk => exact Arena.index_lt_of_kind? hk
        · cases hargument
    · cases hsource

namespace Ranked

variable {env : Env} {rank : SlotKey → Nat} {P : Place} {x : Item} {a b : Substitution}

/-- The rank of a substitution is that of its call. -/
def ofSubstitution (rank : SlotKey → Nat) (sub : Substitution) : Nat := (sub.call.map fun call => rank (.decl call)).getD 0

/-- A place may have the substitution, as far as ranks tell. A substitution is considered if its type is one that a rule
instantiates. -/
def Admits (env : Env) (rank : SlotKey → Nat) : Place → Substitution → Prop
  | .slot key, b => 0 < rank key ∧ ofSubstitution rank b ≤ rank key
  | .inst a, b => (∀ ty, env.arena.Alternative a.proto ty → rank (.decl ty) = 0) → ofSubstitution rank b < ofSubstitution rank a
  | .view _, _ => True

theorem admits (h : env.Ranked rank) (hflows : env.Flows P x) (hx : x = .inst b) :
    (∀ ty, env.arena.Alternative b.proto ty → rank (.decl ty) = 0) ∧ Admits env rank P b := by
  induction hflows generalizing b with
  | own => cases hx
  | merge hst _ ih =>
    obtain ⟨hty, hpos, hle⟩ := ih hx
    have hrank := h.merge _ _ hst
    exact ⟨hty, Nat.lt_of_lt_of_le hpos hrank, Nat.le_trans hle hrank⟩
  | direct _ ih => exact ⟨(ih hx).1, trivial⟩
  | through _ _ _ ih => exact ⟨(ih hx).1, trivial⟩
  | found hst _ hfinds _ _ ih =>
    obtain ⟨hty, hpos, hle⟩ := ih hx
    have hrank := h.found _ _ _ _ _ hst hfinds
    exact ⟨hty, Nat.lt_of_lt_of_le hpos hrank, Nat.le_trans hle hrank⟩
  | result hst _ hk _ _ ih =>
    obtain ⟨hty, hpos, hle⟩ := ih hx
    have hrank := (h.result _ _ _ _ _ _ _ _ hst hk).1
    exact ⟨hty, Nat.lt_of_lt_of_le hpos hrank, Nat.le_trans hle hrank⟩
  | copy hst _ hk _ _ ih =>
    cases hx
    obtain ⟨hty, hpos, -⟩ := ih rfl
    obtain ⟨hrank, hcall⟩ := h.result _ _ _ _ _ _ _ _ hst hk
    exact ⟨hty, Nat.lt_of_lt_of_le hpos hrank, hcall hpos⟩
  | declared hst _ hk hd _ _ ih =>
    obtain ⟨hty, hpos, hle⟩ := ih hx
    have hrank := h.declared _ _ _ _ _ _ _ _ hst hk (List.mem_of_getElem? hd)
    exact ⟨hty, Nat.lt_of_lt_of_le hpos hrank, Nat.le_trans hle hrank⟩
  | template hst =>
    cases hx
    obtain ⟨hcall, hpos, hty⟩ := h.template _ _ hst
    refine ⟨hty, hpos, ?_⟩
    rw [ofSubstitution, hcall]
    exact Nat.zero_le _
  | argument hmem _ ih =>
    obtain ⟨hty, -, hle⟩ := ih hx
    exact ⟨hty, fun _ => Nat.lt_of_le_of_lt hle (h.argument _ _ _ _ hmem)⟩
  | part halt _ ih =>
    obtain ⟨hty, hpos, -⟩ := ih hx
    exact ⟨hty, fun hzero => absurd (hzero _ halt) (Nat.ne_of_gt hpos)⟩

/-- If calls can be ranked above what is passed to them, no substitution contains itself. -/
theorem grounded (h : env.Ranked rank) : env.Grounded := by
  have hchain : ∀ {a b}, Relation.TransGen env.Contains a b → (∀ ty, env.arena.Alternative b.proto ty → rank (.decl ty) = 0) ∧
      ((∀ ty, env.arena.Alternative a.proto ty → rank (.decl ty) = 0) → ofSubstitution rank b < ofSubstitution rank a) := by
    intro a b hab
    induction hab with
    | single hab => exact h.admits hab rfl
    | tail _ hbc ih =>
      obtain ⟨hty, hless⟩ := h.admits hbc rfl
      exact ⟨hty, fun ha => Nat.lt_trans (hless ih.1) (ih.2 ha)⟩
  intro a ha
  obtain ⟨hty, hless⟩ := hchain ha
  exact Nat.lt_irrefl _ (hless hty)

/-- Without type parameters there is nothing to rank. -/
theorem of_monomorphic (h : env.arena.Monomorphic) : env.Ranked fun _ => 0 where
  merge _ _ _ := Nat.le_refl 0
  found _ _ _ _ _ _ _ := Nat.le_refl 0
  result _ _ _ _ _ _ _ _ _ _ := ⟨Nat.le_refl 0, fun _ => Nat.le_refl 0⟩
  declared _ _ _ _ _ _ _ _ _ _ _ := Nat.le_refl 0
  template k sub hst := by
    obtain ⟨f, index, sig, -, hsig⟩ := explains_of_mem_rule hst
    cases (h.signature f).symm.trans hsig
  argument f call uses arg hmem := by
    rw [inferenceSources, h.signature f] at hmem
    cases hmem

end Ranked

end Env

/-! ## Searches that do not end -/

namespace NodeCache

/-- Each of the substitutions `C` was resolved, or is being resolved, and has one of them as a member. -/
def Circular (c : NodeCache) (C : Set GenericId) : Prop :=
  ∀ i ∈ C, c.slot? (.generic i) ≠ none ∧ ∃ j ∈ C, .generic j ∈ c.members (c.node? (.generic i))

variable {c c' : NodeCache} {C : Set GenericId} {T : Set SlotKey} {i : GenericId} {fuel : Nat} {n : TypeNode}
  {ns ps : List TypeNode}

theorem Circular.grows (h : c.Circular C) (hg : c.Grows T c') : c'.Circular C := by
  intro i hi
  obtain ⟨hslot, j, hj, hmem⟩ := h i hi
  exact ⟨fun habs => hslot (hg.exists_slot habs), j, hj, (hg.members _).subset hmem⟩

theorem Circular.start {key : SlotKey} (h : c.Circular C) (habs : c.slot? key = none) : (c.start key).Circular C := by
  intro i hi
  have hne : .generic i ≠ key := by
    rintro rfl
    exact (h i hi).1 habs
  rw [slot?_start, node?_start, if_neg hne, if_neg hne]
  exact h i hi

theorem Expands.of_mem (h : c.Expands fuel ns ps) (hn : n ∈ ns) : ∃ ms, c.Expands fuel [n] ms := by
  induction ns generalizing ps with
  | nil => cases hn
  | cons m ns ih =>
    obtain ⟨ms, rest, hm, hrest, -⟩ := h.cons_inv
    rcases List.mem_cons.1 hn with rfl | hn
    · exact ⟨ms, hm⟩
    · exact ih hrest hn

/-- However deep a search may go, such a substitution stands for no list of plain nodes. -/
theorem Circular.not_expands (h : c.Circular C) (hi : i ∈ C) : ¬ c.Expands fuel [.generic i] ps := by
  induction fuel generalizing i ps with
  | zero => intro hE; cases hE
  | succ fuel ih =>
    intro hE
    cases hE with
    | plain hn => cases hn
    | generic hslot _ hm _ =>
      obtain ⟨-, j, hj, hmem⟩ := h i hi
      rw [node?_of_slot? hslot] at hmem
      obtain ⟨ms, hms⟩ := hm.of_mem hmem
      exact ih hj hms

end NodeCache

namespace Env

variable {env : Env} {C : Set GenericId} {i : GenericId} {s s' : Session} {name : Atom} {fuel rounds : Nat}
  {base d : DeclId} {member : Member} {found : List DeclId} {node : Option TypeNode}

/-- The members of a slot, when the rule of another one starts. -/
theorem mem_members_start {k key : SlotKey} {n : TypeNode} {kind : String} (hn : n ∈ s.cache.members (s.cache.node? k))
    (habs : s.cache.slot? key = none) :
    n ∈ (s.start key kind).cache.members ((s.start key kind).cache.node? k) := by
  have hne : k ≠ key := by
    rintro rfl
    rw [NodeCache.node?, habs] at hn
    cases hn
  change n ∈ s.cache.members ((s.cache.start key).node? k)
  rwa [NodeCache.node?_start, if_neg hne]

section Circular

variable (hw : s.cache.WellFormed) (h : s.cache.Circular C) (hi : i ∈ C)
include hw h hi

/-- A substitution that contains one of its own kind is searched for ever: no bound is enough. -/
theorem searchNode_never : (env.searchNode (env.compileSlot fuel) rounds (.generic i) name).run s ≠ .ok (found, s') := by
  intro hr
  obtain ⟨hunt, t, hn, -⟩ := Resolve.bind_ok hr
  have hg := (huntNode_evolves (env.compileSlot_visits fuel) hn hw).2
  obtain ⟨ps, hps, -⟩ := huntNode_expands (env.compileSlot_visits fuel) hw rfl hn
  exact (h.grows hg.cache).not_expands hi hps

variable (hmem : .generic i ∈ s.cache.members (s.cache.node? (.decl base)))
include hmem

/-- So is a declaration that has such a substitution. -/
theorem searchMember_never : (env.searchMember (env.compileSlot fuel) rounds base name).run s ≠ .ok (found, s') := by
  have hv := env.compileSlot_visits fuel
  intro hr
  obtain ⟨hunt, t, hr, -⟩ := Resolve.bind_ok hr
  obtain ⟨node, t₀, hd, hr⟩ := Resolve.bind_ok hr
  have hvis := hv _ _ _ _ hw hd
  obtain ⟨st, hslot⟩ := hvis.slot
  obtain ⟨-, hg⟩ := foldMembers_evolves hv hr hvis.wellFormed
  obtain ⟨-, ps, hps, -⟩ := foldMembers_expands hv (huntNode_expands hv) hvis.wellFormed hslot hr
  have hmem₀ : .generic i ∈ t₀.cache.members node := by
    rw [← hvis.node]
    exact (hvis.grows.cache.members _).subset hmem
  obtain ⟨ms, hms⟩ := hps.of_mem hmem₀
  exact ((h.grows hvis.grows.cache).grows hg.cache).not_expands hi hms

variable (hread : .read base name ∈ env.rule (.decl d)) (habs : s.cache.slot? (.decl d) = none)
include hread habs

/-- And so the read of a member of such a declaration is never resolved. -/
theorem compileRead_never : (env.compileSlot fuel (.decl d)).run s ≠ .ok (node, s') := by
  cases fuel with
  | zero => intro hr; cases hr
  | succ fuel =>
    intro hr
    rcases compileSlot_ok hr with ⟨slot, hslot, -⟩ | ⟨t, query, -, hrule, -⟩
    · rw [habs] at hslot
      cases hslot
    have hv := env.compileSlot_visits fuel
    let I : Session → Prop := fun u => u.cache.WellFormed ∧ u.cache.Circular C ∧
      .generic i ∈ u.cache.members (u.cache.node? (.decl base))
    have hstart : I (s.start (.decl d) (env.slotKind (.decl d))) :=
      ⟨hw.start habs, h.start habs, mem_members_start hmem habs⟩
    refine Resolve.forM_ok_of_mem I (fun _ => False) hread (fun st hst u u' hu hstep => ?_) (fun u u' hu hstep => ?_) hstart hrule
    · obtain ⟨hw', hg⟩ := runStep_evolves hv hst hstep hu.1
      exact ⟨⟨hw', hu.2.1.grows hg.cache, (hg.cache.members _).subset hu.2.2⟩, id⟩
    · obtain ⟨found, t, hf, -⟩ := Resolve.bind_ok hstep
      exact searchMember_never hu.1 hu.2.1 hi hu.2.2 hf

/-- Nor is a substitution for a call that passes what was read. -/
theorem compileGeneric_never {g : GenericId} {f ty call : DeclId} {uses : List Atom} {sources : List (List Atom × DeclId)}
    (hg : s.substitutions.get? g = some ⟨f, ty, some call⟩) (hsources : env.inferenceSources f call = (uses, d) :: sources)
    (habs' : s.cache.slot? (.generic g) = none) (hdepth : s.depth.enter.1 = true) :
    (env.compileSlot fuel (.generic g)).run s ≠ .ok (node, s') := by
  cases fuel with
  | zero => intro hr; cases hr
  | succ fuel =>
    intro hr
    rcases compileSlot_ok hr with ⟨slot, hslot, -⟩ | ⟨t, query, -, hrule, -⟩
    · rw [habs'] at hslot
      cases hslot
    rcases runSubstitution_cases hrule with ⟨-, hnone | hrefused⟩ | ⟨sub, depth, bindings, t', t'', left, hsub, -, hb, -⟩
    · cases hnone.symm.trans hg
    · cases hrefused.symm.trans hdepth
    · cases hsub.symm.trans hg
      obtain ⟨entries, u, hb, -⟩ := Resolve.bind_ok hb
      rw [hsources, List.mapM_cons] at hb
      obtain ⟨first, u, hfirst, -⟩ := Resolve.bind_ok hb
      obtain ⟨node, u, hd, -⟩ := Resolve.bind_ok hfirst
      refine compileRead_never (s := { s.start (.generic g) (env.slotKind (.generic g)) with depth }) (hw.start habs')
        (h.start habs') hi (mem_members_start hmem habs') hread ?_ hd
      change (s.cache.start (.generic g)).slot? (.decl d) = none
      rwa [NodeCache.slot?_start, if_neg (by simp)]

end Circular

end Env

/-- `---@generic T; ---@param a T; ---@return T; function(a) end`, and with it as `id`: `local x; x = id(x); id(x.k)`. -/
def Program.sampleEndless : Program :=
  (empty.build [.function ["a"], .docGeneric ⟨1⟩ ["T"], .tyName "T", .docParam ⟨1⟩ "a" ⟨3⟩, .tyName "T", .docReturn ⟨1⟩ 1 ⟨5⟩,
    .localVar "x" none, .getLocal ⟨7⟩, .call ⟨1⟩ [⟨8⟩], .setLocal ⟨7⟩ ⟨9⟩, .getLocal ⟨7⟩, .getField ⟨11⟩ "k",
    .call ⟨1⟩ [⟨12⟩]]).2

/-- What `id(x)` gives has itself as a member. Both calls resolve, and no slot is met while it is under way. But that substitution
is searched for ever, `x.k` is never resolved, and neither is the substitution of `id(x.k)`. -/
theorem Session.never_endless : ∃ answers s,
    fresh.askAll (.of .sampleEndless {}) [.decl ⟨11⟩, .generic ⟨1⟩, .decl ⟨13⟩] = .ok (answers, s) ∧ s.stats.cycleHits = 0 ∧
    ¬ (Env.of .sampleEndless {}).Grounded ∧
    (∀ name found s', s.searchNode (.of .sampleEndless {}) (.generic ⟨1⟩) name ≠ .ok (found, s')) ∧
    (∀ fuel node s', ((Env.of .sampleEndless {}).compileSlot fuel (.decl ⟨12⟩)).run s ≠ .ok (node, s')) ∧
    s.substitutions.get? ⟨2⟩ = some ⟨⟨1⟩, ⟨5⟩, some ⟨13⟩⟩ ∧
    ∀ fuel node s', ((Env.of .sampleEndless {}).compileSlot fuel (.generic ⟨2⟩)).run s ≠ .ok (node, s') := by
  obtain ⟨⟨answers, s⟩, hask, hs⟩ := Except.exists_ok
    (x := fresh.askAll (.of .sampleEndless {}) [.decl ⟨11⟩, .generic ⟨1⟩, .decl ⟨13⟩])
    (f := fun r => (r.2.stats.cycleHits, r.2.cache.members (r.2.cache.node? (.decl ⟨11⟩)),
      r.2.cache.members (r.2.cache.node? (.generic ⟨1⟩)), r.2.substitutions.get? ⟨2⟩,
      (r.2.cache.slot? (.decl ⟨12⟩)).isNone && (r.2.cache.slot? (.generic ⟨2⟩)).isNone && r.2.depth.enter.1))
    (b := (0, [.leaf ⟨7⟩, .generic ⟨1⟩], [.leaf ⟨7⟩, .generic ⟨1⟩], some ⟨⟨1⟩, ⟨5⟩, some ⟨13⟩⟩, true)) (by decide +kernel)
  simp only [Prod.mk.injEq, Bool.and_eq_true, Option.isNone_iff_eq_none] at hs
  obtain ⟨hcycles, hbase, hmembers, hsub, ⟨habs, habs'⟩, hdepth⟩ := hs
  have hflows : s.Flowing (.of .sampleEndless {}) := askAll_flowing (by decide) hask
  have hw := hflows.wellFormed
  have hself : .generic ⟨1⟩ ∈ s.cache.members (s.cache.node? (.generic ⟨1⟩)) := by rw [hmembers]; simp
  have hcircular : s.cache.Circular {⟨1⟩} := by
    rintro i rfl
    refine ⟨fun hnone => ?_, ⟨1⟩, rfl, hself⟩
    rw [NodeCache.node?, hnone] at hself
    cases hself
  have hground : ¬ (Env.of .sampleEndless {}).Grounded := by
    obtain ⟨P, x, hP, hx, hcontains⟩ := (hflows.cache _ (.refl _)).members hself
    obtain ⟨a, ha, rfl⟩ := Option.map_eq_some_iff.1 hP
    obtain ⟨b, hb, rfl⟩ := Option.map_eq_some_iff.1 hx
    cases ha.symm.trans hb
    exact fun h => h a (.single hcontains)
  have hread : Step.read ⟨11⟩ ⟨4⟩ ∈ (Env.of .sampleEndless {}).rule (.decl ⟨12⟩) := by decide +kernel
  have hbase : .generic ⟨1⟩ ∈ s.cache.members (s.cache.node? (.decl ⟨11⟩)) := by rw [hbase]; simp
  have hsources : (Env.of .sampleEndless {}).inferenceSources ⟨1⟩ ⟨13⟩ = [([⟨2⟩], ⟨12⟩)] := by decide +kernel
  exact ⟨answers, s, hask, hcycles, hground, fun name found s' => Env.searchNode_never hw hcircular rfl,
    fun fuel node s' => Env.compileRead_never hw hcircular rfl hbase hread habs, hsub,
    fun fuel node s' => Env.compileGeneric_never hw hcircular rfl hbase hread habs hsub hsources habs' hdepth⟩

end LuaInfer
