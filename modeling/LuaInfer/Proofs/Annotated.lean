import LuaInfer.Proofs.Firm
import LuaInfer.Proofs.Links
import LuaInfer.Proofs.Template
/-!
# A documented local is what its documentation says

A local to which an annotation applies is itself, what its annotations are and, where literals narrow, its literal initial
value. Annotations and literals depend on nothing but one another (`Env.closed_static`), so none of them is in progress when the local is
resolved, not even inside a cycle that assigns to it: what they have then is all they ever have, and the union that the local
makes of it is its own. `Session.compileDecl_annotated` says so for every session that queries reach.
-/

namespace LuaInfer

/-! ## Annotations and literals -/

namespace DeclKind

/-- The type that an annotation of a value, or an overload, gives. -/
def annotatedType? : DeclKind → Option DeclId
  | docType ty | docParam _ ty | docOverload ty => some ty
  | _ => none

theorem mem_children_of_annotatedType? {kind : DeclKind} {ty : DeclId} (h : kind.annotatedType? = some ty) :
    ty ∈ kind.children := by
  cases kind with
  | docType _ | docParam _ _ | docOverload _ =>
    cases h
    exact List.mem_singleton.2 rfl
  | _ => cases h

/-- Literals, annotations of a value, overloads and classes. -/
def isStatic : DeclKind → Bool
  | docClass .. => true
  | kind => kind.isLiteral || kind.annotatedType?.isSome

end DeclKind

namespace Arena

variable {a : Arena}

/-- `e` is part of a type that an annotation gives. -/
def InAnnotation (a : Arena) (e : DeclId) : Prop :=
  ∃ doc kind ty, a.kind? doc = some kind ∧ kind.annotatedType? = some ty ∧ a.Within ty e

/-- The types of annotations are type expressions, all the way down. -/
def AnnotatesTypes (a : Arena) : Prop :=
  ∀ e kind, a.InAnnotation e → a.kind? e = some kind → kind.isTypeExpr = true

/-- It is enough that type expressions and annotations have only type expressions directly below them. -/
theorem annotatesTypes_of_children
    (h : ∀ decl ∈ a.decls, (decl.kind.isTypeExpr || decl.kind.annotatedType?.isSome) = true →
      ∀ child ∈ decl.kind.children, (a.kind? child).all DeclKind.isTypeExpr = true) : a.AnnotatesTypes := by
  rintro e kind ⟨doc, dkind, ty, hdoc, hty, hin⟩ hk
  obtain ⟨decl, hd, rfl⟩ := exists_decl_of_kind? hdoc
  have hroot := h decl hd (by rw [hty, Option.isSome_some, Bool.or_true]) ty (DeclKind.mem_children_of_annotatedType? hty)
  have hall := isTypeExpr_of_within (fun decl hd ht => h decl hd (by rw [ht, Bool.true_or])) hroot hin
  rwa [hk] at hall

/-- Literals, annotations and all that annotations are made of. -/
def Static (a : Arena) : Set DeclId :=
  { d | a.InAnnotation d ∨ ∃ kind, a.kind? d = some kind ∧ kind.isStatic = true }

end Arena

namespace Env

variable {p : Program} {options : Options} {d x : DeclId}

/-- An annotation, a literal or a part of a type takes nothing but others of them. -/
theorem closed_static (hp : p.Built) (ht : p.arena.AnnotatesTypes) : (Env.of p options).Closed p.arena.Static := by
  intro d hd st hst
  obtain ⟨kind, hk⟩ := exists_kind?_of_mem_declRule hst
  have hkind : p.arena.kind? d = some kind := hk
  by_cases htype : p.arena.InAnnotation d
  · have hexpr := ht d kind htype hkind
    rw [declRule_eq_kindSteps (hp.bound.global?_eq_none hkind (DeclKind.isLinkable_of_isTypeExpr hexpr)) hk] at hst
    rcases mem_kindSteps_of_isTypeExpr hexpr hst with ⟨n, rfl, -⟩ | ⟨e, he, rfl⟩
    · exact .inl ⟨n, rfl⟩
    · obtain ⟨doc, dkind, ty, hdoc, hty, hin⟩ := htype
      exact .inr ⟨e, .inl ⟨doc, dkind, ty, hdoc, hty, hin.tail (by rwa [Arena.children, hkind])⟩, rfl⟩
  · obtain ⟨kind', hk', hstatic⟩ := hd.resolve_left htype
    rw [hkind] at hk'
    cases hk'
    by_cases hl : kind.isLinkable = false
    · rw [declRule_eq_kindSteps (hp.bound.global?_eq_none hkind hl) hk] at hst
      cases kind with
      | literal _ | table _ => exact .inl ⟨_, List.mem_singleton.1 hst⟩
      | function params returns isMethod =>
        rcases List.mem_cons.1 hst with rfl | hst
        · exact .inl ⟨_, rfl⟩
        · obtain ⟨doc, hdoc, rfl⟩ := List.mem_map.1 hst
          obtain ⟨-, hover⟩ := List.mem_filter.1 hdoc
          split at hover
          · next sig hsig => exact .inr ⟨doc, .inr ⟨_, hsig, rfl⟩, rfl⟩
          · cases hover
      | docType ty | docParam _ ty | docOverload ty =>
        refine .inr ⟨ty, .inl ⟨d, _, ty, hkind, rfl, .refl⟩, List.mem_singleton.1 hst⟩
      | docClass => cases hl
      | _ => cases hstatic
    · cases kind with
      | docClass name supers fields sources =>
        -- a class stands for a type, which has no sites that contribute
        refine .inl ?_
        have hst : st ∈ (Env.of p options).globalSteps d ++ [] := by rwa [declRule, hk] at hst
        rw [List.append_nil, globalSteps] at hst
        split at hst
        · cases hst
        · next g hg =>
          have hcategory : p.globals.category? g = some .type := hp.bound d _ g hkind hg
          rcases List.mem_cons.1 hst with rfl | hst
          · exact ⟨_, rfl⟩
          · rw [show (Env.of p options).globals.category? g = some .type from hcategory] at hst
            cases hst
      | _ => first | exact absurd rfl hl | cases hstatic

/-- What contributes to a documented local with that initial value: its annotations, and the value if it is a literal and
literals narrow. -/
def documented (env : Env) (x : DeclId) (value : Option DeclId) : List DeclId :=
  env.annotations x ++ value.toList.filter fun v => env.options.literalNarrowing && env.arena.isLiteral v

theorem declRule_documented {env : Env} {name : Atom} {role : Role} {value : Option DeclId} {refs : List DeclId}
    (hg : env.arena.global? x = none) (hk : env.arena.kind? x = some (.localVar name role value refs))
    (hdoc : env.annotations x ≠ []) : env.declRule x = .own (.leaf x) :: (env.documented x value).map .merge := by
  have hempty : (env.annotations x).isEmpty = false := by simpa using hdoc
  rw [declRule_eq_kindSteps hg hk]
  simp only [kindSteps, localSteps, hempty, documented, Bool.not_false, Bool.false_eq_true, if_false, List.append_nil]
  rfl

theorem isStatic_of_annotates {env : Env} (h : env.Annotates x d) :
    ∃ kind, env.arena.kind? d = some kind ∧ kind.isStatic = true := by
  obtain ⟨-, happlies⟩ := h
  unfold applies at happlies
  split at happlies
  · next hk => exact ⟨_, hk, rfl⟩
  · next hk => exact ⟨_, hk, rfl⟩
  · next hk => exact ⟨_, hk, rfl⟩
  · cases happlies

theorem isStatic_of_isLiteral {a : Arena} (h : a.isLiteral d = true) :
    ∃ kind, a.kind? d = some kind ∧ kind.isStatic = true := by
  obtain ⟨kind, hk, hkind⟩ := (Option.any_eq_true _ _).1 h
  refine ⟨kind, hk, ?_⟩
  cases kind <;> first | rfl | cases hkind

theorem mem_static_of_documented {value : Option DeclId} (hd : d ∈ (Env.of p options).documented x value) :
    d ∈ p.arena.Static := by
  rcases List.mem_append.1 hd with hd | hd
  · exact .inr (isStatic_of_annotates (mem_annotations.1 hd))
  · obtain ⟨-, hliteral⟩ := List.mem_filter.1 hd
    rw [Bool.and_eq_true] at hliteral
    exact .inr (isStatic_of_isLiteral hliteral.2)

theorem not_mem_static_of_local (ht : p.arena.AnnotatesTypes) {name : Atom} {role : Role} {value : Option DeclId}
    {refs : List DeclId} (hk : p.arena.kind? x = some (.localVar name role value refs)) : x ∉ p.arena.Static := by
  rintro (htype | ⟨kind, hkind, hstatic⟩)
  · cases ht x _ htype hk
  · rw [hk] at hkind
    cases hkind
    cases hstatic

end Env

/-! ## Documented locals -/

namespace NodeCache

variable {c c' : NodeCache} {key : SlotKey} {K : Set DeclId} {x d : DeclId} {sources done : List DeclId} {T : Set SlotKey}

/-- The members of the sources, one after the other. -/
def gathered (c : NodeCache) (sources : List DeclId) : List TypeNode :=
  sources.flatMap fun d => c.members (c.node? (.decl d))

/-- The declaration is itself and what its sources are, and neither it nor they change any more. -/
structure Exact (x : DeclId) (sources : List DeclId) (c : NodeCache) : Prop where
  self : c.Firm (.decl x)
  firm : ∀ d ∈ sources, c.Firm (.decl d)
  members : c.members (c.node? (.decl x)) = Distinct.append [.leaf x] (c.gathered sources)

theorem gathered_eq (h : ∀ d ∈ sources, c'.members (c'.node? (.decl d)) = c.members (c.node? (.decl d))) :
    c'.gathered sources = c.gathered sources :=
  List.flatMap_congr h

theorem gathered_grows (h : ∀ d ∈ sources, c.Firm (.decl d)) (hw : c.WellFormed) (hg : Grows T c c')
    (hT : ∀ k ∈ T, c.state? k ≠ some .resolved) :
    (∀ d ∈ sources, c'.Firm (.decl d)) ∧ c'.gathered sources = c.gathered sources :=
  ⟨fun d hd => ((h d hd).grows hw hg hT).1, gathered_eq fun d hd => ((h d hd).grows hw hg hT).2.2⟩

theorem Exact.grows (h : Exact x sources c) (hw : c.WellFormed) (hg : Grows T c c')
    (hT : ∀ k ∈ T, c.state? k ≠ some .resolved) : Exact x sources c' := by
  obtain ⟨hself, -, hmembers⟩ := h.self.grows hw hg hT
  obtain ⟨hsources, hgathered⟩ := gathered_grows h.firm hw hg hT
  exact ⟨hself, hsources, by rw [hmembers, hgathered, h.members]⟩

theorem Exact.start (h : Exact x sources c) (habs : c.slot? key = none) : Exact x sources (c.start key) := by
  obtain ⟨hself, hnode⟩ := h.self.start habs
  have hgathered : (c.start key).gathered sources = c.gathered sources :=
    gathered_eq fun d hd => congrArg c.members ((h.firm d hd).start habs).2
  refine ⟨hself, fun d hd => ((h.firm d hd).start habs).1, ?_⟩
  rw [hnode, hgathered]
  exact h.members

theorem gathered_finish : (c.finish key).gathered sources = c.gathered sources :=
  gathered_eq fun _ _ => congrArg c.members node?_finish

theorem Exact.finish (h : Exact x sources c) : Exact x sources (c.finish key) := by
  refine ⟨h.self.finish, fun d hd => (h.firm d hd).finish, ?_⟩
  rw [node?_finish, gathered_finish]
  exact h.members

/-- What resolution keeps: unions of the declarations of `K` are housed, and `x` is exact once it is resolved. -/
structure Settles (K : Set DeclId) (x : DeclId) (sources : List DeclId) (c : NodeCache) : Prop where
  wellFormed : c.WellFormed
  housed : c.Housed K
  exact_of_resolved : c.state? (.decl x) = some .resolved → Exact x sources c

theorem Settles.start (h : Settles K x sources c) (habs : c.slot? key = none) : Settles K x sources (c.start key) := by
  refine ⟨h.wellFormed.start habs, h.housed.start, fun hst => (h.exact_of_resolved ?_).start habs⟩
  rw [state?, slot?_start] at hst
  split at hst
  · cases hst
  · exact hst

/-- When the rule of another declaration ends, nothing is to be shown. -/
theorem Settles.finish (h : Settles K x sources c) (hkey : key ≠ .decl x) : Settles K x sources (c.finish key) := by
  refine ⟨h.wellFormed.finish, h.housed.finish, fun hst => (h.exact_of_resolved ?_).finish⟩
  rwa [state?_finish, if_neg hkey.symm] at hst

/-- A merge into a slot in progress leaves what is exact as it is. -/
theorem Settles.setNode {node : Option TypeNode} (h : Settles K x sources c) (hst : c.state? key = some .inProgress)
    (hn : ∀ n, node = some n → c.unions.Holds n) (hhoused : Housed K (c.setNode key node)) :
    Settles K x sources (c.setNode key node) := by
  have hg : Grows {key} c (c.setNode key node) := .setNode h.wellFormed hn
  refine ⟨h.wellFormed.setNode hn, hhoused, fun hres => ?_⟩
  cases hold : c.state? (.decl x) with
  | none =>
    -- the slot in progress is not the absent one, which therefore stays absent
    have hne : SlotKey.decl x ≠ key := by
      rintro rfl
      rw [hold] at hst
      cases hst
    rw [state?, slot?_setNode_of_ne hne] at hres
    cases hold.symm.trans hres
  | some st =>
    rw [hg.state _ st hold] at hres
    cases hres
    refine (h.exact_of_resolved hold).grows h.wellFormed hg fun k hk hkst => ?_
    rw [Set.mem_singleton_iff.1 hk, hst] at hkst
    cases hkst

/-- What a rule outside of `K` keeps. -/
structure Absorbing (K : Set DeclId) (x : DeclId) (sources : List DeclId) (key : SlotKey) (c : NodeCache) : Prop where
  settles : Settles K x sources c
  still : c.Still K
  state : c.state? key = some .inProgress

theorem absorbs_absorbing (hkey : ∀ d ∈ K, key ≠ .decl d) : Absorbs key (Absorbing K x sources key) where
  wellFormed _ h := h.settles.wellFormed
  setNode _ _ h hn :=
    ⟨h.settles.setNode h.state hn (h.settles.housed.setNode_of_not_mem hkey),
      h.still.grows (.setNode h.settles.wellFormed hn), state?_setNode h.state⟩

/-- While the rule of `x` runs: it has what the sources have that are done. -/
structure Filling (K : Set DeclId) (x : DeclId) (sources done : List DeclId) (c : NodeCache) : Prop
    extends Absorbing K x sources (.decl x) c where
  own : c.Own (.decl x)
  firm : ∀ d ∈ done, c.Firm (.decl d)
  members : c.members (c.node? (.decl x)) = Distinct.append [.leaf x] (c.gathered done)

/-- When the rule of `x` ends, it is exact. -/
theorem Filling.finish (h : Filling K x sources sources c) : Settles K x sources (c.finish (.decl x)) := by
  refine ⟨h.settles.wellFormed.finish, h.settles.housed.finish, fun hst => ?_⟩
  have hown : (c.finish (.decl x)).Own (.decl x) := by
    obtain ⟨n, hn, hu⟩ := h.own
    exact ⟨n, node?_finish.trans hn, hu⟩
  refine ⟨hown.firm hst, fun d hd => (h.firm d hd).finish, ?_⟩
  rw [node?_finish, gathered_finish]
  exact h.members

end NodeCache

namespace Env

variable {env : Env} {K : Set DeclId} {x d : DeclId} {sources done : List DeclId} {fuel : Nat} {s s' : Session}
  {compile : Compile} {u : Unit}

/-- Resolution keeps what it shall, whether it starts inside of `K` or, with nothing of `K` in progress, outside. -/
def Settling (K : Set DeclId) (x : DeclId) (sources : List DeclId) (compile : Compile) : Prop :=
  ∀ key s node s', s.cache.Settles K x sources → ((∀ d ∈ K, key ≠ .decl d) → s.cache.Still K) →
    (compile key).run s = .ok (node, s') → s'.cache.Settles K x sources

section
variable (hv : compile.Visiting) (hc : Settling K x sources compile)
include hv hc

/-- The rule of a declaration of `K`. -/
theorem runRule_settles_inside (hK : env.Closed K) (hd : d ∈ K) (hs : s.cache.Settles K x sources)
    (hst : s.cache.state? (.decl d) = some .inProgress)
    (h : (runRule env compile fuel (.decl d)).run s = .ok (u, s')) : s'.cache.Settles K x sources := by
  refine (Resolve.forM_ok (fun t => t.cache.Settles K x sources ∧ t.cache.state? (.decl d) = some .inProgress)
    (fun st hst t t' ht hr => ?_) ⟨hs, hst⟩ h).1
  obtain ⟨hsettles, hstate⟩ := ht
  rcases hK d hd st hst with ⟨n, rfl⟩ | ⟨e, he, rfl⟩
  · -- a node of its own is no union
    have hflat : n.isUnion = false := by
      obtain ⟨_, -, hown⟩ := explains_declRule hst
      exact hown.not_union
    have hunion : ∀ v, some n = some (.union v) → ∃ e ∈ K, t.cache.unions.owner? v = some (.decl e) := by
      rintro v ⟨⟩
      cases hflat
    rw [Resolve.mergeNode_ok hr]
    exact ⟨hsettles.setNode hstate (UnionArena.holds_some hflat) (hsettles.housed.setNode hd hunion), NodeCache.state?_setNode hstate⟩
  · obtain ⟨node, t₁, hr₁, hr⟩ := Resolve.bind_ok hr
    rw [Resolve.mergeNode_ok hr]
    have hvisit := hv _ _ _ _ hsettles.wellFormed hr₁
    have hnext := hc _ _ _ _ hsettles (fun hout => absurd rfl (hout e he)) hr₁
    have hstate₁ := hvisit.grows.cache.state _ _ hstate
    refine ⟨hnext.setNode hstate₁ hvisit.holds (hnext.housed.setNode hd fun v hv => ?_), NodeCache.state?_setNode hstate₁⟩
    exact hnext.housed e he v (hvisit.node.trans hv)

/-- The rule of anything else. -/
theorem runRule_absorbing {key : SlotKey} (hkey : ∀ d ∈ K, key ≠ .decl d) (hs : s.cache.Absorbing K x sources key)
    (h : (runRule env compile fuel key).run s = .ok (u, s')) : s'.cache.Absorbing K x sources key := by
  refine runRule_keeps (NodeCache.absorbs_absorbing hkey) hv (fun k t node t' ht hr => ?_) hs h
  have hvisit := hv _ _ _ _ ht.settles.wellFormed hr
  exact ⟨hc _ _ _ _ ht.settles (fun _ => ht.still) hr, ht.still.grows hvisit.grows.cache, hvisit.grows.cache.state _ _ ht.state⟩

/-- One more source. -/
theorem mergeDecl_filling (hd : d ∈ K) (hx : ∀ d ∈ K, SlotKey.decl x ≠ .decl d) (hs : s.cache.Filling K x sources done)
    (h : (mergeDecl compile (.decl x) d).run s = .ok (u, s')) : s'.cache.Filling K x sources (done ++ [d]) := by
  obtain ⟨node, t, hr, h⟩ := Resolve.bind_ok h
  rw [Resolve.mergeNode_ok h]
  have hw := hs.settles.wellFormed
  have hvisit := hv _ _ _ _ hw hr
  have hg := hvisit.grows.cache
  -- first the source is resolved: nothing that was there changes, and the source is firm
  have ht : t.cache.Absorbing K x sources (.decl x) :=
    ⟨hc _ _ _ _ hs.settles (fun _ => hs.still) hr, hs.still.grows hg, hg.state _ _ hs.state⟩
  have hown : t.cache.Own (.decl x) := hs.own.grows hg (by simp)
  obtain ⟨hdone, hgathered⟩ := NodeCache.gathered_grows hs.firm hw hg (by simp)
  have hmembers : t.cache.members (t.cache.node? (.decl x)) = Distinct.append [.leaf x] (t.cache.gathered done) := by
    rw [hg.members_slot hw ?_, hgathered, hs.members]
    rw [NodeCache.slot?_of_state? hs.state]
    simp
  have hslot : t.cache.slot? (.decl d) ≠ none := by
    obtain ⟨st, hslot⟩ := hvisit.slot
    rw [hslot]
    simp
  have hfirm : ∀ e ∈ done ++ [d], t.cache.Firm (.decl e) := by
    intro e he
    rcases List.mem_append.1 he with he | he
    · exact hdone e he
    · rw [List.mem_singleton.1 he]
      exact ht.settles.housed.firm ht.settles.wellFormed ht.still hd hslot
  -- then its members are appended, and nothing that is firm changes
  have hset : NodeCache.Grows {.decl x} t.cache (t.cache.setNode (.decl x) node) := .setNode ht.settles.wellFormed hvisit.holds
  have hnot : ∀ k ∈ ({.decl x} : Set SlotKey), t.cache.state? k ≠ some .resolved := by
    intro k hk
    rw [Set.mem_singleton_iff.1 hk, ht.state]
    simp
  obtain ⟨hfirm', hgathered'⟩ := NodeCache.gathered_grows hfirm ht.settles.wellFormed hset hnot
  refine ⟨(NodeCache.absorbs_absorbing hx).setNode _ _ ht hvisit.holds, hown.setNode, hfirm', ?_⟩
  calc (t.cache.setNode (.decl x) node).members ((t.cache.setNode (.decl x) node).node? (.decl x))
      = Distinct.append (t.cache.members (t.cache.node? (.decl x))) (t.cache.members node) :=
        NodeCache.members_setNode ht.settles.wellFormed.distinct
    _ = Distinct.append [.leaf x] (t.cache.gathered done ++ t.cache.members node) := by
        rw [hmembers, Distinct.append_append]
    _ = Distinct.append [.leaf x] (t.cache.gathered (done ++ [d])) := by
        rw [NodeCache.gathered, NodeCache.gathered, List.flatMap_append, List.flatMap_singleton, hvisit.node]
    _ = _ := by rw [← hgathered']; rfl

/-- All sources, one after the other. -/
theorem forM_mergeDecl_filling {rest : List DeclId} (hrest : ∀ d ∈ rest, d ∈ K) (hx : ∀ d ∈ K, SlotKey.decl x ≠ .decl d)
    (hs : s.cache.Filling K x sources done)
    (h : ((rest.map Step.merge).forM (runStep env compile fuel (.decl x))).run s = .ok (u, s')) :
    s'.cache.Filling K x sources (done ++ rest) := by
  induction rest generalizing done s with
  | nil =>
    cases h
    rwa [List.append_nil]
  | cons d rest ih =>
    obtain ⟨_, t, hd, h⟩ := Resolve.bind_ok h
    have ht := mergeDecl_filling hv hc (hrest d (by simp)) hx hs hd
    have := ih (fun e he => hrest e (by simp [he])) ht h
    rwa [List.append_assoc] at this

/-- The rule of `x`, from its start on. -/
theorem runRule_filling (hrule : env.declRule x = .own (.leaf x) :: sources.map .merge) (hsources : ∀ d ∈ sources, d ∈ K)
    (hx : ∀ d ∈ K, SlotKey.decl x ≠ .decl d) (hs : s.cache.Absorbing K x sources (.decl x))
    (hnone : s.cache.node? (.decl x) = none)
    (h : (runRule env compile fuel (.decl x)).run s = .ok (u, s')) : s'.cache.Filling K x sources sources := by
  rw [runRule, hrule] at h
  obtain ⟨_, t, hown, h⟩ := Resolve.bind_ok h
  have hfirst : t.cache.Filling K x sources [] := by
    rw [Resolve.mergeNode_ok hown]
    refine ⟨(NodeCache.absorbs_absorbing hx).flat hs rfl, NodeCache.own_setNode hnone rfl, by simp, ?_⟩
    change (s.cache.setNode (.decl x) (some (.leaf x))).members ((s.cache.setNode (.decl x) (some (.leaf x))).node? (.decl x)) = _
    rw [NodeCache.node?_setNode_of_none hnone]
    rfl
  exact forM_mergeDecl_filling hv hc hsources hx hfirst h

end

/-- Resolution settles, whatever slot it starts from. -/
theorem compileSlot_settles (hK : env.Closed K) (hrule : env.declRule x = .own (.leaf x) :: sources.map .merge)
    (hsources : ∀ d ∈ sources, d ∈ K) (hx : x ∉ K) (fuel : Nat) : Settling K x sources (env.compileSlot fuel) := by
  have hx : ∀ d ∈ K, SlotKey.decl x ≠ .decl d := by
    rintro d hd ⟨⟩
    exact hx hd
  induction fuel with
  | zero => intro key s node s' _ _ h; cases h
  | succ fuel ih =>
    intro key s node s' hs hstill h
    rcases compileSlot_ok h with ⟨slot, -, -, rfl⟩ | ⟨t, query, habs, hr, -, rfl⟩
    · rw [(Session.cache_hit s key (env.slotKind key) slot.state).1]
      exact hs
    · have hv := env.compileSlot_visits fuel
      have hstart : (s.start key (env.slotKind key)).cache.Settles K x sources := hs.start habs
      have hstate : (s.start key (env.slotKind key)).cache.state? key = some .inProgress := by
        rw [NodeCache.state?, Session.slot?_start, if_pos rfl, Option.map_some]
      by_cases hin : ∃ d ∈ K, key = .decl d
      · obtain ⟨d, hd, rfl⟩ := hin
        exact (runRule_settles_inside hv ih hK hd hstart hstate hr).finish (hx d hd).symm
      · have hkey : ∀ d ∈ K, key ≠ .decl d := fun d hd heq => hin ⟨d, hd, heq⟩
        have hstill' : (s.start key (env.slotKind key)).cache.Still K := by
          intro d hd hst
          rw [NodeCache.state?, Session.slot?_start, if_neg (hkey d hd).symm] at hst
          exact hstill hkey d hd hst
        by_cases hkx : key = .decl x
        · subst hkx
          have hnone : (s.start (.decl x) (env.slotKind (.decl x))).cache.node? (.decl x) = none := by
            rw [NodeCache.node?, Session.slot?_start, if_pos rfl]
            rfl
          exact (runRule_filling hv ih hrule hsources hx ⟨hstart, hstill', hstate⟩ hnone hr).finish
        · exact (runRule_absorbing hv ih hkey ⟨hstart, hstill', hstate⟩ hr).settles.finish hkx

end Env

/-! ## Queries -/

/-- `---@type C | "on"` above `local x = {}`, then `local y = x; x = y`. -/
def Program.sampleDocumented : Program :=
  (empty.build [.docClass "C" [], .table [], .localVar "x" (some ⟨1⟩), .tyName "C", .tyString "on", .tyUnion [⟨3⟩, ⟨4⟩],
    .docType ⟨2⟩ ⟨5⟩, .getLocal ⟨2⟩, .localVar "y" (some ⟨7⟩), .getLocal ⟨8⟩, .setLocal ⟨2⟩ ⟨9⟩]).2

namespace Session

variable {p : Program} {options : Options} {env : Env} {K : Set DeclId} {x : DeclId} {sources : List DeclId}
  {qs : List Query} {answers : List Answer} {s : Session}

theorem settles_empty : NodeCache.empty.Settles K x sources ∧ NodeCache.empty.Still Set.univ := by
  have hslot : ∀ k, NodeCache.empty.slot? k = none := fun k => slot?_fresh
  refine ⟨⟨NodeCache.wellFormed_empty, fun d _ u hu => ?_, fun hst => ?_⟩, fun d _ hst => ?_⟩
  · rw [NodeCache.node?, hslot] at hu
    cases hu
  · rw [NodeCache.state?, hslot] at hst
    cases hst
  · rw [NodeCache.state?, hslot] at hst
    cases hst

/-- Between queries no declaration is in progress, and `x` is exact if it is resolved. -/
theorem askAll_settles (hK : env.Closed K) (hrule : env.declRule x = .own (.leaf x) :: sources.map .merge)
    (hsources : ∀ d ∈ sources, d ∈ K) (hx : x ∉ K) (hqs : ∀ q ∈ qs, q.merges = false)
    (h : fresh.askAll env qs = .ok (answers, s)) : s.cache.Settles K x sources ∧ s.cache.Still Set.univ := by
  refine askAll_keeps (fun c => c.Settles K x sources ∧ c.Still Set.univ) settles_empty
    (fun fuel key t node t' ht hr => ?_) hqs h
  have hvisit := env.compileSlot_visits fuel key t node t' ht.1.wellFormed hr
  exact ⟨Env.compileSlot_settles hK hrule hsources hx fuel key t node t' ht.1 (fun _ d _ => ht.2 d trivial) hr,
    ht.2.grows hvisit.grows.cache⟩

/-- A local to which an annotation applies is itself, then what its annotations are, in the order of binding, then its
initial value, if that is a literal and literals narrow; nothing stands twice. So it is whatever was asked before, and
in whatever cycle it was met. -/
theorem compileDecl_annotated {name : Atom} {role : Role} {value : Option DeclId} {refs : List DeclId} (hp : p.Built)
    (ht : p.arena.AnnotatesTypes) (hk : p.arena.kind? x = some (.localVar name role value refs))
    (hdoc : (Env.of p options).annotations x ≠ []) (hqs : ∀ q ∈ qs, q.merges = false)
    (h : fresh.askAll (.of p options) qs = .ok (answers, s)) :
    let sources := (Env.of p options).annotations x ++
      value.toList.filter fun v => options.literalNarrowing && p.arena.isLiteral v
    ∃ node s', s.compileDecl (.of p options) x = .ok (node, s') ∧
      s'.cache.members node =
        Distinct.append [] (.leaf x :: sources.flatMap fun d => s'.cache.members (s'.cache.node? (.decl d))) ∧
      ∀ d ∈ sources, ∃ s'', s'.compileDecl (.of p options) d = .ok (s'.cache.node? (.decl d), s'') ∧
        s''.cache = s'.cache := by
  intro sources
  have hK : (Env.of p options).Closed p.arena.Static := Env.closed_static hp ht
  have hrule : (Env.of p options).declRule x = .own (.leaf x) :: sources.map .merge :=
    Env.declRule_documented (hp.bound.global?_eq_none hk rfl) hk hdoc
  have hsources : ∀ d ∈ sources, d ∈ p.arena.Static := fun d hd => Env.mem_static_of_documented hd
  have hx : x ∉ p.arena.Static := Env.not_mem_static_of_local ht hk
  obtain ⟨hs, hstill⟩ := askAll_settles hK hrule hsources hx hqs h
  -- the local and what it depends on are closed under rules too, so the query returns
  have hK' : (Env.of p options).Closed (insert x p.arena.Static) := by
    rintro d (rfl | hd) st hst
    · rw [hrule] at hst
      rcases List.mem_cons.1 hst with rfl | hst
      · exact .inl ⟨_, rfl⟩
      · obtain ⟨e, he, rfl⟩ := List.mem_map.1 hst
        exact .inr ⟨e, .inr (hsources e he), rfl⟩
    · exact (hK d hd st hst).imp_right fun ⟨e, he, heq⟩ => ⟨e, .inr he, heq⟩
  obtain ⟨node, s', hr⟩ := compileDecl_closed_returns hK' (Set.mem_insert x _) hs.wellFormed
  have hvisit := compile_visits hs.wellFormed hr
  have hs' := Env.compileSlot_settles hK hrule hsources hx _ _ _ _ _ hs (fun _ d _ => hstill d trivial) hr
  have hslot : s'.cache.slot? (.decl x) ≠ none := by
    obtain ⟨st, hslot⟩ := hvisit.slot
    simp [hslot]
  have hexact := hs'.exact_of_resolved ((hstill.grows hvisit.grows.cache).resolved trivial hslot)
  refine ⟨node, s', hr, ?_, fun d hd => ?_⟩
  · rw [← hvisit.node]
    exact hexact.members
  · have hslot := NodeCache.slot?_of_state? (hexact.firm d hd).state
    exact ⟨_, compile_of_slot hslot, (cache_hit ..).1⟩

/-- The local `x` is resolved inside the rule of `y`, which it is assigned from, and is asked for afterwards: it is itself,
the class, the documented text and the table. -/
theorem compileDecl_annotated_cycle : ∃ answers s node s',
    fresh.askAll (.of .sampleDocumented {}) [.decl ⟨8⟩] = .ok (answers, s) ∧
    s.compileDecl (.of .sampleDocumented {}) ⟨2⟩ = .ok (node, s') ∧
    s'.cache.members node = [.leaf ⟨2⟩, .global ⟨0⟩, .leaf ⟨4⟩, .leaf ⟨1⟩] ∧
    s'.cache.members node =
      Distinct.append [] (.leaf ⟨2⟩ :: [⟨6⟩, ⟨1⟩].flatMap fun d => s'.cache.members (s'.cache.node? (.decl d))) := by
  have hbuilt : Program.sampleDocumented.Built := ⟨_, .inl rfl⟩
  have htypes : Program.sampleDocumented.arena.AnnotatesTypes := Arena.annotatesTypes_of_children (by decide +kernel)
  obtain ⟨⟨answers, s⟩, hask, hmembers⟩ := Except.exists_ok (x := fresh.askAll (.of .sampleDocumented {}) [.decl ⟨8⟩])
    (f := fun r => (r.2.compileDecl (.of .sampleDocumented {}) ⟨2⟩).toOption.map fun q => q.2.cache.members q.1)
    (b := some [.leaf ⟨2⟩, .global ⟨0⟩, .leaf ⟨4⟩, .leaf ⟨1⟩]) (by decide +kernel)
  have hkind : Program.sampleDocumented.arena.kind? ⟨2⟩ = some (.localVar ⟨2⟩ .plain (some ⟨1⟩) [⟨7⟩, ⟨10⟩]) := by
    decide +kernel
  have hsources : ((Env.of .sampleDocumented {}).annotations ⟨2⟩ ++ (some (⟨1⟩ : DeclId)).toList.filter fun v =>
      ({} : Options).literalNarrowing && Program.sampleDocumented.arena.isLiteral v) = [⟨6⟩, ⟨1⟩] := by decide +kernel
  obtain ⟨node, s', hr, hexact, -⟩ := compileDecl_annotated hbuilt htypes hkind (by decide +kernel) (by decide) hask
  rw [hr] at hmembers
  rw [hsources] at hexact
  exact ⟨answers, s, node, s', hask, hr, Option.some.inj hmembers, hexact⟩

end Session

end LuaInfer
