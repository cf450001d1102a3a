import LuaInfer.Proofs.Built
import LuaInfer.Proofs.Sound
/-!
# Templates stay where they are made

A result type that mentions a type parameter is kept as a template, and every call takes a copy that is bound
to the call. Callers may share the union of a result without copying it, and whether there is a template in it
is asked once, before the members are merged. Two things make this right. While a documented result is being
resolved nothing but type expressions are, so no call meets it half done (`Session.Quiet`). And what a slot may
hold (`Env.Admits`) can be said once for a whole run, by the substitutions and the callees of its last session
`F`: tables only grow, and the first thing that can be called among the members of a callee stays the first.
-/

namespace LuaInfer

/-- The parts of documented types. -/
def DeclKind.isTypeExpr : DeclKind → Bool
  | tyUnion .. | tyName .. | tyGeneric .. | tyLiteral .. | tyTable .. | tyField .. | tyFunction .. | tyArray .. => true
  | _ => false

theorem DeclKind.isLinkable_of_isTypeExpr {kind : DeclKind} (h : kind.isTypeExpr = true) : kind.isLinkable = false := by
  cases kind <;> first | rfl | cases h

namespace Arena

/-- `e` is `ty` or stands somewhere below it. -/
def Within (a : Arena) (ty e : DeclId) : Prop := Relation.ReflTransGen (fun x y => y ∈ a.children x) ty e

/-- `e` is part of a documented result type. -/
def InReturnType (a : Arena) (e : DeclId) : Prop :=
  ∃ doc index ty, a.kind? doc = some (.docReturn index ty) ∧ a.Within ty e

theorem InReturnType.within {a : Arena} {e x : DeclId} (he : a.InReturnType e) (hx : a.Within e x) : a.InReturnType x := by
  obtain ⟨doc, index, ty, hdoc, hin⟩ := he
  exact ⟨doc, index, ty, hdoc, hin.trans hx⟩

/-- Documented result types are type expressions, all the way down. -/
def ReturnsTypes (a : Arena) : Prop :=
  ∀ e kind, a.InReturnType e → a.kind? e = some kind → kind.isTypeExpr = true

/-- Below a type expression there are only type expressions, if there are only such directly below each. -/
theorem isTypeExpr_of_within {a : Arena} {ty e : DeclId}
    (h : ∀ decl ∈ a.decls, decl.kind.isTypeExpr = true → ∀ child ∈ decl.kind.children,
      (a.kind? child).all DeclKind.isTypeExpr = true)
    (hty : (a.kind? ty).all DeclKind.isTypeExpr = true) (he : a.Within ty e) :
    (a.kind? e).all DeclKind.isTypeExpr = true := by
  induction he with
  | refl => exact hty
  | @tail x y _ hy ih =>
    unfold children at hy
    split at hy
    · next kx hkx =>
      obtain ⟨decl, hd, rfl⟩ := exists_decl_of_kind? hkx
      rw [hkx] at ih
      exact h decl hd ih y hy
    · cases hy

/-- It is enough that type expressions and result types have only type expressions directly below them. -/
theorem returnsTypes_of_children {a : Arena}
    (h : ∀ decl ∈ a.decls, (decl.kind.isTypeExpr || match decl.kind with | .docReturn .. => true | _ => false) = true →
      ∀ child ∈ decl.kind.children, (a.kind? child).all DeclKind.isTypeExpr = true) : a.ReturnsTypes := by
  rintro e kind ⟨doc, index, ty, hdoc, hin⟩ hk
  obtain ⟨decl, hd, hkind⟩ := exists_decl_of_kind? hdoc
  have hty : (a.kind? ty).all DeclKind.isTypeExpr = true :=
    h decl hd (by rw [hkind]; rfl) ty (by rw [hkind]; exact List.mem_singleton.2 rfl)
  have hall := isTypeExpr_of_within (fun decl hd ht => h decl hd (by rw [ht, Bool.true_or])) hty hin
  rwa [hk] at hall

end Arena

theorem Signature.func_of? {a : Arena} {f : DeclId} {sig : Signature} (h : Signature.of? a f = some sig) : sig.func = f := by
  have hfold : ∀ (names : List Atom) (s : Signature), (names.foldl register s).func = s.func := by
    intro names
    induction names with
    | nil => intro s; rfl
    | cons name names ih => intro s; exact ih (s.register name)
  unfold of? at h
  dsimp only at h
  split at h
  · cases h
  · cases h
    exact hfold _ _

theorem Substitutions.get?_push_self (t : Substitutions) (sub : Substitution) :
    (t.push sub).2.get? (t.push sub).1 = some sub := by
  simp [get?, push]

namespace Env

variable {env : Env} {F s s' t : Session} {d e f c : DeclId} {index : Nat} {st : Step} {key target : SlotKey}

/-- An annotation says what the result of a function at an index is. -/
def Documented (env : Env) (f : DeclId) (index : Nat) : Prop := env.returnTypes f index ≠ []

/-- The documented result is a template, or has one as an alternative. -/
def Templated (env : Env) (f : DeclId) (index : Nat) : Prop := ∃ sub, .template sub ∈ env.returnRule f index

/-- What is assumed of a program: result types are type expressions, and only what may stand for a global does. -/
structure Typed (env : Env) : Prop where
  types : env.arena.ReturnsTypes
  link : ∀ d kind, env.arena.kind? d = some kind → kind.isLinkable = false → env.arena.global? d = none

/-! ## Rules -/

theorem exists_kind?_of_mem_declRule (h : st ∈ env.declRule d) : ∃ kind, env.arena.kind? d = some kind := by
  rcases hk : env.arena.kind? d with _ | kind
  · have hindex := index_lt_of_mem_declRule h
    have hdecl : env.arena.decl? d = none := Option.map_eq_none_iff.1 hk
    exact absurd hindex (Nat.not_lt.2 (Array.getElem?_eq_none_iff.1 hdecl))
  · exact ⟨kind, rfl⟩

theorem declRule_eq_kindSteps {kind : DeclKind} (hg : env.arena.global? d = none)
    (hk : env.arena.kind? d = some kind) : env.declRule d = env.kindSteps d kind := by
  rw [declRule, globalSteps, hg, hk, List.nil_append]

/-- A type expression has nodes of its own and those of its parts. -/
theorem mem_kindSteps_of_isTypeExpr {kind : DeclKind} (hk : kind.isTypeExpr = true) (hst : st ∈ env.kindSteps e kind) :
    (∃ n, st = .own n ∧ n.IsPlain) ∨ ∃ x ∈ kind.children, st = .merge x := by
  cases kind with
  | tyUnion alternatives =>
    obtain ⟨x, hx, rfl⟩ := List.mem_map.1 hst
    exact .inr ⟨x, hx, rfl⟩
  | tyField name ty =>
    cases List.mem_singleton.1 hst
    exact .inr ⟨ty, List.mem_singleton.2 rfl, rfl⟩
  | tyName name =>
    simp only [kindSteps, Option.mem_toList, Option.map_eq_some_iff] at hst
    obtain ⟨g, -, rfl⟩ := hst
    exact .inl ⟨_, rfl, trivial⟩
  | tyGeneric _ | tyLiteral _ | tyTable _ | tyFunction _ _ | tyArray _ =>
    cases List.mem_singleton.1 hst
    exact .inl ⟨_, rfl, trivial⟩
  | _ => cases hk

/-- A part of a documented result type has nodes of its own and takes those of the parts directly below it. -/
theorem mem_declRule_children_of_inReturnType (h : env.Typed) (he : env.arena.InReturnType e) (hst : st ∈ env.declRule e) :
    (∃ n, st = .own n ∧ n.IsPlain) ∨ ∃ x ∈ env.arena.children e, st = .merge x := by
  obtain ⟨kind, hk⟩ := exists_kind?_of_mem_declRule hst
  have htype := h.types e kind he hk
  rw [declRule_eq_kindSteps (h.link e kind hk (DeclKind.isLinkable_of_isTypeExpr htype)) hk] at hst
  rw [Arena.children, hk]
  exact mem_kindSteps_of_isTypeExpr htype hst

theorem mem_declRule_of_inReturnType (h : env.Typed) (he : env.arena.InReturnType e) (hst : st ∈ env.declRule e) :
    (∃ n, st = .own n ∧ n.IsPlain) ∨ ∃ x, st = .merge x ∧ env.arena.InReturnType x :=
  (mem_declRule_children_of_inReturnType h he hst).imp_right fun ⟨x, hx, heq⟩ => ⟨x, heq, he.within (.single hx)⟩

theorem declRule_of_call (h : env.Typed) {callee : DeclId} {args : List DeclId}
    (hk : env.arena.kind? c = some (.call callee args)) (hd : env.isDelegator callee = false) :
    env.declRule c = [.result callee 1 c] := by
  rw [declRule_eq_kindSteps (h.link c _ hk rfl) hk]
  simp [kindSteps, callSteps, hd]

theorem template_not_mem_listSteps {exprs : List DeclId} {sub : Substitution} :
    .template sub ∉ env.listSteps exprs index := by
  have hcall : ∀ c callee args i, Step.template sub ∉ env.callSteps c callee args i := by
    intro c callee args i
    unfold callSteps delegationSteps
    split
    · split
      · split <;> simp
      · simp
    · simp
  unfold listSteps
  split
  · simp
  · split
    · split
      · exact hcall _ _ _ _
      · simp
    · split
      · simp
      · split
        · exact hcall _ _ _ _
        · simp

theorem template_mem_returnRule {sub : Substitution} (h : .template sub ∈ env.returnRule f index) :
    env.Documented f index ∧ sub.func = f ∧ sub.call = none := by
  unfold returnRule at h
  split at h
  · unfold returnedSteps at h
    split at h
    · obtain ⟨r, -, h⟩ := List.mem_flatMap.1 h
      split at h
      · exact absurd h template_not_mem_listSteps
      · cases h
    · cases h
  · next hne =>
    obtain ⟨ty, -, hty⟩ := List.mem_map.1 h
    unfold returnTypeStep at hty
    split at hty
    · next sig hs =>
      split at hty
      · cases hty
        exact ⟨hne, Signature.func_of? hs, rfl⟩
      · cases hty
    · cases hty

/-- The rule of a documented result makes templates and takes type expressions. -/
theorem mem_returnRule_of_documented (h : env.Documented f index) (hst : st ∈ env.returnRule f index) :
    (∃ sub, st = .template sub) ∨ ∃ ty, st = .merge ty ∧ env.arena.InReturnType ty := by
  unfold returnRule at hst
  split at hst
  · next hnil => exact absurd hnil h
  · obtain ⟨ty, hty, rfl⟩ := List.mem_map.1 hst
    obtain ⟨doc, -, hk⟩ := mem_returnTypes.1 hty
    have hin : env.arena.InReturnType ty := ⟨doc, index, ty, hk, .refl⟩
    unfold returnTypeStep
    split
    · split
      · exact .inl ⟨_, rfl⟩
      · exact .inr ⟨ty, rfl, hin⟩
    · exact .inr ⟨ty, rfl, hin⟩

/-! ## What slots may hold -/

/-- What can be called among the members of a declaration. -/
def firstCallable? (env : Env) (s : Session) (d : DeclId) : Option (DeclId × Option (List DeclId)) :=
  (s.cache.members (s.cache.node? (.decl d))).findSome? env.callable?

/-- A substitution may be a member of a slot, judged by the session `F`. A template belongs to documented results
alone. A call of a function whose result is documented has what is bound to the call. -/
def Fits (env : Env) (F : Session) : SlotKey → Substitution → Prop
  | .decl d, sub => ¬ env.arena.InReturnType d ∧ sub.call ≠ none ∧
      ∀ callee args f, env.arena.kind? d = some (.call callee args) → env.isDelegator callee = false →
        env.firstCallable? F callee = some (f, none) → env.Documented f 1 → sub.func = f ∧ sub.call = some d
  | .ret f index, sub => (env.Documented f index → env.Templated f index ∧ sub.func = f ∧ sub.call = none) ∧
      (¬ env.Documented f index → sub.call ≠ none)
  | .generic _, sub => sub.call ≠ none

/-- A slot may hold a node, judged by the session `F`. -/
def Admits (env : Env) (F : Session) (key : SlotKey) : TypeNode → Prop
  | .generic i => ∃ sub, F.substitutions.get? i = some sub ∧ env.Fits F key sub
  | _ => True

theorem Admits.of_plain {n : TypeNode} (h : n.IsPlain) : env.Admits F key n := by
  cases n with
  | leaf d => trivial
  | global g => trivial
  | generic i => cases h
  | union u => cases h

theorem Admits.mono {k : SlotKey} (h : ∀ sub, env.Fits F k sub → env.Fits F key sub) {n : TypeNode}
    (hn : env.Admits F k n) : env.Admits F key n := by
  cases n with
  | generic i =>
    obtain ⟨sub, hi, hfits⟩ := hn
    exact ⟨sub, hi, h sub hfits⟩
  | _ => trivial

/-- Whatever is bound to a call may be in the slot. -/
def TakesBound (env : Env) (F : Session) (key : SlotKey) : Prop := ∀ sub : Substitution, sub.call ≠ none → env.Fits F key sub

theorem Fits.not_inReturnType {sub : Substitution} (h : env.Fits F (.decl d) sub) : ¬ env.arena.InReturnType d := h.1

theorem Fits.bound_of_decl {sub : Substitution} (h : env.Fits F (.decl d) sub) : sub.call ≠ none := h.2.1

/-- Slots other than documented results and their parts. -/
def IsFree (env : Env) : SlotKey → Prop
  | .decl d => ¬ env.arena.InReturnType d
  | .ret f index => ¬ env.Documented f index
  | .generic _ => True

/-- A free slot takes what is bound, except that a call may take only what is bound to it: its rule has
a single step, which takes the result of the callee. -/
theorem takesBound_of_mem_rule (h : env.Typed) (hfree : env.IsFree key) (hst : st ∈ env.rule key)
    (hne : ∀ callee i c, st ≠ .result callee i c) : env.TakesBound F key := by
  intro sub hsub
  cases key with
  | decl d =>
    refine ⟨hfree, hsub, fun callee args f hk hd => ?_⟩
    have hrule : env.rule (.decl d) = [.result callee 1 d] := declRule_of_call h hk hd
    rw [hrule] at hst
    exact absurd (List.mem_singleton.1 hst) (hne _ _ _)
  | ret f index => exact ⟨fun hdoc => absurd hdoc hfree, fun _ => hsub⟩
  | generic i => exact hsub

/-- Documented results and their parts have nodes of their own, templates, and each other. -/
theorem mem_rule_of_not_free (h : env.Typed) (hfree : ¬ env.IsFree key) (hst : st ∈ env.rule key) :
    (∃ n, st = .own n) ∨ (∃ sub, st = .template sub) ∨ ∃ d, st = .merge d ∧ env.arena.InReturnType d := by
  cases key with
  | decl e =>
    rcases mem_declRule_of_inReturnType h (not_not.1 hfree) hst with ⟨n, rfl, -⟩ | ⟨x, rfl, hx⟩
    · exact .inl ⟨n, rfl⟩
    · exact .inr (.inr ⟨x, rfl, hx⟩)
  | ret f index => exact .inr (mem_returnRule_of_documented (not_not.1 hfree) hst)
  | generic i => exact absurd trivial hfree

/-- The step that takes a result: what is bound to the call is right, and so is all that is bound if the result
is not documented. -/
theorem fits_of_result (h : env.Typed) {callee : DeclId} (hst : .result callee index c ∈ env.rule key)
    {sub : Substitution} {r : Option (List DeclId)} (hfirst : env.firstCallable? F callee = some (f, r))
    (hsub : sub.call ≠ none) (hdoc : r = none → env.Documented f index → sub.func = f ∧ sub.call = some c) :
    env.Fits F key sub := by
  cases key with
  | decl d =>
    refine ⟨fun hin => ?_, hsub, fun callee' args f' hk hd hfirst' hdoc' => ?_⟩
    · rcases mem_declRule_of_inReturnType h hin hst with ⟨_, heq, -⟩ | ⟨_, heq, -⟩ <;> cases heq
    · have hrule : env.rule (.decl d) = [.result callee' 1 d] := declRule_of_call h hk hd
      rw [hrule] at hst
      cases List.mem_singleton.1 hst
      rw [hfirst] at hfirst'
      cases hfirst'
      exact hdoc rfl hdoc'
  | ret g i =>
    refine ⟨fun hdoc' => ?_, fun _ => hsub⟩
    rcases mem_returnRule_of_documented hdoc' hst with ⟨_, heq⟩ | ⟨_, heq, -⟩ <;> cases heq
  | generic i => cases hst

end Env

/-! ## Sessions on the way to the last one -/

namespace Session

variable {env : Env} {F s s' t : Session} {T : Set SlotKey} {key target : SlotKey} {node : Option TypeNode} {n : TypeNode}

/-- All that `s` holds is still there in `F`, in the same order. -/
structure Before (s F : Session) : Prop where
  substitution : ∀ i sub, s.substitutions.get? i = some sub → F.substitutions.get? i = some sub
  members : ∀ k, s.cache.members (s.cache.node? k) <+: F.cache.members (F.cache.node? k)

theorem Before.refl (F : Session) : F.Before F := ⟨fun _ _ h => h, fun _ => List.prefix_rfl⟩

theorem Before.of_grows (hg : s.Grows T s') (h : s'.Before F) : s.Before F :=
  ⟨fun i sub hi => h.substitution i sub (hg.substitution i sub hi), fun k => (hg.cache.members k).trans (h.members k)⟩

/-- What is first among the members stays first. -/
theorem Before.firstCallable? (h : s.Before F) {d : DeclId} {r : DeclId × Option (List DeclId)}
    (hd : env.firstCallable? s d = some r) : env.firstCallable? F d = some r := by
  obtain ⟨rest, hrest⟩ := h.members (.decl d)
  rw [Env.firstCallable?, ← hrest, List.findSome?_append]
  rw [Env.firstCallable?] at hd
  rw [hd]
  rfl

/-- The substitution of a node is in the table. -/
def Knows (s : Session) : TypeNode → Prop
  | .generic i => ∃ sub, s.substitutions.get? i = some sub
  | _ => True

theorem Knows.of_plain (h : n.IsPlain) : s.Knows n := by
  cases n with
  | generic i => cases h
  | _ => trivial

theorem Knows.grows (h : s.Knows n) (hg : s.Grows T s') : s'.Knows n := by
  cases n with
  | generic i => exact h.imp fun sub hi => hg.substitution i sub hi
  | _ => trivial

/-- A slot has a template among its members. -/
def HasTemplate (s : Session) (key : SlotKey) : Prop :=
  ∃ i sub, .generic i ∈ s.cache.members (s.cache.node? key) ∧ s.substitutions.get? i = some sub ∧ sub.call = none

theorem HasTemplate.grows (h : s.HasTemplate key) (hg : s.Grows T s') : s'.HasTemplate key := by
  obtain ⟨i, sub, hmem, hi, hcall⟩ := h
  exact ⟨i, sub, (hg.cache.members key).subset hmem, hg.substitution i sub hi, hcall⟩

theorem HasTemplate.any_isTemplate (h : s.HasTemplate key) :
    (s.cache.members (s.cache.node? key)).any (Env.isTemplate s) = true := by
  obtain ⟨i, sub, hmem, hi, hcall⟩ := h
  refine List.any_eq_true.2 ⟨.generic i, hmem, ?_⟩
  simp [Env.isTemplate, Substitutions.isTemplate, hi, hcall]

/-- Slots hold what they may by the last session, and a result that is resolved has its template. -/
structure Tidy (env : Env) (s F : Session) : Prop where
  wellFormed : s.cache.WellFormed
  admits : s.cache.Sound (env.Admits F)
  knows : s.cache.Sound fun _ => s.Knows
  template : ∀ f index, env.Templated f index → s.cache.state? (.ret f index) = some .resolved →
    s.HasTemplate (.ret f index)

/-- A well-formed session that is tidy if it comes before `F`. -/
structure Leads (env : Env) (s F : Session) : Prop where
  wellFormed : s.cache.WellFormed
  tidy : s.Before F → s.Tidy env F

/-- No documented result is under way. -/
def Quiet (env : Env) (s : Session) : Prop :=
  ∀ f index, env.Documented f index → s.cache.state? (.ret f index) ≠ some .inProgress

theorem Quiet.grows (h : s.Quiet env) (hg : s.Grows T s') : s'.Quiet env :=
  fun f index hdoc hst => h f index hdoc (hg.cache.inProgress hst)

theorem leads_fresh : fresh.Leads env F := by
  refine ⟨NodeCache.wellFormed_empty, fun _ => ⟨NodeCache.wellFormed_empty, .empty, .empty, fun f index _ h => ?_⟩⟩
  rw [NodeCache.state?, slot?_fresh] at h
  cases h

/-- Only the cache and the substitutions count. -/
theorem Leads.congr (h : s.Leads env F) (hcache : s'.cache = s.cache) (hsubs : s'.substitutions = s.substitutions) :
    s'.Leads env F := by
  have hknows : s'.Knows = s.Knows := by
    funext n
    cases n <;> simp only [Knows, hsubs]
  refine ⟨hcache ▸ h.wellFormed, fun hb => ?_⟩
  have hs := h.tidy ⟨hsubs ▸ hb.substitution, hcache ▸ hb.members⟩
  exact ⟨hcache ▸ hs.wellFormed, hcache ▸ hs.admits, by rw [hknows, hcache]; exact hs.knows,
    by unfold HasTemplate; rw [hcache, hsubs]; exact hs.template⟩

theorem Leads.hit (h : s.Leads env F) (kind : String) (state : SlotState) : (s.hit key kind state).Leads env F := by
  cases state <;> exact h.congr rfl rfl

theorem Leads.start (h : s.Leads env F) (habs : s.cache.slot? key = none) (kind : String) :
    (s.start key kind).Leads env F := by
  have hnode : s.cache.node? key = none := by rw [NodeCache.node?, habs]; rfl
  refine ⟨h.wellFormed.start habs, fun hb => ?_⟩
  have hs := h.tidy ⟨hb.substitution, fun k => ?_⟩
  · refine ⟨hs.wellFormed.start habs, hs.admits.start, hs.knows.start, fun f index ht hst => ?_⟩
    rw [NodeCache.state?, slot?_start] at hst
    have hne : SlotKey.ret f index ≠ key := by
      intro he
      rw [if_pos he] at hst
      cases hst
    rw [if_neg hne] at hst
    obtain ⟨i, sub, hmem, hi, hsub⟩ := hs.template f index ht hst
    refine ⟨i, sub, ?_, hi, hsub⟩
    change _ ∈ (s.cache.start key).members ((s.cache.start key).node? (.ret f index))
    rw [NodeCache.node?_start, if_neg hne]
    exact hmem
  · have hk := hb.members k
    change (s.cache.start key).members ((s.cache.start key).node? k) <+: _ at hk
    rw [NodeCache.node?_start] at hk
    split at hk
    · next he => rw [he, hnode]; exact List.nil_prefix
    · exact hk

/-- A rule that ends has made the template of its result. -/
theorem Leads.finish (h : s.Leads env F) (query : Nat)
    (htemplate : ∀ f index, key = .ret f index → env.Templated f index → s.HasTemplate key) :
    (s.finish query key).Leads env F := by
  have hmembers : ∀ k, (s.finish query key).cache.members ((s.finish query key).cache.node? k) =
      s.cache.members (s.cache.node? k) := by
    intro k
    change (s.cache.finish key).members ((s.cache.finish key).node? k) = _
    rw [NodeCache.node?_finish]
    rfl
  refine ⟨h.wellFormed.finish, fun hb => ?_⟩
  have hs := h.tidy ⟨hb.substitution, fun k => hmembers k ▸ hb.members k⟩
  refine ⟨hs.wellFormed.finish, hs.admits.finish, hs.knows.finish, fun f index ht hst => ?_⟩
  rw [HasTemplate, hmembers]
  by_cases hkey : SlotKey.ret f index = key
  · rw [hkey]
    exact htemplate f index hkey.symm ht
  · rw [NodeCache.state?, slot?_finish, if_neg hkey] at hst
    exact hs.template f index ht hst

/-- A slot that exists takes a node that it may hold. -/
theorem Leads.setNode (h : s.Leads env F) (hslot : s.cache.slot? target ≠ none)
    (hholds : ∀ n, node = some n → s.cache.unions.Holds n)
    (hn : s.Before F → s.Tidy env F → ∀ n, node = some n →
      s.cache.Justified (env.Admits F) target n ∧ s.cache.Justified (fun _ => s.Knows) target n) :
    (s.setNode target node).Leads env F := by
  have hset : s.Evolves {target} (s.setNode target node) := .setNode fun _ => hholds
  obtain ⟨hw, hg⟩ := hset h.wellFormed
  refine ⟨hw, fun hb => ?_⟩
  have hbefore := Before.of_grows hg hb
  have hs := h.tidy hbefore
  refine ⟨hw, hs.admits.setNode fun n hn' => (hn hbefore hs n hn').1,
    hs.knows.setNode fun n hn' => (hn hbefore hs n hn').2, fun f index ht hst => ?_⟩
  have hold : s.cache.state? (.ret f index) = some .resolved := by
    cases hst' : s.cache.state? (.ret f index) with
    | some st => rw [← hg.cache.state _ st hst', hst]
    | none =>
      have hnone := Option.map_eq_none_iff.1 hst'
      have hne : SlotKey.ret f index ≠ target := fun he => hslot (he ▸ hnone)
      rw [NodeCache.state?, slot?_setNode_of_ne hne, hnone] at hst
      cases hst
  exact (hs.template f index ht hold).grows hg

/-- A slot takes a node without members that is right for it. -/
theorem Leads.own (h : s.Leads env F) (hslot : s.cache.slot? target ≠ none) (hflat : n.isUnion = false)
    (hn : s.Before F → s.Tidy env F → env.Admits F target n ∧ s.Knows n) :
    (s.setNode target (some n)).Leads env F := by
  refine h.setNode hslot (fun m hm => ?_) fun hb hs m hm => ?_ <;> cases hm
  · exact UnionArena.holds_of_not_union hflat
  · exact ⟨.of_flat hflat (hn hb hs).1, .of_flat hflat (hn hb hs).2⟩

/-- A slot takes the node of another that may hold nothing else. -/
theorem Leads.merge (h : s'.Leads env F) (hslot : s'.cache.slot? target ≠ none) (hv : Visits key s node s')
    (hfeed : s'.Before F → s'.Tidy env F → ∀ n, env.Admits F key n → env.Admits F target n) :
    (s'.setNode target node).Leads env F := by
  refine h.setNode hslot hv.holds fun hb hs n hn => ?_
  have hnode := hv.node.trans hn
  exact ⟨(hs.admits.node key n hnode).feed (hfeed hb hs), (hs.knows.node key n hnode).feed fun _ hk => hk⟩

/-- What is in the node of a slot is right for the slot, also if it arrives after the node was taken. -/
theorem Leads.of_mem_members (h : s'.Leads env F) (hv : Visits key s node s') (hg : s'.Grows T t) (ht : t.Leads env F)
    (hb : t.Before F) (hn : n ∈ t.cache.members node) : env.Admits F key n ∧ t.Knows n := by
  have hs' := h.tidy (.of_grows hg hb)
  have ht' := ht.tidy hb
  rcases node with _ | m
  · cases hn
  · refine ⟨ht'.admits.flatten ((hs'.admits.node key m hv.node).grows hg.cache) hn, ?_⟩
    cases m with
    | union w =>
      obtain ⟨owner, ho⟩ := ht'.wellFormed.owner w (UnionArena.lt_of_mem hn)
      exact ht'.knows.member w owner ho n hn
    | generic i =>
      cases List.mem_singleton.1 hn
      have hknows : s'.Knows (.generic i) := hs'.knows.node key _ hv.node
      exact hknows.grows hg
    | leaf _ => cases List.mem_singleton.1 hn; trivial
    | global _ => cases List.mem_singleton.1 hn; trivial

/-- A new substitution changes no slot. -/
theorem Leads.addSubstitution (h : s.Leads env F) (sub : Substitution) :
    Leads env { s with substitutions := (s.substitutions.push sub).2 } F := by
  refine ⟨h.wellFormed, fun hb => ?_⟩
  have hg := (Evolves.addSubstitution ∅ s sub h.wellFormed).2
  have hs := h.tidy (Before.of_grows hg hb)
  refine ⟨hs.wellFormed, hs.admits, ⟨fun k n hn => ?_, fun u k ho n hn => (hs.knows.member u k ho n hn).grows hg⟩,
    fun f index ht hst => ?_⟩
  · have hj := hs.knows.node k n hn
    cases n with
    | union u =>
      obtain ⟨owner, ho, -⟩ := hj
      exact ⟨owner, ho, fun _ hk => hk⟩
    | generic i => exact hj.imp fun sub' hi => hg.substitution i sub' hi
    | _ => trivial
  · exact (hs.template f index ht hst).grows hg

/-- A node that may be merged into a slot as soon as the session is known to be on the way. -/
def Offers (env : Env) (s F : Session) (key : SlotKey) (n : TypeNode) : Prop :=
  n.isUnion = false ∧ (s.Before F → env.Admits F key n ∧ s.Knows n)

theorem Offers.grows (h : s.Offers env F key n) (hg : s.Grows T s') : s'.Offers env F key n :=
  ⟨h.1, fun hb => have hn := h.2 (.of_grows hg hb); ⟨hn.1, hn.2.grows hg⟩⟩

/-- The rule of a slot is under way. Unless the slot belongs to a documented result, none such is under way. -/
structure Works (env : Env) (target : SlotKey) (s F : Session) : Prop where
  leads : s.Leads env F
  slot : s.cache.slot? target ≠ none
  quiet : env.IsFree target → s.Quiet env

theorem Works.grows (h : s.Works env target F) (hg : s.Grows T s') (hs : s'.Leads env F) : s'.Works env target F :=
  ⟨hs, fun hnone => h.slot (hg.cache.exists_slot hnone), fun hfree => (h.quiet hfree).grows hg⟩

end Session

end LuaInfer
