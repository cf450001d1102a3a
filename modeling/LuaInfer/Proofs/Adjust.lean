import LuaInfer.Proofs.Evaluate
import LuaInfer.Proofs.Links
import Mathlib.Data.Set.Finite.Lattice
import Mathlib.Order.WellFounded
/-!
# Adjusting lists of values

A call may have any number of values. In a list of expressions all but the last are cut to one value, a call at the end gives all
that it has, and parentheses cut a call to one value. `Arena.Yields` says which values there are where functions return literals
and calls of one another, in terms of what the literals are; it is about declarations alone. `Arena.exists_yields`: there are such
values if the calls form no cycle.

The rules of results follow it: each step down a call at the end shifts the index, and the shifts add up. This does not depend on
how one tells what slots have, which a `Reading` leaves open: `Reading.produces_of_yields`.
-/

namespace LuaInfer

/-- The value at an index, counted from one. A value is the members of a node, and nothing where there is no value. -/
def valueAt (vs : List (List TypeNode)) : Nat → List TypeNode
  | 0 => []
  | i + 1 => vs[i]?.getD []

namespace Arena

variable {a : Arena} {F : Set DeclId} {N : DeclId → List TypeNode → Prop} {c e f g l x : DeclId}

/-! ## Values -/

/-- What a function literal returns that has no annotation and one `return` statement. -/
def returned? (a : Arena) (f : DeclId) : Option (List DeclId) :=
  match a.kind? f with
  | some (.function _ [d] _) =>
    match a.kind? d with
    | some (.ret exprs) => if a.docs f = [] then some exprs else none
    | _ => none
  | _ => none

/-- An assignment to a local. -/
def assignsLocal (a : Arena) (d : DeclId) : Bool :=
  match a.kind? d with
  | some (.setLocal ..) => true
  | _ => false

/-- What a local starts with that has no annotation and is never assigned. -/
def kept? (a : Arena) (l : DeclId) : Option DeclId :=
  match a.kind? l with
  | some (.localVar _ .plain value refs) => if a.docs l = [] ∧ ∀ use ∈ refs, a.assignsLocal use = false then value else none
  | _ => none

/-- What a call is of, if it is of a local that keeps what it starts with. -/
def called? (a : Arena) (c : DeclId) : Option DeclId :=
  match a.kind? c with
  | some (.call callee _) =>
    match a.kind? callee with
    | some (.getLocal l) => a.kept? l
    | _ => none
  | _ => none

/-- What has values. -/
inductive Source where
  /-- The first value of an expression. -/
  | first (e : DeclId)
  /-- All values of an expression. -/
  | all (e : DeclId)
  | list (es : List DeclId)
  | results (f : DeclId)

/-- The values of expressions, lists and functions, where `N` tells the members of the node of a literal. -/
inductive Yields (a : Arena) (N : DeclId → List TypeNode → Prop) : Source → List (List TypeNode) → Prop
  | literal {e : DeclId} {v : List TypeNode} : a.isLiteral e = true → N e v → Yields a N (.first e) [v]
  | paren {e x : DeclId} {v : List TypeNode} : a.kind? e = some (.paren x) → Yields a N (.first x) [v] →
      Yields a N (.first e) [v]
  | head {c g : DeclId} {vs : List (List TypeNode)} : a.called? c = some g → Yields a N (.results g) vs →
      Yields a N (.first c) [vs.head?.getD []]
  | spread {c g : DeclId} {vs : List (List TypeNode)} : a.called? c = some g → Yields a N (.results g) vs →
      Yields a N (.all c) vs
  | single {e : DeclId} {v : List TypeNode} : (∀ callee args, a.kind? e ≠ some (.call callee args)) →
      Yields a N (.first e) [v] → Yields a N (.all e) [v]
  | nil : Yields a N (.list []) []
  | last {e : DeclId} {vs : List (List TypeNode)} : Yields a N (.all e) vs → Yields a N (.list [e]) vs
  | cons {e x : DeclId} {es : List DeclId} {v : List TypeNode} {vs : List (List TypeNode)} : Yields a N (.first e) [v] →
      Yields a N (.list (x :: es)) vs → Yields a N (.list (e :: x :: es)) (v :: vs)
  | results {f : DeclId} {exprs : List DeclId} {vs : List (List TypeNode)} : a.returned? f = some exprs →
      Yields a N (.list exprs) vs → Yields a N (.results f) vs

/-- A literal, a call of a function of `F`, or one of these in parentheses. -/
inductive Simple (a : Arena) (F : Set DeclId) : DeclId → Prop
  | literal {e : DeclId} : a.isLiteral e = true → Simple a F e
  | paren {e x : DeclId} : a.kind? e = some (.paren x) → Simple a F x → Simple a F e
  | call {c g : DeclId} : a.called? c = some g → g ∈ F → Simple a F c

/-- The functions return simple expressions. -/
def Adjusting (a : Arena) (F : Set DeclId) : Prop := ∀ f ∈ F, ∃ exprs, a.returned? f = some exprs ∧ ∀ e ∈ exprs, a.Simple F e

/-- The expression is the call, in parentheses or not. -/
inductive Wraps (a : Arena) (c : DeclId) : DeclId → Prop
  | call : Wraps a c c
  | paren {e x : DeclId} : a.kind? e = some (.paren x) → Wraps a c x → Wraps a c e

/-- A call of `g` is among what `f` returns. -/
def CallsNext (a : Arena) (f g : DeclId) : Prop :=
  ∃ exprs e c, a.returned? f = some exprs ∧ e ∈ exprs ∧ a.Wraps c e ∧ a.called? c = some g

theorem not_call_of_isLiteral (h : a.isLiteral e = true) (callee : DeclId) (args : List DeclId) :
    a.kind? e ≠ some (.call callee args) := by
  intro hk
  rw [isLiteral, hk] at h
  cases h

theorem not_setLocal {d : DeclId} (h : a.assignsLocal d = false) (target v : DeclId) : a.kind? d ≠ some (.setLocal target v) := by
  intro hk
  rw [assignsLocal, hk] at h
  cases h

theorem exists_of_returned? {exprs : List DeclId} (h : a.returned? f = some exprs) :
    a.docs f = [] ∧ ∃ params d isMethod, a.kind? f = some (.function params [d] isMethod) ∧ a.kind? d = some (.ret exprs) := by
  unfold returned? at h
  split at h
  · next params d isMethod hf =>
    split at h
    · next hd =>
      split at h
      · next hdocs =>
        cases h
        exact ⟨hdocs, params, d, isMethod, hf, hd⟩
      · cases h
    · cases h
  · cases h

theorem exists_of_kept? (h : a.kept? l = some g) : a.docs l = [] ∧ ∃ name refs,
    a.kind? l = some (.localVar name .plain (some g) refs) ∧ ∀ use ∈ refs, a.assignsLocal use = false := by
  unfold kept? at h
  split at h
  · next name value refs hl =>
    split at h
    · next hkeeps =>
      cases h
      exact ⟨hkeeps.1, name, refs, hl, hkeeps.2⟩
    · cases h
  · cases h

theorem exists_of_called? (h : a.called? c = some g) : ∃ callee args l, a.kind? c = some (.call callee args) ∧
    a.kind? callee = some (.getLocal l) ∧ a.kept? l = some g := by
  unfold called? at h
  split at h
  · next callee args hc =>
    split at h
    · next l hcallee => exact ⟨callee, args, l, hc, hcallee, h⟩
    · cases h
  · cases h

section Exists

variable (hN : ∀ e, a.isLiteral e = true → ∃ ms, N e ms)
include hN

/-- A simple expression has a first value if the calls in it have values. -/
theorem Simple.exists_first (h : a.Simple F e)
    (hcall : ∀ c g, a.Wraps c e → a.called? c = some g → g ∈ F → ∃ vs, a.Yields N (.results g) vs) :
    ∃ v, a.Yields N (.first e) [v] := by
  induction h with
  | literal he =>
    obtain ⟨v, hv⟩ := hN _ he
    exact ⟨v, .literal he hv⟩
  | paren hk _ ih =>
    obtain ⟨v, hv⟩ := ih fun c g hw => hcall c g (.paren hk hw)
    exact ⟨v, .paren hk hv⟩
  | call hc hg =>
    obtain ⟨vs, hvs⟩ := hcall _ _ .call hc hg
    exact ⟨_, .head hc hvs⟩

theorem Simple.exists_all (h : a.Simple F e)
    (hcall : ∀ c g, a.Wraps c e → a.called? c = some g → g ∈ F → ∃ vs, a.Yields N (.results g) vs) :
    ∃ vs, a.Yields N (.all e) vs := by
  have hfirst := h.exists_first hN hcall
  cases h with
  | literal he =>
    obtain ⟨v, hv⟩ := hfirst
    exact ⟨_, .single (not_call_of_isLiteral he) hv⟩
  | paren hk _ =>
    obtain ⟨v, hv⟩ := hfirst
    exact ⟨_, .single (by simp [hk]) hv⟩
  | call hc hg =>
    obtain ⟨vs, hvs⟩ := hcall _ _ .call hc hg
    exact ⟨vs, .spread hc hvs⟩

end Exists

theorem exists_list {es : List DeclId} (hfirst : ∀ e ∈ es, ∃ v, a.Yields N (.first e) [v])
    (hall : ∀ e ∈ es, ∃ vs, a.Yields N (.all e) vs) : ∃ vs, a.Yields N (.list es) vs := by
  induction es with
  | nil => exact ⟨[], .nil⟩
  | cons e es ih =>
    cases es with
    | nil =>
      obtain ⟨vs, hvs⟩ := hall e (by simp)
      exact ⟨vs, .last hvs⟩
    | cons x es =>
      obtain ⟨v, hv⟩ := hfirst e (by simp)
      obtain ⟨vs, hvs⟩ := ih (fun e he => hfirst e (by simp [he])) fun e he => hall e (by simp [he])
      exact ⟨v :: vs, .cons hv hvs⟩

theorem Adjusting.finite (h : a.Adjusting F) : F.Finite := by
  have hsub : F ⊆ (fun i : Nat => (⟨i⟩ : DeclId)) '' {i | i < a.size} := by
    intro f hf
    obtain ⟨exprs, hret, -⟩ := h f hf
    obtain ⟨-, _, _, _, hk, -⟩ := exists_of_returned? hret
    exact ⟨f.index, index_lt_of_kind? hk, rfl⟩
  exact ((Set.finite_lt_nat a.size).image _).subset hsub

/-- If calls form no cycle, every function has values: by induction on the functions that it calls, directly or not. -/
theorem exists_yields (h : a.Adjusting F) (hacyclic : ∀ f ∈ F, ¬ Relation.TransGen a.CallsNext f f)
    (hN : ∀ e, a.isLiteral e = true → ∃ ms, N e ms) : ∀ f ∈ F, ∃ vs, a.Yields N (.results f) vs := by
  have hfinite : Finite F := h.finite
  let below : F → F → Prop := fun g f => Relation.TransGen a.CallsNext f.1 g.1
  have hirrefl : Std.Irrefl below := ⟨fun f => hacyclic f.1 f.2⟩
  have htrans : IsTrans F below := ⟨fun _ _ _ hfg hgh => hgh.trans hfg⟩
  have hwf : WellFounded below := Finite.wellFounded_of_trans_of_irrefl below
  intro f hf
  induction hsub : (⟨f, hf⟩ : F) using hwf.induction generalizing f with
  | _ f' ih =>
    subst hsub
    obtain ⟨exprs, hret, hsimple⟩ := h f hf
    have hcall : ∀ e ∈ exprs, ∀ c g, a.Wraps c e → a.called? c = some g → g ∈ F → ∃ vs, a.Yields N (.results g) vs :=
      fun e he c g hw hc hg => ih ⟨g, hg⟩ (.single ⟨exprs, e, c, hret, he, hw, hc⟩) g hg rfl
    obtain ⟨vs, hvs⟩ := exists_list (fun e he => (hsimple e he).exists_first hN (hcall e he))
      fun e he => (hsimple e he).exists_all hN (hcall e he)
    exact ⟨vs, .results hret hvs⟩

/-- What holds of nothing and of all literals, holds of all values. -/
theorem Yields.forall {src : Source} {vs : List (List TypeNode)} {P : List TypeNode → Prop} (h : a.Yields N src vs) (hnil : P [])
    (hN : ∀ e ms, a.isLiteral e = true → N e ms → P ms) : ∀ v ∈ vs, P v := by
  induction h with
  | literal he hv => exact List.forall_mem_singleton.2 (hN _ _ he hv)
  | @head _ _ vs _ _ ih =>
    refine List.forall_mem_singleton.2 ?_
    cases vs with
    | nil => exact hnil
    | cons v vs => exact ih v (by simp)
  | nil => simp
  | cons _ _ ih ih' => exact List.forall_mem_cons.2 ⟨ih _ (by simp), ih'⟩
  | paren _ _ ih | spread _ _ ih | single _ _ ih | last _ ih | results _ _ ih => exact ih

/-! ### Programs in order -/

theorem Wraps.index_le (hparens : ∀ e x, a.kind? e = some (.paren x) → x.index ≤ e.index) (h : a.Wraps c e) :
    c.index ≤ e.index := by
  induction h with
  | call => exact Nat.le_refl _
  | paren hk _ ih => exact Nat.le_trans ih (hparens _ _ hk)

/-- The expression in parentheses, if it is one. -/
def enclosed? (a : Arena) (e : DeclId) : Option DeclId :=
  match a.kind? e with
  | some (.paren x) => some x
  | _ => none

/-- Calls form no cycle if parentheses stand behind what they enclose, and all calls up to what a function returns are of
functions before it. -/
theorem not_transGen_callsNext (hparens : ∀ i < a.size, ∀ x ∈ (a.enclosed? ⟨i⟩).toList, x.index ≤ i)
    (hcalls : ∀ i < a.size, ∀ e ∈ (a.returned? ⟨i⟩).getD [], ∀ j ≤ e.index, ∀ g ∈ (a.called? ⟨j⟩).toList, g.index < i) (f : DeclId) :
    ¬ Relation.TransGen a.CallsNext f f := by
  have hle : ∀ e x, a.kind? e = some (.paren x) → x.index ≤ e.index := by
    intro e x hk
    exact hparens e.index (index_lt_of_kind? hk) x (by simp [enclosed?, hk])
  have hnext : ∀ f g, a.CallsNext f g → g.index < f.index := by
    rintro f g ⟨exprs, e, c, hret, he, hw, hc⟩
    obtain ⟨-, _, _, _, hk, -⟩ := exists_of_returned? hret
    exact hcalls f.index (index_lt_of_kind? hk) e (by simpa [hret] using he) c.index
      (hw.index_le hle) g (Option.mem_toList.2 hc)
  have htrans : ∀ g, Relation.TransGen a.CallsNext f g → g.index < f.index := by
    intro g hg
    induction hg with
    | single h => exact hnext _ _ h
    | tail _ h ih => exact Nat.lt_trans (hnext _ _ h) ih
  exact fun h => Nat.lt_irrefl _ (htrans f h)

end Arena

theorem valueAt_of_forall {vs : List (List TypeNode)} {P : List TypeNode → Prop} (hnil : P []) (h : ∀ v ∈ vs, P v) (i : Nat) :
    P (valueAt vs i) := by
  cases i with
  | zero => exact hnil
  | succ i =>
    rw [valueAt]
    cases hv : vs[i]? with
    | none => exact hnil
    | some v => exact h v (List.mem_of_getElem? hv)

/-! ## Rules -/

namespace Env

variable {env : Env} {i : Nat} {d c e f g x : DeclId} {es exprs : List DeclId}

/-- A declaration that stands for no global has the rule of its kind. -/
theorem declRule_of_kind {kind : DeclKind} (hglobal : env.arena.global? d = none) (hk : env.arena.kind? d = some kind) :
    env.rule (.decl d) = env.kindSteps d kind := by
  simp [rule, declRule, globalSteps, hglobal, hk]

/-- The declarations that rules of results lead to stand for no global. -/
def Unlinked (env : Env) : Prop :=
  ∀ d kind, env.arena.kind? d = some kind → kind.isLinkable = false → env.arena.global? d = none

theorem listSteps_cons_cons (e x : DeclId) (es : List DeclId) (i : Nat) :
    env.listSteps (e :: x :: es) (i + 2) = env.listSteps (x :: es) (i + 1) := by
  have hlast : (e :: x :: es).getLast? = (x :: es).getLast? := by simp [List.getLast?_cons]
  have hshift : i + 2 - ((e :: x :: es).length - 1) = i + 1 - ((x :: es).length - 1) := by
    simp only [List.length_cons]
    omega
  simp only [listSteps, List.getElem?_cons_succ, hlast, hshift]

/-- A call at the end gives all that it has. -/
theorem listSteps_call {callee : DeclId} {args : List DeclId} (hc : env.arena.kind? c = some (.call callee args))
    (hd : env.isDelegator callee = false) (i : Nat) : env.listSteps [c] (i + 1) = [.result callee (i + 1) c] := by
  cases i with
  | zero => simp [listSteps, hc, callSteps, hd]
  | succ i => simp [listSteps, hc, callSteps, hd]

/-- Anything else gives one value. -/
theorem listSteps_single (he : ∀ callee args, env.arena.kind? e ≠ some (.call callee args)) (i : Nat) :
    env.listSteps [e] (i + 2) = [] := by
  simp only [listSteps, List.getElem?_cons_succ, List.getElem?_nil, List.getLast?_singleton]

theorem returnRule_of_returned? (h : env.arena.returned? f = some exprs) (i : Nat) : env.rule (.ret f i) = env.listSteps exprs i := by
  obtain ⟨hdocs, params, d, isMethod, hf, hd⟩ := Arena.exists_of_returned? h
  simp [rule, returnRule, returnTypes, hdocs, returnedSteps, hf, hd]

/-- A call of a local that keeps a function is no delegation. -/
theorem exists_callee (h : env.arena.called? c = some g) : ∃ callee args l, env.arena.kind? c = some (.call callee args) ∧
    env.arena.kind? callee = some (.getLocal l) ∧ env.arena.kept? l = some g ∧ env.isDelegator callee = false := by
  obtain ⟨callee, args, l, hc, hcallee, hkept⟩ := Arena.exists_of_called? h
  exact ⟨callee, args, l, hc, hcallee, hkept, by simp [isDelegator, hcallee]⟩

end Env

/-- A way to tell what slots have and what steps give: a slot has what its rule gives, and a step that takes a declaration or the
result of a call gives what it takes, if the result is fit to be passed on. -/
structure Reading (env : Env) where
  Has : SlotKey → List TypeNode → Prop
  Gives : List Step → List TypeNode → Prop
  Fits : List TypeNode → Prop
  fits_nil : Fits []
  slot : ∀ {key ms}, (∀ i, key ≠ .generic i) → Gives (env.rule key) ms → Has key ms
  nothing : Gives [] []
  merge : ∀ {d ms}, Has (.decl d) ms → Gives [.merge d] ms
  result : ∀ {c g callee l exprs index ms}, env.arena.kind? callee = some (.getLocal l) → env.arena.kept? l = some g →
    env.arena.returned? g = some exprs → Has (.ret g index) ms → Fits ms → Gives [.result callee index c] ms

namespace Reading

variable {env : Env} {R : Reading env} {N : DeclId → List TypeNode → Prop} {src : Arena.Source} {vs : List (List TypeNode)}
  {v : List TypeNode} {c e f g : DeclId}

/-- What the reading has to say for a source to have these values. -/
def Produces (R : Reading env) : Arena.Source → List (List TypeNode) → Prop
  | .first e, vs => ∃ v, vs = [v] ∧ R.Has (.decl e) v ∧ R.Gives (env.listSteps [e] 1) v
  | .all e, vs => ∀ i, R.Gives (env.listSteps [e] i) (valueAt vs i)
  | .list es, vs => ∀ i, R.Gives (env.listSteps es i) (valueAt vs i)
  | .results f, vs => ∀ i, R.Has (.ret f i) (valueAt vs i)

theorem produces_first (he : ∀ callee args, env.arena.kind? e ≠ some (.call callee args)) (h : R.Has (.decl e) v) :
    R.Produces (.first e) [v] := by
  have hsteps : env.listSteps [e] 1 = [.merge e] := by
    simp only [Env.listSteps, List.getElem?_cons_zero]
  exact ⟨v, rfl, h, hsteps ▸ R.merge h⟩

/-- What a call gives at an index. -/
theorem gives_call (hc : env.arena.called? c = some g) (hg : env.arena.Yields N (.results g) vs) (hfits : ∀ v ∈ vs, R.Fits v)
    (h : R.Produces (.results g) vs) (i : Nat) : ∃ callee args, env.arena.kind? c = some (.call callee args) ∧
      env.isDelegator callee = false ∧ R.Gives [.result callee i c] (valueAt vs i) := by
  obtain ⟨callee, args, l, hk, hcallee, hkept, hd⟩ := Env.exists_callee hc
  cases hg with
  | results hret _ => exact ⟨callee, args, hk, hd, R.result hcallee hkept hret (h i) (valueAt_of_forall R.fits_nil hfits i)⟩

/-- Steps and rules give the values: by induction on why these are the values. -/
theorem produces_of_yields (hu : env.Unlinked)
    (hN : ∀ e ms, env.arena.isLiteral e = true → N e ms → R.Has (.decl e) ms ∧ R.Fits ms) (h : env.arena.Yields N src vs) :
    R.Produces src vs := by
  have hfits : ∀ {src vs}, env.arena.Yields N src vs → ∀ v ∈ vs, R.Fits v :=
    fun h => h.forall R.fits_nil fun e ms he hms => (hN e ms he hms).2
  induction h with
  | literal he hv => exact produces_first (Arena.not_call_of_isLiteral he) (hN _ _ he hv).1
  | @paren e x v hk _ ih =>
    obtain ⟨_, ⟨⟩, hhas, -⟩ := ih
    have hrule : env.rule (.decl e) = [.merge x] := Env.declRule_of_kind (hu e _ hk rfl) hk
    exact produces_first (by simp [hk]) (R.slot (by simp) (hrule ▸ R.merge hhas))
  | @head c g vs hc hg ih =>
    obtain ⟨callee, args, hk, hd, hgives⟩ := gives_call hc hg (hfits hg) ih 1
    have hhead : valueAt vs 1 = vs.head?.getD [] := by rw [valueAt, List.head?_eq_getElem?]
    have hrule : env.rule (.decl c) = [.result callee 1 c] := by
      rw [Env.declRule_of_kind (hu c _ hk rfl) hk, Env.kindSteps, Env.callSteps, if_neg (by simp [hd])]
    rw [hhead] at hgives
    refine ⟨_, rfl, R.slot (by simp) (hrule ▸ hgives), ?_⟩
    rw [Env.listSteps_call hk hd 0]
    exact hgives
  | spread hc hg ih =>
    intro i
    cases i with
    | zero => exact R.nothing
    | succ i =>
      obtain ⟨callee, args, hk, hd, hgives⟩ := gives_call hc hg (hfits hg) ih (i + 1)
      rw [Env.listSteps_call hk hd i]
      exact hgives
  | @single e v he _ ih =>
    obtain ⟨_, ⟨⟩, -, hgives⟩ := ih
    intro i
    rcases i with _ | _ | i
    · exact R.nothing
    · exact hgives
    · rw [Env.listSteps_single he i]
      exact R.nothing
  | nil =>
    intro i
    cases i with
    | zero => exact R.nothing
    | succ i => exact R.nothing
  | last _ ih => exact ih
  | @cons e x es v vs _ _ ih ih' =>
    obtain ⟨_, ⟨⟩, -, hgives⟩ := ih
    intro i
    rcases i with _ | _ | i
    · exact R.nothing
    · exact hgives
    · rw [Env.listSteps_cons_cons]
      exact ih' (i + 1)
  | results hret _ ih =>
    intro i
    exact R.slot (by simp) (Env.returnRule_of_returned? hret i ▸ ih i)

/-- A selected value of a call is the value at its index. -/
theorem has_select (hu : env.Unlinked)
    (hN : ∀ e ms, env.arena.isLiteral e = true → N e ms → R.Has (.decl e) ms ∧ R.Fits ms) {sel : DeclId} {i : Nat}
    (hc : env.arena.called? c = some f) (hf : env.arena.Yields N (.results f) vs) (hk : env.arena.kind? sel = some (.select c i)) :
    R.Has (.decl sel) (valueAt vs i) := by
  obtain ⟨callee, args, hck, hd, hgives⟩ := gives_call hc hf
    (hf.forall R.fits_nil fun e ms he hms => (hN e ms he hms).2) (produces_of_yields hu hN hf) i
  have hrule : env.rule (.decl sel) = [.result callee i c] := by
    rw [Env.declRule_of_kind (hu sel _ hk rfl) hk]
    simp only [Env.kindSteps, hck, Env.callSteps, hd, Bool.false_eq_true, if_false]
  exact R.slot (by simp) (hrule ▸ hgives)

end Reading

end LuaInfer
