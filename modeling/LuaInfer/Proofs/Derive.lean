import LuaInfer.Session.Rule
import LuaInfer.Session.Search
import Mathlib.Data.Fintype.Card
/-!
# What a slot may hold

The rules read as relations, without cache, order, shadowing and limits. `Owns` is what a declaration
is by itself, `Feeds` which declarations a slot takes its node from, `Calls` which results of calls it
takes, `Finds` which declarations define a key on a node. `Derives` is the least relation between slots
and nodes that is closed under them.

`Env.explains_of_mem_rule`: each step of a rule is one of these. The rule of a declaration has them all
(`own_mem_declRule`, `merge_mem_declRule`).
-/

namespace LuaInfer

/-! ## The function around a declaration -/

namespace Arena

variable {a : Arena} {d f : DeclId}

/-- `f` is the nearest function literal above `d`. -/
inductive Encloses (a : Arena) : DeclId → DeclId → Prop
  | parent {d f : DeclId} : a.parent? d = some f → a.isFunction f = true → Encloses a d f
  | above {d p f : DeclId} : a.parent? d = some p → a.isFunction p = false → Encloses a p f → Encloses a d f

theorem exists_decl_of_kind? {kind : DeclKind} (h : a.kind? d = some kind) : ∃ decl ∈ a.decls, decl.kind = kind := by
  obtain ⟨decl, hd, hk⟩ := Option.map_eq_some_iff.1 h
  exact ⟨decl, Array.mem_of_getElem? hd, hk⟩

theorem climb_mono {m n : Nat} {p : Option DeclId} (hmn : m ≤ n) (h : a.climbToFunction m p = some f) :
    a.climbToFunction n p = some f := by
  induction m generalizing n p with
  | zero => cases p <;> cases h
  | succ m ih =>
    cases p with
    | none => cases h
    | some d =>
      obtain ⟨n, rfl⟩ := Nat.exists_eq_add_of_le' hmn
      rw [show n + (m + 1) = (n + m) + 1 by omega, climbToFunction]
      rw [climbToFunction] at h
      split at h
      · next hd => rw [if_pos hd]; exact h
      · next hd => rw [if_neg hd]; exact ih (by omega) h

theorem encloses_of_climb {n : Nat} (h : a.climbToFunction n (a.parent? d) = some f) : a.Encloses d f := by
  induction n generalizing d with
  | zero => cases hp : a.parent? d <;> rw [hp] at h <;> cases h
  | succ n ih =>
    cases hp : a.parent? d with
    | none => rw [hp] at h; cases h
    | some p =>
      rw [hp, climbToFunction] at h
      split at h
      · next hf => cases h; exact .parent hp hf
      · next hf => exact .above hp (by simpa using hf) (ih h)

theorem climb_of_encloses (h : a.Encloses d f) : ∃ n, a.climbToFunction n (a.parent? d) = some f := by
  induction h with
  | parent hp hf => exact ⟨1, by rw [hp, climbToFunction, if_pos hf]⟩
  | above hp hf _ ih =>
    obtain ⟨n, hn⟩ := ih
    exact ⟨n + 1, by rw [hp, climbToFunction, hf]; simpa using hn⟩

theorem index_lt_of_climb {n : Nat} {p : DeclId} (h : a.climbToFunction n (some p) = some f) : p.index < a.size := by
  refine Nat.lt_of_not_le fun hle => ?_
  have hnone : a.decl? p = none := Array.getElem?_eq_none hle
  cases n with
  | zero => cases h
  | succ n => simp [climbToFunction, isFunction, kind?, parent?, hnone] at h

/-- The least number of steps from `p` up to a function literal falls by one with each step, so the
declarations passed on the way are different ones, and there are no more of them than the arena has. -/
theorem climb_le_size {n : Nat} {p : Option DeclId} (h : a.climbToFunction (n + 1) p = some f)
    (hmin : a.climbToFunction n p = none) : n + 1 ≤ a.size := by
  have stage : ∀ k, k ≤ n → ∃ q, a.climbToFunction (k + 1) (some q) = some f ∧ a.climbToFunction k (some q) = none := by
    induction n generalizing p with
    | zero =>
      intro k hk
      obtain rfl : k = 0 := by omega
      cases p with
      | none => cases h
      | some q => exact ⟨q, h, rfl⟩
    | succ n ih =>
      intro k hk
      cases p with
      | none => cases h
      | some q =>
        rcases Nat.lt_or_ge n k with hlt | hle
        · obtain rfl : k = n + 1 := by omega
          exact ⟨q, h, hmin⟩
        · rw [climbToFunction] at h hmin
          split at h
          · next hq => rw [if_pos hq] at hmin; cases hmin
          · next hq => rw [if_neg hq] at hmin; exact ih h hmin k hle
  choose q hq hq' using stage
  have hinj : Function.Injective fun k : Fin (n + 1) =>
      (⟨(q k (Nat.le_of_lt_succ k.2)).index, index_lt_of_climb (hq k _)⟩ : Fin a.size) := by
    intro i j hij
    have heq : q i (Nat.le_of_lt_succ i.2) = q j (Nat.le_of_lt_succ j.2) := by
      have := congrArg Fin.val hij
      cases hi : q i (Nat.le_of_lt_succ i.2)
      cases hj : q j (Nat.le_of_lt_succ j.2)
      simp_all
    -- otherwise the later stage would already have ended
    rcases Nat.lt_trichotomy i.1 j.1 with hlt | he | hgt
    · have := climb_mono hlt (hq i (Nat.le_of_lt_succ i.2))
      rw [heq, hq' j] at this
      cases this
    · exact Fin.ext he
    · have := climb_mono hgt (hq j (Nat.le_of_lt_succ j.2))
      rw [← heq, hq' i] at this
      cases this
  simpa using Fintype.card_le_of_injective _ hinj

theorem enclosingFunction?_eq_some : a.enclosingFunction? d = some f ↔ a.Encloses d f := by
  constructor
  · exact encloses_of_climb
  · intro h
    obtain ⟨n, hn⟩ := climb_of_encloses h
    -- take the least number of steps that reaches a function literal
    induction n with
    | zero => cases hp : a.parent? d <;> rw [hp] at hn <;> cases hn
    | succ n ih =>
      cases hn' : a.climbToFunction n (a.parent? d) with
      | some f' =>
        have := climb_mono (Nat.le_succ n) hn'
        rw [hn] at this
        exact ih (hn'.trans this.symm)
      | none => exact climb_mono (by have := climb_le_size hn hn'; omega) hn

end Arena

/-! ## The relations -/

namespace DeclKind

/-- Kinds that are a type by themselves, and the binding that a local is. -/
def isType : DeclKind → Bool
  | literal .. | table .. | function .. | localVar .. | tyLiteral .. | tyTable .. | tyFunction .. | tyArray ..
  | tyGeneric .. => true
  | _ => false

/-- What a declaration simply stands for: what is read, assigned, put in parentheses or documented. -/
def parts : DeclKind → List DeclId
  | getLocal target => [target]
  | setLocal _ value => [value]
  | tableField _ value => [value]
  | paren expr => [expr]
  | docType ty => [ty]
  | docField _ ty => [ty]
  | docParam _ ty => [ty]
  | docVararg ty => [ty]
  | tyField _ ty => [ty]
  | docOverload sig => [sig]
  | tyUnion alternatives => alternatives
  | _ => []

/-- Reads of members and assignments to them. -/
def isAccess : DeclKind → Bool
  | getMember .. | setMember .. => true
  | _ => false

end DeclKind

namespace Env

/-- Annotation `doc` is bound to `d` and applies to it. -/
def Annotates (env : Env) (d doc : DeclId) : Prop := doc ∈ env.arena.docs d ∧ env.applies d doc = true

/-- A value given by one of `ds` is accepted: none of them has an annotation, or literals narrow and it
is one. -/
def Accepts (env : Env) (ds : List DeclId) (value : DeclId) : Prop :=
  (∀ d ∈ ds, ∀ doc, ¬ env.Annotates d doc) ∨
    (env.options.literalNarrowing = true ∧ env.arena.isLiteral value = true)

/-- The declarations `ds` of one thing contribute `e`: an annotation of one of them, or a value. -/
def Contributes (env : Env) (ds : List DeclId) (e : DeclId) : Prop :=
  (∃ d ∈ ds, env.Annotates d e) ∨ ∃ d ∈ ds, env.arena.value? d = some e ∧ env.Accepts ds e

/-- The declarations of the same identity; one without identity is alone. -/
def twins (env : Env) (d : DeclId) : List DeclId :=
  match env.identities.group d with
  | [] => [d]
  | group => group

/-- Annotation `doc` of a function says what `...` is. -/
def SaysVararg (env : Env) (doc : DeclId) : Prop :=
  (∃ ty, env.arena.kind? doc = some (.docVararg ty)) ∨
    ∃ name ty, env.arena.kind? doc = some (.docParam name ty) ∧ env.varargName = some name

/-- Function `f` has a `return` of the expressions `exprs`, and no annotation for the result at
`index`. -/
def Returns (env : Env) (f : DeclId) (index : Nat) (exprs : List DeclId) : Prop :=
  (∀ doc ∈ env.arena.docs f, ∀ ty, env.arena.kind? doc ≠ some (.docReturn index ty)) ∧
    ∃ params returns isMethod r, env.arena.kind? f = some (.function params returns isMethod) ∧ r ∈ returns ∧
      env.arena.kind? r = some (.ret exprs)

/-- What a declaration is by itself. -/
inductive Owns (env : Env) : DeclId → TypeNode → Prop
  | link {d g} : env.arena.global? d = some g → Owns env d (.global g)
  | leaf {d kind} : env.arena.kind? d = some kind → kind.isType = true → Owns env d (.leaf d)
  | name {d name g} : env.arena.kind? d = some (.tyName name) → env.globals.get? .type name = some g →
      Owns env d (.global g)

/-- A slot takes the result of call `c` at an index. -/
inductive Calls (env : Env) : SlotKey → DeclId → Nat → Prop
  | call {c} : Calls env (.decl c) c 1
  | select {d c index} : env.arena.kind? d = some (.select c index) → Calls env (.decl d) c index
  | returned {f exprs position c} : env.Returns f (position + 1) exprs → exprs[position]? = some c →
      Calls env (.ret f (position + 1)) c 1
  /-- The last expression of a `return` supplies what stands past the end. -/
  | spread {f exprs index c} : env.Returns f index exprs → exprs.length < index → exprs.getLast? = some c →
      Calls env (.ret f index) c (index - (exprs.length - 1))

/-- A slot takes the node of a declaration. -/
inductive Feeds (env : Env) : SlotKey → DeclId → Prop
  /-- The sites of a global variable contribute to all that stands for it. -/
  | site {d g e} : env.arena.global? d = some g → env.globals.category? g = some .var →
      env.Contributes (env.globals.sites g) e → Feeds env (.decl d) e
  | part {d kind e} : env.arena.kind? d = some kind → e ∈ kind.parts → Feeds env (.decl d) e
  | overload {d params returns isMethod doc sig} : env.arena.kind? d = some (.function params returns isMethod) →
      doc ∈ env.arena.docs d → env.arena.kind? doc = some (.docOverload sig) → Feeds env (.decl d) doc
  | annotation {d name role value refs doc} : env.arena.kind? d = some (.localVar name role value refs) →
      env.Annotates d doc → Feeds env (.decl d) doc
  /-- Reassignments, where no annotation applies. -/
  | assigned {d name role value refs use target e} : env.arena.kind? d = some (.localVar name role value refs) →
      (∀ doc, ¬ env.Annotates d doc) → use ∈ refs → env.arena.kind? use = some (.setLocal target e) →
      Feeds env (.decl d) e
  | receiver {d name role value refs e} : env.arena.kind? d = some (.localVar name role value refs) →
      (∀ doc, ¬ env.Annotates d doc) → env.receiver? d name role = some e → Feeds env (.decl d) e
  | initial {d name role e refs} : env.arena.kind? d = some (.localVar name role (some e) refs) →
      env.Accepts [d] e → Feeds env (.decl d) e
  | twin {d kind e} : env.arena.kind? d = some kind → kind.isAccess = true → env.Contributes (env.twins d) e →
      Feeds env (.decl d) e
  /-- A name token stands for the access it is a part of. -/
  | token {d name e} :
      env.arena.kind? d = some (.fieldName name) ∨ env.arena.kind? d = some (.methodName name) →
      env.arena.parent? d = some e → Feeds env (.decl d) e
  | vararg {d f doc} : env.arena.kind? d = some .varargs → env.arena.Encloses d f → doc ∈ env.arena.docs f →
      env.SaysVararg doc → Feeds env (.decl d) doc
  | returnType {f doc index ty} : doc ∈ env.arena.docs f → env.arena.kind? doc = some (.docReturn index ty) →
      Feeds env (.ret f index) ty
  /-- The results of a returned call are taken from what is called. -/
  | returned {f exprs position e} : env.Returns f (position + 1) exprs → exprs[position]? = some e →
      (∀ callee args, env.arena.kind? e ≠ some (.call callee args)) → Feeds env (.ret f (position + 1)) e
  /-- A delegation gives its first argument. -/
  | object {k c callee object args} : env.Calls k c 1 → env.arena.kind? c = some (.call callee (object :: args)) →
      env.isDelegator callee = true → Feeds env k object

/-- A declaration defines `name` on a node. No field hides another, and no class is too far away. -/
inductive Finds (env : Env) (name : Atom) : TypeNode → DeclId → Prop
  | table {t fields f} : env.arena.kind? t = some (.table fields) ∨ env.arena.kind? t = some (.tyTable fields) →
      f ∈ fields → env.arena.key? f = some name → Finds env name (.leaf t) f
  | source {d x role value refs f} : env.arena.kind? d = some (.localVar x role value refs) →
      f ∈ env.identities.sources d name → Finds env name (.leaf d) f
  | site {g sub f} : env.globals.category? g = some .var → env.globals.getField? g name = some sub →
      f ∈ env.globals.sites sub → Finds env name (.global g) f
  | field {g c x supers fields sources f} : env.globals.category? g = some .type → c ∈ env.globals.sites g →
      env.arena.kind? c = some (.docClass x supers fields sources) → f ∈ fields → env.arena.key? f = some name →
      Finds env name (.global g) f
  /-- What a class stands above defines the members of the class, and so does its global. -/
  | beneath {g c x supers fields sources d f} : env.globals.category? g = some .type → c ∈ env.globals.sites g →
      env.arena.kind? c = some (.docClass x supers fields sources) → d ∈ sources → Finds env name (.leaf d) f →
      Finds env name (.global g) f
  | beneathGlobal {g c x supers fields sources d g' f} : env.globals.category? g = some .type →
      c ∈ env.globals.sites g → env.arena.kind? c = some (.docClass x supers fields sources) → d ∈ sources →
      env.arena.global? d = some g' → Finds env name (.global g') f → Finds env name (.global g) f
  | super {g c x supers fields sources p y g' f} : env.globals.category? g = some .type →
      c ∈ env.globals.sites g → env.arena.kind? c = some (.docClass x supers fields sources) → p ∈ supers →
      env.arena.kind? p = some (.tyName y) → env.globals.get? .type y = some g' → Finds env name (.global g') f →
      Finds env name (.global g) f

/-- A node may be a member of a slot. -/
inductive Derives (env : Env) : SlotKey → TypeNode → Prop
  | own {d n} : env.Owns d n → Derives env (.decl d) n
  | feed {k e n} : env.Feeds k e → Derives env (.decl e) n → Derives env k n
  | read {d base member name m e n} : env.arena.kind? d = some (.getMember base member) →
      member.key? = some name → Derives env (.decl base) m → env.Finds name m e → Derives env (.decl e) n →
      Derives env (.decl d) n
  | result {k c index callee args f params returns isMethod n} : env.Calls k c index →
      env.arena.kind? c = some (.call callee args) → env.isDelegator callee = false →
      Derives env (.decl callee) (.leaf f) → env.arena.kind? f = some (.function params returns isMethod) →
      Derives env (.ret f index) n → Derives env k n
  | declared {k c position callee args f params returns e n} : env.Calls k c (position + 1) →
      env.arena.kind? c = some (.call callee args) → env.isDelegator callee = false →
      Derives env (.decl callee) (.leaf f) → env.arena.kind? f = some (.tyFunction params returns) →
      returns[position]? = some e → Derives env (.decl e) n → Derives env k n
  | delegate {k c callee object metatable args name m e n} : env.Calls k c 1 →
      env.arena.kind? c = some (.call callee (object :: metatable :: args)) → env.isDelegator callee = true →
      env.delegationKey = some name → Derives env (.decl metatable) m → env.Finds name m e →
      Derives env (.decl e) n → Derives env k n

/-! ## The steps of a rule are the relations -/

variable {env : Env} {d e : DeclId} {ds : List DeclId} {k : SlotKey} {st : Step}

theorem mem_annotations {doc : DeclId} : doc ∈ env.annotations d ↔ env.Annotates d doc := List.mem_filter

theorem isEmpty_annotations : (env.annotations d).isEmpty = true ↔ ∀ doc, ¬ env.Annotates d doc := by
  simp only [List.isEmpty_iff, List.eq_nil_iff_forall_not_mem, mem_annotations]

theorem acceptsValue_iff {value : DeclId} :
    env.acceptsValue (!(ds.flatMap env.annotations).isEmpty) value = true ↔ env.Accepts ds value := by
  simp only [acceptsValue, Bool.not_not, Bool.or_eq_true, Bool.and_eq_true, List.isEmpty_iff,
    List.flatMap_eq_nil_iff, Accepts, ← isEmpty_annotations]

theorem mem_contributions : st ∈ env.contributions ds ↔ ∃ e, st = .merge e ∧ env.Contributes ds e := by
  simp only [contributions, List.mem_map, List.mem_append, List.mem_flatMap, List.mem_filter, List.mem_filterMap,
    mem_annotations, acceptsValue_iff, Contributes]
  constructor
  · rintro ⟨e, h | ⟨⟨d, hd, hv⟩, ha⟩, rfl⟩
    · exact ⟨e, rfl, .inl h⟩
    · exact ⟨e, rfl, .inr ⟨d, hd, hv, ha⟩⟩
  · rintro ⟨e, rfl, h | ⟨d, hd, hv, ha⟩⟩
    · exact ⟨e, .inl h, rfl⟩
    · exact ⟨e, .inr ⟨⟨d, hd, hv⟩, ha⟩, rfl⟩

theorem identitySteps_eq : env.identitySteps d = env.contributions (env.twins d) := by
  unfold identitySteps twins
  cases env.identities.group d <;> rfl

/-- What makes a step part of the rule of a slot. -/
def Explains (env : Env) (k : SlotKey) : Step → Prop
  | .own n => ∃ d, k = .decl d ∧ env.Owns d n
  | .merge e => env.Feeds k e
  | .read base name => ∃ d member, k = .decl d ∧ env.arena.kind? d = some (.getMember base member) ∧
      member.key? = some name
  | .delegate metatable name => ∃ c callee object args, env.Calls k c 1 ∧
      env.arena.kind? c = some (.call callee (object :: metatable :: args)) ∧ env.isDelegator callee = true ∧
      env.delegationKey = some name
  | .result callee index c => ∃ args, env.Calls k c index ∧ env.arena.kind? c = some (.call callee args) ∧
      env.isDelegator callee = false
  | .template _ => ∃ f index sig, k = .ret f index ∧ Signature.of? env.arena f = some sig

theorem explains_callSteps {c callee : DeclId} {args : List DeclId} {index : Nat} (hc : env.Calls k c index)
    (hk : env.arena.kind? c = some (.call callee args)) (h : st ∈ env.callSteps c callee args index) :
    env.Explains k st := by
  unfold callSteps at h
  split at h
  · next hd =>
    split at h
    · next hi =>
      subst hi
      match args with
      | [] => cases h
      | [object] =>
        cases List.mem_singleton.1 h
        exact .object hc hk hd
      | object :: metatable :: args =>
        rcases List.mem_cons.1 h with rfl | h
        · exact .object hc hk hd
        · obtain ⟨name, hname, rfl⟩ := by simpa using h
          exact ⟨c, callee, object, args, hc, hk, hd, hname⟩
    · cases h
  · next hd =>
    cases List.mem_singleton.1 h
    exact ⟨args, hc, hk, by simpa using hd⟩

theorem explains_globalSteps (h : st ∈ env.globalSteps d) : env.Explains (.decl d) st := by
  unfold globalSteps at h
  split at h
  · cases h
  · next g hg =>
    rcases List.mem_cons.1 h with rfl | h
    · exact ⟨d, rfl, .link hg⟩
    · split at h
      · next hv =>
        obtain ⟨e, rfl, he⟩ := mem_contributions.1 h
        exact Feeds.site hg hv he
      · cases h

theorem explains_localSteps {name : Atom} {role : Role} {value : Option DeclId} {refs : List DeclId}
    (hk : env.arena.kind? d = some (.localVar name role value refs)) (h : st ∈ env.localSteps d name role value refs) :
    env.Explains (.decl d) st := by
  unfold localSteps at h
  rcases List.mem_cons.1 h with rfl | h
  · exact ⟨d, rfl, .leaf hk rfl⟩
  · obtain ⟨e, he, rfl⟩ := List.mem_map.1 h
    rcases List.mem_append.1 he with he | he
    · rcases List.mem_append.1 he with he | he
      · exact Feeds.annotation hk (mem_annotations.1 he)
      · split at he
        · next hnone =>
          have hdoc := isEmpty_annotations.1 hnone
          rcases List.mem_append.1 he with he | he
          · obtain ⟨use, huse, hv⟩ := List.mem_filterMap.1 he
            split at hv
            · next hset => cases hv; exact Feeds.assigned hk hdoc huse hset
            · cases hv
          · exact Feeds.receiver hk hdoc (by simpa using he)
        · cases he
    · obtain ⟨hv, ha⟩ := List.mem_filter.1 he
      obtain rfl : value = some e := by simpa using hv
      exact Feeds.initial hk (acceptsValue_iff.1 (by simpa using ha))

theorem explains_kindSteps {kind : DeclKind} (hk : env.arena.kind? d = some kind) (h : st ∈ env.kindSteps d kind) :
    env.Explains (.decl d) st := by
  have hpart : ∀ {e}, e ∈ kind.parts → env.Explains (.decl d) (.merge e) := fun he => Feeds.part hk he
  have htwin : ∀ {st}, kind.isAccess = true → st ∈ env.identitySteps d → env.Explains (.decl d) st := by
    intro st ha hst
    rw [identitySteps_eq] at hst
    obtain ⟨e, rfl, he⟩ := mem_contributions.1 hst
    exact Feeds.twin hk ha he
  cases kind with
  | literal _ | table _ | tyLiteral _ | tyTable _ | tyFunction _ _ | tyArray _ | tyGeneric _ =>
    cases List.mem_singleton.1 h
    exact ⟨d, rfl, .leaf hk rfl⟩
  | function params returns isMethod =>
    rcases List.mem_cons.1 h with rfl | h
    · exact ⟨d, rfl, .leaf hk rfl⟩
    · obtain ⟨doc, hdoc, rfl⟩ := List.mem_map.1 h
      obtain ⟨hmem, hsig⟩ := List.mem_filter.1 hdoc
      split at hsig
      · next sig hs => exact Feeds.overload hk hmem hs
      · cases hsig
  | localVar name role value refs => exact explains_localSteps hk h
  | getLocal _ | setLocal _ _ | tableField _ _ | paren _ | docType _ | docField _ _ | docParam _ _ | docVararg _
  | tyField _ _ | docOverload _ =>
    cases List.mem_singleton.1 h
    exact hpart (by simp [DeclKind.parts])
  | tyUnion alternatives =>
    obtain ⟨e, he, rfl⟩ := List.mem_map.1 h
    exact hpart he
  | getGlobal _ | setGlobal _ _ | docClass _ _ _ _ | ret _ | docReturn _ _ | docGeneric _ => cases h
  | setMember base member value => exact htwin rfl h
  | getMember base member =>
    rcases List.mem_append.1 h with h | h
    · exact htwin rfl h
    · obtain ⟨name, hname, rfl⟩ := by simpa using h
      exact ⟨d, member, rfl, hk, hname⟩
  | fieldName name =>
    obtain ⟨p, hp, rfl⟩ := by simpa [kindSteps] using h
    exact Feeds.token (.inl hk) hp
  | methodName name =>
    obtain ⟨p, hp, rfl⟩ := by simpa [kindSteps] using h
    exact Feeds.token (.inr hk) hp
  | call callee args => exact explains_callSteps .call hk h
  | select c index =>
    simp only [kindSteps] at h
    split at h
    · next hc => exact explains_callSteps (.select hk) hc h
    · cases h
  | varargs =>
    simp only [kindSteps] at h
    split at h
    · next f hf =>
      obtain ⟨doc, hdoc, rfl⟩ := List.mem_map.1 h
      obtain ⟨hmem, hsays⟩ := List.mem_filter.1 hdoc
      refine Feeds.vararg hk (Arena.enclosingFunction?_eq_some.1 hf) hmem ?_
      split at hsays
      · next hv => exact .inl ⟨_, hv⟩
      · next hp => exact .inr ⟨_, _, hp, (by simpa using hsays : _ = _).symm⟩
      · cases hsays
    · cases h
  | tyName name =>
    obtain ⟨g, hg, rfl⟩ := by simpa [kindSteps] using h
    exact ⟨d, rfl, .name hk hg⟩

theorem explains_declRule (h : st ∈ env.declRule d) : env.Explains (.decl d) st := by
  rcases List.mem_append.1 h with h | h
  · exact explains_globalSteps h
  · split at h
    · next hk => exact explains_kindSteps hk h
    · cases h

theorem index_lt_of_mem_declRule (h : st ∈ env.declRule d) : d.index < env.arena.size := by
  refine Nat.lt_of_not_le fun hle => ?_
  have hnone : env.arena.decl? d = none := Array.getElem?_eq_none hle
  simp [declRule, globalSteps, Arena.global?, Arena.kind?, hnone] at h

theorem mem_declRule_of_kind {kind : DeclKind} (hk : env.arena.kind? d = some kind) (h : st ∈ env.kindSteps d kind) :
    st ∈ env.declRule d := by
  refine List.mem_append_right _ ?_
  rw [hk]
  exact h

/-- The rule of a declaration merges each declaration that feeds it. -/
theorem merge_mem_declRule : .merge e ∈ env.declRule d ↔ env.Feeds (.decl d) e := by
  refine ⟨explains_declRule, fun h => ?_⟩
  cases h with
  | site hg hv he =>
    refine List.mem_append_left _ ?_
    simp only [globalSteps, hg, hv]
    exact List.mem_cons_of_mem _ (mem_contributions.2 ⟨e, rfl, he⟩)
  | @part _ kind _ hk he =>
    refine mem_declRule_of_kind hk ?_
    cases kind <;> simp_all [kindSteps, DeclKind.parts]
  | overload hk hdoc hs =>
    refine mem_declRule_of_kind hk (List.mem_cons_of_mem _ (List.mem_map_of_mem ?_))
    exact List.mem_filter.2 ⟨hdoc, by simp [hs]⟩
  | annotation hk hdoc =>
    refine mem_declRule_of_kind hk (List.mem_cons_of_mem _ (List.mem_map_of_mem ?_))
    exact List.mem_append_left _ (List.mem_append_left _ (mem_annotations.2 hdoc))
  | assigned hk hdoc huse hset =>
    refine mem_declRule_of_kind hk (List.mem_cons_of_mem _ (List.mem_map_of_mem ?_))
    refine List.mem_append_left _ (List.mem_append_right _ ?_)
    rw [if_pos (isEmpty_annotations.2 hdoc)]
    exact List.mem_append_left _ (List.mem_filterMap.2 ⟨_, huse, by simp [hset]⟩)
  | receiver hk hdoc hr =>
    refine mem_declRule_of_kind hk (List.mem_cons_of_mem _ (List.mem_map_of_mem ?_))
    refine List.mem_append_left _ (List.mem_append_right _ ?_)
    rw [if_pos (isEmpty_annotations.2 hdoc)]
    exact List.mem_append_right _ (by simp [hr])
  | initial hk ha =>
    refine mem_declRule_of_kind hk (List.mem_cons_of_mem _ (List.mem_map_of_mem ?_))
    refine List.mem_append_right _ (List.mem_filter.2 ⟨by simp, ?_⟩)
    simpa using acceptsValue_iff.2 ha
  | @twin _ kind _ hk ha he =>
    refine mem_declRule_of_kind hk ?_
    have hmem : .merge e ∈ env.identitySteps d := identitySteps_eq ▸ mem_contributions.2 ⟨e, rfl, he⟩
    cases kind with
    | getMember base member => exact List.mem_append_left _ hmem
    | setMember base member value => exact hmem
    | _ => cases ha
  | token hk hp =>
    rcases hk with hk | hk <;> exact mem_declRule_of_kind hk (by simp [kindSteps, hp])
  | vararg hk hf hdoc hsays =>
    refine mem_declRule_of_kind hk ?_
    simp only [kindSteps, Arena.enclosingFunction?_eq_some.2 hf]
    refine List.mem_map_of_mem (List.mem_filter.2 ⟨hdoc, ?_⟩)
    rcases hsays with ⟨ty, hk⟩ | ⟨name, ty, hk, hname⟩
    · simp [hk]
    · simp [hk, hname]
  | @object _ c callee _ args hc hk hd =>
    have hmem : .merge e ∈ env.callSteps c callee (e :: args) 1 := by
      rw [callSteps, if_pos hd, if_pos rfl]
      cases args <;> simp [delegationSteps]
    cases hc with
    | call => exact mem_declRule_of_kind hk hmem
    | select hs => exact mem_declRule_of_kind hs (by simpa only [kindSteps, hk] using hmem)

/-- The rule of a declaration has each node that the declaration is by itself. -/
theorem own_mem_declRule {n : TypeNode} : .own n ∈ env.declRule d ↔ env.Owns d n := by
  constructor
  · intro h
    obtain ⟨d', hd, h⟩ := explains_declRule h
    cases hd
    exact h
  · intro h
    cases h with
    | link hg => exact List.mem_append_left _ (by simp [globalSteps, hg])
    | @leaf kind hk ht =>
      refine mem_declRule_of_kind hk ?_
      cases kind <;> simp_all [kindSteps, localSteps, DeclKind.isType]
    | name hk hg => exact mem_declRule_of_kind hk (by simp [kindSteps, hg])

theorem Owns.not_union {n : TypeNode} (h : env.Owns d n) : n.isUnion = false := by
  cases h <;> rfl

theorem explains_listSteps {f : DeclId} {exprs : List DeclId} {index : Nat} (hr : env.Returns f index exprs)
    (h : st ∈ env.listSteps exprs index) : env.Explains (.ret f index) st := by
  unfold listSteps at h
  cases index with
  | zero => cases h
  | succ position =>
    dsimp only at h
    split at h
    · next expr he =>
      split at h
      · next hk => exact explains_callSteps (.returned hr he) hk h
      · next hk =>
        cases List.mem_singleton.1 h
        exact Feeds.returned hr he hk
    · next hnone =>
      split at h
      · cases h
      · next expr he =>
        split at h
        · next hk =>
          exact explains_callSteps (.spread hr (Nat.lt_succ_of_le (List.getElem?_eq_none_iff.1 hnone)) he) hk h
        · cases h

theorem mem_returnTypes {f ty : DeclId} {index : Nat} :
    ty ∈ env.returnTypes f index ↔ ∃ doc ∈ env.arena.docs f, env.arena.kind? doc = some (.docReturn index ty) := by
  simp only [returnTypes, List.mem_filterMap]
  constructor
  · rintro ⟨doc, hdoc, h⟩
    split at h
    · next hk =>
      split at h
      · next hi => subst hi; cases h; exact ⟨doc, hdoc, hk⟩
      · cases h
    · cases h
  · rintro ⟨doc, hdoc, hk⟩
    exact ⟨doc, hdoc, by simp [hk]⟩

theorem explains_returnRule {f : DeclId} {index : Nat} (h : st ∈ env.returnRule f index) :
    env.Explains (.ret f index) st := by
  unfold returnRule at h
  split at h
  · next hnone =>
    have hdoc : ∀ doc ∈ env.arena.docs f, ∀ ty, env.arena.kind? doc ≠ some (.docReturn index ty) := by
      intro doc hdoc ty hk
      have hmem := mem_returnTypes.2 ⟨doc, hdoc, hk⟩
      rw [hnone] at hmem
      cases hmem
    unfold returnedSteps at h
    split at h
    · next hf =>
      obtain ⟨r, hr, h⟩ := List.mem_flatMap.1 h
      split at h
      · next hret => exact explains_listSteps ⟨hdoc, _, _, _, r, hf, hr, hret⟩ h
      · cases h
    · cases h
  · obtain ⟨ty, hty, rfl⟩ := List.mem_map.1 h
    obtain ⟨doc, hdoc, hk⟩ := mem_returnTypes.1 hty
    unfold returnTypeStep
    split
    · next sig hs =>
      split
      · exact ⟨f, index, sig, rfl, hs⟩
      · exact Feeds.returnType hdoc hk
    · exact Feeds.returnType hdoc hk

/-- The steps of a slot's rule. The rule of a substitution has none of them. -/
def rule (env : Env) : SlotKey → List Step
  | .decl d => env.declRule d
  | .ret f index => env.returnRule f index
  | .generic _ => []

theorem explains_of_mem_rule (h : st ∈ env.rule k) : env.Explains k st := by
  cases k with
  | decl d => exact explains_declRule h
  | ret f index => exact explains_returnRule h
  | generic i => cases h

end Env

end LuaInfer
