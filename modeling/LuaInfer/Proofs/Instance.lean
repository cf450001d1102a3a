import LuaInfer.Proofs.Firm
import LuaInfer.Proofs.Template
/-!
# Result types for one call

What a result type of a generic function is for a call, said without a session: a type parameter stands for the members of the
arguments that tell what it is (`Arena.typeArguments`), a union for all that its alternatives stand for, and any other type
expression for what it is by itself. `Arena.Instance` is this as a relation, read off the nodes that a cache has; there is at
most one list of members for a type expression (`Arena.Instance.unique`). `Bindings.of_sources` is what the inference of types
from arguments gives for a type parameter, and it is the same thing.
-/

namespace LuaInfer

/-! ## Type parameters and their arguments -/

namespace Arena

variable {a : Arena} {ty f call : DeclId} {p q : Atom} {c c' : NodeCache} {ms ms' : List TypeNode}

/-- The type expression is a name. -/
def Names (a : Arena) (ty : DeclId) (p : Atom) : Prop :=
  a.kind? ty = some (.tyGeneric p) ∨ a.kind? ty = some (.tyName p)

instance : Decidable (a.Names ty p) := inferInstanceAs (Decidable (_ ∨ _))

theorem Names.unique (h : a.Names ty p) (h' : a.Names ty q) : p = q := by
  rcases h with h | h <;> rcases h' with h' | h' <;> rw [h] at h' <;> cases h' <;> rfl

/-- The type expression is a name or has it as an alternative. -/
def Offers (a : Arena) (ty : DeclId) (p : Atom) : Bool :=
  match a.kind? ty with
  | some (.tyUnion alternatives) => alternatives.any fun alt => a.Names alt p
  | _ => a.Names ty p

/-- An annotation of the function declares the type parameter. -/
def IsTypeParam (a : Arena) (f : DeclId) (p : Atom) : Prop :=
  ∃ doc ∈ a.docs f, ∃ params, a.kind? doc = some (.docGeneric params) ∧ p ∈ params

/-- What a call passes to the function, in the order of its parameters: the object of a method comes first. -/
def passed (a : Arena) (call : DeclId) : List DeclId :=
  match a.kind? call with
  | some (.call callee args) =>
    match a.kind? callee with
    | some (.getMember base (.method _)) => base :: args
    | _ => args
  | _ => []

/-- The arguments that tell what a type parameter is: those that the call passes for parameters whose documented type is the
type parameter or has it as an alternative, in the order of the annotations. -/
def typeArguments (a : Arena) (f call : DeclId) (p : Atom) : List DeclId :=
  (a.docs f).filterMap fun doc =>
    match a.kind? doc with
    | some (.docParam name ty) =>
      if a.Offers ty p then
        ((a.params f).findIdx? fun d => a.localName? d == some name).bind fun position => (a.passed call)[position]?
      else none
    | _ => none

/-- The members that a type expression of `f` has for a call, where `c` tells the members of declarations. -/
inductive Instance (a : Arena) (c : NodeCache) (f call : DeclId) : DeclId → List TypeNode → Prop
  | param {ty : DeclId} {p : Atom} : a.Names ty p → a.IsTypeParam f p →
      (∀ arg ∈ a.typeArguments f call p, c.state? (.decl arg) = some .resolved) →
      Instance a c f call ty
        (Distinct.concat ((a.typeArguments f call p).map fun arg => c.members (c.node? (.decl arg))))
  | union {ty : DeclId} {alternatives : List DeclId} {parts : DeclId → List TypeNode} :
      a.kind? ty = some (.tyUnion alternatives) → (∀ alt ∈ alternatives, Instance a c f call alt (parts alt)) →
      Instance a c f call ty (Distinct.concat (alternatives.map parts))
  | other {ty : DeclId} {kind : DeclKind} : a.kind? ty = some kind → (∀ alternatives, kind ≠ .tyUnion alternatives) →
      (∀ p, a.Names ty p → ¬ a.IsTypeParam f p) → c.state? (.decl ty) = some .resolved →
      Instance a c f call ty (c.members (c.node? (.decl ty)))
  /-- There is no declaration, and it has no members. -/
  | missing {ty : DeclId} : a.kind? ty = none → Instance a c f call ty []

namespace Instance

theorem unique (h : a.Instance c f call ty ms) (h' : a.Instance c f call ty ms') : ms = ms' := by
  induction h generalizing ms' with
  | param hp htype _ =>
    cases h' with
    | param hp' _ _ => rw [hp.unique hp']
    | union hk _ => rcases hp with hp | hp <;> rw [hk] at hp <;> cases hp
    | other _ _ hnot _ => exact absurd htype (hnot _ hp)
    | missing hk => rcases hp with hp | hp <;> rw [hk] at hp <;> cases hp
  | union hk hparts ih =>
    cases h' with
    | param hp _ _ => rcases hp with hp | hp <;> rw [hk] at hp <;> cases hp
    | @union _ _ parts' hk' hparts' =>
      rw [hk] at hk'
      cases hk'
      rw [List.map_congr_left fun alt halt => ih alt halt (hparts' alt halt)]
    | other hk' hunion _ _ =>
      rw [hk] at hk'
      cases hk'
      exact absurd rfl (hunion _)
    | missing hk' => rw [hk] at hk'; cases hk'
  | other hk hunion hnot _ =>
    cases h' with
    | param hp htype _ => exact absurd htype (hnot _ hp)
    | union hk' _ =>
      rw [hk] at hk'
      cases hk'
      exact absurd rfl (hunion _)
    | other _ _ _ _ => rfl
    | missing hk' => rw [hk] at hk'; cases hk'
  | missing hk =>
    cases h' with
    | param hp _ _ => rcases hp with hp | hp <;> rw [hk] at hp <;> cases hp
    | union hk' _ => rw [hk] at hk'; cases hk'
    | other hk' _ _ _ => rw [hk] at hk'; cases hk'
    | missing _ => rfl

theorem nodup (h : a.Instance c f call ty ms) (hw : c.WellFormed) : ms.Nodup := by
  cases h with
  | param _ _ _ => exact Distinct.nodup_concat _
  | union _ _ => exact Distinct.nodup_concat _
  | other _ _ _ _ =>
    cases c.node? (.decl ty) with
    | none => exact List.nodup_nil
    | some n => exact hw.flatten_distinct
  | missing _ => exact List.nodup_nil

/-- It depends on nothing but the members of resolved slots. -/
theorem mono (hkeep : ∀ k, c.state? k = some .resolved →
      c'.state? k = some .resolved ∧ c'.members (c'.node? k) = c.members (c.node? k))
    (h : a.Instance c f call ty ms) : a.Instance c' f call ty ms := by
  induction h with
  | param hp htype hargs =>
    rw [← List.map_congr_left fun arg harg => (hkeep _ (hargs arg harg)).2]
    exact .param hp htype fun arg harg => (hkeep _ (hargs arg harg)).1
  | union hk _ ih => exact .union hk ih
  | other hk hunion hnot hst =>
    obtain ⟨hst', hmembers⟩ := hkeep _ hst
    rw [← hmembers]
    exact .other hk hunion hnot hst'
  | missing hk => exact .missing hk

end Instance

end Arena

/-! ## Types found in arguments -/

namespace Signature

variable {a : Arena} {f ty : DeclId} {p : Atom} {sig : Signature}

theorem mem_params_foldl {names : List Atom} {s : Signature} :
    p ∈ (names.foldl register s).params ↔ p ∈ s.params ∨ p ∈ names := by
  induction names generalizing s with
  | nil => simp
  | cons name names ih =>
    rw [List.foldl_cons, ih]
    simp [register, or_assoc]

/-- The signature of a function has its type parameters. -/
theorem any_isRegistered : (Signature.of? a f).any (·.isRegistered p) = true ↔ a.IsTypeParam f p := by
  unfold of?
  dsimp only
  generalize hnames : List.flatMap _ (a.docs f) = names
  have hmem : p ∈ names ↔ a.IsTypeParam f p := by
    rw [← hnames, List.mem_flatMap]
    refine exists_congr fun doc => and_congr_right fun _ => ?_
    split
    · next params hk => simp [hk]
    · next hne => simpa using fun params hk => absurd hk (hne params)
  have hparams : p ∈ (names.foldl register { func := f }).params ↔ a.IsTypeParam f p := by
    rw [mem_params_foldl, hmem]
    simp
  split
  · next hnil =>
    rw [List.isEmpty_iff.1 hnil] at hparams
    simpa using hparams
  · simpa [isRegistered] using hparams

/-- What is replaced in a type expression are the type parameters that it names. -/
theorem bind_paramUse?_eq_some {kind : DeclKind} (hk : a.kind? ty = some kind) :
    ((Signature.of? a f).bind (·.paramUse? kind) = some p) ↔ a.Names ty p ∧ a.IsTypeParam f p := by
  have hname : a.Names ty p ↔ kind = .tyGeneric p ∨ kind = .tyName p := by simp [Arena.Names, hk]
  rw [hname, ← any_isRegistered]
  cases Signature.of? a f with
  | none => simp
  | some sig => cases kind <;> grind [paramUse?]

theorem bind_paramUse?_eq_none {kind : DeclKind} (hk : a.kind? ty = some kind)
    (h : (Signature.of? a f).bind (·.paramUse? kind) = none) : ∀ p, a.Names ty p → ¬ a.IsTypeParam f p := by
  intro p hp htype
  rw [(bind_paramUse?_eq_some hk).2 ⟨hp, htype⟩] at h
  cases h

theorem mem_directUses (hsig : Signature.of? a f = some sig) (hp : a.IsTypeParam f p) :
    p ∈ sig.directUses a ty ↔ a.Offers ty p = true := by
  have huse : ∀ alt kind, a.kind? alt = some kind → (sig.paramUse? kind = some p ↔ a.Names alt p) := by
    intro alt kind hk
    have h := bind_paramUse?_eq_some (f := f) (p := p) hk
    rw [hsig] at h
    simpa [hp] using h
  unfold directUses Arena.Offers
  split
  · next hk => simp [Arena.Names, hk]
  · next alternatives hk =>
    simp only [hk, List.mem_filterMap, List.any_eq_true, decide_eq_true_eq, Option.bind_eq_some_iff]
    refine exists_congr fun alt => and_congr_right fun _ => ⟨?_, fun hn => ?_⟩
    · rintro ⟨kind, hkind, hu⟩
      exact (huse alt kind hkind).1 hu
    · obtain ⟨kind, hkind⟩ : ∃ kind, a.kind? alt = some kind := by rcases hn with hn | hn <;> exact ⟨_, hn⟩
      exact ⟨kind, hkind, (huse alt kind hkind).2 hn⟩
  · next kind hne hk =>
    simp only [hk, Option.mem_toList]
    rw [huse ty kind hk]
    split
    · next alternatives heq => exact absurd (Option.some.inj heq) (hne alternatives)
    · simp

end Signature

theorem Env.argument?_eq (env : Env) (call : DeclId) (position : Nat) :
    env.argument? call position = (env.arena.passed call)[position]? := by
  unfold Env.argument? Arena.passed
  rcases env.arena.kind? call with _ | kind
  · rfl
  · cases kind with
    | call callee args =>
      dsimp only
      rcases env.arena.kind? callee with _ | kind
      · rfl
      · cases kind with
        | getMember base member =>
          cases member with
          | method key => cases position <;> rfl
          | _ => rfl
        | _ => rfl
    | _ => rfl

/-- Of the arguments from which types are inferred, those that are for one type parameter. -/
theorem Env.inferenceSources_filter {env : Env} {f : DeclId} {p : Atom} (call : DeclId) (hp : env.arena.IsTypeParam f p) :
    ((env.inferenceSources f call).filter fun source => p ∈ source.1).map Prod.snd = env.arena.typeArguments f call p := by
  unfold Env.inferenceSources
  split
  · next hnone =>
    rw [← Signature.any_isRegistered, hnone] at hp
    cases hp
  · next sig hsig =>
    rw [List.filter_filterMap, List.map_filterMap, Arena.typeArguments]
    refine List.filterMap_congr fun doc _ => ?_
    rcases hk : env.arena.kind? doc with _ | kind
    · rfl
    · cases kind with
      | docParam name ty =>
        dsimp only
        have huses : p ∈ sig.directUses env.arena ty ↔ env.arena.Offers ty p = true := Signature.mem_directUses hsig hp
        simp only [← huses, Env.argument?_eq]
        generalize sig.directUses env.arena ty = uses
        generalize List.findIdx? _ (env.arena.params f) = position?
        by_cases hmem : p ∈ uses
        · have hne : uses ≠ [] := List.ne_nil_of_mem hmem
          cases position? with
          | none => simp [hmem, hne]
          | some position => cases harg : (env.arena.passed call)[position]? <;> simp [hmem, hne, harg]
        · rw [if_neg hmem, Option.map_eq_none_iff, Option.filter_eq_none_iff]
          rintro ⟨uses', arg⟩ hsource
          simp only [Option.bind_eq_bind, Option.bind_eq_some_iff, Option.pure_def, Option.some.injEq, Prod.mk.injEq] at hsource
          obtain ⟨_, _, _, _, _, _, rfl, -⟩ := hsource
          simpa using hmem
      | _ => rfl

/-- What is found for a type parameter are the members of the arguments that are for it. An argument may be for it more
than once, which makes no difference. -/
theorem Bindings.of_sources (g : DeclId → List TypeNode) (sources : List (List Atom × DeclId)) (p : Atom) :
    Bindings.of (sources.map fun source => source.1.map fun param => (param, g source.2)).flatten p =
      Distinct.concat (((sources.filter fun source => p ∈ source.1).map Prod.snd).map g) := by
  have hone : ∀ (uses : List Atom) (ms acc : List TypeNode),
      ((uses.map fun param => (param, ms)).filter fun entry => entry.1 = p).foldl
        (fun acc entry => Distinct.append acc entry.2) acc = if p ∈ uses then Distinct.append acc ms else acc := by
    intro uses ms
    induction uses with
    | nil => intro acc; rfl
    | cons use uses ih =>
      intro acc
      by_cases huse : use = p
      · subst huse
        simp [ih, Distinct.append_append_self]
      · simp [ih, huse, Ne.symm huse]
  have hall : ∀ acc, ((sources.map fun source => source.1.map fun param => (param, g source.2)).flatten.filter
      fun entry => entry.1 = p).foldl (fun acc entry => Distinct.append acc entry.2) acc =
        (((sources.filter fun source => p ∈ source.1).map Prod.snd).map g).foldl Distinct.append acc := by
    induction sources with
    | nil => intro acc; rfl
    | cons source sources ih =>
      intro acc
      rw [List.map_cons, List.flatten_cons, List.filter_append, List.foldl_append, hone, ih]
      by_cases hmem : p ∈ source.1 <;> simp [hmem]
  exact hall []

end LuaInfer
