import LuaInfer.Proofs.Cache
import LuaInfer.Proofs.Paths
import Mathlib.Data.List.Basic
/-!
# The registry is a forest

A global is known in three places: a top-level one is noted under its category and name, a member is noted by its parent
under its key, and every global knows its own name and parent. `Registry.Forest` says that the three agree, and that parents are
older than their members. Every operation keeps this (`Registry.Forest.step`), so it holds after every run of operations.

To follow a path through the notes leads to the one global whose path it is (`Registry.Forest.follow?_iff`). No operation changes
what a global is, and so a path leads to the same global ever after. The sites of a global are those that were added while it was
there (`Registry.registered`), each in the place of its first arrival.
-/

namespace LuaInfer

namespace Registry

variable {r : Registry} {g g' parent : GlobalId} {category : Category} {name key : Atom}
  {keys : List Atom} {d : DeclId}

/-! ## Runs -/

/-- What may be done with a registry. -/
inductive Op where
  | ensure (category : Category) (name : Atom)
  | ensureField (parent : GlobalId) (key : Atom)
  | addSite (g : GlobalId) (d : DeclId)

/-- The registry after an operation. -/
def step (r : Registry) : Op → Registry
  | .ensure category name => (r.ensure category name).2
  | .ensureField parent key => (r.ensureField parent key).2
  | .addSite g d => r.addSite g d

/-- The registry after one operation after the other. -/
def run (r : Registry) (ops : List Op) : Registry := ops.foldl step r

/-- A member is made of a global that is there. -/
def Allows (r : Registry) : Op → Prop
  | .ensureField parent _ => parent.index < r.size
  | .ensure .. | .addSite .. => True

/-- Each operation is allowed when its turn comes. -/
def AllowsAll : Registry → List Op → Prop
  | _, [] => True
  | r, op :: ops => r.Allows op ∧ (r.step op).AllowsAll ops

instance decidableAllows (r : Registry) (op : Op) : Decidable (r.Allows op) :=
  match op with
  | .ensureField parent _ => inferInstanceAs (Decidable (parent.index < r.size))
  | .ensure .. | .addSite .. => .isTrue trivial

instance decidableAllowsAll (r : Registry) (ops : List Op) : Decidable (r.AllowsAll ops) :=
  match ops with
  | [] => .isTrue trivial
  | op :: ops =>
    have := decidableAllowsAll (r.step op) ops
    inferInstanceAs (Decidable (r.Allows op ∧ (r.step op).AllowsAll ops))

/-- The site that an operation adds to a global, if the global is there. -/
def added? (r : Registry) (g : GlobalId) : Op → Option DeclId
  | .addSite g' d => if g' = g ∧ g.index < r.size then some d else none
  | .ensure .. | .ensureField .. => none

/-- The sites that operations add to a global while it is there, with repetitions. -/
def registered (g : GlobalId) : Registry → List Op → List DeclId
  | _, [] => []
  | r, op :: ops => (r.added? g op).toList ++ registered g (r.step op) ops

/-! ## Three views of one forest -/

/-- What is noted of globals is what they are, and a member is younger than its parent. -/
structure Forest (r : Registry) : Prop where
  labelled : r.Labelled
  /-- A global without parent is noted under its category and name. -/
  root : ∀ g category name, r.label? g = some (category, none, name) → r.get? category name = some g
  /-- A member is a variable, it is younger than its parent, and the parent notes it under its name. -/
  member : ∀ g category parent key, r.label? g = some (category, some parent, key) →
    category = .var ∧ parent.index < g.index ∧ r.getField? parent key = some g

theorem forest_empty : empty.Forest := by
  have hlabel : ∀ g, empty.label? g = none := fun g => by simp [label?, entity?, empty]
  refine ⟨Lists.empty.labelled, fun g c n h => ?_, fun g c p k h => ?_⟩ <;> rw [hlabel] at h <;> cases h

namespace Forest

theorem ensure (h : r.Forest) (category : Category) (name : Atom) : (r.ensure category name).2.Forest where
  labelled := h.labelled.ensure category name
  root g c n hl := by
    have hlabel := hl
    rw [label?_ensure] at hl
    split at hl
    · next hg =>
      cases hl
      rw [hg, get?_ensure]
    · exact ((extends_ensure r category name).root c n g (index_lt_of_label? hl)).2 (h.root g c n hl)
  member g c p k hl := by
    rw [label?_ensure] at hl
    split at hl
    · cases hl
    · rw [getField?_ensure]
      exact h.member g c p k hl

/-- The member that is asked for is younger than its parent. -/
theorem index_lt_ensureField (h : r.Forest) (hp : parent.index < r.size) (key : Atom) :
    parent.index < (r.ensureField parent key).1.index := by
  cases hf : r.getField? parent key with
  | some g =>
    rw [ensureField_of_some hf]
    exact (h.member g _ parent key (h.labelled parent key g hf)).2.1
  | none =>
    rw [ensureField_of_none hf]
    exact hp

theorem ensureField (h : r.Forest) (hp : parent.index < r.size) (key : Atom) : (r.ensureField parent key).2.Forest where
  labelled := h.labelled.ensureField hp key
  root g c n hl := by
    rw [label?_ensureField h.labelled] at hl
    split at hl
    · cases hl
    · rw [get?_ensureField]
      exact h.root g c n hl
  member g c p k hl := by
    rw [label?_ensureField h.labelled] at hl
    split at hl
    · next hg =>
      cases hl
      rw [hg, getField?_ensureField hp, if_pos ⟨rfl, rfl⟩]
      exact ⟨rfl, h.index_lt_ensureField hp key, rfl⟩
    · obtain ⟨hc, hlt, hf⟩ := h.member g c p k hl
      exact ⟨hc, hlt, ((extends_ensureField hp).field p k g (index_lt_of_label? hl)).2 hf⟩

theorem addSite (h : r.Forest) (g : GlobalId) (d : DeclId) : (r.addSite g d).Forest where
  labelled := h.labelled.addSite g d
  root g' c n hl := by
    rw [label?_addSite] at hl
    rw [get?_addSite]
    exact h.root g' c n hl
  member g' c p k hl := by
    rw [label?_addSite] at hl
    rw [getField?_addSite]
    exact h.member g' c p k hl

/-- One operation keeps a forest. -/
theorem step (h : r.Forest) {op : Op} (hop : r.Allows op) : (r.step op).Forest := by
  cases op with
  | ensure category name => exact h.ensure category name
  | ensureField parent key => exact h.ensureField hop key
  | addSite g d => exact h.addSite g d

theorem run (h : r.Forest) {ops : List Op} (hops : r.AllowsAll ops) : (r.run ops).Forest := by
  induction ops generalizing r with
  | nil => exact h
  | cons op ops ih => exact ih (h.step hops.1) hops.2

theorem get?_iff (h : r.Forest) : r.get? category name = some g ↔ r.label? g = some (category, none, name) :=
  ⟨label?_of_get?, h.root g category name⟩

theorem getField?_iff (h : r.Forest) : r.getField? parent key = some g ↔ ∃ c, r.label? g = some (c, some parent, key) :=
  ⟨fun hf => ⟨_, h.labelled parent key g hf⟩, fun ⟨c, hl⟩ => (h.member g c parent key hl).2.2⟩

end Forest

/-! ## What a global is stays so -/

theorem label?_step {op : Op} {l : Category × Option GlobalId × Atom} (h : r.label? g = some l) :
    (r.step op).label? g = some l := by
  cases op with
  | ensure category name => exact label?_ensure_of_some h
  | ensureField parent key => exact label?_ensureField_of_some h
  | addSite g' d => exact label?_addSite.trans h

theorem label?_run {ops : List Op} {l : Category × Option GlobalId × Atom} (h : r.label? g = some l) :
    (r.run ops).label? g = some l := by
  induction ops generalizing r with
  | nil => exact h
  | cons op ops ih => exact ih (label?_step h)

/-! ## Paths -/

/-- The member that is asked for has the path of its parent and the key. -/
theorem Path.ensureField (hl : r.Labelled) (h : r.Path parent category name keys) (key : Atom) :
    (r.ensureField parent key).2.Path (r.ensureField parent key).1 category name (keys ++ [key]) := by
  have hlabel : (r.ensureField parent key).2.label? (r.ensureField parent key).1 = some (.var, some parent, key) := by
    rw [label?_ensureField hl, if_pos rfl]
  exact .member (h.mono fun _ _ => label?_ensureField_of_some) hlabel

namespace Forest

/-- To follow a path leads to the global whose path it is. -/
theorem follow?_iff (h : r.Forest) : r.follow? category name keys = some g ↔ r.Path g category name keys := by
  constructor
  · exact h.labelled.path_of_follow?
  · intro hp
    induction hp with
    | root hl => exact h.root _ _ _ hl
    | member _ hl ih =>
      rw [follow?_concat, ih]
      exact (h.member _ _ _ _ hl).2.2

/-- Every global has a path. By induction on its age, since parents are older. -/
theorem exists_path (h : r.Forest) (hg : g.index < r.size) : ∃ category name keys, r.Path g category name keys := by
  induction hi : g.index using Nat.strongRecOn generalizing g with
  | _ i ih =>
    subst hi
    obtain ⟨e, he⟩ : ∃ e, r.entity? g = some e := ⟨_, Array.getElem?_eq_getElem hg⟩
    have hl : r.label? g = some (e.category, e.parent, e.name) := by rw [label?, he, Option.map_some]
    cases hparent : e.parent with
    | none =>
      rw [hparent] at hl
      exact ⟨_, _, _, .root hl⟩
    | some p =>
      rw [hparent] at hl
      obtain ⟨-, hlt, hf⟩ := h.member _ _ _ _ hl
      obtain ⟨c, n, keys, hp⟩ := ih p.index hlt (index_lt_of_getField? hf) rfl
      exact ⟨c, n, _, .member hp hl⟩

theorem path_inj (h : r.Forest) (hp : r.Path g category name keys) (hp' : r.Path g' category name keys) : g = g' :=
  Option.some.inj ((h.follow?_iff.2 hp).symm.trans (h.follow?_iff.2 hp'))

end Forest

/-! ## Sites -/

theorem sites_addSite_of_size_le (h : r.size ≤ g.index) : (r.addSite g d).sites g' = r.sites g' := by
  unfold sites addSite
  rw [entity?_modify]
  by_cases hg : g'.index = g.index
  · have hnone : r.entity? g' = none := Array.getElem?_eq_none (by rw [hg]; exact h)
    rw [if_pos hg, hnone, Option.map_none]
  · rw [if_neg hg]

theorem sites_step {op : Op} : (r.step op).sites g = Distinct.append (r.sites g) (r.added? g op).toList := by
  cases op with
  | ensure category name => exact sites_ensure
  | ensureField parent key => exact sites_ensureField
  | addSite g' d =>
    by_cases hlt : g'.index < r.size
    · rw [step, sites_addSite hlt, added?]
      by_cases hg : g = g'
      · subst hg
        rw [if_pos rfl, if_pos ⟨rfl, hlt⟩]
        rfl
      · rw [if_neg hg, if_neg fun h => hg h.1.symm]
        rfl
    · rw [step, sites_addSite_of_size_le (Nat.le_of_not_lt hlt), added?, if_neg]
      · rfl
      · rintro ⟨rfl, h⟩
        exact hlt h

theorem sites_run (r : Registry) (ops : List Op) (g : GlobalId) :
    (r.run ops).sites g = Distinct.append (r.sites g) (registered g r ops) := by
  induction ops generalizing r with
  | nil => rfl
  | cons op ops ih =>
    refine (ih (r.step op)).trans ?_
    rw [sites_step, registered, Distinct.append_append]

/-! ## All of it -/

/-- After any operations, members made of globals that are there: parents are older than their members, and members are variables;
a global is noted by name, or by its parent under its key, exactly if that is what it is. To follow a path leads to the
one global whose path it is, and every global has just one. To ask for what is there changes nothing, and what is asked for
is there afterwards. Whatever is done later, globals stay what they are and are found where they were. The sites of a global are
those added while it was there, each once, in the order of their first arrival. -/
theorem run_forest {ops : List Op} (h : empty.AllowsAll ops) : ∃ r, empty.run ops = r ∧
    (∀ g category parent key, r.label? g = some (category, some parent, key) →
      category = .var ∧ parent.index < g.index) ∧
    (∀ category name g, r.get? category name = some g ↔ r.label? g = some (category, none, name)) ∧
    (∀ parent key g, r.getField? parent key = some g ↔ ∃ c, r.label? g = some (c, some parent, key)) ∧
    (∀ category name keys g, r.follow? category name keys = some g ↔ r.Path g category name keys) ∧
    (∀ g, g.index < r.size → ∃ category name keys, r.Path g category name keys) ∧
    (∀ g category name keys g' category' name' keys', r.Path g category name keys → r.Path g' category' name' keys' →
      (g = g' ↔ category = category' ∧ name = name' ∧ keys = keys')) ∧
    (∀ category name, (∀ g, r.Path g category name [] → r.ensure category name = (g, r)) ∧
      (r.ensure category name).2.follow? category name [] = some (r.ensure category name).1) ∧
    (∀ parent category name keys key, r.Path parent category name keys →
      (∀ g, r.Path g category name (keys ++ [key]) → r.ensureField parent key = (g, r)) ∧
      (r.ensureField parent key).2.follow? category name (keys ++ [key]) = some (r.ensureField parent key).1) ∧
    (∀ more, r.AllowsAll more → (∀ g l, r.label? g = some l → (r.run more).label? g = some l) ∧
      ∀ category name keys g, r.follow? category name keys = some g →
        (r.run more).follow? category name keys = some g) ∧
    ∀ g, (r.sites g).Nodup ∧ (∀ d, d ∈ r.sites g ↔ d ∈ registered g empty ops) ∧
      (r.sites g).Pairwise fun d e => (registered g empty ops).idxOf d < (registered g empty ops).idxOf e := by
  have hr : (empty.run ops).Forest := forest_empty.run h
  refine ⟨empty.run ops, rfl, ?_, fun _ _ _ => hr.get?_iff, fun _ _ _ => hr.getField?_iff,
    fun _ _ _ _ => hr.follow?_iff, fun _ => hr.exists_path, ?_, ?_, ?_, ?_, ?_⟩
  · intro g category parent key hl
    obtain ⟨hc, hlt, -⟩ := hr.member g category parent key hl
    exact ⟨hc, hlt⟩
  · intro g category name keys g' category' name' keys' hp hp'
    constructor
    · rintro rfl
      exact hp.unique hp'
    · rintro ⟨rfl, rfl, rfl⟩
      exact hr.path_inj hp hp'
  · intro category name
    exact ⟨fun g hp => ensure_of_some (hr.follow?_iff.2 hp), get?_ensure (empty.run ops) category name⟩
  · intro parent category name keys key hp
    have hmade : ((empty.run ops).ensureField parent key).2.Forest := hr.ensureField hp.index_lt key
    refine ⟨fun g hg => ensureField_of_some ?_, hmade.follow?_iff.2 (hp.ensureField hr.labelled key)⟩
    have hf := hr.follow?_iff.2 hg
    rwa [follow?_concat, hr.follow?_iff.2 hp] at hf
  · intro more hmore
    refine ⟨fun g l => label?_run, fun category name keys g hf => ?_⟩
    exact (hr.run hmore).follow?_iff.2 ((hr.follow?_iff.1 hf).mono fun _ _ => label?_run)
  · intro g
    have hsites : (empty.run ops).sites g = Distinct.append [] (registered g empty ops) := sites_run empty ops g
    rw [hsites]
    exact ⟨Distinct.nodup_append List.nodup_nil _, fun d => by simp, Distinct.pairwise_idxOf _⟩

/-- A variable with a member that has a member of the same key, a type of the name of the variable, and sites of the last
member, one of which is added before there is such a member, and one twice. -/
def sampleOps : List Op :=
  [.ensure .var ⟨1⟩, .ensureField ⟨0⟩ ⟨2⟩, .ensure .type ⟨1⟩, .addSite ⟨3⟩ ⟨5⟩, .ensureField ⟨1⟩ ⟨2⟩, .addSite ⟨3⟩ ⟨9⟩,
    .addSite ⟨3⟩ ⟨4⟩, .ensureField ⟨0⟩ ⟨2⟩, .addSite ⟨3⟩ ⟨9⟩]

theorem run_forest_members : empty.AllowsAll sampleOps ∧ ∃ r, empty.run sampleOps = r ∧ r.size = 4 ∧
    r.Path ⟨3⟩ .var ⟨1⟩ [⟨2⟩, ⟨2⟩] ∧ r.follow? .type ⟨1⟩ [⟨2⟩] = none ∧ r.ensureField ⟨1⟩ ⟨2⟩ = (⟨3⟩, r) ∧
    r.sites ⟨3⟩ = [⟨9⟩, ⟨4⟩] ∧ ∀ d, d ∈ r.sites ⟨3⟩ ↔ d ∈ registered ⟨3⟩ empty sampleOps := by
  have hallows : empty.AllowsAll sampleOps := by decide
  obtain ⟨r, hr, -, -, -, hfollow, -, -, -, hmember, -, hsites⟩ := run_forest hallows
  have hparent : r.Path ⟨1⟩ .var ⟨1⟩ [⟨2⟩] := (hfollow _ _ _ _).1 (hr ▸ by decide)
  have hpath : r.Path ⟨3⟩ .var ⟨1⟩ ([⟨2⟩] ++ [⟨2⟩]) := (hfollow _ _ _ _).1 (hr ▸ by decide)
  refine ⟨hallows, r, hr, hr ▸ by decide, hpath, hr ▸ by decide, ?_, hr ▸ by decide, (hsites ⟨3⟩).2.1⟩
  exact (hmember ⟨1⟩ .var ⟨1⟩ [⟨2⟩] ⟨2⟩ hparent).1 ⟨3⟩ hpath

end Registry

end LuaInfer
