import LuaInfer.Registry
import Mathlib.Data.List.Induction
/-!
# Paths through the registry

A path is a name followed by keys, and it leads from a top-level global to one of its members, to a member of that, and so
on. A global knows its name and its parent, so it has one path (`Registry.Path.unique`), and different paths lead to different
globals (`Registry.at?_injective`). Making a global leaves every path that led somewhere where it led, and no old global gets a
second path (`Registry.Extends.at?_iff`).

What a registry tells of its sites is a list for each path. `Registry.Lists` gives these lists, and says how each operation
changes them.
-/

namespace LuaInfer

namespace Registry

/-- The global that is found by category and name, and then key after key. -/
def follow? (r : Registry) (category : Category) (name : Atom) (keys : List Atom) : Option GlobalId :=
  keys.foldl (fun g? key => g?.bind (r.getField? · key)) (r.get? category name)

/-- The global that a path from a variable leads to. -/
def at? (r : Registry) : List Atom → Option GlobalId
  | [] => none
  | name :: keys => keys.foldl (fun g? key => g?.bind (r.getField? · key)) (r.get? .var name)

/-- The sites of the global that a path leads to. -/
def sitesAt (r : Registry) (path : List Atom) : List DeclId :=
  match r.at? path with
  | some g => r.sites g
  | none => []

/-- What a global is: its category, its parent and its name or key. -/
def label? (r : Registry) (g : GlobalId) : Option (Category × Option GlobalId × Atom) :=
  (r.entity? g).map fun e => (e.category, e.parent, e.name)

/-- Members know whose members they are, and under which key. -/
def Labelled (r : Registry) : Prop :=
  ∀ parent key g, r.getField? parent key = some g → r.label? g = some (.var, some parent, key)

/-- The category and name of the top-level global above a global, and the keys that lead down from there. -/
inductive Path (r : Registry) : GlobalId → Category → Atom → List Atom → Prop
  | root {g : GlobalId} {category : Category} {name : Atom} (h : r.label? g = some (category, none, name)) :
    Path r g category name []
  | member {g parent : GlobalId} {category c : Category} {name key : Atom} {keys : List Atom}
    (hp : Path r parent category name keys) (h : r.label? g = some (c, some parent, key)) :
    Path r g category name (keys ++ [key])

variable {r r' : Registry} {g g' parent : GlobalId} {name name' key : Atom} {category category' : Category}
  {path path' keys keys' : List Atom}

theorem follow?_concat : r.follow? category name (keys ++ [key]) =
    (r.follow? category name keys).bind (r.getField? · key) := by
  simp [follow?]

theorem at?_snoc (h : path ≠ []) : r.at? (path ++ [key]) = (r.at? path).bind (r.getField? · key) := by
  cases path with
  | nil => exact absurd rfl h
  | cons name keys => exact follow?_concat

theorem ne_nil_of_at? (h : r.at? path = some g) : path ≠ [] := by
  rintro rfl
  cases h

theorem at?_of_field (h : r.at? path = some parent) (hf : r.getField? parent key = some g) :
    r.at? (path ++ [key]) = some g := by
  rw [at?_snoc (ne_nil_of_at? h), h]
  exact hf

/-- A path leads to a global variable, or to a member of what the path without its last key leads to. -/
theorem at?_cases (h : r.at? path = some g) : (∃ name, path = [name] ∧ r.get? .var name = some g) ∨
    ∃ path' key parent, path = path' ++ [key] ∧ r.at? path' = some parent ∧ r.getField? parent key = some g := by
  rcases List.eq_nil_or_concat path with rfl | ⟨path', key, rfl⟩
  · cases h
  · rw [List.concat_eq_append] at h ⊢
    by_cases hp : path' = []
    · subst hp
      exact .inl ⟨key, rfl, h⟩
    · rw [at?_snoc hp] at h
      obtain ⟨parent, hat, hf⟩ := Option.bind_eq_some_iff.1 h
      exact .inr ⟨path', key, parent, rfl, hat, hf⟩

theorem label?_of_get? (h : r.get? category name = some g) : r.label? g = some (category, none, name) := by
  obtain ⟨e, he, hparent, hcategory, hname⟩ := r.rooted category name g h
  rw [label?, entity?, he, Option.map_some, hparent, hcategory, hname]

theorem index_lt_of_label? {l} (h : r.label? g = some l) : g.index < r.size := by
  obtain ⟨e, he, -⟩ := Option.map_eq_some_iff.1 h
  exact (Array.getElem?_eq_some_iff.1 he).1

theorem index_lt_of_getField? (h : r.getField? parent key = some g) : parent.index < r.size := by
  obtain ⟨e, he, -⟩ := Option.bind_eq_some_iff.1 h
  exact (Array.getElem?_eq_some_iff.1 he).1

theorem Labelled.index_lt (hl : r.Labelled) (h : r.at? path = some g) : g.index < r.size := by
  rcases at?_cases h with ⟨name, -, hg⟩ | ⟨_, key, parent, -, -, hf⟩
  · exact index_lt_of_label? (label?_of_get? hg)
  · exact index_lt_of_label? (hl _ _ _ hf)

/-- Where a path leads to a member of a global, the path without its last key leads to that global. -/
theorem Labelled.at?_member (hl : r.Labelled) (hf : r.getField? parent key = some g) :
    r.at? path = some g ↔ ∃ path', path = path' ++ [key] ∧ r.at? path' = some parent := by
  constructor
  · intro h
    have hlabel := hl _ _ _ hf
    rcases at?_cases h with ⟨name, -, hg⟩ | ⟨path', key', parent', rfl, hat, hf'⟩
    · rw [label?_of_get? hg] at hlabel
      cases hlabel
    · rw [hl _ _ _ hf'] at hlabel
      cases hlabel
      exact ⟨path', rfl, hat⟩
  · rintro ⟨path', rfl, hat⟩
    exact at?_of_field hat hf

/-- A path leads to a global variable only if it is the name of it. -/
theorem at?_root (h : r.get? category name = some g) (hl : r.Labelled) :
    r.at? path = some g ↔ category = .var ∧ path = [name] := by
  constructor
  · intro hp
    have hlabel := label?_of_get? h
    rcases at?_cases hp with ⟨name', rfl, hg⟩ | ⟨path', key', parent', rfl, hat, hf'⟩
    · rw [label?_of_get? hg] at hlabel
      cases hlabel
      exact ⟨rfl, rfl⟩
    · rw [hl _ _ _ hf'] at hlabel
      cases hlabel
  · rintro ⟨rfl, rfl⟩
    exact h

/-- A global has one path: its label tells the last key and the parent, whose path is the rest. -/
theorem Path.unique (h : r.Path g category name keys) (h' : r.Path g category' name' keys') :
    category = category' ∧ name = name' ∧ keys = keys' := by
  induction h generalizing keys' with
  | root hl =>
    cases h' with
    | root hl' => rw [hl] at hl'; cases hl'; exact ⟨rfl, rfl, rfl⟩
    | member _ hl' => rw [hl] at hl'; cases hl'
  | member _ hl ih =>
    cases h' with
    | root hl' => rw [hl] at hl'; cases hl'
    | member hp' hl' =>
      rw [hl] at hl'
      cases hl'
      obtain ⟨hc, hn, rfl⟩ := ih hp'
      exact ⟨hc, hn, rfl⟩

/-- Where globals stay what they are, they keep their paths. -/
theorem Path.mono (hkeep : ∀ g l, r.label? g = some l → r'.label? g = some l) (h : r.Path g category name keys) :
    r'.Path g category name keys := by
  induction h with
  | root hl => exact .root (hkeep _ _ hl)
  | member _ hl ih => exact .member ih (hkeep _ _ hl)

theorem Path.index_lt (h : r.Path g category name keys) : g.index < r.size := by
  cases h with
  | root hl | member _ hl => exact index_lt_of_label? hl

theorem Labelled.path_of_follow? (hl : r.Labelled) (h : r.follow? category name keys = some g) :
    r.Path g category name keys := by
  induction keys using List.reverseRecOn generalizing g with
  | nil => exact .root (label?_of_get? h)
  | append_singleton keys key ih =>
    rw [follow?_concat] at h
    obtain ⟨parent, hp, hf⟩ := Option.bind_eq_some_iff.1 h
    exact .member (ih hp) (hl parent key g hf)

/-- Different paths lead to different globals. -/
theorem at?_injective (hl : r.Labelled) (h : r.at? path = some g) (h' : r.at? path' = some g) : path = path' := by
  cases path with
  | nil => cases h
  | cons name keys =>
    cases path' with
    | nil => cases h'
    | cons name' keys' =>
      obtain ⟨-, rfl, rfl⟩ := (hl.path_of_follow? h).unique (hl.path_of_follow? h')
      rfl

/-! ## Making globals -/

/-- Globals of `r` keep their names and members in `r'`, and no other names and members come to mean them. -/
structure Extends (r r' : Registry) : Prop where
  size : r.size ≤ r'.size
  root : ∀ category name g, g.index < r.size → (r'.get? category name = some g ↔ r.get? category name = some g)
  field : ∀ parent key g, g.index < r.size → (r'.getField? parent key = some g ↔ r.getField? parent key = some g)

theorem Extends.refl (r : Registry) : r.Extends r := ⟨Nat.le_refl _, fun _ _ _ _ => .rfl, fun _ _ _ _ => .rfl⟩

theorem Extends.at?_iff (h : r.Extends r') (hg : g.index < r.size) :
    r'.at? path = some g ↔ r.at? path = some g := by
  induction path using List.reverseRecOn generalizing g with
  | nil => exact ⟨nofun, nofun⟩
  | append_singleton path key ih =>
    by_cases hp : path = []
    · subst hp
      exact h.root .var key g hg
    · rw [at?_snoc hp, at?_snoc hp, Option.bind_eq_some_iff, Option.bind_eq_some_iff]
      constructor
      · rintro ⟨parent, hat, hf⟩
        have hf := (h.field parent key g hg).1 hf
        exact ⟨parent, (ih (index_lt_of_getField? hf)).1 hat, hf⟩
      · rintro ⟨parent, hat, hf⟩
        exact ⟨parent, (ih (index_lt_of_getField? hf)).2 hat, (h.field parent key g hg).2 hf⟩

theorem entity?_push {parent : Option GlobalId} : (r.push category name parent).2.entity? g =
    if g = ⟨r.size⟩ then some { category, name, parent } else r.entity? g := by
  cases g
  simp [entity?, push, size, Array.getElem?_push]

theorem entity?_size : r.entity? ⟨r.size⟩ = none := by simp [entity?, size]

theorem size_push {parent : Option GlobalId} : (r.push category name parent).2.size = r.size + 1 := by
  simp [push, size]

theorem label?_push {parent : Option GlobalId} : (r.push category name parent).2.label? g =
    if g = ⟨r.size⟩ then some (category, parent, name) else r.label? g := by
  unfold label?
  rw [entity?_push]
  split <;> rfl

/-- What is there keeps its label: the new global has a handle of its own. -/
theorem label?_push_of_some {parent : Option GlobalId} {l : Category × Option GlobalId × Atom} (h : r.label? g = some l) :
    (r.push category name parent).2.label? g = some l := by
  have hne : g ≠ ⟨r.size⟩ := fun he => Nat.lt_irrefl _ (he ▸ index_lt_of_label? h)
  rw [label?_push, if_neg hne, h]

theorem getField?_push {parent : Option GlobalId} {k : Atom} :
    (r.push category name parent).2.getField? g k = r.getField? g k := by
  unfold getField?
  rw [entity?_push]
  split
  · next hg => rw [hg, entity?_size]; rfl
  · rfl

theorem sites_push {parent : Option GlobalId} : (r.push category name parent).2.sites g = r.sites g := by
  unfold sites
  rw [entity?_push]
  by_cases hg : g = ⟨r.size⟩
  · rw [if_pos hg, hg, entity?_size]
  · rw [if_neg hg]

section Modify

variable {f : Entity → Entity}
  {hf : ∀ e, (f e).category = e.category ∧ (f e).parent = e.parent ∧ (f e).name = e.name}

theorem entity?_modify {m : GlobalId} :
    (r.modify m f hf).entity? g = if g.index = m.index then (r.entity? g).map f else r.entity? g := by
  simp [entity?, modify, Array.getElem?_modify, eq_comm]

theorem size_modify {m : GlobalId} : (r.modify m f hf).size = r.size := by
  simp [size, modify]

theorem label?_modify {m : GlobalId} : (r.modify m f hf).label? g = r.label? g := by
  unfold label?
  rw [entity?_modify]
  split
  · cases r.entity? g with
    | none => rfl
    | some e => simp [hf e]
  · rfl

theorem sites_modify {m : GlobalId} (hs : ∀ e, (f e).sites = e.sites) : (r.modify m f hf).sites g = r.sites g := by
  unfold sites
  rw [entity?_modify]
  by_cases hg : g.index = m.index
  · rw [if_pos hg]
    cases r.entity? g with
    | none => rfl
    | some e => exact hs e
  · rw [if_neg hg]

end Modify

/-! ### A top-level global -/

theorem ensure_of_some (h : r.get? category name = some g) : r.ensure category name = (g, r) := by
  unfold ensure
  rw [h]

/-- A new top-level global: it is made, and noted. -/
theorem ensure_of_none (h : r.get? category name = none) : ∃ hroot, r.ensure category name =
    (⟨r.size⟩, (r.push category name none).2.note category name ⟨r.size⟩ hroot) := by
  refine ⟨⟨{ category, name, parent := none }, Array.getElem?_push_size, rfl, rfl, rfl⟩, ?_⟩
  unfold ensure
  rw [h]

/-- Nothing but the name that was asked for gets a meaning. -/
theorem get?_ensure_eq (r : Registry) (category : Category) (name : Atom) (c : Category) (n : Atom) :
    (r.ensure category name).2.get? c n =
      if c = category ∧ n = name then some (r.ensure category name).1 else r.get? c n := by
  cases hg : r.get? category name with
  | some g =>
    rw [ensure_of_some hg]
    split
    · next h => rw [h.1, h.2, hg]
    · rfl
  | none =>
    obtain ⟨hroot, he⟩ := ensure_of_none hg
    rw [he]
    simp only [get?, note, push, List.lookup_cons]
    by_cases h : c = category ∧ n = name
    · rw [if_pos h, h.1, h.2, beq_self_eq_true]
    · rw [if_neg h, beq_eq_false_iff_ne.2]
      simpa using h

theorem get?_ensure (r : Registry) (category : Category) (name : Atom) :
    (r.ensure category name).2.get? category name = some (r.ensure category name).1 := by
  rw [get?_ensure_eq, if_pos ⟨rfl, rfl⟩]

/-- Noting a top-level global changes no global. -/
theorem entity?_ensure_of_none (h : r.get? category name = none) :
    (r.ensure category name).2.entity? g = (r.push category name none).2.entity? g := by
  obtain ⟨hroot, he⟩ := ensure_of_none h
  rw [he]
  rfl

theorem size_le_ensure (r : Registry) (category : Category) (name : Atom) : r.size ≤ (r.ensure category name).2.size := by
  cases hg : r.get? category name with
  | some g => exact Nat.le_of_eq (by rw [ensure_of_some hg])
  | none =>
    obtain ⟨hroot, he⟩ := ensure_of_none hg
    rw [he]
    exact Nat.le_trans (Nat.le_succ _) (Nat.le_of_eq size_push.symm)

theorem label?_ensure (r : Registry) (category : Category) (name : Atom) (g : GlobalId) :
    (r.ensure category name).2.label? g =
      if g = (r.ensure category name).1 then some (category, none, name) else r.label? g := by
  cases hg : r.get? category name with
  | some g' =>
    rw [ensure_of_some hg]
    split
    · next h => rw [h, label?_of_get? hg]
    · rfl
  | none =>
    obtain ⟨hroot, he⟩ := ensure_of_none hg
    rw [he]
    exact label?_push

theorem label?_ensure_of_some {l : Category × Option GlobalId × Atom} (h : r.label? g = some l) :
    (r.ensure category name).2.label? g = some l := by
  cases hg : r.get? category name with
  | some g' => rw [ensure_of_some hg, h]
  | none =>
    unfold label?
    rw [entity?_ensure_of_none hg]
    exact label?_push_of_some h

theorem getField?_ensure : (r.ensure category name).2.getField? parent key = r.getField? parent key := by
  cases hg : r.get? category name with
  | some g => rw [ensure_of_some hg]
  | none =>
    unfold getField?
    rw [entity?_ensure_of_none hg]
    exact getField?_push

theorem sites_ensure : (r.ensure category name).2.sites g = r.sites g := by
  cases hg : r.get? category name with
  | some g => rw [ensure_of_some hg]
  | none =>
    unfold sites
    rw [entity?_ensure_of_none hg]
    exact sites_push

theorem extends_ensure (r : Registry) (category : Category) (name : Atom) : r.Extends (r.ensure category name).2 := by
  refine ⟨size_le_ensure r category name, fun c n g hg => ?_, fun _ _ _ _ => by rw [getField?_ensure]⟩
  rw [get?_ensure_eq]
  split
  · next h =>
    rw [h.1, h.2]
    cases hr : r.get? category name with
    | some g' => rw [ensure_of_some hr]
    | none =>
      obtain ⟨hroot, he⟩ := ensure_of_none hr
      rw [he]
      refine ⟨fun hnew => ?_, nofun⟩
      cases hnew
      exact absurd hg (Nat.lt_irrefl _)
  · rfl

theorem Labelled.ensure (hl : r.Labelled) (category : Category) (name : Atom) : (r.ensure category name).2.Labelled := by
  intro parent key g hf
  rw [getField?_ensure] at hf
  exact label?_ensure_of_some (hl _ _ _ hf)

/-! ### A member -/

theorem ensureField_of_some (h : r.getField? parent key = some g) : r.ensureField parent key = (g, r) := by
  unfold ensureField
  rw [h]

/-- A new member: it is made, and its parent notes it. -/
theorem ensureField_of_none (h : r.getField? parent key = none) : r.ensureField parent key =
    (⟨r.size⟩, (r.push .var key (some parent)).2.modify parent
      (fun e => { e with fields := e.fields ++ [(key, ⟨r.size⟩)] }) fun _ => ⟨rfl, rfl, rfl⟩) := by
  unfold ensureField
  rw [h]
  rfl

theorem getField?_ensureField (hp : parent.index < r.size) {k : Atom} : (r.ensureField parent key).2.getField? g k =
    if g = parent ∧ k = key then some (r.ensureField parent key).1 else r.getField? g k := by
  cases hf : r.getField? parent key with
  | some sub =>
    rw [ensureField_of_some hf]
    split
    · next h => rw [h.1, h.2, hf]
    · rfl
  | none =>
    rw [ensureField_of_none hf]
    by_cases hg : g = parent
    · subst hg
      have hnew : g ≠ ⟨r.size⟩ := fun he => Nat.lt_irrefl _ (he ▸ hp)
      obtain ⟨e, he⟩ : ∃ e, r.entity? g = some e := ⟨_, Array.getElem?_eq_getElem hp⟩
      unfold getField? at hf ⊢
      rw [he, Option.bind_some] at hf
      rw [entity?_modify, if_pos rfl, entity?_push, if_neg hnew, he]
      simp only [Option.map_some, Option.bind_some, List.lookup_append, true_and]
      by_cases hk : k = key
      · rw [if_pos hk, hk, hf]
        simp
      · rw [if_neg hk, List.lookup_cons, beq_eq_false_iff_ne.2 hk]
        simp
    · rw [if_neg fun h => hg h.1, ← getField?_push (r := r)]
      unfold getField?
      rw [entity?_modify, if_neg]
      intro hi
      cases g
      cases parent
      exact hg (congrArg _ hi)

theorem sites_ensureField : (r.ensureField parent key).2.sites g = r.sites g := by
  cases hf : r.getField? parent key with
  | some sub => rw [ensureField_of_some hf]
  | none =>
    rw [ensureField_of_none hf, sites_modify, sites_push]
    exact fun _ => rfl

theorem get?_ensureField : (r.ensureField parent key).2.get? category name = r.get? category name := by
  cases hf : r.getField? parent key with
  | some sub => rw [ensureField_of_some hf]
  | none => rw [ensureField_of_none hf]; rfl

theorem size_le_ensureField : r.size ≤ (r.ensureField parent key).2.size := by
  cases hf : r.getField? parent key with
  | some sub => exact Nat.le_of_eq (by rw [ensureField_of_some hf])
  | none =>
    rw [ensureField_of_none hf, size_modify, size_push]
    exact Nat.le_succ _

theorem label?_ensureField (hl : r.Labelled) : (r.ensureField parent key).2.label? g =
    if g = (r.ensureField parent key).1 then some (.var, some parent, key) else r.label? g := by
  cases hf : r.getField? parent key with
  | some sub =>
    rw [ensureField_of_some hf]
    split
    · next h => rw [h, hl _ _ _ hf]
    · rfl
  | none =>
    rw [ensureField_of_none hf, label?_modify]
    exact label?_push

theorem label?_ensureField_of_some {l : Category × Option GlobalId × Atom} (h : r.label? g = some l) :
    (r.ensureField parent key).2.label? g = some l := by
  cases hf : r.getField? parent key with
  | some sub => rw [ensureField_of_some hf, h]
  | none =>
    rw [ensureField_of_none hf, label?_modify]
    exact label?_push_of_some h

theorem extends_ensureField (hp : parent.index < r.size) : r.Extends (r.ensureField parent key).2 := by
  refine ⟨size_le_ensureField, fun _ _ _ _ => by rw [get?_ensureField], fun parent' key' g hg => ?_⟩
  rw [getField?_ensureField hp]
  split
  · next h =>
    rw [h.1, h.2]
    cases hf : r.getField? parent key with
    | some sub => rw [ensureField_of_some hf]
    | none =>
      rw [ensureField_of_none hf]
      refine ⟨fun hnew => ?_, nofun⟩
      cases hnew
      exact absurd hg (Nat.lt_irrefl _)
  · rfl

theorem Labelled.ensureField (hl : r.Labelled) (hp : parent.index < r.size) (key : Atom) :
    (r.ensureField parent key).2.Labelled := by
  intro parent' key' g hg
  rw [getField?_ensureField hp] at hg
  split at hg
  · next h =>
    cases hg
    rw [label?_ensureField hl, if_pos rfl, h.1, h.2]
  · exact label?_ensureField_of_some (hl _ _ _ hg)

/-! ### Sites -/

variable {d : DeclId}

theorem get?_addSite : (r.addSite g d).get? category name = r.get? category name := rfl

theorem size_addSite : (r.addSite g d).size = r.size := size_modify

theorem label?_addSite : (r.addSite g d).label? g' = r.label? g' := label?_modify

theorem getField?_addSite : (r.addSite g d).getField? parent key = r.getField? parent key := by
  unfold getField? addSite
  rw [entity?_modify]
  split
  · cases r.entity? parent <;> rfl
  · rfl

theorem at?_addSite : (r.addSite g d).at? path = r.at? path := by
  cases path with
  | nil => rfl
  | cons name keys => simp only [at?, get?_addSite, getField?_addSite]

theorem Labelled.addSite (hl : r.Labelled) (g : GlobalId) (d : DeclId) : (r.addSite g d).Labelled := by
  intro parent key g' hf
  rw [getField?_addSite] at hf
  exact label?_addSite.trans (hl _ _ _ hf)

theorem sites_addSite (hg : g.index < r.size) :
    (r.addSite g d).sites g' = if g' = g then Distinct.add (r.sites g) d else r.sites g' := by
  obtain ⟨e, he⟩ : ∃ e, r.entity? g = some e := ⟨_, Array.getElem?_eq_getElem hg⟩
  unfold sites addSite
  rw [entity?_modify]
  by_cases h : g' = g
  · subst h
    rw [if_pos rfl, if_pos rfl, he]
    rfl
  · rw [if_neg h, if_neg]
    intro hi
    cases g
    cases g'
    exact h (congrArg _ hi)

/-- The registry is a forest, and what it tells of each path is the list that is given, without repetitions. -/
structure Lists (r : Registry) (listed : List Atom → List DeclId) : Prop where
  labelled : r.Labelled
  sites : ∀ path, r.sitesAt path = Distinct.append [] (listed path)

namespace Lists

variable {listed : List Atom → List DeclId}

theorem empty : Registry.empty.Lists fun _ => [] := by
  have hfield : ∀ parent key, Registry.empty.getField? parent key = none := fun _ _ => by
    simp [getField?, entity?, Registry.empty]
  have hroot : ∀ category name, Registry.empty.get? category name = none := fun _ _ => by simp [get?, Registry.empty]
  refine ⟨fun parent key g hg => ?_, fun path => ?_⟩
  · rw [hfield] at hg
    cases hg
  · unfold sitesAt
    cases hat : Registry.empty.at? path with
    | none => rfl
    | some g =>
      rcases at?_cases hat with ⟨name, -, hg⟩ | ⟨_, key, parent, -, -, hg⟩
      · rw [hroot] at hg
        cases hg
      · rw [hfield] at hg
        cases hg

/-- Making globals lists nothing. -/
theorem extend (h : r.Lists listed) (hx : r.Extends r') (hl : r'.Labelled) (hs : ∀ g, r'.sites g = r.sites g) :
    r'.Lists listed := by
  refine ⟨hl, fun path => (h.sites path).symm ▸ ?_⟩
  unfold sitesAt
  cases hr : r.at? path with
  | some g =>
    rw [(hx.at?_iff (h.labelled.index_lt hr)).2 hr]
    exact hs g
  | none =>
    cases hr' : r'.at? path with
    | none => rfl
    | some g =>
      -- the path was made with its last global, which is new and has no sites
      have hnew : ¬ g.index < r.size := fun hg => by
        rw [(hx.at?_iff hg).1 hr'] at hr
        cases hr
      have hnone : r.entity? g = none := Array.getElem?_eq_none (Nat.le_of_not_lt hnew)
      refine (hs g).trans ?_
      rw [Registry.sites, hnone]

theorem ensure (h : r.Lists listed) (category : Category) (name : Atom) : (r.ensure category name).2.Lists listed :=
  h.extend (extends_ensure r category name) (h.labelled.ensure category name) fun _ => sites_ensure

theorem ensureField (h : r.Lists listed) (hp : parent.index < r.size) (key : Atom) :
    (r.ensureField parent key).2.Lists listed :=
  h.extend (extends_ensureField hp) (h.labelled.ensureField hp key) fun _ => sites_ensureField

/-- A site is listed under the path of its global, and under no other. -/
theorem addSite (h : r.Lists listed) (hg : g.index < r.size) {listed' : List Atom → List DeclId}
    (hat : ∀ path, r.at? path = some g → listed' path = listed path ++ [d])
    (hoff : ∀ path, r.at? path ≠ some g → listed' path = listed path) : (r.addSite g d).Lists listed' := by
  refine ⟨h.labelled.addSite g d, fun path => ?_⟩
  have hsites := h.sites path
  unfold sitesAt at hsites ⊢
  rw [at?_addSite]
  by_cases hp : r.at? path = some g
  · rw [hp] at hsites ⊢
    dsimp only at hsites ⊢
    rw [sites_addSite hg, if_pos rfl, hat path hp, hsites]
    simp [Distinct.append]
  · rw [hoff path hp, ← hsites]
    cases hr : r.at? path with
    | none => rfl
    | some g' =>
      dsimp only
      rw [sites_addSite hg, if_neg]
      rintro rfl
      exact hp hr

end Lists

end Registry

end LuaInfer
