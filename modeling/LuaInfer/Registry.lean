import LuaInfer.Distinct
import LuaInfer.Handle
/-!
# Globals

A global is a named thing outside lexical scope: a variable, a keyed member of one, or a documented
type. The registry is a forest: a global without parent is found by category and name, any other
through the fields of its parent. Each global knows its sites in the order of their registration.
-/

namespace LuaInfer

/-- A variable and a type of one name are different globals. -/
inductive Category where
  | var
  | type
deriving DecidableEq

/-- A global. -/
structure Entity where
  category : Category
  name : Atom
  parent : Option GlobalId
  /-- Declarations of it and assignments to it. -/
  sites : List DeclId := []
  /-- Its keyed members, in the order of their making. -/
  fields : List (Atom × GlobalId) := []
deriving DecidableEq

/-- The entity is the top-level global of that category and name. -/
def Entity.IsRoot (e : Entity) (category : Category) (name : Atom) : Prop :=
  e.parent = none ∧ e.category = category ∧ e.name = name

/-- All globals of a program. -/
structure Registry where
  entities : Array Entity
  /-- The top-level globals by category and name, the newest first. -/
  roots : List ((Category × Atom) × GlobalId)
  /-- What is noted there is a top-level global of that category and name. -/
  rooted : ∀ category name g, roots.lookup (category, name) = some g →
    ∃ e, entities[g.index]? = some e ∧ e.IsRoot category name
deriving DecidableEq

namespace Registry

/-- No globals. -/
def empty : Registry := ⟨#[], [], nofun⟩

/-- Number of globals. -/
def size (r : Registry) : Nat := r.entities.size

/-- The global behind a handle. -/
def entity? (r : Registry) (g : GlobalId) : Option Entity := r.entities[g.index]?

/-- The top-level global of that category and name. -/
def get? (r : Registry) (category : Category) (name : Atom) : Option GlobalId :=
  r.roots.lookup (category, name)

/-- The member `parent.key`. -/
def getField? (r : Registry) (parent : GlobalId) (key : Atom) : Option GlobalId :=
  (r.entity? parent).bind fun e => e.fields.lookup key

/-- The category of a global. -/
def category? (r : Registry) (g : GlobalId) : Option Category := (r.entity? g).map Entity.category

/-- The sites of a global. -/
def sites (r : Registry) (g : GlobalId) : List DeclId :=
  match r.entity? g with
  | some e => e.sites
  | none => []

/-- Adds an entity without sites and fields. -/
def push (r : Registry) (category : Category) (name : Atom) (parent : Option GlobalId) :
    GlobalId × Registry :=
  (⟨r.entities.size⟩, {
    entities := r.entities.push { category, name, parent }
    roots := r.roots
    rooted := fun c n g hg => by
      obtain ⟨e, he, hroot⟩ := r.rooted c n g hg
      have hlt : g.index < r.entities.size := (Array.getElem?_eq_some_iff.1 he).1
      exact ⟨e, by rw [Array.getElem?_push, if_neg (Nat.ne_of_lt hlt), he], hroot⟩ })

/-- Notes a top-level global under its category and name. -/
def note (r : Registry) (category : Category) (name : Atom) (g : GlobalId)
    (h : ∃ e, r.entities[g.index]? = some e ∧ e.IsRoot category name) : Registry where
  entities := r.entities
  roots := ((category, name), g) :: r.roots
  rooted := fun c n g' hg => by
    rw [List.lookup_cons] at hg
    split at hg
    · next heq =>
      cases hg
      cases eq_of_beq heq
      exact h
    · exact r.rooted c n g' hg

/-- Changes what a global knows of its sites and members. -/
def modify (r : Registry) (g : GlobalId) (f : Entity → Entity)
    (hf : ∀ e, (f e).category = e.category ∧ (f e).parent = e.parent ∧ (f e).name = e.name) : Registry where
  entities := r.entities.modify g.index f
  roots := r.roots
  rooted := fun c n g' hg => by
    obtain ⟨e, he, hparent, hcategory, hname⟩ := r.rooted c n g' hg
    rw [Array.getElem?_modify, he]
    split
    · obtain ⟨hc, hp, hn⟩ := hf e
      exact ⟨f e, rfl, hp.trans hparent, hc.trans hcategory, hn.trans hname⟩
    · exact ⟨e, rfl, hparent, hcategory, hname⟩

/-- The top-level global of that category and name, made if there was none. -/
def ensure (r : Registry) (category : Category) (name : Atom) : GlobalId × Registry :=
  match r.get? category name with
  | some g => (g, r)
  | none =>
    (⟨r.size⟩, (r.push category name none).2.note category name ⟨r.size⟩
      ⟨{ category, name, parent := none }, Array.getElem?_push_size, rfl, rfl, rfl⟩)

/-- The member `parent.key`, made if there was none. A member is a variable, whatever its parent. -/
def ensureField (r : Registry) (parent : GlobalId) (key : Atom) : GlobalId × Registry :=
  match r.getField? parent key with
  | some g => (g, r)
  | none =>
    let (g, r) := r.push .var key (some parent)
    (g, r.modify parent (fun e => { e with fields := e.fields ++ [(key, g)] }) fun _ => ⟨rfl, rfl, rfl⟩)

/-- Registers a site, once. -/
def addSite (r : Registry) (g : GlobalId) (site : DeclId) : Registry :=
  r.modify g (fun e => { e with sites := Distinct.add e.sites site }) fun _ => ⟨rfl, rfl, rfl⟩

end Registry

end LuaInfer
