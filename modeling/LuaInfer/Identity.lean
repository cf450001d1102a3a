import LuaInfer.Distinct
import LuaInfer.Handle
/-!
# Identity groups

Accesses that name the same key of the same local share an identity. A group collects them, and among
them the assignments: the sources of `owner.key`.
-/

namespace LuaInfer

/-- Everything recorded for `owner.key`. -/
structure IdentityGroup where
  owner : DeclId
  key : Atom
  /-- Accesses, in the order of their recording. -/
  members : List DeclId := []
  /-- The assignments among them. -/
  sources : List DeclId := []
deriving DecidableEq

/-- Adds a declaration to a group; an assignment is also a source. -/
def IdentityGroup.add (g : IdentityGroup) (d : DeclId) (assigns : Bool) : IdentityGroup :=
  { g with
    members := Distinct.add g.members d
    sources := if assigns then Distinct.add g.sources d else g.sources }

/-- The groups, and for each declaration the group it was last recorded in. -/
structure IdentityTable where
  groups : Array IdentityGroup
  home : Std.TreeMap DeclId Nat

namespace IdentityTable

/-- No groups. -/
def empty : IdentityTable := ⟨#[], ∅⟩

/-- Number of groups. -/
def size (t : IdentityTable) : Nat := t.groups.size

/-- The position of the group `owner.key`. -/
def find? (t : IdentityTable) (owner : DeclId) (key : Atom) : Option Nat :=
  t.groups.findIdx? fun g => g.owner == owner && g.key == key

/-- The position of the group `owner.key`, made if there was none. -/
def ensure (t : IdentityTable) (owner : DeclId) (key : Atom) : Nat × IdentityTable :=
  match t.find? owner key with
  | some i => (i, t)
  | none => (t.groups.size, { t with groups := t.groups.push { owner, key } })

/-- Records a declaration under `owner.key`. -/
def record (t : IdentityTable) (owner : DeclId) (key : Atom) (d : DeclId) (assigns : Bool) :
    IdentityTable :=
  let (i, t) := t.ensure owner key
  { groups := t.groups.modify i (·.add d assigns)
    home := t.home.insert d i }

/-- The declarations that share the identity of `d`, which is one of them; none if it has no
identity. -/
def group (t : IdentityTable) (d : DeclId) : List DeclId :=
  match t.home[d]? with
  | some i =>
    match t.groups[i]? with
    | some g => g.members
    | none => []
  | none => []

/-- The assignments to `owner.key`. -/
def sources (t : IdentityTable) (owner : DeclId) (key : Atom) : List DeclId :=
  match t.groups.find? fun g => g.owner == owner && g.key == key with
  | some g => g.sources
  | none => []

end IdentityTable

end LuaInfer
