import LuaInfer.Decl.Arena
import LuaInfer.Identity
import LuaInfer.Registry
/-!
# Programs

A program is what binding produces: interned texts, the arena of declarations, the registry of globals
and the identity groups. `Build` is the state monad in which a program is made; this module holds the
steps that every construct shares: making a declaration, linking it to its children, its global and its
identity, and binding annotations.
-/

namespace LuaInfer

/-- A bound program. -/
structure Program where
  interner : Interner := .empty
  arena : Arena := .empty
  globals : Registry := .empty
  identities : IdentityTable := .empty

/-- A program under construction. -/
abbrev Build := StateM Program

/-- A label for people. -/
def Program.describe (p : Program) (d : DeclId) : String := p.arena.describe p.interner d

/-- The local that an expression stands for, parentheses aside. -/
def Arena.owner? (a : Arena) (base : DeclId) : Option DeclId :=
  let base := a.unparen base
  match a.kind? base with
  | some (.localVar ..) => some base
  | some (.getLocal target) => some target
  | _ => none

/-- The global that an expression stands for, parentheses aside. -/
def Arena.globalOf? (a : Arena) (base : DeclId) : Option GlobalId :=
  a.global? (a.unparen base)

/-- The fields of a table constructor that have a key, each with its key. -/
def Arena.keyedFields (a : Arena) (value : DeclId) : List (Atom × DeclId) :=
  match a.kind? value with
  | some (.table fields) => fields.filterMap fun f => (a.key? f).map fun k => (k, f)
  | _ => []

namespace Build

/-- Stores a text. -/
def intern (text : String) : Build Atom :=
  modifyGet fun p =>
    let (a, interner) := p.interner.intern text
    (a, { p with interner })

/-- Makes a declaration, linked to nothing. -/
def push (kind : DeclKind) : Build DeclId :=
  modifyGet fun p =>
    let (d, arena) := p.arena.push kind
    (d, { p with arena })

/-- Changes the arena. -/
def modifyArena (f : Arena → Arena) : Build Unit :=
  modify fun p => { p with arena := f p.arena }

/-- Makes `parent` the parent of `child`. -/
def setParent (child parent : DeclId) : Build Unit :=
  modifyArena (·.modify child fun d => { d with parent := some parent })

/-- Makes a declaration and becomes the parent of its children. -/
def add (kind : DeclKind) : Build DeclId := do
  let d ← push kind
  kind.children.forM (setParent · d)
  return d

/-- Says which global a declaration stands for. -/
def linkGlobal (d : DeclId) (g : GlobalId) : Build Unit :=
  modifyArena (·.modify d fun decl => { decl with global := some g })

/-- The top-level global of that category and name. -/
def ensureGlobal (category : Category) (name : Atom) : Build GlobalId :=
  modifyGet fun p =>
    let (g, globals) := p.globals.ensure category name
    (g, { p with globals })

/-- The keyed member of a global. -/
def ensureField (parent : GlobalId) (key : Atom) : Build GlobalId :=
  modifyGet fun p =>
    let (g, globals) := p.globals.ensureField parent key
    (g, { p with globals })

/-- Registers a site of a global. -/
def addSite (g : GlobalId) (site : DeclId) : Build Unit :=
  modify fun p => { p with globals := p.globals.addSite g site }

/-- Records a declaration under the identity `owner.key`. -/
def record (owner : DeclId) (key : Atom) (d : DeclId) (assigns : Bool) : Build Unit :=
  modify fun p => { p with identities := p.identities.record owner key d assigns }

/-- Links an access to the identity and to the global that it names. An access whose key is not known
names neither. -/
def linkMember (access base : DeclId) (key? : Option Atom) (assigns : Bool) : Build Unit := do
  let some key := key? | return
  if let some owner := (← get).arena.owner? base then
    record owner key access assigns
  if let some parent := (← get).arena.globalOf? base then
    let g ← ensureField parent key
    linkGlobal access g
    if assigns then
      addSite g access

/-- The fields of a table given to `owner` are sources of its members. -/
def recordTableFields (owner value : DeclId) : Build Unit := do
  for (key, f) in (← get).arena.keyedFields value do
    record owner key f true

/-- The fields of a table given to a global are sites of its members. -/
def registerTableFields (g : GlobalId) (value : DeclId) : Build Unit := do
  for (key, f) in (← get).arena.keyedFields value do
    let sub ← ensureField g key
    addSite sub f
    linkGlobal f sub

/-- Notes a use of a local. -/
def addRef (target use : DeclId) : Build Unit :=
  modifyArena (·.modifyKind target fun
    | .localVar name role value refs => .localVar name role value (refs ++ [use])
    | kind => kind)

/-- Binds an annotation to a declaration, once; a class also notes what it stands above. -/
def bindDoc (doc target : DeclId) : Build Unit := do
  modifyArena (·.modify target fun d => { d with docs := Distinct.add d.docs doc })
  modifyArena (·.modifyKind doc fun
    | .docClass name supers fields sources => .docClass name supers fields (Distinct.add sources target)
    | kind => kind)

end Build

end LuaInfer
