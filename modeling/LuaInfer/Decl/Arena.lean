import LuaInfer.Decl.Basic
import LuaInfer.Interner
/-!
# The arena of declarations

Declarations are only ever added. Every look-up is total: an unknown handle has no kind, no parent, no
annotations and no children.
-/

namespace LuaInfer

/-- All declarations of a program, in the order of their making. -/
structure Arena where
  decls : Array Decl
deriving DecidableEq

namespace Arena

/-- No declarations. -/
def empty : Arena := ⟨#[]⟩

/-- Number of declarations. -/
def size (a : Arena) : Nat := a.decls.size

/-- The declaration behind a handle. -/
def decl? (a : Arena) (d : DeclId) : Option Decl := a.decls[d.index]?

/-- What the declaration is. -/
def kind? (a : Arena) (d : DeclId) : Option DeclKind := (a.decl? d).map Decl.kind

/-- What it stands in. -/
def parent? (a : Arena) (d : DeclId) : Option DeclId := (a.decl? d).bind Decl.parent

/-- The annotations bound to it. -/
def docs (a : Arena) (d : DeclId) : List DeclId :=
  match a.decl? d with
  | some decl => decl.docs
  | none => []

/-- The global it stands for. -/
def global? (a : Arena) (d : DeclId) : Option GlobalId := (a.decl? d).bind Decl.global

/-- Its key, if it is field-like. -/
def key? (a : Arena) (d : DeclId) : Option Atom := (a.kind? d).bind DeclKind.key?

/-- Its object, if it is a member access. -/
def base? (a : Arena) (d : DeclId) : Option DeclId := (a.kind? d).bind DeclKind.base?

/-- The value it gives, if it is a binding or an assignment. -/
def value? (a : Arena) (d : DeclId) : Option DeclId := (a.kind? d).bind DeclKind.value?

/-- The name of a local. -/
def localName? (a : Arena) (d : DeclId) : Option Atom := (a.kind? d).bind DeclKind.localName?

/-- Whether it is a literal. -/
def isLiteral (a : Arena) (d : DeclId) : Bool := (a.kind? d).any DeclKind.isLiteral

/-- Whether it is a binding or an assignment. -/
def isAssignTarget (a : Arena) (d : DeclId) : Bool := (a.kind? d).any DeclKind.isAssignTarget

/-- Whether it is a parameter. -/
def isParam (a : Arena) (d : DeclId) : Bool := (a.kind? d).any DeclKind.isParam

/-- The declarations directly below it. -/
def children (a : Arena) (d : DeclId) : List DeclId :=
  match a.kind? d with
  | some kind => kind.children
  | none => []

/-- The parameters of a function literal. -/
def params (a : Arena) (d : DeclId) : List DeclId :=
  match a.kind? d with
  | some (.function params _ _) => params
  | _ => []

/-- Whether it is a function literal. -/
def isFunction (a : Arena) (d : DeclId) : Bool :=
  match a.kind? d with
  | some (.function ..) => true
  | _ => false

/-- Climbs at most `fuel` parents up to a function literal. -/
def climbToFunction (a : Arena) : Nat → Option DeclId → Option DeclId
  | _, none => none
  | 0, some _ => none
  | fuel + 1, some d => if a.isFunction d then some d else a.climbToFunction fuel (a.parent? d)

/-- The nearest function literal strictly around it. A path of parents that meets none of the
`size` declarations of the arena twice is at most that long. -/
def enclosingFunction? (a : Arena) (d : DeclId) : Option DeclId :=
  a.climbToFunction (a.size + 1) (a.parent? d)

/-- Looks through parentheses, at most `fuel` of them. -/
def unparenFrom (a : Arena) : Nat → DeclId → DeclId
  | 0, d => d
  | fuel + 1, d =>
    match a.kind? d with
    | some (.paren expr) => a.unparenFrom fuel expr
    | _ => d

/-- The expression inside all parentheses around it. -/
def unparen (a : Arena) (d : DeclId) : DeclId := a.unparenFrom (a.size + 1) d

/-- A label for people, such as `local x` or `getfield .k`. -/
def describe (a : Arena) (texts : Interner) (d : DeclId) : String :=
  match a.kind? d with
  | none => "<invalid " ++ Nat.repr d.index ++ ">"
  | some kind =>
    match kind.label?, kind.key? with
    | some name, _ => kind.name ++ " " ++ texts.text name
    | none, some key => kind.name ++ " ." ++ texts.text key
    | none, none => kind.name

/-- Adds a declaration. -/
def push (a : Arena) (kind : DeclKind) : DeclId × Arena :=
  (⟨a.decls.size⟩, ⟨a.decls.push { kind }⟩)

/-- Changes a declaration, if there is one behind the handle. -/
def modify (a : Arena) (d : DeclId) (f : Decl → Decl) : Arena :=
  ⟨a.decls.modify d.index f⟩

/-- Changes what a declaration is. -/
def modifyKind (a : Arena) (d : DeclId) (f : DeclKind → DeclKind) : Arena :=
  a.modify d fun decl => { decl with kind := f decl.kind }

end Arena

end LuaInfer
