import LuaInfer.Handle
/-!
# Declarations

A declaration is anything that can have a type node: expressions, bindings, member accesses, calls,
and the parts of documentation annotations. Declarations refer to one another by handle, so cycles
among them are ordinary data.
-/

namespace LuaInfer

/-- How a local came into scope. -/
inductive Role where
  /-- `local x = ...` -/
  | plain
  /-- An explicit parameter, `...` among them. -/
  | param
  /-- The receiver of `function obj:method()`. -/
  | receiver
deriving DecidableEq

/-- A scalar literal. A floating-point number is carried as its 64 bits. -/
inductive Literal where
  | nil
  | boolean (value : Bool)
  | integer (value : Int)
  | number (bits : UInt64)
  | string (text : Atom)
deriving DecidableEq

/-- A literal in a documented type, as in `---@type "on" | 1`. -/
inductive DocLiteral where
  | string (text : Atom)
  | integer (value : Int)
  | boolean (value : Bool)
deriving DecidableEq

/-- Which member an access names, and in which notation. -/
inductive Member where
  /-- `t.k` -/
  | field (key : Atom)
  /-- `t:k` -/
  | method (key : Atom)
  /-- `t[k]`; the key is known only if it is a literal string. -/
  | index (key : Option Atom)
deriving DecidableEq

/-- The key, if it is known. -/
def Member.key? : Member → Option Atom
  | field k => some k
  | method k => some k
  | index k => k

/-- What a declaration is. -/
inductive DeclKind where
  | literal (value : Literal)
  /-- A table constructor with its `tableField`s. -/
  | table (fields : List DeclId)
  /-- A function literal: parameters are `localVar`s, returns are `ret`s. -/
  | function (params returns : List DeclId) (isMethod : Bool)
  | ret (exprs : List DeclId)
  /-- A binding; `refs` are its reads and reassignments in source order. -/
  | localVar (name : Atom) (role : Role) (value : Option DeclId) (refs : List DeclId)
  | getLocal (target : DeclId)
  | setLocal (target value : DeclId)
  | getGlobal (name : Atom)
  | setGlobal (name : Atom) (value : DeclId)
  | getMember (base : DeclId) (member : Member)
  | setMember (base : DeclId) (member : Member) (value : DeclId)
  | tableField (key : Atom) (value : DeclId)
  /-- The name token of a field access. -/
  | fieldName (key : Atom)
  /-- The name token of a method access. -/
  | methodName (key : Atom)
  | call (callee : DeclId) (args : List DeclId)
  /-- The result of the call `source` at `index`, counted from one. -/
  | select (source : DeclId) (index : Nat)
  | varargs
  | paren (expr : DeclId)
  /-- `---@type T` -/
  | docType (ty : DeclId)
  /-- `---@class Name: A, B` with its fields and the declarations it stands above. -/
  | docClass (name : Atom) (supers fields sources : List DeclId)
  /-- `---@field name T` -/
  | docField (name : Atom) (ty : DeclId)
  /-- `---@param name T` -/
  | docParam (name : Atom) (ty : DeclId)
  /-- `---@return T` for the result at `index`, counted from one. -/
  | docReturn (index : Nat) (ty : DeclId)
  /-- `---@vararg T` -/
  | docVararg (ty : DeclId)
  /-- `---@overload fun(...)` -/
  | docOverload (sig : DeclId)
  /-- `---@generic T, U` -/
  | docGeneric (params : List Atom)
  /-- `A | B` -/
  | tyUnion (alternatives : List DeclId)
  | tyName (name : Atom)
  /-- The use of a generic parameter. -/
  | tyGeneric (name : Atom)
  | tyLiteral (value : DocLiteral)
  /-- `{ key: T }` with its `tyField`s. -/
  | tyTable (fields : List DeclId)
  | tyField (key : Atom) (ty : DeclId)
  /-- `fun(params): returns` -/
  | tyFunction (params returns : List DeclId)
  /-- `T[]` -/
  | tyArray (element : DeclId)
deriving DecidableEq

namespace DeclKind

/-- The name of the kind in descriptions and in the journal. -/
def name : DeclKind → String
  | literal .nil => "nil"
  | literal (.boolean _) => "boolean"
  | literal (.integer _) => "integer"
  | literal (.number _) => "number"
  | literal (.string _) => "string"
  | table .. => "table"
  | function .. => "function"
  | ret .. => "return"
  | localVar .. => "local"
  | getLocal .. => "getlocal"
  | setLocal .. => "setlocal"
  | getGlobal .. => "getglobal"
  | setGlobal .. => "setglobal"
  | getMember _ (.field _) => "getfield"
  | getMember _ (.method _) => "getmethod"
  | getMember _ (.index _) => "getindex"
  | setMember _ (.field _) _ => "setfield"
  | setMember _ (.method _) _ => "setmethod"
  | setMember _ (.index _) _ => "setindex"
  | tableField .. => "tablefield"
  | fieldName .. => "field"
  | methodName .. => "method"
  | call .. => "call"
  | select .. => "select"
  | varargs => "varargs"
  | paren .. => "paren"
  | docType .. => "doc.type"
  | docClass .. => "doc.class"
  | docField .. => "doc.field"
  | docParam .. => "doc.param"
  | docReturn .. => "doc.return"
  | docVararg .. => "doc.vararg"
  | docOverload .. => "doc.overload"
  | docGeneric .. => "doc.generic"
  | tyUnion .. => "doc.type.union"
  | tyName .. => "doc.type.name"
  | tyGeneric .. => "doc.generic.name"
  | tyLiteral .. => "doc.type.literal"
  | tyTable .. => "doc.type.table"
  | tyField .. => "doc.type.field"
  | tyFunction .. => "doc.type.function"
  | tyArray .. => "doc.type.array"

/-- Literals, table constructors and function literals: values that narrow an annotation. -/
def isLiteral : DeclKind → Bool
  | literal .. | table .. | function .. => true
  | _ => false

/-- Bindings and assignments. -/
def isAssignTarget : DeclKind → Bool
  | localVar .. | setLocal .. | setGlobal .. | setMember .. | tableField .. => true
  | _ => false

/-- Parameters, explicit or implicit. -/
def isParam : DeclKind → Bool
  | localVar _ .param .. | localVar _ .receiver .. => true
  | _ => false

/-- The declarations directly below, in structural order. -/
def children : DeclKind → List DeclId
  | table fields => fields
  | function params returns _ => params ++ returns
  | ret exprs => exprs
  | localVar _ _ value _ => value.toList
  | setLocal _ value => [value]
  | setGlobal _ value => [value]
  | getMember base _ => [base]
  | setMember base _ value => [base, value]
  | tableField _ value => [value]
  | call callee args => callee :: args
  | select source _ => [source]
  | paren expr => [expr]
  | docType ty => [ty]
  | docClass _ supers fields _ => supers ++ fields
  | docField _ ty => [ty]
  | docParam _ ty => [ty]
  | docReturn _ ty => [ty]
  | docVararg ty => [ty]
  | docOverload sig => [sig]
  | tyUnion alternatives => alternatives
  | tyTable fields => fields
  | tyField _ ty => [ty]
  | tyFunction params returns => params ++ returns
  | tyArray element => [element]
  | literal .. | getLocal .. | getGlobal .. | fieldName .. | methodName .. | varargs | docGeneric ..
  | tyName .. | tyGeneric .. | tyLiteral .. => []

/-- The key of something field-like: an access, a table field, a name token, a documented field. -/
def key? : DeclKind → Option Atom
  | getMember _ member => member.key?
  | setMember _ member _ => member.key?
  | tableField key _ => some key
  | fieldName key => some key
  | methodName key => some key
  | tyField key _ => some key
  | docField name _ => some name
  | _ => none

/-- The object of a member access. -/
def base? : DeclKind → Option DeclId
  | getMember base _ => some base
  | setMember base _ _ => some base
  | _ => none

/-- The value that a binding or an assignment gives. -/
def value? : DeclKind → Option DeclId
  | localVar _ _ value _ => value
  | setLocal _ value => some value
  | setGlobal _ value => some value
  | setMember _ _ value => some value
  | tableField _ value => some value
  | _ => none

/-- The name that a description of the declaration shows, where it is not its key. -/
def label? : DeclKind → Option Atom
  | localVar name .. => some name
  | getGlobal name => some name
  | setGlobal name _ => some name
  | docClass name .. => some name
  | tyName name => some name
  | tyGeneric name => some name
  | _ => none

/-- The name of a local. -/
def localName? : DeclKind → Option Atom
  | localVar name .. => some name
  | _ => none

end DeclKind

/-- A declaration with its links. -/
structure Decl where
  kind : DeclKind
  parent : Option DeclId := none
  /-- The annotations bound to it, in source order. -/
  docs : List DeclId := []
  /-- The global it stands for, if any. -/
  global : Option GlobalId := none
deriving DecidableEq

end LuaInfer
