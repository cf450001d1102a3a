import LuaInfer.Program.Basic
/-!
# Building a program

A program is built by a script of commands, one for each construct of the source. `Command.run` carries
one out and gives its reply; a whole script is a list of commands. Handles in a command may refer to
declarations that do not exist yet, or never will.
-/

namespace LuaInfer

/-- One construct. -/
inductive Command where
  | nil
  | boolean (value : Bool)
  | integer (value : Int)
  | number (bits : UInt64)
  | string (text : String)
  /-- `{ k1 = v1, k2 = v2 }` -/
  | table (fields : List (String × DeclId))
  /-- `function(a, b) ... end` -/
  | function (params : List String)
  /-- The body of `function obj:name(a, b)`; the receiver comes first. -/
  | method (params : List String)
  /-- `return e1, e2` inside a function. -/
  | ret (func : DeclId) (exprs : List DeclId)
  | localVar (name : String) (value : Option DeclId)
  | getLocal (target : DeclId)
  | setLocal (target value : DeclId)
  | getGlobal (name : String)
  | setGlobal (name : String) (value : DeclId)
  | getField (base : DeclId) (key : String)
  | setField (base : DeclId) (key : String) (value : DeclId)
  | getMethod (base : DeclId) (key : String)
  | setMethod (base : DeclId) (key : String) (func : DeclId)
  | getIndex (base : DeclId) (key : Option String)
  | setIndex (base : DeclId) (key : Option String) (value : DeclId)
  /-- The name token of a member access. -/
  | nameToken (access : DeclId)
  | call (callee : DeclId) (args : List DeclId)
  | select (source : DeclId) (index : Nat)
  | varargs
  | paren (expr : DeclId)
  | docType (target ty : DeclId)
  | docClass (name : String) (supers : List String)
  | docField (cls : DeclId) (name : String) (ty : DeclId)
  | docParam (func : DeclId) (name : String) (ty : DeclId)
  | docReturn (func : DeclId) (index : Nat) (ty : DeclId)
  | docVararg (func ty : DeclId)
  | docOverload (func sig : DeclId)
  | docGeneric (func : DeclId) (params : List String)
  | tyName (name : String)
  | tyGeneric (name : String)
  | tyUnion (alternatives : List DeclId)
  | tyString (text : String)
  | tyInteger (value : Int)
  | tyBoolean (value : Bool)
  | tyTable (fields : List (String × DeclId))
  | tyFunction (params returns : List DeclId)
  | tyArray (element : DeclId)
  /-- Gives a declaration its parent, where the construct does not say. -/
  | attach (child parent : DeclId)
  /-- Binds an annotation to a declaration. -/
  | bind (doc target : DeclId)
  /-- Stores a text. -/
  | atom (text : String)
  /-- Asks for the parameters of a function. -/
  | askParams (func : DeclId)
  /-- Asks for the parameter of that name; the name is stored. -/
  | askParam (func : DeclId) (name : String)
  /-- Asks for the number of declarations. -/
  | askSize
deriving DecidableEq

/-- What a command answers. -/
inductive Reply where
  | decl (d : DeclId)
  | found (d : Option DeclId)
  | decls (ds : List DeclId)
  | atom (a : Atom)
  | count (n : Nat)
  | done
deriving DecidableEq

namespace Build

/-- Makes the fields of a table, each from its key and its content. -/
def addFields (make : Atom → DeclId → DeclKind) (fields : List (String × DeclId)) :
    Build (List DeclId) :=
  fields.mapM fun (key, content) => do
    let key ← intern key
    add (make key content)

/-- Makes a parameter. -/
def addParam (role : Role) (name : String) : Build DeclId := do
  let name ← intern name
  push (.localVar name role none [])

/-- Makes a function literal whose parameters exist. -/
def addFunction (params : List DeclId) (isMethod : Bool) : Build DeclId :=
  add (.function params [] isMethod)

/-- Makes an access, and links it to what it names. -/
def addMember (base : DeclId) (member : Member) (value? : Option DeclId) : Build DeclId := do
  let d ← add <|
    match value? with
    | some value => .setMember base member value
    | none => .getMember base member
  linkMember d base member.key? value?.isSome
  return d

/-- Makes the name token of an access that has a key. -/
def addNameToken (access : DeclId) : Build (Option DeclId) := do
  match (← get).arena.kind? access with
  | none => return none
  | some kind =>
    let some key := kind.key? | return none
    let d ← push <|
      match kind with
      | .getMember _ (.method _) | .setMember _ (.method _) _ => .methodName key
      | _ => .fieldName key
    setParent d access
    return some d

/-- Makes an annotation and binds it to `target`. -/
def addDoc (target : DeclId) (kind : DeclKind) : Build DeclId := do
  let doc ← add kind
  bindDoc doc target
  return doc

/-- Makes a type name. -/
def addTypeName (name : String) : Build DeclId := do
  let name ← intern name
  add (.tyName name)

/-- Makes a class, which is a site of the type of its name. -/
def addClass (name : String) (supers : List String) : Build DeclId := do
  let name ← intern name
  let supers ← supers.mapM addTypeName
  let doc ← add (.docClass name supers [] [])
  let g ← ensureGlobal .type name
  addSite g doc
  linkGlobal doc g
  return doc

end Build

namespace Command

open Build

/-- The reply of a command that makes a declaration. -/
def made (d : Build DeclId) : Build Reply := Reply.decl <$> d

/-- Carries out a command. -/
def run : Command → Build Reply
  | nil => made <| add (.literal .nil)
  | boolean b => made <| add (.literal (.boolean b))
  | integer i => made <| add (.literal (.integer i))
  | number bits => made <| add (.literal (.number bits))
  | string s => made do add (.literal (.string (← intern s)))
  | table fields => made do add (.table (← addFields .tableField fields))
  | function params => made do addFunction (← params.mapM (addParam .param)) false
  | method params => made do
    let receiver ← addParam .receiver "self"
    addFunction (receiver :: (← params.mapM (addParam .param))) true
  | ret func exprs => made do
    let d ← add (.ret exprs)
    setParent d func
    modifyArena (·.modifyKind func fun
      | .function params returns isMethod => .function params (returns ++ [d]) isMethod
      | kind => kind)
    return d
  | localVar name value => made do
    let name ← intern name
    let d ← add (.localVar name .plain value [])
    value.forM (recordTableFields d)
    return d
  | getLocal target => made do
    let d ← push (.getLocal target)
    addRef target d
    return d
  | setLocal target value => made do
    let d ← push (.setLocal target value)
    setParent value d
    addRef target d
    recordTableFields target value
    return d
  | getGlobal name => made do
    let name ← intern name
    let d ← add (.getGlobal name)
    linkGlobal d (← ensureGlobal .var name)
    return d
  | setGlobal name value => made do
    let name ← intern name
    let d ← add (.setGlobal name value)
    let g ← ensureGlobal .var name
    addSite g d
    linkGlobal d g
    registerTableFields g value
    return d
  | getField base key => made do addMember base (.field (← intern key)) none
  | setField base key value => made do addMember base (.field (← intern key)) (some value)
  | getMethod base key => made do addMember base (.method (← intern key)) none
  | setMethod base key func => made do addMember base (.method (← intern key)) (some func)
  | getIndex base key => made do addMember base (.index (← key.mapM intern)) none
  | setIndex base key value => made do addMember base (.index (← key.mapM intern)) (some value)
  | call callee args => made <| add (.call callee args)
  | select source index => made do
    let d ← push (.select source index)
    if ((← get).arena.parent? source).isNone then
      setParent source d
    return d
  | varargs => made <| add .varargs
  | paren expr => made <| add (.paren expr)
  | docType target ty => made <| addDoc target (.docType ty)
  | docClass name supers => made <| addClass name supers
  | docField cls name ty => made do
    let name ← intern name
    let d ← add (.docField name ty)
    setParent d cls
    modifyArena (·.modifyKind cls fun
      | .docClass name supers fields sources => .docClass name supers (fields ++ [d]) sources
      | kind => kind)
    return d
  | docParam func name ty => made do
    let name ← intern name
    let doc ← addDoc func (.docParam name ty)
    ((← get).arena.params func).forM (bindDoc doc)
    return doc
  | docReturn func index ty => made <| addDoc func (.docReturn index ty)
  | docVararg func ty => made <| addDoc func (.docVararg ty)
  | docOverload func sig => made <| addDoc func (.docOverload sig)
  | docGeneric func params => made do addDoc func (.docGeneric (← params.mapM intern))
  | tyName name => made <| addTypeName name
  | tyGeneric name => made do add (.tyGeneric (← intern name))
  | tyUnion alternatives => made <| add (.tyUnion alternatives)
  | tyString s => made do add (.tyLiteral (.string (← intern s)))
  | tyInteger i => made <| add (.tyLiteral (.integer i))
  | tyBoolean b => made <| add (.tyLiteral (.boolean b))
  | tyTable fields => made do add (.tyTable (← addFields .tyField fields))
  | tyFunction params returns => made <| add (.tyFunction params returns)
  | tyArray element => made <| add (.tyArray element)
  | nameToken access => Reply.found <$> addNameToken access
  | attach child parent => do
    setParent child parent
    return .done
  | bind doc target => do
    bindDoc doc target
    return .done
  | atom text => Reply.atom <$> intern text
  | askParams func => do return .decls ((← get).arena.params func)
  | askParam func name => do
    let name ← intern name
    let a := (← get).arena
    return .found ((a.params func).find? fun d => a.localName? d == some name)
  | askSize => do return .count (← get).arena.size

end Command

namespace Program

/-- Type names that every program can refer to without declaring them. -/
def builtinTypes : List String :=
  ["nil", "any", "boolean", "string", "number", "integer", "table", "function", "thread", "userdata"]

/-- A program with nothing in it. -/
def empty : Program := {}

/-- A program that declares the built-in types. -/
def withBuiltins : Program :=
  ((builtinTypes.forM fun name => discard (Build.addClass name [])).run empty).2

/-- Carries out a script, and gives the replies and the program. -/
def build (p : Program) (script : List Command) : List Reply × Program :=
  (script.mapM Command.run).run p

end Program

end LuaInfer
