import LuaInfer.Decimal.Shortest
import LuaInfer.Json.Skip
import LuaInfer.Options.Basic
import LuaInfer.Text.Blank
import LuaInfer.Text.Quoted
/-!
# Reading options

Options are read from a JSON object whose members override the standard options in any order, or from an
array that lists the values in the order of `OptionName.all` and may stop early. Members of other names are
passed over. Text is read from left to right, and the first thing that is wrong decides how reading fails.
-/

namespace LuaInfer

open Json (Reader Glimpse Care skipBlank readMark)

/-- What is found where something else is expected. -/
inductive Found where
  | null
  | boolean (b : Bool)
  | integer (n : Int)
  | float (negative : Bool) (magnitude : Decimal.Binary64)
  | string (s : String)
  | list
  | object
deriving DecidableEq

/-- What is expected. -/
inductive Expected where
  | word32
  | string
  | options
deriving DecidableEq

/-- What is wrong with options that are proper JSON so far. -/
inductive Invalid where
  /-- A setting is given twice. -/
  | duplicate (name : OptionName)
  /-- A text stands for neither truth value. -/
  | badWord (text : String)
  /-- A truth value is neither a truth value nor a text. -/
  | notBoolean
  | wrongType (found : Found) (expected : Expected)
  /-- An integer does not fit into 32 bits. -/
  | outOfRange (n : Int)
deriving DecidableEq

/-- Why options cannot be read. -/
inductive DecodeError where
  | unreadable (failure : Json.Failure)
  | invalid (cause : Invalid)
deriving DecidableEq

/-- How a message calls what is found. -/
def Found.text : Found → String
  | null => "null"
  | boolean true => "boolean `true`"
  | boolean false => "boolean `false`"
  | integer n => "integer `" ++ n.repr ++ "`"
  | float negative x => "floating point `" ++ Decimal.text negative x ++ "`"
  | string s => "string " ++ Text.quote s
  | list => "sequence"
  | object => "map"

/-- How a message calls what is expected. -/
def Expected.text : Expected → String
  | word32 => "u32"
  | string => "a string"
  | options => "struct InferOptions"

/-- The message that says what is wrong. -/
def Invalid.message : Invalid → String
  | duplicate name => "duplicate field `" ++ name.text ++ "`"
  | badWord text => "invalid boolean value: '" ++ text ++ "'. Expected true, false, 'true', or 'false'"
  | notBoolean => "data did not match any variant of untagged enum BoolOrString"
  | wrongType found expected => "invalid type: " ++ found.text ++ ", expected " ++ expected.text
  | outOfRange n => "invalid value: integer `" ++ n.repr ++ "`, expected u32"

namespace Options

/-- A reader of options or of parts of them. -/
abbrev Decoder (α : Type) := List Char → Except DecodeError (α × List Char)

/-- What a reader reads. -/
def lift {α : Type} (r : Except Json.Failure α) : Except DecodeError α := r.mapError .unreadable

/-- What a glimpse is called. A number out of range is malformed, which a strict reader has noticed. -/
def found : Glimpse → Except DecodeError Found
  | .null => .ok .null
  | .boolean b => .ok (.boolean b)
  | .number t =>
    match t.value? with
    | some (.integer n) => .ok (.integer n)
    | some (.float negative x) => .ok (.float negative x)
    | none => .error (.unreadable .malformed)
  | .string s => .ok (.string s)
  | .list => .ok .list
  | .object => .ok .object

/-- Fails because `g` is something else than expected. -/
def wrongType {α : Type} (expected : Expected) (g : Glimpse) : Except DecodeError α := do
  throw (.invalid (.wrongType (← found g) expected))

/-- The truth value that a text stands for. -/
def truth? (s : String) : Option Bool :=
  let w := Text.word s
  if w ∈ ["true", "1", "yes", "on"] then some true
  else if w ∈ ["false", "0", "no", "off"] then some false
  else none

/-- Reads a truth value, or a text that stands for one. -/
def readBoolean : Decoder Bool := fun s => do
  let (g, s) ← lift (Json.readGlimpse .strict s)
  let s ← lift (Json.skipRest .strict g s)
  match g with
  | .boolean b => return (b, s)
  | .string text =>
    match truth? text with
    | some b => return (b, s)
    | none => throw (.invalid (.badWord text))
  | _ => throw (.invalid .notBoolean)

/-- Reads a text. -/
def readString : Decoder String := fun s => do
  match ← lift (Json.readGlimpse .strict s) with
  | (.string text, s) => return (text, s)
  | (g, _) => wrongType .string g

/-- Reads a number of 32 bits. -/
def readWord32 : Decoder UInt32 := fun s => do
  let (g, s) ← lift (Json.readGlimpse .strict s)
  match ← found g with
  | .integer n =>
    if 0 ≤ n && n < UInt32.size then return (n.toNat.toUInt32, s)
    else throw (.invalid (.outOfRange n))
  | _ => wrongType .word32 g

/-- Reads the value of a setting. -/
def readSetting : OptionName → Decoder Setting
  | .literalNarrowing => fun s => (readBoolean s).map fun (b, s) => (.literalNarrowing b, s)
  | .selfParameterLinking => fun s => (readBoolean s).map fun (b, s) => (.selfParameterLinking b, s)
  | .delegationConstructor => fun s => (readString s).map fun (t, s) => (.delegationConstructor t, s)
  | .delegationField => fun s => (readString s).map fun (t, s) => (.delegationField t, s)
  | .maxClassDepth => fun s => (readWord32 s).map fun (n, s) => (.maxClassDepth n, s)

/-- Reads what follows the name of a member into the options; `seen` are the settings given before. -/
def readMember (name : String) (seen : List OptionName) (o : Options) :
    Decoder (List OptionName × Options) := fun s => do
  match OptionName.ofText? name with
  | none =>
    let s ← lift (readMark ':' s)
    let s ← lift (Json.skipValue .lax s)
    return ((seen, o), s)
  | some n =>
    if n ∈ seen then throw (.invalid (.duplicate n))
    let s ← lift (readMark ':' s)
    let (setting, s) ← readSetting n s
    return ((n :: seen, o.set setting), s)

/-- Reads the members of an object up to its end. `first` if none was read before. Every round takes a
character. -/
def readMembers : Nat → Bool → List OptionName → Options → Decoder Options
  | 0, _, _, _, _ => .error (.unreadable .malformed)
  | fuel + 1, first, seen, o, s => do
    match skipBlank s with
    | '}' :: s => return (o, s)
    | s =>
      let s ← if first then pure s else lift (readMark ',' s)
      let s ← lift (readMark '"' s)
      let (name, s) ← lift (Json.readChars .strict s)
      let ((seen, o), s) ← readMember name seen o s
      readMembers fuel false seen o s

/-- Reads the elements of an array up to its end, one for each of the names that are left. -/
def readElements : List OptionName → Bool → Options → Decoder Options
  | [], _, o, s => do
    let s ← lift (readMark ']' s)
    return (o, s)
  | n :: names, first, o, s => do
    match skipBlank s with
    | ']' :: s => return (o, s)
    | s =>
      let s ← if first then pure s else lift (readMark ',' s)
      let (setting, s) ← readSetting n s
      readElements names false (o.set setting) s

/-- Reads options and everything after them, which may only be blanks. -/
def ofJson (text : String) : Except DecodeError Options := do
  let s := text.toList
  let (o, s) ←
    match ← lift (Json.readGlimpse .strict s) with
    | (.object, s) => readMembers (s.length + 1) true [] standard s
    | (.list, s) => readElements OptionName.all true standard s
    | (g, _) => wrongType .options g
  if (skipBlank s).isEmpty then return o else throw (.unreadable .malformed)

end Options

end LuaInfer
