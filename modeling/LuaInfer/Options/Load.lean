import LuaInfer.Options.Decode
/-!
# Options files

Options are loaded from a file, given as its bytes if it exists. A failure is reported with the context in
which it arose, the outermost first.
-/

namespace LuaInfer

/-- Why a file gives no text. -/
inductive FileError where
  | notFound
  | notText
deriving DecidableEq

/-- The kind of failure, as it is reported. -/
def FileError.text : FileError → String
  | notFound => "NotFound"
  | notText => "InvalidData"

/-- Why options cannot be had. -/
inductive OptionsError where
  /-- A text cannot be read as options. -/
  | text (cause : DecodeError)
  /-- A file gives no text. -/
  | file (name : String) (cause : FileError)
  /-- The text of a file cannot be read as options. -/
  | textOfFile (name : String) (cause : DecodeError)
deriving DecidableEq

/-- The context of a failure. -/
def OptionsError.context : OptionsError → List String
  | text _ => ["failed to parse inference options"]
  | file name _ => ["failed to read options: " ++ name]
  | textOfFile name _ => ["in options file: " ++ name, "failed to parse inference options"]

namespace Options

/-- Reads options from a text. -/
def parse (text : String) : Except OptionsError Options := (ofJson text).mapError .text

/-- Reads options from the file of that name; `none` if there is no such file. -/
def load (name : String) (content : Option ByteArray) : Except OptionsError Options :=
  match content with
  | none => .error (.file name .notFound)
  | some bytes =>
    match String.fromUTF8? bytes with
    | none => .error (.file name .notText)
    | some text => (ofJson text).mapError (.textOfFile name)

end Options

end LuaInfer
