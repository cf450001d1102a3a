import LuaInfer.Text.Blank
/-!
# Log formats

The format in which events are logged, chosen by a word.
-/

namespace LuaInfer

/-- How events are logged. -/
inductive LogFormat where
  /-- One line for each event. -/
  | text
  /-- An indented tree. -/
  | tree
  /-- One JSON object for each event. -/
  | json
deriving DecidableEq

/-- The format that a word stands for. White space and case do not matter, and an unknown word stands for
lines. -/
def LogFormat.ofWord (s : String) : LogFormat :=
  match Text.word s with
  | "tree" => .tree
  | "json" => .json
  | _ => .text

end LuaInfer
