import LuaInfer.Json.Escape
import LuaInfer.Options.Basic
/-!
# Writing options

Options are written as a JSON object with a member for every setting.
-/

namespace LuaInfer

/-- The value of a setting. -/
def Setting.writeValue : Setting → List Char
  | literalNarrowing b | selfParameterLinking b => (if b then "true" else "false").toList
  | delegationConstructor s | delegationField s => Json.writeString s
  | maxClassDepth n => Nat.toDigits 10 n.toNat

/-- A setting as a member of an object. -/
def Setting.writeMember (x : Setting) : List Char :=
  Json.writeString x.name.text ++ ':' :: x.writeValue

/-- Options as a JSON object. -/
def Options.toJson (o : Options) : String :=
  let members := OptionName.all.map fun n => (o.get n).writeMember
  .ofList ('{' :: (members.intersperse [',']).flatten ++ ['}'])

end LuaInfer
