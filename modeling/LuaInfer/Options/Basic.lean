import LuaInfer.Limits
/-!
# Options

The five settings of the engine, their names, and what it is to override one of them.
-/

namespace LuaInfer

/-- What a session can be told. -/
structure Options where
  /-- Literal values contribute next to an annotation. -/
  literalNarrowing : Bool := true
  /-- A leading parameter named `self` of `obj.f = function(self)` stands for `obj`. -/
  selfParameterLinking : Bool := true
  /-- The global function that makes its first argument delegate to another object. -/
  delegationConstructor : String := "setmetatable"
  /-- The field of its second argument that holds that object. -/
  delegationField : String := "__index"
  /-- Depth limit of a chain of superclasses. -/
  maxClassDepth : UInt32 := Limits.maxClassDepth
deriving DecidableEq

/-- One setting with its value. -/
inductive Setting where
  | literalNarrowing (on : Bool)
  | selfParameterLinking (on : Bool)
  | delegationConstructor (name : String)
  | delegationField (name : String)
  | maxClassDepth (limit : UInt32)
deriving DecidableEq

/-- The name of a setting. -/
inductive OptionName where
  | literalNarrowing
  | selfParameterLinking
  | delegationConstructor
  | delegationField
  | maxClassDepth
deriving DecidableEq

namespace OptionName

/-- The names in the order in which an array lists their values. -/
def all : List OptionName :=
  [literalNarrowing, selfParameterLinking, delegationConstructor, delegationField, maxClassDepth]

/-- The name as it is written. -/
def text : OptionName → String
  | literalNarrowing => "literalNarrowing"
  | selfParameterLinking => "selfParameterLinking"
  | delegationConstructor => "delegationConstructor"
  | delegationField => "delegationField"
  | maxClassDepth => "maxClassDepth"

/-- The setting with that written name. -/
def ofText? (s : String) : Option OptionName :=
  all.find? fun n => n.text == s

end OptionName

/-- The name of the setting. -/
def Setting.name : Setting → OptionName
  | literalNarrowing _ => .literalNarrowing
  | selfParameterLinking _ => .selfParameterLinking
  | delegationConstructor _ => .delegationConstructor
  | delegationField _ => .delegationField
  | maxClassDepth _ => .maxClassDepth

namespace Options

/-- Overrides one setting. -/
def set (o : Options) : Setting → Options
  | .literalNarrowing b => { o with literalNarrowing := b }
  | .selfParameterLinking b => { o with selfParameterLinking := b }
  | .delegationConstructor s => { o with delegationConstructor := s }
  | .delegationField s => { o with delegationField := s }
  | .maxClassDepth n => { o with maxClassDepth := n }

/-- The value that the options give to a name. -/
def get (o : Options) : OptionName → Setting
  | .literalNarrowing => .literalNarrowing o.literalNarrowing
  | .selfParameterLinking => .selfParameterLinking o.selfParameterLinking
  | .delegationConstructor => .delegationConstructor o.delegationConstructor
  | .delegationField => .delegationField o.delegationField
  | .maxClassDepth => .maxClassDepth o.maxClassDepth

/-- What has not been said takes these values. -/
def standard : Options := {}

end Options

end LuaInfer
