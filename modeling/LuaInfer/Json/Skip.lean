import LuaInfer.Json.Number
/-!
# Passing over JSON values

What a value is can be told from its first characters. A scalar is read whole; of a list or an object only
the bracket is taken. `skipFrom` then passes over the rest, keeping the brackets that are open on a stack.
-/

namespace LuaInfer.Json

/-- What a value is. -/
inductive Glimpse where
  | null
  | boolean (b : Bool)
  | number (t : NumberText)
  | string (s : String)
  | list
  | object
deriving DecidableEq

/-- Reads a scalar, or the opening bracket of a list or an object. Read strictly, a number has to be in
range. -/
def readGlimpse (care : Care) : Reader Glimpse := fun s =>
  match skipBlank s with
  | [] => .error .endOfText
  | c :: s =>
    match c with
    | 'n' => (readWord ['u', 'l', 'l'] s).map fun s => (.null, s)
    | 't' => (readWord ['r', 'u', 'e'] s).map fun s => (.boolean true, s)
    | 'f' => (readWord ['a', 'l', 's', 'e'] s).map fun s => (.boolean false, s)
    | '"' => (readChars care s).map fun (text, s) => (.string text, s)
    | '[' => .ok (.list, s)
    | '{' => .ok (.object, s)
    | c =>
      if c = '-' || c.isDigit then do
        let (t, s) ← readNumber care (c :: s)
        if care = .strict && t.value?.isNone then throw .malformed
        return (.number t, s)
      else .error .malformed

/-- An open bracket. -/
inductive Frame where
  | list
  | object
deriving DecidableEq

/-- The bracket that a glimpse took. -/
def Glimpse.frame? : Glimpse → Option Frame
  | .list => some .list
  | .object => some .object
  | _ => none

/-- The bracket that closes a frame. -/
def Frame.closing : Frame → Char
  | list => ']'
  | object => '}'

/-- What may come next. -/
inductive Expect where
  /-- A value. -/
  | value
  /-- The name of a member. -/
  | name
  /-- The closing bracket, or what comes first between brackets. -/
  | first
  /-- A comma or the closing bracket. -/
  | more
deriving DecidableEq

/-- What stands between the brackets of a frame. -/
def Frame.entry : Frame → Expect
  | list => .value
  | object => .name

/-- Brackets that may be open around a strictly read value, its own among them. -/
def maxNesting : Nat := 127

/-- Whether one more bracket may be opened inside `frames`, which stand inside one bracket themselves. -/
def mayOpen (care : Care) (frames : List Frame) : Bool :=
  care = .lax || frames.length + 2 ≤ maxNesting

/-- Passes over text until no bracket is open. Every second round takes a character. -/
def skipFrom (care : Care) : Nat → Expect → List Frame → List Char → Except Failure (List Char)
  | _, .more, [], s => .ok s
  | 0, _, _, _ => .error .malformed
  | fuel + 1, .value, frames, s => do
    let (g, s) ← readGlimpse care s
    match g.frame? with
    | none => skipFrom care fuel .more frames s
    | some f =>
      if mayOpen care frames then skipFrom care fuel .first (f :: frames) s else .error .malformed
  | fuel + 1, .name, frames, s => do
    let s ← readMark '"' s
    let (_, s) ← readChars care s
    let s ← readMark ':' s
    skipFrom care fuel .value frames s
  | fuel + 1, .first, frames, s =>
    match frames, skipBlank s with
    | [], _ => .error .malformed
    | _ :: _, [] => .error .endOfText
    | f :: frames, c :: s =>
      if c = f.closing then skipFrom care fuel .more frames s
      else skipFrom care fuel f.entry (f :: frames) (c :: s)
  | fuel + 1, .more, f :: frames, s =>
    match skipBlank s with
    | [] => .error .endOfText
    | c :: s =>
      if c = f.closing then skipFrom care fuel .more frames s
      else if c = ',' then skipFrom care fuel f.entry (f :: frames) s
      else .error .malformed

/-- Enough rounds for a text. -/
def rounds (s : List Char) : Nat := 2 * s.length + 2

/-- Passes over a value. -/
def skipValue (care : Care) (s : List Char) : Except Failure (List Char) :=
  skipFrom care (rounds s) .value [] s

/-- Passes over the rest of a value of which a glimpse was read. -/
def skipRest (care : Care) (g : Glimpse) (s : List Char) : Except Failure (List Char) :=
  match g.frame? with
  | none => .ok s
  | some f => skipFrom care (rounds s) .first [f] s

end LuaInfer.Json
