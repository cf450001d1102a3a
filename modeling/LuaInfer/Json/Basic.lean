/-!
# Reading JSON text

A reader takes the characters that are left and gives what it read and what is left after it. Reading
fails in one of two ways: the text ends too early, or it is malformed. `Care` tells how closely a part is
read: one whose content matters strictly, one that is passed over laxly.
-/

namespace LuaInfer.Json

/-- Why text cannot be read. -/
inductive Failure where
  | endOfText
  | malformed
deriving DecidableEq

/-- How closely a part is read. -/
inductive Care where
  | strict
  | lax
deriving DecidableEq

/-- A reader of an `α`. -/
abbrev Reader (α : Type) := List Char → Except Failure (α × List Char)

/-- Whether a character may stand between tokens. -/
def isBlank (c : Char) : Bool := c == ' ' || c == '\n' || c == '\t' || c == '\r'

/-- What is left after blanks. -/
def skipBlank (s : List Char) : List Char := s.dropWhile isBlank

/-- Takes the characters of a word from the text. -/
def readWord : List Char → List Char → Except Failure (List Char)
  | [], s => .ok s
  | _ :: _, [] => .error .endOfText
  | w :: word, c :: s => if c = w then readWord word s else .error .malformed

/-- Takes one character, after blanks. -/
def readMark (mark : Char) (s : List Char) : Except Failure (List Char) :=
  readWord [mark] (skipBlank s)

/-- The value of a hexadecimal digit. -/
def hexValue? (c : Char) : Option Nat :=
  if '0' ≤ c && c ≤ '9' then some (c.toNat - '0'.toNat)
  else if 'a' ≤ c && c ≤ 'f' then some (c.toNat - 'a'.toNat + 10)
  else if 'A' ≤ c && c ≤ 'F' then some (c.toNat - 'A'.toNat + 10)
  else none

/-- Reads four hexadecimal digits. Where fewer than four bytes are left the text ends too early, whatever
they are. -/
def readHex : Reader Nat
  | a :: b :: c :: d :: s =>
    match hexValue? a, hexValue? b, hexValue? c, hexValue? d with
    | some a, some b, some c, some d => .ok (a * 4096 + b * 256 + c * 16 + d, s)
    | _, _, _, _ => .error .malformed
  | s => .error (if s.foldl (fun n c => n + c.utf8Size) 0 < 4 then .endOfText else .malformed)

/-- Whether a code unit is the first half of a pair. -/
def isHighSurrogate (n : Nat) : Bool := 0xd800 ≤ n && n < 0xdc00

/-- Whether a code unit is the second half of a pair. -/
def isLowSurrogate (n : Nat) : Bool := 0xdc00 ≤ n && n < 0xe000

/-- The character of a pair. -/
def pairChar (high low : Nat) : Char :=
  Char.ofNat (0x10000 + (high - 0xd800) * 0x400 + (low - 0xdc00))

/-- Reads the digits of a numeric escape, and those of its second half if it is the first of a pair. Read
laxly, halves need no partner, and what they stand for does not matter. -/
def readUnicode (care : Care) : Reader Char := fun s => do
  let (n, s) ← readHex s
  match care with
  | .lax => return (Char.ofNat n, s)
  | .strict =>
    if isLowSurrogate n then throw .malformed
    if isHighSurrogate n then
      let s ← readWord ['\\', 'u'] s
      let (m, s) ← readHex s
      if isLowSurrogate m then return (pairChar n m, s) else throw .malformed
    return (Char.ofNat n, s)

/-- The character that a letter after a backslash stands for. -/
def escapeChar? (c : Char) : Option Char :=
  match c with
  | '"' => some '"'
  | '\\' => some '\\'
  | '/' => some '/'
  | 'b' => some '\x08'
  | 'f' => some '\x0c'
  | 'n' => some '\n'
  | 'r' => some '\r'
  | 't' => some '\t'
  | _ => none

/-- Reads what follows a backslash. -/
def readEscape (care : Care) : Reader Char
  | [] => .error .endOfText
  | 'u' :: s => readUnicode care s
  | c :: s =>
    match escapeChar? c with
    | some e => .ok (e, s)
    | none => .error .malformed

/-- Reads characters up to the closing quote; `acc` holds those read before, the last first. A character
below the space has to be escaped. Every round takes a character, so the length of the text is fuel
enough. -/
def readCharsFrom (care : Care) : Nat → List Char → Reader (List Char)
  | _, _, [] => .error .endOfText
  | 0, _, _ => .error .malformed
  | fuel + 1, acc, c :: s =>
    if c = '"' then .ok (acc.reverse, s)
    else if c = '\\' then do
      let (e, s) ← readEscape care s
      readCharsFrom care fuel (e :: acc) s
    else if c < ' ' then .error .malformed
    else readCharsFrom care fuel (c :: acc) s

/-- Reads a string whose opening quote was taken. -/
def readChars (care : Care) : Reader String := fun s => do
  let (cs, rest) ← readCharsFrom care s.length [] s
  return (.ofList cs, rest)

end LuaInfer.Json
