import Mathlib.Data.List.Basic
import LuaInfer.Json.Skip
import LuaInfer.Proofs.Outcome
/-!
# The grammar of JSON text

`Spells` says which texts are written for a value: blanks before any token, every way to write a character
of a string, and every way to write a number. It mentions no reader. The readers follow it: a glimpse takes
the first token of a value, and passing over takes the value whole, unless it is read closely and holds a
number out of range or too many brackets inside each other.
-/

namespace LuaInfer.Json

/-- A JSON value. Members of an object keep their order and may repeat a name. -/
inductive Value where
  | null
  | boolean (b : Bool)
  | number (t : NumberText)
  | string (s : String)
  | list (items : List Value)
  | object (members : List (String × Value))

/-- What the first token of a value tells. -/
def Value.glimpse : Value → Glimpse
  | null => .null
  | boolean b => .boolean b
  | number t => .number t
  | string s => .string s
  | list _ => .list
  | object _ => .object

/-- Text that may stand before a token. -/
def Blank (b : List Char) : Prop := ∀ c ∈ b, c ∈ [' ', '\t', '\n', '\r']

theorem blank_nil : Blank [] := by simp [Blank]

/-- A hexadecimal digit and its value. -/
def HexDigit (n : Nat) (c : Char) : Prop :=
  "0123456789abcdef".toList[n]? = some c ∨ "0123456789ABCDEF".toList[n]? = some c

/-- The four digits of a code unit. -/
inductive SpellsUnit : Nat → List Char → Prop
  | mk {w x y z : Nat} {a b c d : Char} (ha : HexDigit w a) (hb : HexDigit x b) (hc : HexDigit y c)
      (hd : HexDigit z d) : SpellsUnit (w * 4096 + x * 256 + y * 16 + z) [a, b, c, d]

/-- Letters that stand for a character after a backslash. -/
def shortEscapes : List (Char × Char) :=
  [('"', '"'), ('\\', '\\'), ('/', '/'), ('b', '\x08'), ('f', '\x0c'), ('n', '\n'), ('r', '\r'),
    ('t', '\t')]

/-- The ways to write characters between quotes. -/
inductive SpellsChars : List Char → List Char → Prop
  | nil : SpellsChars [] []
  | plain {c : Char} {cs s : List Char} (hc : ' ' ≤ c) (hq : c ≠ '"') (hb : c ≠ '\\')
      (hs : SpellsChars cs s) : SpellsChars (c :: cs) (c :: s)
  | short {l c : Char} {cs s : List Char} (hc : (l, c) ∈ shortEscapes) (hs : SpellsChars cs s) :
      SpellsChars (c :: cs) ('\\' :: l :: s)
  | unit {n : Nat} {cs u s : List Char} (hu : SpellsUnit n u) (hn : n < 0xd800 ∨ 0xe000 ≤ n)
      (hs : SpellsChars cs s) : SpellsChars (Char.ofNat n :: cs) ('\\' :: 'u' :: (u ++ s))
  | pair {n m : Nat} {cs u w s : List Char} (hu : SpellsUnit n u) (hw : SpellsUnit m w)
      (hn : 0xd800 ≤ n ∧ n < 0xdc00) (hm : 0xdc00 ≤ m ∧ m < 0xe000) (hs : SpellsChars cs s) :
      SpellsChars (Char.ofNat (0x10000 + (n - 0xd800) * 0x400 + (m - 0xdc00)) :: cs)
        ('\\' :: 'u' :: (u ++ '\\' :: 'u' :: (w ++ s)))

/-- At least one decimal digit. -/
def Digits (ds : List Nat) : Prop := ds ≠ [] ∧ ∀ d ∈ ds, d < 10

/-- Digits as they are written. -/
def spellDigits (ds : List Nat) : List Char := ds.map Nat.digitChar

/-- The ways to write a fraction. -/
inductive SpellsFraction : Option (List Nat) → List Char → Prop
  | none : SpellsFraction none []
  | some {ds : List Nat} (hd : Digits ds) : SpellsFraction (some ds) ('.' :: spellDigits ds)

/-- The ways to write the sign of an exponent. -/
def signs : List (Bool × List Char) := [(false, []), (false, ['+']), (true, ['-'])]

/-- The ways to write an exponent. -/
inductive SpellsExponent : Option (Bool × List Nat) → List Char → Prop
  | none : SpellsExponent none []
  | some {e : Char} {negative : Bool} {sign : List Char} {ds : List Nat} (he : e = 'e' ∨ e = 'E')
      (hs : (negative, sign) ∈ signs) (hd : Digits ds) :
      SpellsExponent (some (negative, ds)) (e :: (sign ++ spellDigits ds))

/-- The ways to write a number. -/
inductive SpellsNumber : NumberText → List Char → Prop
  | mk {negative : Bool} {whole : List Nat} {fraction : Option (List Nat)}
      {exponent : Option (Bool × List Nat)} {s t : List Char} (hw : Digits whole)
      (hz : ∀ ds, whole = 0 :: ds → ds = []) (hf : SpellsFraction fraction s)
      (he : SpellsExponent exponent t) :
      SpellsNumber ⟨negative, whole, fraction, exponent⟩
        ((if negative then ['-'] else []) ++ (spellDigits whole ++ (s ++ t)))

/-- The ways to write a value without brackets. -/
inductive SpellsScalar : Value → List Char → Prop
  | null : SpellsScalar .null ['n', 'u', 'l', 'l']
  | isTrue : SpellsScalar (.boolean true) ['t', 'r', 'u', 'e']
  | isFalse : SpellsScalar (.boolean false) ['f', 'a', 'l', 's', 'e']
  | number {t : NumberText} {s : List Char} (hs : SpellsNumber t s) : SpellsScalar (.number t) s
  | string {cs s : List Char} (hs : SpellsChars cs s) :
      SpellsScalar (.string (.ofList cs)) ('"' :: (s ++ ['"']))

/-- A part of a text: a value, or what stands between brackets up to the closing one. -/
inductive Part where
  | value (v : Value)
  | member (name : String) (v : Value)
  | items (vs : List Value)
  | moreItems (vs : List Value)
  | members (ms : List (String × Value))
  | moreMembers (ms : List (String × Value))

/-- The ways to write a part. -/
inductive Spells : Part → List Char → Prop
  | scalar {v : Value} {b s : List Char} (hb : Blank b) (hs : SpellsScalar v s) : Spells (.value v) (b ++ s)
  | list {vs : List Value} {b s : List Char} (hb : Blank b) (hs : Spells (.items vs) s) :
      Spells (.value (.list vs)) (b ++ '[' :: s)
  | object {ms : List (String × Value)} {b s : List Char} (hb : Blank b) (hs : Spells (.members ms) s) :
      Spells (.value (.object ms)) (b ++ '{' :: s)
  | noItem {b : List Char} (hb : Blank b) : Spells (.items []) (b ++ [']'])
  | firstItem {v : Value} {vs : List Value} {s t : List Char} (hs : Spells (.value v) s)
      (ht : Spells (.moreItems vs) t) : Spells (.items (v :: vs)) (s ++ t)
  | lastItem {b : List Char} (hb : Blank b) : Spells (.moreItems []) (b ++ [']'])
  | nextItem {v : Value} {vs : List Value} {b s t : List Char} (hb : Blank b) (hs : Spells (.value v) s)
      (ht : Spells (.moreItems vs) t) : Spells (.moreItems (v :: vs)) (b ++ ',' :: (s ++ t))
  | member {v : Value} {b cs n b' s : List Char} (hb : Blank b) (hn : SpellsChars cs n) (hb' : Blank b')
      (hs : Spells (.value v) s) :
      Spells (.member (.ofList cs) v) (b ++ '"' :: (n ++ '"' :: (b' ++ ':' :: s)))
  | noMember {b : List Char} (hb : Blank b) : Spells (.members []) (b ++ ['}'])
  | firstMember {name : String} {v : Value} {ms : List (String × Value)} {s t : List Char}
      (hs : Spells (.member name v) s) (ht : Spells (.moreMembers ms) t) :
      Spells (.members ((name, v) :: ms)) (s ++ t)
  | lastMember {b : List Char} (hb : Blank b) : Spells (.moreMembers []) (b ++ ['}'])
  | nextMember {name : String} {v : Value} {ms : List (String × Value)} {b s t : List Char} (hb : Blank b)
      (hs : Spells (.member name v) s) (ht : Spells (.moreMembers ms) t) :
      Spells (.moreMembers ((name, v) :: ms)) (b ++ ',' :: (s ++ t))

/-- A text that holds a value and nothing else. -/
def Writes (v : Value) (text : String) : Prop :=
  ∃ s b, Spells (.value v) s ∧ Blank b ∧ text.toList = s ++ b

/-! ### Tokens -/

/-- Text before which a number ends. -/
def Stops (rest : List Char) : Prop :=
  ∀ c ∈ rest.head?, c.isDigit = false ∧ c ≠ '.' ∧ c ≠ 'e' ∧ c ≠ 'E'

theorem isBlank_iff {c : Char} : isBlank c = true ↔ c ∈ [' ', '\t', '\n', '\r'] := by
  simp [isBlank, or_comm, or_left_comm, or_assoc]

theorem skipBlank_append {b : List Char} (hb : Blank b) (s : List Char) :
    skipBlank (b ++ s) = skipBlank s := by
  refine List.dropWhile_append_of_pos fun c hc => ?_
  exact isBlank_iff.mpr (hb c hc)

theorem skipBlank_cons {c : Char} (hc : isBlank c = false) (s : List Char) :
    skipBlank (c :: s) = c :: s :=
  List.dropWhile_cons_of_neg (by simp [hc])

/-- Blanks are taken as far as the next token. -/
theorem skipBlank_token {b : List Char} {c : Char} (hb : Blank b) (hc : isBlank c = false)
    (s : List Char) : skipBlank (b ++ c :: s) = c :: s := by
  rw [skipBlank_append hb, skipBlank_cons hc]

theorem readMark_token {b : List Char} {mark : Char} (hb : Blank b) (hm : isBlank mark = false)
    (s : List Char) : readMark mark (b ++ mark :: s) = .ok s := by
  simp [readMark, skipBlank_token hb hm, readWord]

theorem Stops.cons {c : Char} (hc : c ∈ [' ', '\t', '\n', '\r', ',', ']', '}']) (s : List Char) :
    Stops (c :: s) := by
  rintro d ⟨⟩
  simp only [List.mem_cons, List.not_mem_nil, or_false] at hc
  rcases hc with rfl | rfl | rfl | rfl | rfl | rfl | rfl <;> decide

theorem Stops.blank {b s : List Char} (hb : Blank b) (hs : Stops s) : Stops (b ++ s) := by
  cases b with
  | nil => exact hs
  | cons c b =>
    have hc := hb c (by simp)
    exact .cons (by simp at hc ⊢; tauto) _

theorem Spells.stops_moreItems {vs : List Value} {t : List Char} (h : Spells (.moreItems vs) t)
    (rest : List Char) : Stops (t ++ rest) := by
  cases h with
  | lastItem hb => simpa using Stops.blank hb (.cons (by simp) rest)
  | nextItem hb _ _ => simpa using Stops.blank hb (.cons (by simp) _)

theorem Spells.stops_moreMembers {ms : List (String × Value)} {t : List Char}
    (h : Spells (.moreMembers ms) t) (rest : List Char) : Stops (t ++ rest) := by
  cases h with
  | lastMember hb => simpa using Stops.blank hb (.cons (by simp) rest)
  | nextMember hb _ _ => simpa using Stops.blank hb (.cons (by simp) _)

/-! ### Strings -/

theorem HexDigit.hexValue {n : Nat} {c : Char} (h : HexDigit n c) : hexValue? c = some n := by
  have hlower : ∀ m < 16, "0123456789abcdef".toList[m]?.bind hexValue? = some m := by decide
  have hupper : ∀ m < 16, "0123456789ABCDEF".toList[m]?.bind hexValue? = some m := by decide
  rcases h with h | h
  · have hvalue := hlower n (List.getElem?_eq_some_iff.mp h).1
    rwa [h, Option.bind_some] at hvalue
  · have hvalue := hupper n (List.getElem?_eq_some_iff.mp h).1
    rwa [h, Option.bind_some] at hvalue

theorem SpellsUnit.readHex {n : Nat} {u : List Char} (h : SpellsUnit n u) (s : List Char) :
    readHex (u ++ s) = .ok (n, s) := by
  cases h with
  | mk ha hb hc hd => simp [Json.readHex, ha.hexValue, hb.hexValue, hc.hexValue, hd.hexValue]

/-- A part that is written in a string after a backslash, read either way. -/
theorem readEscape_short {care : Care} {l c : Char} (h : (l, c) ∈ shortEscapes) (s : List Char) :
    readEscape care (l :: s) = .ok (c, s) := by
  simp [shortEscapes] at h
  rcases h with ⟨rfl, rfl⟩ | ⟨rfl, rfl⟩ | ⟨rfl, rfl⟩ | ⟨rfl, rfl⟩ | ⟨rfl, rfl⟩ | ⟨rfl, rfl⟩ |
    ⟨rfl, rfl⟩ | ⟨rfl, rfl⟩ <;> rfl

theorem readEscape_unit {care : Care} {n : Nat} {u : List Char} (hu : SpellsUnit n u)
    (hn : n < 0xd800 ∨ 0xe000 ≤ n) (s : List Char) :
    readEscape care ('u' :: (u ++ s)) = .ok (Char.ofNat n, s) := by
  have hlow : isLowSurrogate n = false := by simp [isLowSurrogate]; omega
  have hhigh : isHighSurrogate n = false := by simp [isHighSurrogate]; omega
  cases care <;> simp [readEscape, readUnicode, hu.readHex, hlow, hhigh]

theorem readEscape_half {n : Nat} {u : List Char} (hu : SpellsUnit n u) (s : List Char) :
    readEscape .lax ('u' :: (u ++ s)) = .ok (Char.ofNat n, s) := by
  simp [readEscape, readUnicode, hu.readHex]

theorem readEscape_pair {n m : Nat} {u w : List Char} (hu : SpellsUnit n u) (hw : SpellsUnit m w)
    (hn : 0xd800 ≤ n ∧ n < 0xdc00) (hm : 0xdc00 ≤ m ∧ m < 0xe000) (s : List Char) :
    readEscape .strict ('u' :: (u ++ '\\' :: 'u' :: (w ++ s))) = .ok (pairChar n m, s) := by
  have hlow : isLowSurrogate n = false := by simp [isLowSurrogate]; omega
  have hhigh : isHighSurrogate n = true := by simp [isHighSurrogate]; omega
  have hlow' : isLowSurrogate m = true := by simp [isLowSurrogate]; omega
  simp [readEscape, readUnicode, hu.readHex, hw.readHex, hlow, hhigh, hlow', readWord]

/-- Characters are read up to the closing quote; to a close reader they are those written. -/
theorem SpellsChars.readCharsFrom {cs s : List Char} (h : SpellsChars cs s) (care : Care) (rest : List Char) :
    ∀ fuel acc, s.length < fuel → ∃ cs', (care = .strict → cs' = cs) ∧
      readCharsFrom care fuel acc (s ++ '"' :: rest) = .ok (acc.reverse ++ cs', rest) := by
  induction h with
  | nil =>
    intro fuel acc hf
    obtain ⟨fuel, rfl⟩ : ∃ k, fuel = k + 1 := ⟨fuel - 1, by simp at hf; omega⟩
    exact ⟨[], by simp, by simp [Json.readCharsFrom]⟩
  | @plain c cs s hc hq hb hs ih =>
    intro fuel acc hf
    obtain ⟨fuel, rfl⟩ : ∃ k, fuel = k + 1 := ⟨fuel - 1, by omega⟩
    obtain ⟨cs', hcs, hread⟩ := ih fuel (c :: acc) (by simpa using hf)
    refine ⟨c :: cs', by simp_all, ?_⟩
    have hlt : ¬ c < ' ' := Char.not_lt.mpr hc
    simp [Json.readCharsFrom, hq, hb, hlt, hread]
  | @short l c cs s hc hs ih =>
    intro fuel acc hf
    obtain ⟨fuel, rfl⟩ : ∃ k, fuel = k + 1 := ⟨fuel - 1, by omega⟩
    obtain ⟨cs', hcs, hread⟩ := ih fuel (c :: acc) (by simp at hf; omega)
    refine ⟨c :: cs', by simp_all, ?_⟩
    simp [Json.readCharsFrom, readEscape_short hc, hread]
  | @unit n cs u s hu hn hs ih =>
    intro fuel acc hf
    obtain ⟨fuel, rfl⟩ : ∃ k, fuel = k + 1 := ⟨fuel - 1, by omega⟩
    obtain ⟨cs', hcs, hread⟩ := ih fuel (Char.ofNat n :: acc) (by simp at hf; omega)
    refine ⟨Char.ofNat n :: cs', by simp_all, ?_⟩
    simp [Json.readCharsFrom, readEscape_unit hu hn, hread]
  | @pair n m cs u w s hu hw hn hm hs ih =>
    intro fuel acc hf
    obtain ⟨fuel, rfl⟩ : ∃ k, fuel = k + 2 := ⟨fuel - 2, by simp at hf; omega⟩
    cases care with
    | strict =>
      obtain ⟨cs', hcs, hread⟩ := ih (fuel + 1) (pairChar n m :: acc) (by simp at hf; omega)
      refine ⟨pairChar n m :: cs', by simp_all [pairChar], ?_⟩
      simp [Json.readCharsFrom, readEscape_pair hu hw hn hm, hread]
    | lax =>
      -- the halves are read as two characters
      obtain ⟨cs', -, hread⟩ := ih fuel (Char.ofNat m :: Char.ofNat n :: acc) (by simp at hf; omega)
      refine ⟨Char.ofNat n :: Char.ofNat m :: cs', by simp, ?_⟩
      simp [Json.readCharsFrom, readEscape_half hu, readEscape_half hw, hread]

theorem SpellsChars.readChars {cs s : List Char} (h : SpellsChars cs s) (care : Care) (rest : List Char) :
    ∃ name, (care = .strict → name = .ofList cs) ∧
      readChars care (s ++ '"' :: rest) = .ok (name, rest) := by
  obtain ⟨cs', hcs, hread⟩ := h.readCharsFrom care rest (s ++ '"' :: rest).length [] (by simp)
  refine ⟨.ofList cs', fun hc => by rw [hcs hc], ?_⟩
  simp only [Json.readChars, hread]
  rfl

/-! ### Numbers -/

theorem digit?_digitChar {d : Nat} (hd : d < 10) : digit? d.digitChar = some d := by
  revert d
  decide

theorem Digits.spell {ds : List Nat} (h : Digits ds) :
    ∃ c t, spellDigits ds = c :: t ∧ c.isDigit = true := by
  obtain ⟨d, ds, rfl⟩ := List.exists_cons_of_ne_nil h.1
  have hdigit : ∀ d < 10, d.digitChar.isDigit = true := by decide
  exact ⟨_, _, rfl, hdigit d (h.2 d (by simp))⟩

/-- Digits are read as far as they go. -/
theorem readDigits_spell {ds : List Nat} (hds : ∀ d ∈ ds, d < 10) {rest : List Char}
    (hr : ∀ c ∈ rest.head?, c.isDigit = false) : readDigits (spellDigits ds ++ rest) = (ds, rest) := by
  induction ds with
  | nil =>
    cases rest with
    | nil => rfl
    | cons c rest =>
      have hc : digit? c = none := by simp [digit?, hr c rfl]
      simp [spellDigits, readDigits, hc]
  | cons d ds ih =>
    have hd := digit?_digitChar (hds d (by simp))
    have hrest : readDigits (spellDigits ds ++ rest) = (ds, rest) := ih fun d h => hds d (by simp [h])
    simp only [spellDigits, List.map_cons, List.cons_append, readDigits, hd] at hrest ⊢
    rw [hrest]

theorem readSomeDigits_spell {care : Care} {ds : List Nat} (hds : Digits ds) {rest : List Char}
    (hr : ∀ c ∈ rest.head?, c.isDigit = false) :
    readSomeDigits care (spellDigits ds ++ rest) = .ok (ds, rest) := by
  obtain ⟨d, ds, rfl⟩ := List.exists_cons_of_ne_nil hds.1
  simp [readSomeDigits, readDigits_spell hds.2 hr]

theorem readWhole_spell {care : Care} {ds : List Nat} (hds : Digits ds) (hz : ∀ t, ds = 0 :: t → t = [])
    {rest : List Char} (hr : ∀ c ∈ rest.head?, c.isDigit = false) :
    readWhole care (spellDigits ds ++ rest) = .ok (ds, rest) := by
  simp only [readWhole, readSomeDigits_spell hds hr, Except.ok_bind]
  split
  · rename_i d t _ heq
    cases heq
    cases hz _ rfl
  · rfl

theorem SpellsFraction.readFraction {care : Care} {f : Option (List Nat)} {s : List Char}
    (h : SpellsFraction f s) {rest : List Char} (hr : ∀ c ∈ rest.head?, c.isDigit = false ∧ c ≠ '.') :
    readFraction care (s ++ rest) = .ok (f, rest) := by
  cases h with
  | none =>
    cases rest with
    | nil => rfl
    | cons c rest =>
      have hc : c ≠ '.' := (hr c rfl).2
      simp [Json.readFraction, hc]
  | some hd =>
    have hread : readSomeDigits care _ = _ := readSomeDigits_spell hd fun c hc => (hr c hc).1
    simp [Json.readFraction, hread]

theorem SpellsExponent.readExponent {care : Care} {e : Option (Bool × List Nat)} {s : List Char}
    (h : SpellsExponent e s) {rest : List Char} (hr : Stops rest) :
    readExponent care (s ++ rest) = .ok (e, rest) := by
  cases h with
  | none =>
    cases rest with
    | nil => rfl
    | cons c rest =>
      obtain ⟨-, -, he, hE⟩ := hr c rfl
      simp [Json.readExponent, he, hE]
  | @some e negative sign ds he hs hd =>
    have hread : readSomeDigits care _ = _ := readSomeDigits_spell hd fun c hc => (hr c hc).1
    have he' : (e = 'e' || e = 'E') = true := by simpa using he
    simp [signs] at hs
    rcases hs with ⟨rfl, rfl⟩ | ⟨rfl, rfl⟩ | ⟨rfl, rfl⟩
    · obtain ⟨c, t, ht, hc⟩ := hd.spell
      have hplus : c ≠ '+' := by rintro rfl; cases hc
      have hminus : c ≠ '-' := by rintro rfl; cases hc
      rw [ht, List.cons_append] at hread
      simp [Json.readExponent, he', ht, hplus, hminus, hread]
    · simp [Json.readExponent, he', hread]
    · simp [Json.readExponent, he', hread]

theorem SpellsFraction.head {f : Option (List Nat)} {s : List Char} (h : SpellsFraction f s)
    {rest : List Char} (hr : ∀ c ∈ rest.head?, c.isDigit = false) :
    ∀ c ∈ (s ++ rest).head?, c.isDigit = false := by
  cases h with
  | none => exact hr
  | some => rintro c ⟨⟩; rfl

theorem SpellsExponent.head {e : Option (Bool × List Nat)} {s : List Char} (h : SpellsExponent e s)
    {rest : List Char} (hr : Stops rest) : ∀ c ∈ (s ++ rest).head?, c.isDigit = false ∧ c ≠ '.' := by
  cases h with
  | none => exact fun c hc => ⟨(hr c hc).1, (hr c hc).2.1⟩
  | some he =>
    rintro c ⟨⟩
    rcases he with rfl | rfl <;> decide

/-- A number is read to its end, and its first character shows that it is one. -/
theorem SpellsNumber.readNumber {t : NumberText} {s : List Char} (h : SpellsNumber t s) (care : Care)
    {rest : List Char} (hr : Stops rest) :
    ∃ c s', s ++ rest = c :: s' ∧ (c = '-' ∨ c.isDigit = true) ∧
      readNumber care (c :: s') = .ok (t, rest) := by
  obtain @⟨negative, whole, fraction, exponent, f, e, hw, hz, hf, he⟩ := h
  obtain ⟨c, ds, hds, hc⟩ := hw.spell
  have hafter := he.head hr
  have hwhole : readWhole care _ = _ :=
    readWhole_spell hw hz (hf.head fun c hc => (hafter c hc).1)
  have hread : Json.readNumber care
      ((if negative then ['-'] else []) ++ (spellDigits whole ++ (f ++ (e ++ rest)))) =
      .ok (⟨negative, whole, fraction, exponent⟩, rest) := by
    have hminus : c ≠ '-' := by rintro rfl; cases hc
    rw [hds, List.cons_append] at hwhole ⊢
    cases negative <;>
      simp [Json.readNumber, hwhole, hminus, hf.readFraction hafter, he.readExponent hr]
  cases negative with
  | true => exact ⟨'-', spellDigits whole ++ (f ++ (e ++ rest)), by simp, .inl rfl, by simpa using hread⟩
  | false =>
    refine ⟨c, ds ++ (f ++ (e ++ rest)), by simp [hds], .inr hc, ?_⟩
    simpa [hds] using hread

/-! ### Values -/

/-- Whether a number that is read is in range. -/
def Glimpse.inRange (care : Care) : Glimpse → Bool
  | .number t => care = .lax || t.value?.isSome
  | _ => true

theorem readGlimpse_blank {care : Care} {b : List Char} (hb : Blank b) (s : List Char) :
    readGlimpse care (b ++ s) = readGlimpse care s := by
  simp only [readGlimpse, skipBlank_append hb]

theorem not_mem_of_number {c : Char} (hc : c = '-' ∨ c.isDigit = true) :
    c ∉ [' ', '\t', '\n', '\r', ']', '}', 'n', 't', 'f', '"', '[', '{'] := by
  intro h
  simp only [List.mem_cons, List.not_mem_nil, or_false] at h
  rcases h with rfl | rfl | rfl | rfl | rfl | rfl | rfl | rfl | rfl | rfl | rfl | rfl <;> revert hc <;> decide

theorem not_isBlank_of_number {c : Char} (hc : c = '-' ∨ c.isDigit = true) : isBlank c = false := by
  have hno := not_mem_of_number hc
  have hblank := isBlank_iff (c := c)
  simp only [List.mem_cons] at hno hblank
  exact eq_false_of_ne_true fun h => hno (by tauto)

theorem readGlimpse_number {care : Care} {c : Char} {s : List Char} (hc : c = '-' ∨ c.isDigit = true) :
    readGlimpse care (c :: s) = do
      let (t, s) ← readNumber care (c :: s)
      if care = .strict && t.value?.isNone then throw .malformed
      return (.number t, s) := by
  have hc' : (c = '-' || c.isDigit) = true := by simpa using hc
  have hno := not_mem_of_number hc
  simp only [readGlimpse, skipBlank_cons (not_isBlank_of_number hc)]
  split
  all_goals first | (simp [hc']; done) | exact absurd (by simp) hno

theorem SpellsScalar.frame {v : Value} {s : List Char} (h : SpellsScalar v s) : v.glimpse.frame? = none := by
  cases h <;> rfl

/-- A glimpse of a value without brackets takes it whole. -/
theorem SpellsScalar.readGlimpse {v : Value} {s : List Char} (h : SpellsScalar v s) (care : Care)
    {b rest : List Char} (hb : Blank b) (hr : Stops rest) :
    ∃ g, (care = .strict → g = v.glimpse) ∧ g.frame? = none ∧
      readGlimpse care (b ++ (s ++ rest)) =
        if v.glimpse.inRange care then .ok (g, rest) else .error .malformed := by
  rw [readGlimpse_blank hb]
  cases h with
  | null | isTrue | isFalse =>
    refine ⟨_, fun _ => rfl, rfl, ?_⟩
    simp [Json.readGlimpse, skipBlank_cons, isBlank, readWord, Value.glimpse, Glimpse.inRange]
  | string hs =>
    obtain ⟨name, hname, hread⟩ := hs.readChars care rest
    refine ⟨.string name, fun hc => by rw [hname hc]; rfl, rfl, ?_⟩
    simp [Json.readGlimpse, skipBlank_cons, isBlank, hread, Value.glimpse, Glimpse.inRange]
  | @number t s hs =>
    refine ⟨.number t, fun _ => rfl, rfl, ?_⟩
    obtain ⟨c, s', hs', hc, hread⟩ := hs.readNumber care hr
    rw [hs', readGlimpse_number hc, hread]
    cases care <;> cases hv : t.value? <;>
      simp [Value.glimpse, Glimpse.inRange, hv]

/-- The bracket that opens a frame. -/
def Frame.opening : Frame → Char
  | list => '['
  | object => '\x7b'

/-- What an opening bracket tells. -/
def Frame.glimpse : Frame → Glimpse
  | list => .list
  | object => .object

theorem readGlimpse_opening {care : Care} {b : List Char} (hb : Blank b) (f : Frame) (s : List Char) :
    readGlimpse care (b ++ f.opening :: s) = .ok (f.glimpse, s) := by
  rw [readGlimpse_blank hb]
  cases f <;> rfl

mutual

/-- Whether a value is passed over with the brackets `frames` open around it. -/
def Value.passes (care : Care) (frames : List Frame) : Value → Bool
  | .list vs => mayOpen care frames && passesItems care (.list :: frames) vs
  | .object ms => mayOpen care frames && passesMembers care (.object :: frames) ms
  | v => v.glimpse.inRange care

/-- Whether all values of a list are passed over. -/
def passesItems (care : Care) (frames : List Frame) : List Value → Bool
  | [] => true
  | v :: vs => v.passes care frames && passesItems care frames vs

/-- Whether all members of an object are passed over. -/
def passesMembers (care : Care) (frames : List Frame) : List (String × Value) → Bool
  | [] => true
  | (_, v) :: ms => v.passes care frames && passesMembers care frames ms

end

mutual

theorem Value.passes_lax (frames : List Frame) : (v : Value) → v.passes .lax frames = true
  | .null | .boolean _ | .number _ | .string _ => by simp [Value.passes, Value.glimpse, Glimpse.inRange]
  | .list vs => by simp [Value.passes, mayOpen, passesItems_lax _ vs]
  | .object ms => by simp [Value.passes, mayOpen, passesMembers_lax _ ms]

theorem passesItems_lax (frames : List Frame) : (vs : List Value) → passesItems .lax frames vs = true
  | [] => by simp [passesItems]
  | v :: vs => by simp [passesItems, v.passes_lax frames, passesItems_lax frames vs]

theorem passesMembers_lax (frames : List Frame) :
    (ms : List (String × Value)) → passesMembers .lax frames ms = true
  | [] => by simp [passesMembers]
  | (_, v) :: ms => by simp [passesMembers, v.passes_lax frames, passesMembers_lax frames ms]

end

/-! ### Passing over -/

variable {care : Care} {fuel : Nat} {f : Frame} {frames : List Frame} {b s : List Char}

theorem skipFrom_done (rest : List Char) : skipFrom care fuel .more [] rest = .ok rest := by
  cases fuel <;> simp [skipFrom]

theorem skipFrom_blank {e : Expect} (he : e = f.entry) (hb : Blank b) :
    skipFrom care fuel e frames (b ++ s) = skipFrom care fuel e frames s := by
  subst he
  cases fuel <;> cases f <;>
    simp [skipFrom, Frame.entry, readGlimpse_blank hb, readMark, skipBlank_append hb]

theorem Frame.closing_token : isBlank f.closing = false := by cases f <;> rfl

theorem skipFrom_close {e : Expect} (he : e = .first ∨ e = .more) (hb : Blank b) (rest : List Char) :
    skipFrom care (fuel + 1) e (f :: frames) (b ++ f.closing :: rest) = skipFrom care fuel .more frames rest := by
  rcases he with rfl | rfl <;> simp [skipFrom, skipBlank_token hb Frame.closing_token]

theorem skipFrom_comma (hb : Blank b) :
    skipFrom care (fuel + 1) .more (f :: frames) (b ++ ',' :: s) = skipFrom care fuel f.entry (f :: frames) s := by
  have hne : ',' ≠ f.closing := by cases f <;> decide
  simp [skipFrom, skipBlank_token hb (show isBlank ',' = false from rfl), hne]

theorem skipFrom_entry {c : Char} (hb : Blank b) (hc : isBlank c = false) (hne : c ≠ f.closing) :
    skipFrom care (fuel + 1) .first (f :: frames) (b ++ c :: s) =
      skipFrom care fuel f.entry (f :: frames) (b ++ c :: s) := by
  rw [skipFrom_blank rfl hb]
  simp [skipFrom, skipBlank_token hb hc, hne]

theorem skipFrom_name {cs n b' : List Char} (hb : Blank b) (hn : SpellsChars cs n) (hb' : Blank b') :
    skipFrom care (fuel + 1) .name frames (b ++ '"' :: (n ++ '"' :: (b' ++ ':' :: s))) =
      skipFrom care fuel .value frames s := by
  obtain ⟨name, -, hread⟩ := hn.readChars care (b' ++ ':' :: s)
  have hquote := readMark_token hb (show isBlank '"' = false from rfl) (n ++ '"' :: (b' ++ ':' :: s))
  have hcolon := readMark_token hb' (show isBlank ':' = false from rfl) s
  simp [skipFrom, hquote, hread, hcolon]

/-- What comes next where a part stands. -/
def Part.expect : Part → Expect
  | value _ => .value
  | member _ _ => .name
  | items _ | members _ => .first
  | moreItems _ | moreMembers _ => .more

/-- The brackets open where a part stands, if `frames` are open after it. -/
def Part.opened (frames : List Frame) : Part → List Frame
  | value _ | member _ _ => frames
  | items _ | moreItems _ => .list :: frames
  | members _ | moreMembers _ => .object :: frames

/-- Whether a part is passed over, if `frames` are open after it. -/
def Part.passes (care : Care) (frames : List Frame) : Part → Bool
  | value v | member _ v => v.passes care frames
  | items vs | moreItems vs => passesItems care (.list :: frames) vs
  | members ms | moreMembers ms => passesMembers care (.object :: frames) ms

theorem SpellsScalar.head {v : Value} (h : SpellsScalar v s) (f : Frame) :
    ∃ c t, s = c :: t ∧ isBlank c = false ∧ c ≠ f.closing := by
  cases h with
  | number hs =>
    obtain ⟨c, t, hs, hc, -⟩ := hs.readNumber .lax (show Stops [] by simp [Stops])
    have hno := not_mem_of_number hc
    refine ⟨c, t, by simpa using hs, not_isBlank_of_number hc, ?_⟩
    rintro rfl
    cases f <;> simp [Frame.closing] at hno
  | null | isTrue | isFalse | string => exact ⟨_, _, rfl, rfl, by cases f <;> decide⟩

/-- The first token of an entry does not close the bracket, and the entry may as well start there. -/
theorem Spells.head {p : Part} (h : Spells p s) (hp : p.expect = f.entry) :
    ∃ b c t, s = b ++ c :: t ∧ Blank b ∧ isBlank c = false ∧ c ≠ f.closing ∧ Spells p (c :: t) := by
  cases h with
  | scalar hb hs =>
    obtain ⟨c, t, rfl, hc, hne⟩ := hs.head f
    exact ⟨_, c, t, rfl, hb, hc, hne, .scalar blank_nil hs⟩
  | list hb hs => exact ⟨_, _, _, rfl, hb, rfl, by cases f <;> decide, .list blank_nil hs⟩
  | object hb hs => exact ⟨_, _, _, rfl, hb, rfl, by cases f <;> decide, .object blank_nil hs⟩
  | member hb hn hb' hs => exact ⟨_, _, _, rfl, hb, rfl, by cases f <;> decide, .member blank_nil hn hb' hs⟩
  | _ => cases f <;> cases hp

theorem Value.passes_scalar {v : Value} (h : v.glimpse.frame? = none) :
    v.passes care frames = v.glimpse.inRange care := by
  cases v <;> first | (simp [Value.passes]; done) | cases h

/-- Passing over `s` takes it whole if `ok`, in fewer than two rounds for every character. -/
def Passes (care : Care) (e : Expect) (opened frames : List Frame) (ok : Bool) (s : List Char) : Prop :=
  ∃ k < 2 * s.length, ∀ fuel rest, Stops rest →
    skipFrom care (fuel + k) e opened (s ++ rest) =
      if ok then skipFrom care fuel .more frames rest else .error .malformed

namespace Passes

variable {ok ok' : Bool} {t : List Char}

theorem scalar {v : Value} (hb : Blank b) (hs : SpellsScalar v s) :
    Passes care .value frames frames (v.glimpse.inRange care) (b ++ s) := by
  obtain ⟨c, t, rfl, -⟩ := hs.head .list
  refine ⟨1, by simp; omega, fun fuel rest hr => ?_⟩
  obtain ⟨g, -, hg, hread⟩ := hs.readGlimpse care hb hr
  simp only [skipFrom, List.append_assoc, hread]
  cases v.glimpse.inRange care <;> simp [hg]

theorem bracket (hb : Blank b) (h : Passes care .first (f :: frames) frames ok s) :
    Passes care .value frames frames (mayOpen care frames && ok) (b ++ f.opening :: s) := by
  obtain ⟨k, hk, hskip⟩ := h
  refine ⟨k + 1, by simp; omega, fun fuel rest hr => ?_⟩
  have hf : f.glimpse.frame? = some f := by cases f <;> rfl
  simp only [skipFrom, List.append_assoc, List.cons_append, readGlimpse_opening hb, Except.ok_bind, hf]
  cases mayOpen care frames <;> simp [hskip fuel rest hr]

theorem close {e : Expect} (he : e = .first ∨ e = .more) (hb : Blank b) :
    Passes care e (f :: frames) frames true (b ++ [f.closing]) := by
  refine ⟨1, by simp; omega, fun fuel rest _ => ?_⟩
  simpa using skipFrom_close he hb rest

/-- An entry is passed over, and then what comes after it. -/
theorem entry (hs : Passes care f.entry (f :: frames) (f :: frames) ok s)
    (ht : Passes care .more (f :: frames) frames ok' t) (hstop : ∀ rest, Stops (t ++ rest)) :
    ∃ k, k + 1 < 2 * (s ++ t).length ∧ ∀ fuel rest, Stops rest →
      skipFrom care (fuel + k) f.entry (f :: frames) (s ++ (t ++ rest)) =
        if ok && ok' then skipFrom care fuel .more frames rest else .error .malformed := by
  obtain ⟨k, hk, hs⟩ := hs
  obtain ⟨l, hl, ht⟩ := ht
  refine ⟨l + k, by simp; omega, fun fuel rest hr => ?_⟩
  rw [← Nat.add_assoc, hs (fuel + l) (t ++ rest) (hstop rest), ht fuel rest hr]
  cases ok <;> simp

theorem first (hs : Passes care f.entry (f :: frames) (f :: frames) ok s)
    (ht : Passes care .more (f :: frames) frames ok' t) (hstop : ∀ rest, Stops (t ++ rest))
    {p : Part} (hp : p.expect = f.entry) (h : Spells p s) :
    Passes care .first (f :: frames) frames (ok && ok') (s ++ t) := by
  obtain ⟨k, hk, hskip⟩ := entry hs ht hstop
  refine ⟨k + 1, hk, fun fuel rest hr => ?_⟩
  obtain ⟨b, c, u, rfl, hb, hc, hne, -⟩ := h.head hp
  rw [← hskip fuel rest hr, ← Nat.add_assoc]
  simp only [List.append_assoc, List.cons_append]
  exact skipFrom_entry hb hc hne

theorem next (hb : Blank b) (hs : Passes care f.entry (f :: frames) (f :: frames) ok s)
    (ht : Passes care .more (f :: frames) frames ok' t) (hstop : ∀ rest, Stops (t ++ rest)) :
    Passes care .more (f :: frames) frames (ok && ok') (b ++ ',' :: (s ++ t)) := by
  obtain ⟨k, hk, hskip⟩ := entry hs ht hstop
  refine ⟨k + 1, by simp at hk ⊢; omega, fun fuel rest hr => ?_⟩
  rw [← hskip fuel rest hr, ← Nat.add_assoc]
  simp only [List.append_assoc, List.cons_append]
  exact skipFrom_comma hb

theorem name {cs n b' : List Char} (hb : Blank b) (hn : SpellsChars cs n) (hb' : Blank b')
    (hs : Passes care .value frames frames ok s) :
    Passes care .name frames frames ok (b ++ '"' :: (n ++ '"' :: (b' ++ ':' :: s))) := by
  obtain ⟨k, hk, hskip⟩ := hs
  refine ⟨k + 1, by simp; omega, fun fuel rest hr => ?_⟩
  rw [← hskip fuel rest hr, ← Nat.add_assoc]
  simp only [List.append_assoc, List.cons_append]
  exact skipFrom_name hb hn hb'

end Passes

/-- Passing over a part takes it whole. -/
theorem Spells.skipFrom {p : Part} (h : Spells p s) (care : Care) (frames : List Frame) :
    Passes care p.expect (p.opened frames) frames (p.passes care frames) s := by
  induction h generalizing frames with
  | scalar hb hs =>
    rw [Part.passes, Value.passes_scalar hs.frame]
    exact .scalar hb hs
  | list hb hs ih =>
    rw [Part.passes, Value.passes]
    exact .bracket hb (ih frames)
  | object hb hs ih =>
    rw [Part.passes, Value.passes]
    exact .bracket hb (ih frames)
  | noItem hb | noMember hb =>
    simp only [Part.passes, passesItems, passesMembers]
    exact .close (.inl rfl) hb
  | lastItem hb | lastMember hb =>
    simp only [Part.passes, passesItems, passesMembers]
    exact .close (.inr rfl) hb
  | firstItem hs ht ihs iht =>
    rw [Part.passes, passesItems]
    exact .first (ihs _) (iht frames) ht.stops_moreItems rfl hs
  | nextItem hb hs ht ihs iht =>
    rw [Part.passes, passesItems]
    exact .next hb (ihs _) (iht frames) ht.stops_moreItems
  | member hb hn hb' hs ih => exact .name hb hn hb' (ih frames)
  | firstMember hs ht ihs iht =>
    rw [Part.passes, passesMembers]
    exact .first (ihs _) (iht frames) ht.stops_moreMembers rfl hs
  | nextMember hb hs ht ihs iht =>
    rw [Part.passes, passesMembers]
    exact .next hb (ihs _) (iht frames) ht.stops_moreMembers

/-- The length of the text is fuel enough. -/
theorem Spells.skipFrom_rounds {p : Part} (h : Spells p s) (care : Care) {rest : List Char}
    (hr : Stops rest) :
    Json.skipFrom care (rounds (s ++ rest)) p.expect (p.opened []) (s ++ rest) =
      if p.passes care [] then .ok rest else .error .malformed := by
  obtain ⟨k, hk, hskip⟩ := h.skipFrom care []
  obtain ⟨fuel, hfuel⟩ : ∃ fuel, rounds (s ++ rest) = fuel + k :=
    ⟨rounds (s ++ rest) - k, by simp [rounds]; omega⟩
  rw [hfuel, hskip fuel rest hr, skipFrom_done]

theorem Spells.skipValue {v : Value} (h : Spells (.value v) s) (care : Care) {rest : List Char}
    (hr : Stops rest) :
    skipValue care (s ++ rest) = if v.passes care [] then .ok rest else .error .malformed :=
  h.skipFrom_rounds care hr

/-- A glimpse of a value takes its first token, and passing over the rest takes the others. -/
theorem Spells.readGlimpse {v : Value} (h : Spells (.value v) s) {rest : List Char} (hr : Stops rest) :
    ∃ rest', (v.glimpse.frame? = none → rest' = rest) ∧
      readGlimpse .strict (s ++ rest) =
        (if v.glimpse.inRange .strict then .ok (v.glimpse, rest') else .error .malformed) ∧
      (v.glimpse.inRange .strict = true → skipRest .strict v.glimpse rest' =
        if v.passes .strict [] then .ok rest else .error .malformed) := by
  cases h with
  | scalar hb hs =>
    obtain ⟨g, hg, -, hread⟩ := hs.readGlimpse .strict hb hr
    refine ⟨rest, fun _ => rfl, ?_, fun hrange => ?_⟩
    · rw [List.append_assoc, hread, hg rfl]
    · simp [skipRest, hs.frame, Value.passes_scalar hs.frame, hrange]
  | @list vs b s hb hs =>
    refine ⟨s ++ rest, nofun, ?_, fun _ => ?_⟩
    · rw [List.append_assoc]
      exact readGlimpse_opening hb .list _
    · rw [Value.passes]
      exact hs.skipFrom_rounds .strict hr
  | @object ms b s hb hs =>
    refine ⟨s ++ rest, nofun, ?_, fun _ => ?_⟩
    · rw [List.append_assoc]
      exact readGlimpse_opening hb .object _
    · rw [Value.passes]
      exact hs.skipFrom_rounds .strict hr

end LuaInfer.Json
