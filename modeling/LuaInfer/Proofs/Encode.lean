import LuaInfer.Options.Encode
import LuaInfer.Proofs.Decode
import Mathlib.Data.List.Forall2
/-!
# Options survive being written

What `Options.toJson` writes is spelled by the grammar of JSON text: a string for every text, whatever characters it has
(`Json.spells_writeString`), and the decimal digits for every number (`Json.spells_decimal`). So `Options.parse_toJson`
needs no reader of its own. Reading follows the grammar, and any text that spells the members of the options, in any order
and with any escapes, is read as the options they are the members of.
-/

namespace LuaInfer

open Json (Value Spells SpellsChars SpellsScalar Digits Blank Writes ofDigits spellDigits)

namespace Json

/-! ## Numbers -/

/-- The decimal digits of a number, without zeros in front. -/
def decimal (n : Nat) : List Nat :=
  if n < 10 then [n] else decimal (n / 10) ++ [n % 10]

theorem decimal_of_lt {n : Nat} (h : n < 10) : decimal n = [n] := by
  rw [decimal, if_pos h]

theorem decimal_of_le {n : Nat} (h : 10 ≤ n) : decimal n = decimal (n / 10) ++ [n % 10] := by
  rw [decimal, if_neg (Nat.not_lt.2 h)]

theorem digits_decimal (n : Nat) : Digits (decimal n) := by
  induction n using decimal.induct with
  | case1 n hn =>
    rw [decimal_of_lt hn]
    exact ⟨by simp, by simpa using hn⟩
  | case2 n hn ih =>
    rw [decimal_of_le (Nat.not_lt.1 hn)]
    refine ⟨by simp, fun d hd => ?_⟩
    rcases List.mem_append.1 hd with hd | hd
    · exact ih.2 d hd
    · rw [List.mem_singleton.1 hd]
      omega

/-- Only zero starts with a zero. -/
theorem eq_nil_of_decimal {n : Nat} {ds : List Nat} (h : decimal n = 0 :: ds) : ds = [] := by
  have hzero : ∀ n ds, decimal n = 0 :: ds → n = 0 := by
    intro n
    induction n using decimal.induct with
    | case1 n hn =>
      intro ds h
      rw [decimal_of_lt hn] at h
      exact (List.cons.inj h).1
    | case2 n hn ih =>
      intro ds h
      rw [decimal_of_le (Nat.not_lt.1 hn)] at h
      obtain ⟨d, rest, hcons⟩ := List.exists_cons_of_ne_nil (digits_decimal (n / 10)).1
      rw [hcons] at h
      have hd : d = 0 := (List.cons.inj h).1
      have := ih rest (by rw [hcons, hd])
      omega
  rw [hzero n ds h, decimal_of_lt (by decide)] at h
  exact (List.cons.inj h).2.symm

theorem ofDigits_decimal (n : Nat) : ofDigits (decimal n) = n := by
  induction n using decimal.induct with
  | case1 n hn => simp [decimal_of_lt hn, ofDigits]
  | case2 n hn ih =>
    rw [ofDigits] at ih
    rw [decimal_of_le (Nat.not_lt.1 hn), ofDigits, List.foldl_append, ih]
    simp only [List.foldl_cons, List.foldl_nil]
    omega

theorem spellDigits_decimal (n : Nat) : spellDigits (decimal n) = Nat.toDigits 10 n := by
  induction n using decimal.induct with
  | case1 n hn => rw [decimal_of_lt hn, Nat.toDigits_of_lt_base hn]; rfl
  | case2 n hn ih =>
    rw [decimal_of_le (Nat.not_lt.1 hn), spellDigits, List.map_append,
      Nat.toDigits_of_base_le (by decide) (Nat.not_lt.1 hn), ← ih]
    rfl

theorem spells_decimal (n : Nat) : SpellsScalar (.number ⟨false, decimal n, none, none⟩) (Nat.toDigits 10 n) := by
  have hs : SpellsNumber ⟨false, decimal n, none, none⟩ _ :=
    .mk (digits_decimal n) (fun _ => eq_nil_of_decimal) .none .none
  refine .number ?_
  simpa [spellDigits_decimal] using hs

/-! ## Strings -/

theorem hexDigit_spec (n : Nat) : HexDigit (n % 16) (hexDigit n) := by
  have hdigit : ∀ m < 16, HexDigit m m.digitChar := by
    unfold HexDigit
    decide
  exact hdigit (n % 16) (Nat.mod_lt n (by decide))

/-- A character below the space is written as its code unit. -/
theorem spells_control {c : Char} (h : c < ' ') :
    SpellsUnit c.toNat ['0', '0', hexDigit (c.toNat / 16), hexDigit c.toNat] := by
  have hlt : c.toNat < 32 := h
  have hzero : HexDigit 0 '0' := .inl rfl
  have hunit := SpellsUnit.mk hzero hzero (hexDigit_spec (c.toNat / 16)) (hexDigit_spec c.toNat)
  have hsum : 0 * 4096 + 0 * 256 + c.toNat / 16 % 16 * 16 + c.toNat % 16 = c.toNat := by omega
  rwa [hsum] at hunit

/-- Every character is written as one of the ways to write it. -/
theorem spells_writeChar (c : Char) {cs s : List Char} (hs : SpellsChars cs s) :
    SpellsChars (c :: cs) (writeChar c ++ s) := by
  unfold writeChar
  split
  case h_8 hquote hslash _ _ _ _ _ =>
    split
    · next hlow =>
      have hunit := SpellsChars.unit (spells_control hlow) (.inl ?_) hs
      · rwa [Char.ofNat_toNat] at hunit
      · have hlt : c.toNat < 32 := hlow
        omega
    · next hlow => exact .plain (Char.not_lt.1 hlow) hquote hslash hs
  all_goals exact .short (by decide) hs

theorem spells_flatMap (cs : List Char) : SpellsChars cs (cs.flatMap writeChar) := by
  induction cs with
  | nil => exact .nil
  | cons c cs ih =>
    rw [List.flatMap_cons]
    exact spells_writeChar c ih

theorem spells_writeString (s : String) : SpellsScalar (.string s) (writeString s) := by
  have hs := SpellsScalar.string (spells_flatMap s.toList)
  rwa [String.ofList_toList] at hs

/-! ## Objects -/

theorem spells_writeMember {v : Value} {s : List Char} (name : String) (hs : Spells (.value v) s) :
    Spells (.member name v) (writeString name ++ ':' :: s) := by
  have hm := Spells.member blank_nil (spells_flatMap name.toList) blank_nil hs
  rw [String.ofList_toList] at hm
  simpa [writeString] using hm

/-- Members that are written one after the other, with commas between them, are the members of an object. -/
theorem spells_intersperse {ms : List (String × Value)} {ss : List (List Char)}
    (h : List.Forall₂ (fun m s => Spells (.member m.1 m.2) s) ms ss) :
    Spells (.members ms) ((ss.intersperse [',']).flatten ++ ['\x7d']) := by
  have hmore : ∀ {ms ss}, List.Forall₂ (fun m s => Spells (.member m.1 m.2) s) ms ss →
      Spells (.moreMembers ms) (ss.flatMap (',' :: ·) ++ ['\x7d']) := by
    intro ms ss h
    induction h with
    | nil => exact .lastMember blank_nil
    | cons hs _ ih =>
      rw [List.flatMap_cons, List.append_assoc, List.cons_append]
      exact .nextMember blank_nil hs ih
  have hcommas : ∀ (s : List Char) ss, ((s :: ss).intersperse [',']).flatten = s ++ ss.flatMap (',' :: ·) := by
    intro s ss
    induction ss generalizing s with
    | nil => simp
    | cons t ss ih => simp [ih]
  cases h with
  | nil => exact .noMember blank_nil
  | cons hs ht =>
    rw [hcommas, List.append_assoc]
    exact .firstMember hs (hmore ht)

end Json

/-! ## Options -/

/-- A setting as the value of a member. -/
def Setting.value : Setting → Value
  | literalNarrowing b | selfParameterLinking b => .boolean b
  | delegationConstructor s | delegationField s => .string s
  | maxClassDepth n => .number ⟨false, Json.decimal n.toNat, none, none⟩

theorem Setting.spells_writeValue (x : Setting) : Spells (.value x.value) x.writeValue := by
  have hscalar : ∀ {v s}, SpellsScalar v s → Spells (.value v) s := .scalar Json.blank_nil
  cases x with
  | literalNarrowing b | selfParameterLinking b => cases b <;> exact hscalar (by constructor)
  | delegationConstructor s | delegationField s => exact hscalar (Json.spells_writeString s)
  | maxClassDepth n => exact hscalar (Json.spells_decimal n.toNat)

theorem Setting.spells_writeMember (x : Setting) : Spells (.member x.name.text x.value) x.writeMember :=
  Json.spells_writeMember x.name.text x.spells_writeValue

/-- A setting is read from its own value. -/
theorem Setting.decode?_value (x : Setting) : x.name.decode? x.value = some x := by
  cases x with
  | maxClassDepth n =>
    have hn : ofDigits (Json.decimal n.toNat) = n.toNat := Json.ofDigits_decimal n.toNat
    have hlt : n.toNat < UInt32.size := n.toNat_lt
    simp [name, value, OptionName.decode?, Value.word32?, hn, hlt]
  | literalNarrowing | selfParameterLinking | delegationConstructor | delegationField => rfl

namespace Options

variable {o : Options} {n : OptionName}

theorem name_get (o : Options) (n : OptionName) : (o.get n).name = n := by cases n <;> rfl

/-- The members that are written for options. -/
def members (o : Options) : List (String × Value) :=
  OptionName.all.map fun n => (n.text, (o.get n).value)

theorem mem_members {v : Value} : (n.text, v) ∈ o.members ↔ v = (o.get n).value := by
  have hall : n ∈ OptionName.all := by cases n <;> decide
  simp only [members, List.mem_map, Prod.mk.injEq]
  constructor
  · rintro ⟨n', -, hname, rfl⟩
    rw [OptionName.text_injective hname]
  · rintro rfl
    exact ⟨n, hall, rfl, rfl⟩

theorem writes_toJson (o : Options) : Writes (.object o.members) o.toJson := by
  have hmembers : List.Forall₂ (fun m s => Spells (.member m.1 m.2) s) o.members
      (OptionName.all.map fun n => (o.get n).writeMember) := by
    rw [members, List.forall₂_map_left_iff, List.forall₂_map_right_iff]
    refine List.forall₂_same.2 fun n _ => ?_
    have hm := (o.get n).spells_writeMember
    rwa [name_get] at hm
  refine ⟨_, [], .object Json.blank_nil (Json.spells_intersperse hmembers), Json.blank_nil, ?_⟩
  simp [toJson]

/-- Members in another order give each setting once, and acceptably. -/
theorem accepts_members {ms : List (String × Value)} (h : ms.Perm o.members) (n : OptionName) : Accepts [] ms n := by
  have hone : (o.members.filter (·.1 = n.text)).length = 1 := by cases n <;> rfl
  refine ⟨?_, fun v hv => ?_⟩
  · rw [(h.filter _).length_eq, hone]
    simp
  · obtain rfl := mem_members.1 (h.mem_iff.1 hv)
    have hdecode := (o.get n).decode?_value
    rw [name_get] at hdecode
    simp [hdecode]

theorem parse_members {ms : List (String × Value)} {text : String} (h : ms.Perm o.members)
    (ht : Writes (.object ms) text) : parse text = .ok o := by
  obtain ⟨⟨seen, o'⟩, hfold⟩ := foldlM_of_accepts (r := ([], standard)) (accepts_members h)
  have hget : ∀ n, o'.get n = o.get n := by
    intro n
    have hdecode := (o.get n).decode?_value
    rw [name_get, (get_of_foldlM hfold n).1 _ (h.mem_iff.2 (mem_members.2 rfl))] at hdecode
    exact Option.some.inj hdecode
  rw [ext_get hget] at hfold
  exact (parse_object ht).2 ⟨seen, hfold⟩

/-- Options are read back from the text that is written for them. That text is an object with a member for each setting,
and it does not matter in which order the members stand, how their strings are escaped and what blanks there are. -/
theorem parse_toJson (o : Options) :
    parse o.toJson = .ok o ∧
    Writes (.object o.members) o.toJson ∧
    ∀ ms text, ms.Perm o.members → Writes (.object ms) text → parse text = .ok o :=
  ⟨parse_members (.refl _) (writes_toJson o), writes_toJson o, fun _ _ => parse_members⟩

/-- Options with a quote, a backslash, control characters and a character of two code units. -/
def sampleOdd : Options :=
  { literalNarrowing := false, delegationConstructor := "\"\\\n\x01", delegationField := "𝄞", maxClassDepth := 4294967295 }

theorem parse_toJson_odd :
    sampleOdd.toJson = "\x7b\"literalNarrowing\":false,\"selfParameterLinking\":true," ++
      "\"delegationConstructor\":\"\\\"\\\\\\n\\u0001\",\"delegationField\":\"𝄞\",\"maxClassDepth\":4294967295\x7d" ∧
    parse sampleOdd.toJson = .ok sampleOdd := by
  obtain ⟨-, hwrites, hread⟩ := parse_toJson sampleOdd
  exact ⟨by decide +kernel, hread sampleOdd.members _ (.refl _) hwrites⟩

end Options

end LuaInfer
