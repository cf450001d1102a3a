import LuaInfer.Options.Decode
import LuaInfer.Proofs.Lists
import Mathlib.Data.List.TakeWhile
/-!
# Words for truth values

A setting that is on or off may be given as a word. `Text.StandsFor` says which texts those are, letter by letter and with the
white space that may stand around them. It mentions neither trimming nor lower case, by which `Options.truth?` finds the word;
`Options.truth?_eq_some` says that it finds just these.
-/

namespace LuaInfer

namespace Text

variable {s : String} {w cs before after : List Char} {c l : Char} {b : Bool}

/-- The characters with the property White_Space. -/
def whiteSpace : List Char :=
  ['\t', '\n', '\x0b', '\x0c', '\r', ' ', '\u0085', '\u00a0', '\u1680', '\u2000', '\u2001', '\u2002', '\u2003', '\u2004',
    '\u2005', '\u2006', '\u2007', '\u2008', '\u2009', '\u200a', '\u2028', '\u2029', '\u202f', '\u205f', '\u3000']

/-- The words, and what they stand for. -/
def words : List (String × Bool) :=
  [("true", true), ("1", true), ("yes", true), ("on", true), ("false", false), ("0", false), ("no", false), ("off", false)]

/-- The word, each letter in either case. No other character has a letter of one of the words as its lower case. -/
def SpellsWord (w cs : List Char) : Prop := List.Forall₂ (fun l c => c = l ∨ c = l.toUpper) w cs

/-- The text is a word for the truth value, with nothing but white space around it. -/
def StandsFor (s : String) (b : Bool) : Prop :=
  ∃ before w cs after, s.toList = before ++ (cs ++ after) ∧ (w, b) ∈ words ∧ SpellsWord w.toList cs ∧
    (∀ c ∈ before, c ∈ whiteSpace) ∧ ∀ c ∈ after, c ∈ whiteSpace

/-! ## White space -/

theorem isWhite_iff : isWhite c = true ↔ c ∈ whiteSpace := by
  have hmem : c ∈ whiteSpace ↔ c.toNat ∈ whiteSpace.map Char.toNat :=
    (List.mem_map_of_injective fun _ _ => Char.toNat_inj.1).symm
  rw [hmem]
  simp [isWhite, whiteSpace]
  omega

theorem trim_append (hb : ∀ c ∈ before, c ∈ whiteSpace) (ha : ∀ c ∈ after, c ∈ whiteSpace)
    (hcs : ∀ c ∈ cs, c ∉ whiteSpace) (hne : cs ≠ []) : trim (before ++ (cs ++ after)) = cs := by
  have hwhite : ∀ c, c ∉ whiteSpace → isWhite c = false := fun c hc => by rwa [← Bool.not_eq_true, isWhite_iff]
  have hstop : ∀ xs rest : List Char, (∀ c ∈ xs, c ∉ whiteSpace) → xs ≠ [] →
      (xs ++ rest).dropWhile isWhite = xs ++ rest := by
    intro xs rest hxs hne
    obtain ⟨x, xs, rfl⟩ := List.exists_cons_of_ne_nil hne
    exact List.dropWhile_cons_of_neg (by simp [hwhite x (hxs x (by simp))])
  have hafter : ∀ c ∈ after.reverse, isWhite c = true := fun c hc => isWhite_iff.2 (ha c (List.mem_reverse.1 hc))
  rw [trim, List.dropWhile_append_of_pos fun c hc => isWhite_iff.2 (hb c hc), hstop cs after hcs hne, List.reverse_append,
    List.dropWhile_append_of_pos hafter]
  have hrev := hstop cs.reverse [] (fun c hc => hcs c (List.mem_reverse.1 hc)) (by simpa using hne)
  rw [List.append_nil] at hrev
  rw [hrev, List.reverse_reverse]

/-- What is trimmed is white space. -/
theorem exists_trim (s : List Char) : ∃ before after, s = before ++ (trim s ++ after) ∧
    (∀ c ∈ before, c ∈ whiteSpace) ∧ ∀ c ∈ after, c ∈ whiteSpace := by
  have htaken : ∀ xs : List Char, ∀ c ∈ xs.takeWhile isWhite, c ∈ whiteSpace :=
    fun xs c hc => isWhite_iff.1 (List.mem_takeWhile_imp hc)
  have hfront := List.takeWhile_append_dropWhile (p := isWhite) (l := s)
  have hback := List.takeWhile_append_dropWhile (p := isWhite) (l := (s.dropWhile isWhite).reverse)
  refine ⟨s.takeWhile isWhite, ((s.dropWhile isWhite).reverse.takeWhile isWhite).reverse, ?_, htaken s, fun c hc => ?_⟩
  · rw [trim, ← List.reverse_append, hback, List.reverse_reverse, hfront]
  · exact htaken _ c (List.mem_reverse.1 hc)

/-! ## Letters -/

theorem eq_or_eq_toUpper (c : Char) : c = c.toLower ∨ c = c.toLower.toUpper := by
  by_cases h : c.val ≥ 'A'.val ∧ c.val ≤ 'Z'.val
  · have hupper : ∀ n < 91, 65 ≤ n → Char.ofNat n = (Char.ofNat n).toLower.toUpper := by decide
    have hc := hupper c.toNat (Nat.lt_succ_of_le (UInt32.le_iff_toNat_le.1 h.2)) (UInt32.le_iff_toNat_le.1 h.1)
    rw [Char.ofNat_toNat] at hc
    exact .inr hc
  · have hsame : c.toLower = c := dif_neg h
    exact .inl hsame.symm

theorem spellsWord_iff (hw : ∀ l ∈ w, l.toLower = l ∧ l.toUpper.toLower = l) : SpellsWord w cs ↔ cs.map Char.toLower = w := by
  induction w generalizing cs with
  | nil => simp [SpellsWord]
  | cons l w ih =>
    obtain ⟨hl, hw⟩ := List.forall_mem_cons.1 hw
    cases cs with
    | nil => simp [SpellsWord]
    | cons c cs =>
      have hletter : (c = l ∨ c = l.toUpper) ↔ c.toLower = l := by
        constructor
        · rintro (rfl | rfl)
          · exact hl.1
          · exact hl.2
        · rintro rfl
          exact eq_or_eq_toUpper c
      rw [SpellsWord, List.forall₂_cons, hletter, List.map_cons, List.cons.injEq]
      exact and_congr_right fun _ => ih hw

/-- A word may be spelled by either case of its letters, and none of these is white. -/
theorem letters_of_mem_words {w : String} (h : (w, b) ∈ words) : w.toList ≠ [] ∧
    ∀ l ∈ w.toList, (l.toLower = l ∧ l.toUpper.toLower = l) ∧ l ∉ whiteSpace ∧ l.toUpper ∉ whiteSpace := by
  have hall : ∀ entry ∈ words, entry.1.toList ≠ [] ∧ (entry.1.toList.all fun l =>
      decide ((l.toLower = l ∧ l.toUpper.toLower = l) ∧ l ∉ whiteSpace ∧ l.toUpper ∉ whiteSpace)) = true := by decide
  exact (hall _ h).imp_right fun hletters l hl => of_decide_eq_true (List.all_eq_true.1 hletters l hl)

theorem SpellsWord.not_white {w : String} (h : SpellsWord w.toList cs) (hw : (w, b) ∈ words) :
    cs ≠ [] ∧ ∀ c ∈ cs, c ∉ whiteSpace := by
  obtain ⟨hne, hletters⟩ := letters_of_mem_words hw
  refine ⟨?_, fun c hc => ?_⟩
  · rintro rfl
    cases hcs : w.toList with
    | nil => exact hne hcs
    | cons => rw [hcs] at h; cases h
  · obtain ⟨l, hl, rfl | rfl⟩ := h.exists_of_mem_right hc
    · exact (hletters c hl).2.1
    · exact (hletters l hl).2.2

end Text

/-- A text is taken for the truth value that it stands for. -/
theorem Options.truth?_eq_some {s : String} {b : Bool} : truth? s = some b ↔ Text.StandsFor s b := by
  have hwords : truth? s = some b ↔ (Text.word s, b) ∈ Text.words := by
    unfold truth?
    generalize Text.word s = w
    have hmem : (w, b) ∈ Text.words ↔ if b then w ∈ ["true", "1", "yes", "on"] else w ∈ ["false", "0", "no", "off"] := by
      cases b <;> simp [Text.words]
    have hapart : ∀ w ∈ ["true", "1", "yes", "on"], w ∉ ["false", "0", "no", "off"] := by decide
    rw [hmem]
    by_cases htrue : w ∈ ["true", "1", "yes", "on"]
    · cases b <;> simp [htrue, hapart w htrue]
    · by_cases hfalse : w ∈ ["false", "0", "no", "off"]
      · cases b <;> simp [htrue, hfalse]
      · cases b <;> simp [htrue, hfalse]
  rw [hwords]
  constructor
  · intro h
    obtain ⟨before, after, hs, hb, ha⟩ := Text.exists_trim s.toList
    refine ⟨before, Text.word s, Text.trim s.toList, after, hs, h, ?_, hb, ha⟩
    rw [Text.spellsWord_iff fun l hl => ((Text.letters_of_mem_words h).2 l hl).1, Text.word, String.toList_ofList]
  · rintro ⟨before, w, cs, after, hs, hw, hspells, hb, ha⟩
    obtain ⟨hne, hwhite⟩ := hspells.not_white hw
    have hlower := (Text.spellsWord_iff fun l hl => ((Text.letters_of_mem_words hw).2 l hl).1).1 hspells
    rw [Text.word, hs, Text.trim_append hb ha hwhite hne, hlower, String.ofList_toList]
    exact hw

end LuaInfer
