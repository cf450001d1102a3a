import LuaInfer.Options.Load
import LuaInfer.Proofs.Grammar
import LuaInfer.Proofs.Words
import Mathlib.Data.Nat.Digits.Defs
/-!
# Options are the standard ones, overridden

`OptionName.Takes` says which values a setting takes, and as what; it calls nothing that reads options, and
`OptionName.decode?` computes it. Reading a document comes down to a fold over its members, or over its elements
next to the names of the settings (`Options.ofJson_object`, `Options.ofJson_list`); everything else about the text
is gone. The fold keeps what the members read so far say, which `Options.parse_overrides` puts together: every
setting is what its one member says or the standard one, whatever other members there are, and a list is as good
as an object.
-/

namespace LuaInfer

open Json (Value Spells Stops Blank Care Writes ofDigits skipBlank readMark)

namespace Json.Value

/-- The truth value that a value stands for. -/
def truth? : Value → Option Bool
  | boolean b => some b
  | string s => Options.truth? s
  | _ => none

/-- The text that a value is. -/
def text? : Value → Option String
  | string s => some s
  | _ => none

/-- The number of 32 bits that a value is, if it is written without a sign, a fraction and an exponent. -/
def word32? : Value → Option UInt32
  | number ⟨false, ds, none, none⟩ => if ofDigits ds < UInt32.size then some (ofDigits ds).toUInt32 else none
  | _ => none

end Json.Value

/-- What a value gives to a setting; `none` if it is not acceptable. -/
def OptionName.decode? : OptionName → Value → Option Setting
  | literalNarrowing, v => v.truth?.map .literalNarrowing
  | selfParameterLinking, v => v.truth?.map .selfParameterLinking
  | delegationConstructor, v => v.text?.map .delegationConstructor
  | delegationField, v => v.text?.map .delegationField
  | maxClassDepth, v => v.word32?.map .maxClassDepth

/-- A truth value, or a word for one. -/
inductive Json.Value.Truth : Value → Bool → Prop where
  | boolean {b : Bool} : Truth (.boolean b) b
  | word {s : String} {b : Bool} (h : Text.StandsFor s b) : Truth (.string s) b

/-- A number of 32 bits, written by its decimal digits alone. -/
inductive Json.Value.Word32 : Value → UInt32 → Prop where
  | digits {ds : List Nat} {n : UInt32} (h : n.toNat = Nat.ofDigits 10 ds.reverse) :
      Word32 (.number ⟨false, ds, none, none⟩) n

/-- What a setting takes, and as what. -/
inductive OptionName.Takes : OptionName → Value → Setting → Prop where
  | literalNarrowing {v : Value} {b : Bool} (h : v.Truth b) : Takes .literalNarrowing v (.literalNarrowing b)
  | selfParameterLinking {v : Value} {b : Bool} (h : v.Truth b) :
      Takes .selfParameterLinking v (.selfParameterLinking b)
  | delegationConstructor {s : String} : Takes .delegationConstructor (.string s) (.delegationConstructor s)
  | delegationField {s : String} : Takes .delegationField (.string s) (.delegationField s)
  | maxClassDepth {v : Value} {n : UInt32} (h : v.Word32 n) : Takes .maxClassDepth v (.maxClassDepth n)

/-! ### Acceptable values -/

namespace Json

theorem ofDigits_eq (ds : List Nat) : ofDigits ds = Nat.ofDigits 10 ds.reverse := by
  induction ds using List.reverseRecOn with
  | nil => rfl
  | append_singleton ds d ih =>
    rw [ofDigits] at ih
    rw [ofDigits, List.foldl_append, ih, List.reverse_append, List.reverse_singleton, List.singleton_append,
      Nat.ofDigits_cons]
    simp only [List.foldl_cons, List.foldl_nil]
    omega

namespace Value

variable {v : Value} {b : Bool} {n : UInt32}

theorem truth?_eq_some : v.truth? = some b ↔ v.Truth b := by
  constructor
  · intro h
    cases v with
    | boolean => cases h; exact .boolean
    | string s => exact .word (Options.truth?_eq_some.1 h)
    | null | number | list | object => cases h
  · intro h
    cases h with
    | boolean => rfl
    | word h => exact Options.truth?_eq_some.2 h

theorem word32?_eq_some : v.word32? = some n ↔ v.Word32 n := by
  constructor
  · intro h
    unfold word32? at h
    split at h
    · next ds =>
      split at h
      · next hlt =>
        cases h
        exact .digits (by rw [← ofDigits_eq]; exact UInt32.toNat_ofNat_of_lt' hlt)
      · cases h
    · cases h
  · rintro ⟨h⟩
    rw [← ofDigits_eq] at h
    have hlt : n.toNat < UInt32.size := n.toNat_lt
    rw [word32?, ← h, if_pos hlt]
    exact congrArg some UInt32.ofNat_toNat

end Value

end Json

theorem OptionName.decode?_eq_some {n : OptionName} {v : Value} {x : Setting} : n.decode? v = some x ↔ n.Takes v x := by
  constructor
  · intro h
    cases n with
    | literalNarrowing =>
      obtain ⟨b, hb, rfl⟩ := Option.map_eq_some_iff.1 h
      exact .literalNarrowing (Value.truth?_eq_some.1 hb)
    | selfParameterLinking =>
      obtain ⟨b, hb, rfl⟩ := Option.map_eq_some_iff.1 h
      exact .selfParameterLinking (Value.truth?_eq_some.1 hb)
    | delegationConstructor | delegationField =>
      obtain ⟨s, hs, rfl⟩ := Option.map_eq_some_iff.1 h
      cases v <;> cases hs
      constructor
    | maxClassDepth =>
      obtain ⟨w, hw, rfl⟩ := Option.map_eq_some_iff.1 h
      exact .maxClassDepth (Value.word32?_eq_some.1 hw)
  · intro h
    cases h with
    | literalNarrowing h | selfParameterLinking h => exact Option.map_eq_some_iff.2 ⟨_, Value.truth?_eq_some.2 h, rfl⟩
    | delegationConstructor | delegationField => rfl
    | maxClassDepth h => exact Option.map_eq_some_iff.2 ⟨_, Value.word32?_eq_some.2 h, rfl⟩

theorem OptionName.Takes.unique {n : OptionName} {v : Value} {x y : Setting} (hx : n.Takes v x) (hy : n.Takes v y) :
    x = y :=
  Option.some.inj ((decode?_eq_some.2 hx).symm.trans (decode?_eq_some.2 hy))

/-- A value is acceptable to a setting if the setting takes it as something. -/
theorem OptionName.isSome_decode? {n : OptionName} {v : Value} : (n.decode? v).isSome ↔ ∃ x, n.Takes v x := by
  simp only [Option.isSome_iff_exists, decode?_eq_some]

/-! ### Integers -/

namespace Json

theorem le_foldl_digits (ds : List Nat) (n : Nat) : n ≤ ds.foldl (fun n d => n * 10 + d) n := by
  induction ds generalizing n with
  | nil => exact Nat.le_refl n
  | cons d ds ih => exact Nat.le_trans (by omega) (ih (n * 10 + d))

/-- Digits that fit are taken into the significand. -/
theorem absorb_fits {ds : List Nat} {n : Nat} (h : ds.foldl (fun n d => n * 10 + d) n ≤ maxSignificand) :
    absorb n ds = (ds.foldl (fun n d => n * 10 + d) n, []) := by
  induction ds generalizing n with
  | nil => rfl
  | cons d ds ih =>
    have hle : n * 10 + d ≤ maxSignificand := Nat.le_trans (le_foldl_digits ds _) h
    rw [absorb, if_pos hle, ih h, List.foldl_cons]

theorem absorb_eq {ds : List Nat} {n m : Nat} (h : absorb n ds = (m, [])) :
    m = ds.foldl (fun n d => n * 10 + d) n := by
  induction ds generalizing n with
  | nil => cases h; rfl
  | cons d ds ih =>
    rw [absorb] at h
    split at h
    · exact ih h
    · cases h

theorem NumberText.scaled?_ne_integer {negative : Bool} {significand : Nat} {power n : Int} :
    scaled? negative significand power ≠ some (.integer n) := by
  intro h
  obtain ⟨x, -, h⟩ := Option.bind_eq_some_iff.mp h
  by_cases hp : 0 ≤ power
  · simp only [hp, if_true] at h
    obtain ⟨y, -, h⟩ := Option.bind_eq_some_iff.mp h
    cases h
  · simp only [hp, if_false] at h
    obtain ⟨y, -, h⟩ := Option.bind_eq_some_iff.mp h
    cases h

/-- An integer that is not negative is written by its digits alone. -/
theorem NumberText.value?_integer {t : NumberText} {n : Int} (h : t.value? = some (.integer n)) (hn : 0 ≤ n) :
    t = ⟨false, t.whole, none, none⟩ ∧ n = ofDigits t.whole := by
  obtain ⟨negative, whole, fraction, exponent⟩ := t
  simp only [value?] at h
  split at h
  · rename_i hdropped
    cases negative with
    | true =>
      simp only [if_true] at h
      split at h
      · rename_i hpos
        simp only [Option.some.injEq, Number.integer.injEq, Bool.and_eq_true, decide_eq_true_eq] at h hpos
        omega
      · exact absurd h scaled?_ne_integer
    | false =>
      cases h
      exact ⟨rfl, congrArg _ (absorb_eq (Prod.ext rfl hdropped))⟩
  · exact absurd h scaled?_ne_integer

theorem NumberText.value?_of_fits {ds : List Nat} (h : ofDigits ds ≤ maxSignificand) :
    value? ⟨false, ds, none, none⟩ = some (.integer (ofDigits ds)) := by
  have habsorb : absorb 0 ds = (ofDigits ds, []) := absorb_fits h
  simp [value?, habsorb]

end Json

/-! ### Settings -/

namespace Options

@[simp] theorem lift_ok {α : Type} (a : α) : lift (.ok a) = .ok a := rfl

@[simp] theorem lift_error {α : Type} (e : Json.Failure) : (lift (.error e) : Except _ α) = .error (.unreadable e) := rfl

/-- What reading a truth value gives. -/
def boolean (v : Value) : Except DecodeError Bool :=
  if v.passes .strict [] then
    match v with
    | .boolean b => .ok b
    | .string s => (truth? s).elim (.error (.invalid (.badWord s))) .ok
    | _ => .error (.invalid .notBoolean)
  else .error (.unreadable .malformed)

/-- What reading a text gives. -/
def string : Value → Except DecodeError String
  | .string s => .ok s
  | v => wrongType .string v.glimpse

/-- What reading a number of 32 bits gives. -/
def word32 (v : Value) : Except DecodeError UInt32 := do
  match ← found v.glimpse with
  | .integer n => if 0 ≤ n && n < UInt32.size then .ok n.toNat.toUInt32 else .error (.invalid (.outOfRange n))
  | _ => wrongType .word32 v.glimpse

theorem boolean_toOption (v : Value) : (boolean v).toOption = v.truth? := by
  cases v with
  | null | number | list | object =>
    simp only [boolean, Value.truth?]
    split <;> rfl
  | boolean b => simp [boolean, Value.passes, Value.glimpse, Json.Glimpse.inRange, Value.truth?, Except.toOption]
  | string s =>
    simp only [boolean, Value.passes, Value.glimpse, Json.Glimpse.inRange, Value.truth?, if_true]
    cases truth? s <;> rfl

theorem wrongType_toOption {α : Type} (e : Expected) (g : Json.Glimpse) :
    (wrongType e g : Except DecodeError α).toOption = none := by
  unfold wrongType
  cases found g <;> rfl

theorem wrongType_map {α β : Type} (e : Expected) (g : Json.Glimpse) (f : α → β) :
    (wrongType e g).map f = wrongType e g := by
  unfold wrongType
  cases found g <;> rfl

/-- A number out of range has no name, so it is malformed whatever is expected. -/
theorem found_outOfRange {g : Json.Glimpse} (h : g.inRange .strict = false) :
    found g = .error (.unreadable .malformed) := by
  cases g with
  | number t =>
    have hnone : t.value? = none := by simpa [Json.Glimpse.inRange] using h
    simp [found, hnone]
  | _ => cases h

theorem wrongType_outOfRange {α : Type} {e : Expected} {g : Json.Glimpse} (h : g.inRange .strict = false) :
    (wrongType e g : Except DecodeError α) = .error (.unreadable .malformed) := by
  rw [wrongType, found_outOfRange h]
  rfl

theorem string_toOption (v : Value) : (string v).toOption = v.text? := by
  cases v with
  | string s => rfl
  | null | boolean | number | list | object => exact wrongType_toOption _ _

theorem word32_toOption (v : Value) : (word32 v).toOption = v.word32? := by
  cases v with
  | null | boolean | string | list | object => rfl
  | number t =>
    by_cases ht : ∃ ds, t = ⟨false, ds, none, none⟩ ∧ ofDigits ds < UInt32.size
    · obtain ⟨ds, rfl, hlt⟩ := ht
      have hfits : ofDigits ds ≤ Json.maxSignificand := by
        simp only [Json.maxSignificand, UInt32.size, UInt64.size] at hlt ⊢
        omega
      have hvalue := Json.NumberText.value?_of_fits hfits
      have hword : Value.word32? (.number ⟨false, ds, none, none⟩) = some (ofDigits ds).toUInt32 := by
        simp only [Value.word32?, hlt, if_true]
      have hfound : found (.number ⟨false, ds, none, none⟩) = .ok (.integer (ofDigits ds)) := by simp only [found, hvalue]
      have hlt' : (0 ≤ (ofDigits ds : Int) && (ofDigits ds : Int) < UInt32.size) = true := by
        simp only [Bool.and_eq_true, decide_eq_true_eq]
        omega
      rw [hword, word32, Value.glimpse, hfound, Except.ok_bind]
      exact congrArg _ (if_pos hlt')
    · have hword : Value.word32? (.number t) = none := by
        unfold Value.word32?
        split
        · rename_i ds heq
          cases heq
          exact if_neg fun hlt => ht ⟨ds, rfl, hlt⟩
        · rfl
      rw [hword]
      simp only [word32, Value.glimpse, found]
      cases hvalue : t.value? with
      | none => rfl
      | some x =>
        cases x with
        | float => exact wrongType_toOption _ _
        | integer n =>
          refine congrArg _ (if_neg fun hn => ht ?_)
          simp only [Bool.and_eq_true, decide_eq_true_eq] at hn
          obtain ⟨heq, hds⟩ := Json.NumberText.value?_integer hvalue hn.1
          exact ⟨t.whole, heq, by omega⟩

variable {v : Value} {s rest : List Char}

theorem readBoolean_spells (h : Spells (.value v) s) (hr : Stops rest) :
    readBoolean (s ++ rest) = (boolean v).map (·, rest) := by
  obtain ⟨rest', -, hread, hskip⟩ := h.readGlimpse hr
  cases hrange : v.glimpse.inRange .strict with
  | false =>
    have hpass : v.passes .strict [] = false := by
      cases v <;> simp_all [Value.passes, Value.glimpse, Json.Glimpse.inRange]
    simp [readBoolean, hread, hrange, boolean, hpass]
  | true =>
    simp only [readBoolean, hread, hrange, hskip hrange, if_true, lift_ok, Except.ok_bind, boolean]
    cases v.passes .strict [] with
    | false => rfl
    | true =>
      cases v with
      | string s =>
        simp only [Value.glimpse, if_true]
        cases truth? s <;> rfl
      | null | boolean | number | list | object => rfl

theorem readString_spells (h : Spells (.value v) s) (hr : Stops rest) :
    readString (s ++ rest) = (string v).map (·, rest) := by
  obtain ⟨rest', hrest, hread, -⟩ := h.readGlimpse hr
  cases hrange : v.glimpse.inRange .strict with
  | false =>
    have hstring : string v = wrongType .string v.glimpse := by
      cases v <;> first | rfl | cases hrange
    rw [hstring, wrongType_outOfRange hrange]
    simp only [readString, hread, hrange]
    rfl
  | true =>
    simp only [readString, hread, hrange, if_true, lift_ok, Except.ok_bind]
    cases v with
    | string s => rw [hrest rfl]; rfl
    | null | boolean | number | list | object => exact (wrongType_map _ _ _).symm

theorem readWord32_spells (h : Spells (.value v) s) (hr : Stops rest) :
    readWord32 (s ++ rest) = (word32 v).map (·, rest) := by
  obtain ⟨rest', hrest, hread, -⟩ := h.readGlimpse hr
  cases hrange : v.glimpse.inRange .strict with
  | false =>
    simp only [readWord32, hread, hrange, word32, found_outOfRange hrange]
    rfl
  | true =>
    simp only [readWord32, hread, hrange, word32, if_true, lift_ok, Except.ok_bind]
    cases v with
    | number t =>
      rw [hrest rfl]
      simp only [Value.glimpse, found]
      cases t.value? with
      | none => rfl
      | some x =>
        cases x with
        | float => exact (wrongType_map _ _ _).symm
        | integer n =>
          simp only [Except.ok_bind]
          split <;> rfl
    | null | boolean | string | list | object => simp only [Value.glimpse, found, Except.ok_bind, wrongType_map]

end Options

/-- What reading the value of a setting gives. -/
def OptionName.decode : OptionName → Value → Except DecodeError Setting
  | literalNarrowing, v => (Options.boolean v).map .literalNarrowing
  | selfParameterLinking, v => (Options.boolean v).map .selfParameterLinking
  | delegationConstructor, v => (Options.string v).map .delegationConstructor
  | delegationField, v => (Options.string v).map .delegationField
  | maxClassDepth, v => (Options.word32 v).map .maxClassDepth

theorem OptionName.decode_toOption (n : OptionName) (v : Value) : (n.decode v).toOption = n.decode? v := by
  cases n <;>
    simp only [decode, decode?, Except.toOption_map, Options.boolean_toOption, Options.string_toOption,
      Options.word32_toOption]

theorem OptionName.name_of_decode {n : OptionName} {v : Value} {x : Setting} (h : n.decode v = .ok x) :
    x.name = n := by
  cases n <;> obtain ⟨a, -, rfl⟩ := Except.map_ok h <;> rfl

theorem OptionName.ofText?_eq_some {name : String} {n : OptionName} : ofText? name = some n ↔ name = n.text := by
  constructor
  · intro h
    have hname : (n.text == name) = true := List.find?_some (p := fun n : OptionName => n.text == name) h
    exact (eq_of_beq hname).symm
  · rintro rfl
    cases n <;> decide

theorem OptionName.isSome_ofText? {name : String} : (ofText? name).isSome ↔ name ∈ all.map text := by
  have hall : ∀ n, n ∈ all := fun n => by cases n <;> decide
  simp only [Option.isSome_iff_exists, ofText?_eq_some, List.mem_map]
  constructor
  · rintro ⟨n, rfl⟩
    exact ⟨n, hall n, rfl⟩
  · rintro ⟨n, -, rfl⟩
    exact ⟨n, rfl⟩

theorem OptionName.text_injective {n n' : OptionName} (h : n.text = n'.text) : n = n' :=
  Option.some.inj ((ofText?_eq_some.mpr rfl).symm.trans (ofText?_eq_some.mpr h))

namespace Options

variable {v : Value} {s rest : List Char}

theorem readSetting_spells (n : OptionName) (h : Spells (.value v) s) (hr : Stops rest) :
    readSetting n (s ++ rest) = (n.decode v).map (·, rest) := by
  have hmap : ∀ {α : Type} (f : α → Setting) (x : Except DecodeError α),
      (x.map (·, rest)).map (fun (a, t) => (f a, t)) = (x.map f).map (·, rest) := by
    intro α f x
    cases x <;> rfl
  cases n <;> simp only [readSetting, readBoolean_spells h hr, readString_spells h hr, readWord32_spells h hr] <;>
    exact hmap _ _

/-! ### Documents -/

/-- Takes a member into the options; the settings given before are kept with them. -/
def takeMember (r : List OptionName × Options) (m : String × Value) :
    Except DecodeError (List OptionName × Options) :=
  match OptionName.ofText? m.1 with
  | none => .ok r
  | some n =>
    if n ∈ r.1 then .error (.invalid (.duplicate n))
    else (n.decode m.2).map fun x => (n :: r.1, r.2.set x)

/-- Takes the value of a setting into the options. -/
def takeItem (o : Options) (m : OptionName × Value) : Except DecodeError Options :=
  (m.1.decode m.2).map o.set

variable {name : String} {seen : List OptionName} {o : Options} {b : List Char} {ms : List (String × Value)}

theorem readMember_spells (hb : Blank b) (h : Spells (.value v) s) (hr : Stops rest) :
    readMember name seen o (b ++ ':' :: (s ++ rest)) = (takeMember (seen, o) (name, v)).map (·, rest) := by
  have hcolon := Json.readMark_token hb (show Json.isBlank ':' = false from rfl) (s ++ rest)
  have hskip : Json.skipValue .lax (s ++ rest) = .ok rest := by simp [h.skipValue .lax hr, v.passes_lax]
  unfold readMember takeMember
  cases OptionName.ofText? name with
  | none => simp [hcolon, hskip]
  | some n =>
    by_cases hn : n ∈ seen
    · simp [hn]
    · simp only [hn, if_false, hcolon, lift_ok, Except.ok_bind, readSetting_spells n h hr]
      cases n.decode v <;> rfl

/-- A member is read from its opening quote on. -/
theorem member_spells (h : Spells (.member name v) s) (hr : Stops rest) (seen : List OptionName) (o : Options) :
    ∃ s₁ s₂, readMark '"' (s ++ rest) = .ok s₁ ∧ Json.readChars .strict s₁ = .ok (name, s₂) ∧
      readMember name seen o s₂ = (takeMember (seen, o) (name, v)).map (·, rest) := by
  cases h with
  | @member v b cs n b' s hb hn hb' hs =>
    obtain ⟨name, hname, hread⟩ := hn.readChars .strict (b' ++ ':' :: (s ++ rest))
    rw [hname rfl] at hread
    refine ⟨n ++ '"' :: (b' ++ ':' :: (s ++ rest)), _, ?_, hread, readMember_spells hb' hs hr⟩
    simpa using Json.readMark_token hb (show Json.isBlank '"' = false from rfl) _

theorem skipBlank_closing {b : List Char} (hb : Blank b) (f : Json.Frame) (rest : List Char) :
    skipBlank (b ++ [f.closing] ++ rest) = f.closing :: rest := by
  rw [List.append_assoc]
  exact Json.skipBlank_token hb Json.Frame.closing_token rest

/-- The members of an object are taken one by one. -/
theorem readMembers_spells (first : Bool) {fuel : Nat}
    (h : Spells (bif first then .members ms else .moreMembers ms) s) (hf : ms.length < fuel) :
    readMembers fuel first seen o (s ++ rest) =
      (ms.foldlM takeMember (seen, o)).map fun r => (r.2, rest) := by
  induction ms generalizing first fuel seen o s with
  | nil =>
    obtain ⟨fuel, rfl⟩ : ∃ k, fuel = k + 1 := ⟨fuel - 1, by simp at hf; omega⟩
    have hclose : ∀ {b}, Blank b → skipBlank (b ++ ['}'] ++ rest) = '}' :: rest :=
      fun hb => skipBlank_closing hb .object rest
    cases first with
    | true => cases h with | noMember hb => simp only [readMembers, hclose hb]; rfl
    | false => cases h with | lastMember hb => simp only [readMembers, hclose hb]; rfl
  | cons m ms ih =>
    obtain ⟨fuel, rfl⟩ : ∃ k, fuel = k + 1 := ⟨fuel - 1, by simp at hf; omega⟩
    obtain ⟨name, v⟩ := m
    -- with or without a comma before it, the member is read and taken, and then the others
    have hrest : ∀ {t} (s₁ s₂ : List Char), Spells (.moreMembers ms) t →
        Json.readChars .strict s₁ = .ok (name, s₂) →
        readMember name seen o s₂ = (takeMember (seen, o) (name, v)).map (·, t ++ rest) →
        (lift (Json.readChars .strict s₁) >>= fun r => readMember r.1 seen o r.2 >>= fun r =>
          readMembers fuel false r.1.1 r.1.2 r.2) =
        (((name, v) :: ms).foldlM takeMember (seen, o)).map fun r => (r.2, rest) := by
      intro t s₁ s₂ ht hchars hmember
      simp only [hchars, lift_ok, Except.ok_bind, hmember, List.foldlM_cons]
      cases takeMember (seen, o) (name, v) with
      | error e => rfl
      | ok r => exact ih false ht (by simpa using hf)
    cases first with
    | true =>
      cases h with
      | @firstMember _ _ _ s t hs ht =>
        obtain ⟨b, c, u, rfl, hb, hc, hne, hs⟩ := hs.head (f := .object) rfl
        obtain ⟨s₁, s₂, hmark, hchars, hmember⟩ := member_spells hs (ht.stops_moreMembers rest) seen o
        have hskip := Json.skipBlank_token hb hc (u ++ (t ++ rest))
        rw [← hrest s₁ s₂ ht hchars hmember]
        simp only [List.append_assoc, List.cons_append] at hmark ⊢
        have hopen : c ≠ '}' := hne
        simp [readMembers, hskip, hopen, hmark]
    | false =>
      cases h with
      | @nextMember _ _ _ b s t hb hs ht =>
        obtain ⟨s₁, s₂, hmark, hchars, hmember⟩ := member_spells hs (ht.stops_moreMembers rest) seen o
        have hskip := Json.skipBlank_token hb (show Json.isBlank ',' = false from rfl) (s ++ (t ++ rest))
        rw [← hrest s₁ s₂ ht hchars hmember]
        have hcomma : readMark ',' (',' :: (s ++ (t ++ rest))) = .ok (s ++ (t ++ rest)) := rfl
        simp [readMembers, hskip, hcomma, hmark]

/-- The elements of an array are taken one by one, as far as there are names for them. -/
theorem readElements_spells (first : Bool) {names : List OptionName} {vs : List Value}
    (h : Spells (bif first then .items vs else .moreItems vs) s) (hn : vs.length ≤ names.length) :
    readElements names first o (s ++ rest) = ((names.zip vs).foldlM takeItem o).map (·, rest) := by
  induction vs generalizing first names o s with
  | nil =>
    obtain ⟨b, rfl, hb⟩ : ∃ b, s = b ++ [']'] ∧ Blank b := by
      cases first with
      | true => cases h with | noItem hb => exact ⟨_, rfl, hb⟩
      | false => cases h with | lastItem hb => exact ⟨_, rfl, hb⟩
    have hclose : skipBlank (b ++ [']'] ++ rest) = ']' :: rest := skipBlank_closing hb .list rest
    cases names with
    | nil => simp only [readElements, readMark, hclose]; rfl
    | cons n names => simp only [readElements, hclose]; rfl
  | cons v vs ih =>
    obtain ⟨n, names, rfl⟩ : ∃ n ns, names = n :: ns := List.exists_cons_of_length_pos (by simp at hn; omega)
    have hrest : ∀ {s t}, Spells (.value v) s → Spells (.moreItems vs) t →
        (readSetting n (s ++ (t ++ rest)) >>= fun r => readElements names false (o.set r.1) r.2) =
        (((n :: names).zip (v :: vs)).foldlM takeItem o).map (·, rest) := by
      intro s t hs ht
      simp only [readSetting_spells n hs (ht.stops_moreItems rest), List.zip_cons_cons, List.foldlM_cons, takeItem]
      cases n.decode v with
      | error e => rfl
      | ok x => exact ih false ht (by simpa using hn)
    cases first with
    | true =>
      cases h with
      | @firstItem _ _ s t hs ht =>
        obtain ⟨b, c, u, rfl, hb, hc, hne, hs⟩ := hs.head (f := .list) rfl
        have hskip := Json.skipBlank_token hb hc (u ++ (t ++ rest))
        have hopen : c ≠ ']' := hne
        rw [← hrest hs ht]
        simp [readElements, hskip, hopen]
    | false =>
      cases h with
      | @nextItem _ _ b s t hb hs ht =>
        have hskip := Json.skipBlank_token hb (show Json.isBlank ',' = false from rfl) (s ++ (t ++ rest))
        have hcomma : readMark ',' (',' :: (s ++ (t ++ rest))) = .ok (s ++ (t ++ rest)) := rfl
        rw [← hrest hs ht]
        simp [readElements, hskip, hcomma]

theorem length_le_of_spells (first : Bool) (h : Spells (bif first then .members ms else .moreMembers ms) s) :
    ms.length ≤ s.length := by
  induction ms generalizing first s with
  | nil => simp
  | cons m ms ih =>
    cases first with
    | true =>
      cases h with
      | firstMember hs ht =>
        have := ih false ht
        cases hs with | member => simp; omega
    | false =>
      cases h with
      | nextMember _ _ ht =>
        have := ih false ht
        simp; omega

theorem skipBlank_end (hb : Blank b) : skipBlank b = [] := by
  have hskip := Json.skipBlank_append hb []
  rwa [List.append_nil] at hskip

/-- An object is read by taking its members one by one. -/
theorem ofJson_object {text : String} (h : Writes (.object ms) text) :
    ofJson text = (ms.foldlM takeMember ([], standard)).map (·.2) := by
  obtain ⟨s, b, hs, hb, htext⟩ := h
  cases hs with
  | scalar _ hs => cases hs
  | @object _ b' s hb' hs =>
    have hread : Json.readGlimpse .strict text.toList = .ok (.object, s ++ b) := by
      rw [htext, List.append_assoc]
      exact Json.readGlimpse_opening hb' .object _
    have hlen : ms.length < (s ++ b).length + 1 := by
      have := length_le_of_spells true hs
      simp; omega
    simp only [ofJson, hread, lift_ok, Except.ok_bind, readMembers_spells true hs hlen]
    cases ms.foldlM takeMember ([], standard) with
    | error e => rfl
    | ok r => simp [skipBlank_end hb]

/-- An array is read by taking its elements one by one. -/
theorem ofJson_list {text : String} {vs : List Value} (h : Writes (.list vs) text)
    (hvs : vs.length ≤ OptionName.all.length) :
    ofJson text = (OptionName.all.zip vs).foldlM takeItem standard := by
  obtain ⟨s, b, hs, hb, htext⟩ := h
  cases hs with
  | scalar _ hs => cases hs
  | @list _ b' s hb' hs =>
    have hread : Json.readGlimpse .strict text.toList = .ok (.list, s ++ b) := by
      rw [htext, List.append_assoc]
      exact Json.readGlimpse_opening hb' .list _
    simp only [ofJson, hread, lift_ok, Except.ok_bind, readElements_spells true hs hvs]
    cases (OptionName.all.zip vs).foldlM takeItem standard with
    | error e => rfl
    | ok r => simp [skipBlank_end hb]

/-! ### What a document says -/

theorem get_set (o : Options) (x : Setting) (n : OptionName) :
    (o.set x).get n = if x.name = n then x else o.get n := by
  cases x <;> cases n <;> rfl

theorem ext_get {o o' : Options} (h : ∀ n, o.get n = o'.get n) : o = o' := by
  obtain ⟨⟩ := o
  obtain ⟨⟩ := o'
  have h₁ := h .literalNarrowing
  have h₂ := h .selfParameterLinking
  have h₃ := h .delegationConstructor
  have h₄ := h .delegationField
  have h₅ := h .maxClassDepth
  simp_all [get]

/-- Members of other names have no influence. -/
theorem foldlM_takeMember_filter (r : List OptionName × Options) (ms : List (String × Value)) :
    ms.foldlM takeMember r = (ms.filter (·.1 ∈ OptionName.all.map OptionName.text)).foldlM takeMember r := by
  induction ms generalizing r with
  | nil => rfl
  | cons m ms ih =>
    by_cases hm : m.1 ∈ OptionName.all.map OptionName.text
    · rw [List.filter_cons_of_pos (by simpa using hm), List.foldlM_cons, List.foldlM_cons]
      simp only [ih]
    · have hname : OptionName.ofText? m.1 = none := by
        rw [← Option.not_isSome_iff_eq_none, OptionName.isSome_ofText?]
        exact hm
      have htake : takeMember r m = .ok r := by simp [takeMember, hname]
      rw [List.filter_cons_of_neg (by simpa using hm), List.foldlM_cons, htake]
      exact ih r

/-- A setting is given at most once, not at all if it was given before, and acceptably. -/
def Accepts (seen : List OptionName) (ms : List (String × Value)) (n : OptionName) : Prop :=
  (ms.filter (·.1 = n.text)).length ≤ (if n ∈ seen then 0 else 1) ∧
    ∀ v, (n.text, v) ∈ ms → (n.decode? v).isSome

theorem accepts_cons_other (hname : OptionName.ofText? name = none) (n : OptionName) :
    Accepts seen ((name, v) :: ms) n ↔ Accepts seen ms n := by
  have hne : name ≠ n.text := fun h => by simp [OptionName.ofText?_eq_some.mpr h] at hname
  simp [Accepts, hne, Ne.symm hne]

theorem accepts_cons_setting {n₀ : OptionName} (hn₀ : n₀ ∉ seen) :
    (∀ n, Accepts seen ((n₀.text, v) :: ms) n) ↔ (n₀.decode? v).isSome ∧ ∀ n, Accepts (n₀ :: seen) ms n := by
  have hstep : ∀ n, Accepts seen ((n₀.text, v) :: ms) n ↔
      (n = n₀ → (n₀.decode? v).isSome) ∧ Accepts (n₀ :: seen) ms n := by
    intro n
    by_cases h : n = n₀
    · subst h
      simp only [Accepts, hn₀, decide_true, List.filter_cons_of_pos, List.length_cons, if_false, List.mem_cons,
        true_or, if_true]
      constructor
      · exact fun ⟨hlen, hall⟩ => ⟨fun _ => hall v (.inl rfl), by omega, fun w hw => hall w (.inr hw)⟩
      · rintro ⟨hv, hlen, hall⟩
        refine ⟨by omega, fun w hw => ?_⟩
        rcases hw with hw | hw
        · cases hw; exact hv trivial
        · exact hall w hw
    · have hne : n₀.text ≠ n.text := fun heq => h (OptionName.text_injective heq.symm)
      simp [Accepts, h, hne, Ne.symm hne]
  simp only [hstep]
  exact ⟨fun hall => ⟨(hall n₀).1 rfl, fun n => (hall n).2⟩, fun ⟨hv, hall⟩ n => ⟨fun _ => hv, hall n⟩⟩

/-- What taking a member can do. -/
theorem takeMember_ok {r r' : List OptionName × Options} {m : String × Value} (h : takeMember r m = .ok r') :
    (OptionName.ofText? m.1 = none ∧ r' = r) ∨
    ∃ n x, m.1 = n.text ∧ n ∉ r.1 ∧ n.decode m.2 = .ok x ∧ r' = (n :: r.1, r.2.set x) := by
  unfold takeMember at h
  cases hn : OptionName.ofText? m.1 with
  | none =>
    rw [hn] at h
    cases h
    exact .inl ⟨rfl, rfl⟩
  | some n =>
    simp only [hn] at h
    split at h
    · cases h
    · obtain ⟨x, hx, rfl⟩ := Except.map_ok h
      exact .inr ⟨n, x, OptionName.ofText?_eq_some.mp hn, ‹_›, hx, rfl⟩

theorem accepts_of_foldlM {r r' : List OptionName × Options} (h : ms.foldlM takeMember r = .ok r') (n : OptionName) :
    Accepts r.1 ms n := by
  induction ms generalizing r n with
  | nil => simp [Accepts]
  | cons m ms ih =>
    rw [List.foldlM_cons] at h
    obtain ⟨q, hq, hms⟩ := Except.bind_ok h
    obtain ⟨name, v⟩ := m
    obtain ⟨hname, rfl⟩ | ⟨n₀, x, rfl, hn₀, hx, rfl⟩ := takeMember_ok hq
    · exact (accepts_cons_other hname n).mpr (ih hms n)
    · have hv : (n₀.decode? v).isSome := by simp [← OptionName.decode_toOption, hx, Except.toOption]
      exact (accepts_cons_setting hn₀).mpr ⟨hv, ih hms⟩ n

theorem foldlM_of_accepts {r : List OptionName × Options} (h : ∀ n, Accepts r.1 ms n) :
    ∃ r', ms.foldlM takeMember r = .ok r' := by
  induction ms generalizing r with
  | nil => exact ⟨r, rfl⟩
  | cons m ms ih =>
    obtain ⟨name, v⟩ := m
    rw [List.foldlM_cons]
    cases hname : OptionName.ofText? name with
    | none =>
      have htake : takeMember r (name, v) = .ok r := by simp [takeMember, hname]
      rw [htake]
      exact ih fun n => (accepts_cons_other hname n).mp (h n)
    | some n₀ =>
      obtain rfl := OptionName.ofText?_eq_some.mp hname
      have hn₀ : n₀ ∉ r.1 := by
        intro hmem
        have hlen := (h n₀).1
        simp [hmem] at hlen
      obtain ⟨hv, h⟩ := (accepts_cons_setting hn₀).mp h
      obtain ⟨x, hx⟩ : ∃ x, n₀.decode v = .ok x := by
        rw [← OptionName.decode_toOption] at hv
        cases hd : n₀.decode v with
        | error e => simp [hd, Except.toOption] at hv
        | ok x => exact ⟨x, rfl⟩
      have htake : takeMember r (n₀.text, v) = .ok (n₀ :: r.1, r.2.set x) := by
        simp [takeMember, hname, hn₀, hx]
      rw [htake]
      exact ih h

/-- Every setting is what its member says, or what it was before. -/
theorem get_of_foldlM {r r' : List OptionName × Options} (h : ms.foldlM takeMember r = .ok r') (n : OptionName) :
    (∀ v, (n.text, v) ∈ ms → n.decode? v = some (r'.2.get n)) ∧
    ((∀ v, (n.text, v) ∉ ms) → r'.2.get n = r.2.get n) := by
  induction ms generalizing r with
  | nil => cases h; simp
  | cons m ms ih =>
    rw [List.foldlM_cons] at h
    obtain ⟨q, hq, hms⟩ := Except.bind_ok h
    obtain ⟨name, v⟩ := m
    obtain ⟨hgiven, hother⟩ := ih hms
    -- a member of another name is not about this setting
    have hpass : n.text ≠ name → (∀ w, (n.text, w) ∈ (name, v) :: ms ↔ (n.text, w) ∈ ms) := fun hne w => by simp [hne]
    obtain ⟨hname, rfl⟩ | ⟨n₀, x, rfl, hn₀, hx, rfl⟩ := takeMember_ok hq
    · have hne : n.text ≠ name := fun heq => by simp [OptionName.ofText?_eq_some.mpr heq.symm] at hname
      simp only [hpass hne]
      exact ⟨hgiven, hother⟩
    · rw [get_set, OptionName.name_of_decode hx] at hother
      by_cases heq : n₀ = n
      · subst heq
        have hnone : ∀ w, (n₀.text, w) ∉ ms := by
          have hlen := (accepts_of_foldlM hms n₀).1
          simp only [List.mem_cons, true_or, if_true, Nat.le_zero, List.length_eq_zero_iff, List.filter_eq_nil_iff,
            decide_eq_true_eq] at hlen
          exact fun w hw => hlen _ hw rfl
        rw [if_pos rfl] at hother
        refine ⟨fun w hw => ?_, fun hno => absurd List.mem_cons_self (hno v)⟩
        rcases List.mem_cons.mp hw with hw | hw
        · cases hw
          rw [hother hnone, ← OptionName.decode_toOption, hx]
          rfl
        · exact absurd hw (hnone w)
      · rw [if_neg heq] at hother
        simp only [hpass fun h => heq (OptionName.text_injective h.symm)]
        exact ⟨hgiven, hother⟩

/-- Values under names that are all different and not given before are taken like elements. -/
theorem foldlM_takeItem {names : List OptionName} (hnd : names.Nodup) (hseen : ∀ n ∈ names, n ∉ seen)
    (vs : List Value) :
    (((names.map OptionName.text).zip vs).foldlM takeMember (seen, o)).map (·.2) =
      (names.zip vs).foldlM takeItem o := by
  induction names generalizing vs seen o with
  | nil => rfl
  | cons n names ih =>
    cases vs with
    | nil => rfl
    | cons v vs =>
      obtain ⟨hn, hnd⟩ := List.nodup_cons.mp hnd
      have hname : OptionName.ofText? n.text = some n := OptionName.ofText?_eq_some.mpr rfl
      simp only [List.map_cons, List.zip_cons_cons, List.foldlM_cons, takeMember, takeItem, hname,
        hseen n (by simp), if_false]
      cases n.decode v with
      | error e => rfl
      | ok x =>
        refine ih hnd (fun m hm hmem => ?_) vs
        rcases List.mem_cons.mp hmem with rfl | hmem
        · exact hn hm
        · exact hseen m (by simp [hm]) hmem

theorem parse_object {text : String} (h : Writes (.object ms) text) :
    parse text = .ok o ↔ ∃ seen, ms.foldlM takeMember ([], standard) = .ok (seen, o) := by
  rw [parse, ofJson_object h]
  cases ms.foldlM takeMember ([], standard) with
  | error e => simp
  | ok r => simp [Prod.ext_iff]

/-- Options that are read from an object are the standard ones, overridden by the members named after a
setting; reading succeeds if and only if every setting has at most one member, with an acceptable value. Other
members have no influence. The values of the first settings may as well be given in a list. -/
theorem parse_overrides :
    (∀ ms text, Writes (.object ms) text →
      ((∃ o, parse text = .ok o) ↔
        ∀ n : OptionName, (ms.filter (·.1 = n.text)).length ≤ 1 ∧ ∀ v, (n.text, v) ∈ ms → ∃ x, n.Takes v x) ∧
      ∀ o, parse text = .ok o → ∀ n : OptionName,
        (∀ v, (n.text, v) ∈ ms → n.Takes v (o.get n)) ∧
        ((∀ v, (n.text, v) ∉ ms) → o.get n = standard.get n)) ∧
    (∀ ms ms' text text', Writes (.object ms) text → Writes (.object ms') text' →
      ms.filter (·.1 ∈ OptionName.all.map OptionName.text) = ms'.filter (·.1 ∈ OptionName.all.map OptionName.text) →
      parse text = parse text') ∧
    ∀ vs text text', vs.length ≤ 5 → Writes (.list vs) text →
      Writes (.object ((OptionName.all.map OptionName.text).zip vs)) text' → parse text = parse text' := by
  refine ⟨fun ms text h => ⟨⟨?_, ?_⟩, ?_⟩, fun ms ms' text text' h h' hms => ?_,
    fun vs text text' hvs h h' => ?_⟩
  · rintro ⟨o, ho⟩ n
    obtain ⟨seen, hms⟩ := (parse_object h).mp ho
    simpa [Accepts, OptionName.isSome_decode?] using accepts_of_foldlM hms n
  · intro haccepts
    obtain ⟨r, hms⟩ := foldlM_of_accepts (r := ([], standard)) fun n => by
      simpa [Accepts, OptionName.isSome_decode?] using haccepts n
    exact ⟨r.2, (parse_object h).mpr ⟨r.1, hms⟩⟩
  · intro o ho n
    obtain ⟨seen, hms⟩ := (parse_object h).mp ho
    obtain ⟨hgiven, hother⟩ := get_of_foldlM hms n
    exact ⟨fun v hv => OptionName.decode?_eq_some.mp (hgiven v hv), hother⟩
  · rw [parse, parse, ofJson_object h, ofJson_object h', foldlM_takeMember_filter, hms, ← foldlM_takeMember_filter]
  · have hnd : OptionName.all.Nodup := by decide
    have hitems := foldlM_takeItem (o := standard) hnd (by simp : ∀ n ∈ OptionName.all, n ∉ []) vs
    rw [parse, parse, ofJson_list h hvs, ofJson_object h', hitems]

/-- Whether a text needs no escape. -/
def isPlain (t : String) : Bool := t.toList.all fun c => ' ' ≤ c && c ≠ '"' && c ≠ '\\'

theorem spells_plain (t : String) (h : isPlain t = true) : Json.SpellsChars t.toList t.toList := by
  unfold isPlain at h
  generalize t.toList = cs at h
  induction cs with
  | nil => exact .nil
  | cons c cs ih =>
    simp only [List.all_cons, Bool.and_eq_true, decide_eq_true_eq] at h
    exact .plain h.1.1.1 h.1.1.2 h.1.2 (ih h.2)

theorem spells_string (t : String) (h : isPlain t = true) :
    Spells (.value (.string t)) ('"' :: (t.toList ++ ['"'])) := by
  have hs := Json.SpellsScalar.string (spells_plain t h)
  rw [String.ofList_toList] at hs
  exact .scalar Json.blank_nil hs

theorem spells_member (name : String) (h : isPlain name = true) (hs : Spells (.value v) s) :
    Spells (.member name v) ('"' :: (name.toList ++ '"' :: ':' :: s)) := by
  have hm := Spells.member Json.blank_nil (spells_plain name h) Json.blank_nil hs
  rwa [String.ofList_toList] at hm

theorem parse_overrides_words :
    parse "\x7b\"x\":[null],\"selfParameterLinking\":\" Yes \",\"literalNarrowing\":\"\u00a0OFF\"\x7d" =
      .ok ⟨false, true, "setmetatable", "__index", 64⟩ ∧
    parse "\x7b\"x\":[null],\"selfParameterLinking\":\" Yes \",\"literalNarrowing\":\"\u00a0OFF\"\x7d" =
      parse "\x7b\"selfParameterLinking\":\" Yes \",\"literalNarrowing\":\"\u00a0OFF\"\x7d" ∧
    parse "[\"\u00a0OFF\",\" Yes \",\"new\"]" = .ok ⟨false, true, "new", "__index", 64⟩ ∧
    ¬ ∃ o, parse "\x7b\"literalNarrowing\":\"offf\"\x7d" = .ok o := by
  have hnil : Blank [] := by simp [Blank]
  have hoff : Text.StandsFor "\u00a0OFF" false :=
    ⟨['\u00a0'], "off", ['O', 'F', 'F'], [], by decide, by decide, by simp [Text.SpellsWord], by simp [Text.whiteSpace],
      by simp [Text.whiteSpace]⟩
  have hyes : Text.StandsFor " Yes " true :=
    ⟨[' '], "yes", ['Y', 'e', 's'], [' '], by decide, by decide, by simp [Text.SpellsWord], by simp [Text.whiteSpace],
      by simp [Text.whiteSpace]⟩
  have hother : Spells (.member "x" (.list [.null])) _ :=
    spells_member _ (by decide) (.list hnil (.firstItem (.scalar hnil .null) (.lastItem hnil)))
  have hyesText : Spells (.value (.string " Yes ")) _ := spells_string " Yes " (by decide)
  have hoffText : Spells (.value (.string "\u00a0OFF")) _ := spells_string "\u00a0OFF" (by decide)
  have hnewText : Spells (.value (.string "new")) _ := spells_string "new" (by decide)
  have hself := spells_member "selfParameterLinking" (by decide) hyesText
  have hnarrow := spells_member "literalNarrowing" (by decide) hoffText
  have hnew := spells_member "delegationConstructor" (by decide) hnewText
  have hlong : Writes (.object [("x", .list [.null]), ("selfParameterLinking", .string " Yes "),
      ("literalNarrowing", .string "\u00a0OFF")])
      "\x7b\"x\":[null],\"selfParameterLinking\":\" Yes \",\"literalNarrowing\":\"\u00a0OFF\"\x7d" :=
    ⟨_, [], .object hnil (.firstMember hother (.nextMember hnil hself (.nextMember hnil hnarrow (.lastMember hnil)))),
      hnil, by decide⟩
  have hshort : Writes (.object [("selfParameterLinking", .string " Yes "), ("literalNarrowing", .string "\u00a0OFF")])
      "\x7b\"selfParameterLinking\":\" Yes \",\"literalNarrowing\":\"\u00a0OFF\"\x7d" :=
    ⟨_, [], .object hnil (.firstMember hself (.nextMember hnil hnarrow (.lastMember hnil))), hnil, by decide⟩
  have hlist : Writes (.list [.string "\u00a0OFF", .string " Yes ", .string "new"])
      "[\"\u00a0OFF\",\" Yes \",\"new\"]" :=
    ⟨_, [], .list hnil (.firstItem hoffText (.nextItem hnil hyesText (.nextItem hnil hnewText (.lastItem hnil)))),
      hnil, by decide⟩
  have hnamed : Writes (.object [("literalNarrowing", .string "\u00a0OFF"), ("selfParameterLinking", .string " Yes "),
      ("delegationConstructor", .string "new")])
      ("\x7b\"literalNarrowing\":\"\u00a0OFF\",\"selfParameterLinking\":\" Yes \"," ++
        "\"delegationConstructor\":\"new\"\x7d") :=
    ⟨_, [], .object hnil (.firstMember hnarrow (.nextMember hnil hself (.nextMember hnil hnew (.lastMember hnil)))),
      hnil, by decide⟩
  have hbad : Writes (.object [("literalNarrowing", .string "offf")]) "\x7b\"literalNarrowing\":\"offf\"\x7d" :=
    ⟨_, [], .object hnil (.firstMember (spells_member "literalNarrowing" (by decide) (spells_string "offf" (by decide)))
      (.lastMember hnil)), hnil, by decide⟩
  obtain ⟨hmembers, hothers, hlists⟩ := parse_overrides
  -- an object whose members say what the options are, the others being standard, is read as these options
  have hreads : ∀ {ms text o}, Writes (.object ms) text → (∀ n : OptionName, (ms.filter (·.1 = n.text)).length ≤ 1) →
      (∀ n : OptionName, ∀ v, (n.text, v) ∈ ms → n.Takes v (o.get n)) →
      (∀ n : OptionName, (∀ v, (n.text, v) ∉ ms) → o.get n = standard.get n) → parse text = .ok o := by
    intro ms text o hms hone htakes hrest
    obtain ⟨o', ho'⟩ := (hmembers ms text hms).1.mpr fun n => ⟨hone n, fun v hv => ⟨_, htakes n v hv⟩⟩
    refine ho'.trans (congrArg _ (ext_get fun n => ?_))
    obtain ⟨hgiven, hother⟩ := (hmembers ms text hms).2 o' ho' n
    by_cases hn : ∃ v, (n.text, v) ∈ ms
    · obtain ⟨v, hv⟩ := hn
      exact (hgiven v hv).unique (htakes n v hv)
    · have hno : ∀ v, (n.text, v) ∉ ms := fun v hv => hn ⟨v, hv⟩
      rw [hother hno, hrest n hno]
  refine ⟨hreads hlong (fun n => by cases n <;> decide) (fun n v hv => ?_) fun n hn => ?_,
    hothers _ _ _ _ hlong hshort (by rfl), (hlists _ _ _ (by decide) hlist hnamed).trans
      (hreads hnamed (fun n => by cases n <;> decide) (fun n v hv => ?_) fun n hn => ?_), fun ho => ?_⟩
  · cases n <;> simp [OptionName.text] at hv <;> subst hv
    · exact .literalNarrowing (.word hoff)
    · exact .selfParameterLinking (.word hyes)
  · cases n <;> first | rfl | simp [OptionName.text] at hn
  · cases n <;> simp [OptionName.text] at hv <;> subst hv
    · exact .literalNarrowing (.word hoff)
    · exact .selfParameterLinking (.word hyes)
    · exact .delegationConstructor
  · cases n <;> first | rfl | simp [OptionName.text] at hn
  · obtain ⟨x, hx⟩ := ((hmembers _ _ hbad).1.mp ho .literalNarrowing).2 (.string "offf") (by simp [OptionName.text])
    have hnone : OptionName.literalNarrowing.decode? (.string "offf") = none := by decide
    rw [OptionName.decode?_eq_some.2 hx] at hnone
    cases hnone

end Options

end LuaInfer
