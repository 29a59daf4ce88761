import FlowBrake.Core.Input
import FlowBrake.Lib.Numeral

/-! Which delays and loss rates are accepted, and that they are accepted again as they are
shown. -/
namespace FlowBrake.Core
open Text

def formatDelayMs (value : Option UInt32) : Text :=
  (value.map fun value => Nat.toDigits 10 value.toNat).getD []

/-- `{fraction:02}` -/
def twoDigits (n : ℕ) : Text :=
  if n < 10 then '0' :: Nat.toDigits 10 n else Nat.toDigits 10 n

def formatLossPercent : Option UInt16 → Text
  | none => []
  | some basisPoints =>
    let whole := basisPoints.toNat / 100
    let fraction := basisPoints.toNat % 100
    if fraction = 0 then Nat.toDigits 10 whole
    else if fraction % 10 = 0 then
      Nat.toDigits 10 whole ++ '.' :: Nat.toDigits 10 (fraction / 10)
    else Nat.toDigits 10 whole ++ '.' :: twoDigits fraction

/-- A whole number of milliseconds within the bound. -/
structure DelayText (text : Text) (value : ℕ) : Prop where
  numeral : Numeral text
  value_eq : Text.value text = value
  le : value ≤ 5000

/-- A percentage of at most two decimal places, as hundredths of a percent. -/
structure LossText (text : Text) (basisPoints : ℕ) : Prop where
  decimal : ∃ whole fraction, (text = whole ∧ fraction = [] ∨
      text = whole ++ '.' :: fraction ∧ Numeral fraction ∧ fraction.length ≤ 2) ∧
    Numeral whole ∧ Text.decimal whole fraction = basisPoints / 100
  le : basisPoints ≤ 10000

section Delay
variable {text : Text}

/-- What is read from a trimmed text. -/
theorem parseDelayMs_eq (text : Text) : parseDelayMs text =
    if trim text = [] then .ok none
    else if Numeral (trim text) ∧ value (trim text) ≤ 5000 then
      .ok (some (UInt32.ofNat (value (trim text))))
    else .error delayError := by
  unfold parseDelayMs
  generalize trim text = trimmed
  dsimp only
  by_cases hempty : trimmed = []
  · simp [hempty]
  have hne : trimmed.isEmpty = false := List.isEmpty_eq_false_iff.mpr hempty
  rw [if_neg (by simp [hne]), if_neg hempty]
  by_cases hall : trimmed.all Char.isDigit = true
  · have hnumeral : Numeral trimmed := numeral_iff.mpr ⟨hne, hall⟩
    rw [if_neg (by simp [hall]), hnumeral.parseUnsigned]
    by_cases hfits : value trimmed < 2 ^ 32
    · rw [if_pos hfits]
      have hle : UInt32.ofNat (value trimmed) > maxDelayMs ↔ ¬ value trimmed ≤ 5000 := by
        rw [gt_iff_lt, UInt32.lt_iff_toNat_lt, UInt32.toNat_ofNat', Nat.mod_eq_of_lt hfits]
        exact Nat.not_le.symm
      simp only [hle, hnumeral, true_and]
      split <;> simp_all
    · rw [if_neg hfits, if_neg (by omega)]
  · have hnumeral : ¬ Numeral trimmed := fun h => hall h.all
    rw [if_pos (by simpa using hall), if_neg (by simp [hnumeral])]

theorem DelayText.trimmed {n : ℕ} (h : DelayText text n) : trim text = text :=
  trimmed_of_forall fun c hc => isWhitespace_of_isDigit (h.numeral.isDigit c hc)

theorem parseDelayMs_eq_none_iff : parseDelayMs text = .ok none ↔ trim text = [] := by
  rw [parseDelayMs_eq]
  split
  · next hempty => simp [hempty]
  · next hempty =>
    simp only [hempty, iff_false]
    split <;> simp

theorem parseDelayMs_eq_some_iff {delay : UInt32} :
    parseDelayMs text = .ok (some delay) ↔ DelayText (trim text) delay.toNat := by
  rw [parseDelayMs_eq]
  constructor
  · intro h
    split at h
    · cases h
    · split at h
      · next hread =>
        cases h
        have hvalue : (UInt32.ofNat (value (trim text))).toNat = value (trim text) :=
          UInt32.toNat_ofNat_of_lt' (by have := hread.2; change _ < 2 ^ 32; omega)
        exact ⟨hread.1, hvalue.symm, by rw [hvalue]; exact hread.2⟩
      · cases h
  · intro h
    rw [if_neg h.numeral.ne_nil, if_pos ⟨h.numeral, h.value_eq ▸ h.le⟩, h.value_eq,
      UInt32.ofNat_toNat]

end Delay

section Loss
variable {text whole fraction : Text}

/-- The hundredths that digits before and behind the point come to. -/
def hundredths (whole fraction : Text) : ℕ :=
  value whole * 100 + value fraction * 10 ^ (2 - fraction.length)

/-- Digits, with up to two more behind a point. -/
structure LossShape (text whole fraction : Text) : Prop where
  parts : text = whole ∧ fraction = [] ∨
    text = whole ++ '.' :: fraction ∧ Numeral fraction ∧ fraction.length ≤ 2
  whole : Numeral whole

namespace LossShape

theorem isDigit (h : LossShape text whole fraction) : ∀ c ∈ fraction, c.isDigit = true := by
  rcases h.parts with ⟨-, rfl⟩ | ⟨-, hfraction, -⟩
  · simp
  · exact hfraction.isDigit

theorem length_le (h : LossShape text whole fraction) : fraction.length ≤ 2 := by
  rcases h.parts with ⟨-, rfl⟩ | ⟨-, -, hle⟩
  · exact Nat.zero_le 2
  · exact hle

theorem split (h : LossShape text whole fraction) :
    (splitOnce '.' text).getD (text, []) = (whole, fraction) ∧
      (text.contains '.' && fraction.isEmpty) = false := by
  have hdot : '.' ∉ whole := h.whole.not_mem (by decide)
  rcases h.parts with ⟨rfl, rfl⟩ | ⟨rfl, hfraction, -⟩
  · rw [splitOnce_eq_none hdot]
    exact ⟨rfl, by simpa using hdot⟩
  · rw [splitOnce_append hdot]
    exact ⟨rfl, by simp [hfraction.ne_nil]⟩

theorem trimmed (h : LossShape text whole fraction) : trim text = text := by
  refine trimmed_of_forall fun c hc => ?_
  rcases h.parts with ⟨rfl, rfl⟩ | ⟨rfl, hfraction, -⟩
  · exact isWhitespace_of_isDigit (h.whole.isDigit c hc)
  · rcases List.mem_append.mp hc with hc | hc
    · exact isWhitespace_of_isDigit (h.whole.isDigit c hc)
    · rcases List.mem_cons.mp hc with rfl | hc
      · decide
      · exact isWhitespace_of_isDigit (hfraction.isDigit c hc)

theorem ne_nil (h : LossShape text whole fraction) : text ≠ [] := by
  rcases h.parts with ⟨rfl, rfl⟩ | ⟨rfl, -, -⟩
  · exact h.whole.ne_nil
  · simp

end LossShape

/-- The text that passes the parser's checks of the digits has their shape. -/
theorem lossShape_of_split (hsplit : (splitOnce '.' text).getD (text, []) = (whole, fraction))
    (hwhole : Numeral whole) (hfraction : fraction.all Char.isDigit = true)
    (hlength : fraction.length ≤ 2) (hpoint : (text.contains '.' && fraction.isEmpty) = false) :
    LossShape text whole fraction := by
  refine ⟨?_, hwhole⟩
  cases hdot : splitOnce '.' text with
  | none =>
    rw [hdot] at hsplit
    cases hsplit
    exact .inl ⟨rfl, rfl⟩
  | some parts =>
    rw [hdot] at hsplit
    cases hsplit
    obtain ⟨rfl, -⟩ := splitOnce_eq_some hdot
    refine .inr ⟨rfl, numeral_iff.mpr ⟨?_, hfraction⟩, hlength⟩
    simpa using hpoint

/-- The digits behind the point come to less than one percent. -/
theorem fraction_lt (h : LossShape text whole fraction) :
    value fraction * 10 ^ (2 - fraction.length) < 100 := by
  have hpow : 10 ^ fraction.length * 10 ^ (2 - fraction.length) = 100 := by
    rw [← pow_add, Nat.add_sub_cancel' h.length_le]
    rfl
  rw [← hpow]
  exact Nat.mul_lt_mul_of_pos_right (value_lt h.isDigit) (Nat.pow_pos (by decide))

/-- The range check looks at the two parts instead of their sum. -/
theorem range_check {whole fraction : ℕ} (h : fraction < 100) :
    (if whole > 100 || whole = 100 && fraction > 0 then .error lossError
      else .ok (some (UInt16.ofNat (whole * 100 + fraction))) : Except Text (Option UInt16)) =
    if whole * 100 + fraction ≤ 10000 then .ok (some (UInt16.ofNat (whole * 100 + fraction)))
      else .error lossError := by
  by_cases hle : whole * 100 + fraction ≤ 10000
  · rw [if_pos hle, if_neg]
    simp only [Bool.or_eq_true, Bool.and_eq_true, decide_eq_true_eq]
    omega
  · rw [if_neg hle, if_pos]
    simp only [Bool.or_eq_true, Bool.and_eq_true, decide_eq_true_eq]
    omega

/-- What is read from digits. -/
theorem parseLossPercent_of_shape (h : LossShape (trim text) whole fraction) :
    parseLossPercent text = if hundredths whole fraction ≤ 10000 then
      .ok (some (UInt16.ofNat (hundredths whole fraction))) else .error lossError := by
  obtain ⟨hsplit, hpoint⟩ := h.split
  obtain ⟨hne, hall⟩ := numeral_iff.mp h.whole
  have hdigits : fraction.all Char.isDigit = true := List.all_eq_true.mpr h.isDigit
  have hlength := h.length_le
  have hlt := fraction_lt h
  have hvalue := value_lt h.isDigit
  unfold parseLossPercent hundredths
  simp only [List.isEmpty_eq_false_iff.mpr h.ne_nil, hsplit, hne, hall, hdigits, hpoint,
    decide_eq_false (not_lt.mpr hlength), h.whole.parseUnsigned, Bool.not_true, Bool.or_false,
    Bool.false_eq_true, if_false]
  by_cases hfits : value whole < 2 ^ 16
  · rw [if_pos hfits, ← range_check hlt]
    rcases fraction with _ | ⟨c, _ | ⟨d, rest⟩⟩
    · rfl
    · have hnumeral : Numeral [c] := ⟨by simp, h.isDigit⟩
      rw [hnumeral.parseUnsigned, if_pos (by simp at hvalue; omega)]
      rfl
    · have hnumeral : Numeral (c :: d :: rest) := ⟨by simp, h.isDigit⟩
      obtain rfl : rest = [] := by simpa using hlength
      rw [hnumeral.parseUnsigned, if_pos (by simp at hvalue; omega)]
      simp only [List.length_cons, List.length_nil, Nat.reduceAdd, Nat.sub_self, pow_zero, mul_one]
  · rw [if_neg hfits, if_neg (by omega)]

/-- Nothing is read from any other text. -/
theorem parseLossPercent_of_no_shape (hne : trim text ≠ [])
    (h : ∀ whole fraction, ¬ LossShape (trim text) whole fraction) :
    parseLossPercent text = .error lossError := by
  obtain ⟨parts, hsplit⟩ : ∃ parts, (splitOnce '.' (trim text)).getD (trim text, []) = parts :=
    ⟨_, rfl⟩
  obtain ⟨whole, fraction⟩ := parts
  unfold parseLossPercent
  simp only [List.isEmpty_eq_false_iff.mpr hne, hsplit, Bool.false_eq_true, if_false]
  rw [if_pos]
  by_contra hchecks
  simp only [Bool.or_eq_true, not_or, Bool.not_eq_true, Bool.not_eq_false',
    decide_eq_false_iff_not, not_lt] at hchecks
  obtain ⟨⟨⟨⟨hempty, hall⟩, hlength⟩, hfraction⟩, hpoint⟩ := hchecks
  exact h whole fraction (lossShape_of_split hsplit (numeral_iff.mpr ⟨hempty, hall⟩) hfraction
    hlength hpoint)

/-- A loss text is digits that come to its value. -/
theorem lossText_iff {n : ℕ} : LossText text n ↔
    ∃ whole fraction, LossShape text whole fraction ∧ hundredths whole fraction = n ∧
      n ≤ 10000 := by
  have hvalue {whole fraction : Text} (h : LossShape text whole fraction) :
      Text.decimal whole fraction = n / 100 ↔ hundredths whole fraction = n := by
    have hiff : Text.decimal whole fraction = n / 10 ^ 2 ↔
        Text.value whole * 10 ^ 2 + Text.value fraction * 10 ^ (2 - fraction.length) = n :=
      decimal_eq_div_iff h.length_le
    norm_num at hiff
    exact hiff
  constructor
  · rintro ⟨⟨whole, fraction, hparts, hwhole, heq⟩, hle⟩
    have hshape : LossShape text whole fraction := ⟨hparts, hwhole⟩
    exact ⟨whole, fraction, hshape, (hvalue hshape).mp heq, hle⟩
  · rintro ⟨whole, fraction, hshape, heq, hle⟩
    exact ⟨⟨whole, fraction, hshape.parts, hshape.whole, (hvalue hshape).mpr heq⟩, hle⟩

theorem LossText.trimmed {n : ℕ} (h : LossText text n) : trim text = text := by
  obtain ⟨whole, fraction, hshape, -⟩ := lossText_iff.mp h
  exact hshape.trimmed

theorem parseLossPercent_eq_some_iff {basisPoints : UInt16} :
    parseLossPercent text = .ok (some basisPoints) ↔
      LossText (trim text) basisPoints.toNat := by
  rw [lossText_iff]
  constructor
  · intro h
    by_cases hshape : ∃ whole fraction, LossShape (trim text) whole fraction
    · obtain ⟨whole, fraction, hshape⟩ := hshape
      rw [parseLossPercent_of_shape hshape] at h
      split at h
      · next hle =>
        cases h
        have hvalue := UInt16.toNat_ofNat_of_lt' (show hundredths whole fraction < 2 ^ 16 by omega)
        exact ⟨whole, fraction, hshape, hvalue.symm, by rw [hvalue]; exact hle⟩
      · cases h
    · by_cases hempty : trim text = []
      · simp [parseLossPercent, hempty] at h
      · rw [parseLossPercent_of_no_shape hempty (by simpa using hshape)] at h
        cases h
  · rintro ⟨whole, fraction, hshape, heq, hle⟩
    rw [parseLossPercent_of_shape hshape, heq, if_pos hle, UInt16.ofNat_toNat]

theorem parseLossPercent_eq_none_iff : parseLossPercent text = .ok none ↔ trim text = [] := by
  constructor
  · intro h
    by_contra hempty
    by_cases hshape : ∃ whole fraction, LossShape (trim text) whole fraction
    · obtain ⟨whole, fraction, hshape⟩ := hshape
      rw [parseLossPercent_of_shape hshape] at h
      split at h <;> cases h
    · rw [parseLossPercent_of_no_shape hempty (by simpa using hshape)] at h
      cases h
  · intro h
    simp [parseLossPercent, h]

end Loss

section Format

theorem length_toDigits_eq_one {n : ℕ} (h : n < 10) : (Nat.toDigits 10 n).length = 1 := by
  rw [Nat.toDigits_of_lt_base h]
  rfl

theorem twoDigits_spec {n : ℕ} (h : n < 100) :
    Numeral (twoDigits n) ∧ value (twoDigits n) = n ∧ (twoDigits n).length = 2 := by
  unfold twoDigits
  split
  · next hlt =>
    refine ⟨⟨by simp, fun c hc => ?_⟩, ?_, ?_⟩
    · rcases List.mem_cons.mp hc with rfl | hc
      · decide
      · exact isDigit_of_mem_toDigits hc
    · rw [← List.singleton_append, value_append, value_toDigits]
      simp [value, Nat.ofDigitChars_cons]
    · rw [List.length_cons, length_toDigits_eq_one hlt]
  · next hge =>
    refine ⟨numeral_toDigits n, value_toDigits n, ?_⟩
    have hle := (Nat.length_toDigits_le_iff (b := 10) (k := 2) (by decide) (by decide)).mpr h
    have hgt := (Nat.length_toDigits_le_iff (b := 10) (n := n) (k := 1) (by decide)
      (by decide)).not.mpr hge
    omega

/-- A loss rate is shown as digits that come to it. -/
theorem lossText_formatLossPercent {basisPoints : UInt16} (h : basisPoints.toNat ≤ 10000) :
    LossText (formatLossPercent (some basisPoints)) basisPoints.toNat := by
  have hparts := Nat.div_add_mod basisPoints.toNat 100
  have hfraction : basisPoints.toNat % 100 < 100 := Nat.mod_lt _ (by decide)
  rw [lossText_iff]
  unfold formatLossPercent
  dsimp only
  generalize basisPoints.toNat % 100 = fraction at *
  generalize basisPoints.toNat / 100 = whole at *
  have hwhole := numeral_toDigits whole
  split
  · next hzero =>
    refine ⟨_, [], ⟨.inl ⟨rfl, rfl⟩, hwhole⟩, ?_, h⟩
    rw [hundredths, value_toDigits, value_nil]
    omega
  · split
    · next hten =>
      have hlength := length_toDigits_eq_one (show fraction / 10 < 10 by omega)
      refine ⟨_, _, ⟨.inr ⟨rfl, numeral_toDigits _, by omega⟩, hwhole⟩, ?_, h⟩
      rw [hundredths, value_toDigits, value_toDigits, hlength]
      omega
    · obtain ⟨hnumeral, hvalue, hlength⟩ := twoDigits_spec hfraction
      refine ⟨_, _, ⟨.inr ⟨rfl, hnumeral, by omega⟩, hwhole⟩, ?_, h⟩
      rw [hundredths, value_toDigits, hvalue, hlength]
      omega

theorem delayText_formatDelayMs {delay : UInt32} (h : delay.toNat ≤ 5000) :
    DelayText (formatDelayMs (some delay)) delay.toNat :=
  ⟨numeral_toDigits _, value_toDigits _, h⟩

end Format

/-- The parser reads from a text exactly the value that the text stands for, and reads it again
from the text that shows it. -/
structure Validates {α : Type} (parse : Text → Except Text (Option α)) (format : Option α → Text)
    (stands : Text → α → Prop) (error : Text) (text : Text) : Prop where
  none_iff : parse text = .ok none ↔ trim text = []
  some_iff : ∀ value, parse text = .ok (some value) ↔ stands (trim text) value
  error_iff : ∀ e, parse text = .error e ↔
    e = error ∧ trim text ≠ [] ∧ ∀ value, ¬ stands (trim text) value
  parse_format : ∀ value, parse text = .ok value → parse (format value) = .ok value

/-- A parser with one error text that reads exactly what its texts stand for. -/
theorem Validates.of_iff {α : Type} {parse : Text → Except Text (Option α)}
    {format : Option α → Text} {stands : Text → α → Prop} {error : Text}
    (hnone : ∀ text, parse text = .ok none ↔ trim text = [])
    (hsome : ∀ text value, parse text = .ok (some value) ↔ stands (trim text) value)
    (herror : ∀ text e, parse text = .error e → e = error) (hformat : format none = [])
    (hstands : ∀ text value, stands text value →
      trim (format (some value)) = format (some value) ∧ stands (format (some value)) value)
    (text : Text) : Validates parse format stands error text where
  none_iff := hnone text
  some_iff := hsome text
  error_iff e := by
    cases hparse : parse text with
    | error e' =>
      have hne : trim text ≠ [] := fun h => by
        rw [(hnone text).mpr h] at hparse
        cases hparse
      have hno (value : α) : ¬ stands (trim text) value := fun h => by
        rw [(hsome text value).mpr h] at hparse
        cases hparse
      rw [Except.error.injEq, herror text e' hparse]
      exact ⟨fun h => ⟨h.symm, hne, hno⟩, fun h => h.1.symm⟩
    | ok value =>
      refine iff_of_false (by simp) ?_
      rintro ⟨-, hne, hno⟩
      cases value with
      | none => exact hne ((hnone text).mp hparse)
      | some value => exact hno value ((hsome text value).mp hparse)
  parse_format value hparse := by
    cases value with
    | none =>
      rw [hformat]
      exact (hnone []).mpr rfl
    | some value =>
      obtain ⟨htrim, hshown⟩ := hstands _ value ((hsome text value).mp hparse)
      rw [← htrim] at hshown
      exact (hsome _ value).mpr hshown

theorem error_of_parseLossPercent {text error : Text}
    (h : parseLossPercent text = .error error) : error = lossError := by
  by_cases hempty : trim text = []
  · rw [parseLossPercent_eq_none_iff.mpr hempty] at h
    cases h
  · by_cases hshape : ∃ whole fraction, LossShape (trim text) whole fraction
    · obtain ⟨whole, fraction, hshape⟩ := hshape
      rw [parseLossPercent_of_shape hshape] at h
      split at h <;> cases h
      rfl
    · rw [parseLossPercent_of_no_shape hempty (by simpa using hshape)] at h
      cases h
      rfl

theorem error_of_parseDelayMs {text error : Text} (h : parseDelayMs text = .error error) :
    error = delayError := by
  rw [parseDelayMs_eq] at h
  split at h
  · cases h
  · split at h <;> cases h
    rfl

/-- Loss rates and delays are validated exactly, and accepted again as they are shown. -/
theorem inputs_validated (text : Text) :
    Validates parseLossPercent formatLossPercent
        (fun text basisPoints => LossText text basisPoints.toNat) lossError text ∧
      Validates parseDelayMs formatDelayMs (fun text delay => DelayText text delay.toNat)
        delayError text := by
  constructor
  · refine .of_iff (fun _ => parseLossPercent_eq_none_iff) (fun _ _ => parseLossPercent_eq_some_iff)
      (fun _ _ => error_of_parseLossPercent) rfl (fun _ basisPoints h => ?_) text
    have hshown := lossText_formatLossPercent h.le
    exact ⟨hshown.trimmed, hshown⟩
  · refine .of_iff (fun _ => parseDelayMs_eq_none_iff) (fun _ _ => parseDelayMs_eq_some_iff)
      (fun _ _ => error_of_parseDelayMs) rfl (fun _ delay h => ?_) text
    have hshown := delayText_formatDelayMs h.le
    exact ⟨hshown.trimmed, hshown⟩

end FlowBrake.Core
