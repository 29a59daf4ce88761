import Mathlib.Tactic.Linarith
import FlowBrake.Core.Input
import FlowBrake.Lib.Numeral

/-! A speed limit as it is shown in either unit, and as it is read again. -/
namespace FlowBrake.Core
open Text

def formatLimitKibps (kibps : UInt32) : SpeedUnit → Text
  | .bytes => Nat.toDigits 10 kibps.toNat
  | .bits => Nat.toDigits 10 (roundHalfAway (kibps.toNat * 1024 * 8 / 1000)).toNat

def limitText (kibps : UInt32) (unit : SpeedUnit) : Text :=
  if kibps > 0 then formatLimitKibps kibps unit else []

/-- Rounding errs by a half at most. -/
theorem roundHalfAway_error (x : ℚ) : |(roundHalfAway x : ℚ) - x| ≤ 1 / 2 := by
  unfold roundHalfAway
  rw [abs_le]
  split
  · have hle := Int.floor_le (x + 1 / 2)
    have hlt := Int.lt_floor_add_one (x + 1 / 2)
    constructor <;> linarith
  · have hge := Int.le_ceil (x - 1 / 2)
    have hlt := Int.ceil_lt_add_one (x - 1 / 2)
    constructor <;> linarith

/-- A number within less than a half of a whole one is rounded to it. -/
theorem roundHalfAway_eq {x : ℚ} {n : ℤ} (h : |x - n| < 1 / 2) : roundHalfAway x = n := by
  have hround := abs_le.mp (roundHalfAway_error x)
  have hnear := abs_lt.mp h
  have hlt : (roundHalfAway x : ℚ) < n + 1 := by linarith [hround.2, hnear.2]
  have hgt : (n : ℚ) < roundHalfAway x + 1 := by linarith [hround.1, hnear.1]
  have hlt' : roundHalfAway x < n + 1 := by exact_mod_cast hlt
  have hgt' : n < roundHalfAway x + 1 := by exact_mod_cast hgt
  omega

theorem roundHalfAway_nonneg {x : ℚ} (h : 0 ≤ x) : 0 ≤ roundHalfAway x := by
  rw [roundHalfAway, if_pos h]
  exact Int.floor_nonneg.mpr (by linarith)

/-- A limit in kilobits, rounded, is nearest to the limit in KiB that it came from. -/
theorem roundHalfAway_kibps (kibps : ℕ) :
    roundHalfAway ((roundHalfAway ((kibps : ℚ) * 1024 * 8 / 1000) : ℚ) * 1000 / 8 / 1024) =
      kibps := by
  have herror := abs_le.mp (roundHalfAway_error ((kibps : ℚ) * 1024 * 8 / 1000))
  apply roundHalfAway_eq
  rw [abs_lt, Int.cast_natCast]
  -- The error of a half is scaled down by 8.192.
  constructor <;> linarith [herror.1, herror.2]

section Reading
variable {parseF64 : Text → Option ℚ}

/-- What is read in the bits unit from a text of digits. -/
theorem parseLimitInput_bits {text : Text} (h : Numeral text)
    (hread : parseF64 text = some (value text : ℚ)) {kibps : UInt32}
    (hvalue : roundHalfAway ((value text : ℚ) * 1000 / 8 / 1024) = kibps.toNat) :
    parseLimitInput parseF64 text .bits = some kibps := by
  have htrim : trim text = text :=
    trimmed_of_forall fun c hc => isWhitespace_of_isDigit (h.isDigit c hc)
  have hne : text.isEmpty = false := (numeral_iff.mp h).1
  have hlt := kibps.toNat_lt
  simp only [parseLimitInput, htrim, hne, hread, hvalue, Bool.false_eq_true, if_false]
  rw [if_pos ⟨by omega, by omega⟩, Int.toNat_natCast, UInt32.ofNat_toNat]

theorem parseLimitInput_bytes (kibps : UInt32) :
    parseLimitInput parseF64 (Nat.toDigits 10 kibps.toNat) .bytes = some kibps := by
  have hne : (Nat.toDigits 10 kibps.toNat).isEmpty = false :=
    (numeral_iff.mp (numeral_toDigits _)).1
  simp only [parseLimitInput, trimmed_toDigits.eq, hne, Bool.false_eq_true, if_false,
    parseUnsigned_toDigits kibps.toNat_lt, Option.map_some, UInt32.ofNat_toNat]

/-- A limit is read as it is shown, where the digits of a number are read as the number. -/
theorem parseLimitInput_limitText (hread : ∀ text, Numeral text →
    parseF64 text = some (value text : ℚ)) (kibps : UInt32) (unit : SpeedUnit) :
    parseLimitInput parseF64 (limitText kibps unit) unit = some kibps := by
  unfold limitText
  split
  · cases unit with
    | bytes => exact parseLimitInput_bytes kibps
    | bits =>
      have hnonneg : 0 ≤ roundHalfAway ((kibps.toNat : ℚ) * 1024 * 8 / 1000) :=
        roundHalfAway_nonneg (by positivity)
      refine parseLimitInput_bits (numeral_toDigits _) (hread _ (numeral_toDigits _)) ?_
      rw [value_toDigits, ← Int.cast_natCast, Int.toNat_of_nonneg hnonneg]
      exact roundHalfAway_kibps kibps.toNat
  · next hzero =>
    have hkibps : kibps = 0 := UInt32.le_zero_iff.mp (UInt32.not_lt.mp hzero)
    rw [hkibps]
    rfl

end Reading

/-- The limit after its shown text is submitted again in the given unit. -/
def resubmit (parseF64 : Text → Option ℚ) (kibps : UInt32) (unit : SpeedUnit) : Option UInt32 :=
  parseLimitInput parseF64 (limitText kibps unit) unit

/-- A limit that is submitted again as it is shown stays the same, through any changes of the
unit. -/
theorem limit_resubmitted (kibps : UInt32) (units : List SpeedUnit) :
    (∀ unit, parseLimitInput parseDecimal (limitText kibps unit) unit = some kibps) ∧
      units.foldlM (resubmit parseDecimal) kibps = some kibps := by
  have hsame (unit : SpeedUnit) : resubmit parseDecimal kibps unit = some kibps :=
    parseLimitInput_limitText (fun _ => parseDecimal_of_numeral) kibps unit
  refine ⟨hsame, ?_⟩
  induction units with
  | nil => rfl
  | cons unit units ih =>
    rw [List.foldlM_cons, hsame]
    exact ih

end FlowBrake.Core
