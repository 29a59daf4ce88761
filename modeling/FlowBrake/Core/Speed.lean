import FlowBrake.Core.Input
import Mathlib.Data.Int.Log

/-! Measured rates as they are shown. -/
namespace FlowBrake.Core
open Text

/-- The nearest whole number; halves go to the even one. -/
def roundHalfEven (x : ℚ) : ℤ :=
  if Int.fract x = 1 / 2 then ⌊x⌋ + ⌊x⌋ % 2 else round x

/-- What an `f64` keeps of a number: its first 53 binary digits, rounded. -/
def roundF64 (x : ℚ) : ℚ :=
  let ulp : ℚ := 2 ^ (Int.log 2 x - 52)
  roundHalfEven (x / ulp) * ulp

theorem roundHalfEven_natCast (m : ℕ) : roundHalfEven m = m := by
  rw [roundHalfEven, Int.fract_natCast, if_neg (by norm_num), round_natCast]

/-- A number of 53 binary digits stays as it is. -/
theorem roundF64_of_digits {m : ℕ} (hlow : 2 ^ 52 ≤ m) (hhigh : m < 2 ^ 53) (e : ℤ) :
    roundF64 (m * 2 ^ e) = m * 2 ^ e := by
  have hpow : (0 : ℚ) < 2 ^ e := zpow_pos (by norm_num) e
  have hpos : (0 : ℚ) < m * 2 ^ e := by
    have : (0 : ℚ) < m := by exact_mod_cast (show 0 < 2 ^ 52 by norm_num).trans_le hlow
    exact mul_pos this hpow
  have hlog : Int.log 2 ((m : ℚ) * 2 ^ e) = 52 + e := by
    apply le_antisymm
    · rw [← Int.lt_add_one_iff, ← Int.lt_zpow_iff_log_lt (by norm_num) hpos, Nat.cast_ofNat,
        add_right_comm, zpow_add₀ (by norm_num)]
      exact mul_lt_mul_of_pos_right (by exact_mod_cast hhigh) hpow
    · rw [← Int.zpow_le_iff_le_log (by norm_num) hpos, Nat.cast_ofNat, zpow_add₀ (by norm_num)]
      exact mul_le_mul_of_nonneg_right (by exact_mod_cast hlow) hpow.le
  unfold roundF64
  dsimp only
  rw [hlog, add_sub_cancel_left, mul_div_cancel_right₀ _ hpow.ne', roundHalfEven_natCast]
  rfl

/-- `{x:.places}` of a rate, which is not negative. -/
def formatFixed (places : ℕ) (x : ℚ) : Text :=
  let scaled := (roundHalfEven (x * 10 ^ places)).toNat
  let whole := Nat.toDigits 10 (scaled / 10 ^ places)
  if places = 0 then whole
  else whole ++ '.' :: (Nat.toDigits 10 (scaled % 10 ^ places)).leftpad places '0'

def formatSpeedBytes (bytesPerSec : ℚ) : Text :=
  if bytesPerSec < 1 then "0 B/s".toList
  else if bytesPerSec < 1024 then formatFixed 0 bytesPerSec ++ " B/s".toList
  else
    let kb := roundF64 (bytesPerSec / 1024)
    if kb < 1024 then formatFixed 1 kb ++ " KB/s".toList
    else formatFixed 2 (roundF64 (kb / 1024)) ++ " MB/s".toList

def formatSpeedBits (bitsPerSec : ℚ) : Text :=
  if bitsPerSec < 1 then "0 b/s".toList
  else if bitsPerSec < 1000 then formatFixed 0 bitsPerSec ++ " b/s".toList
  else
    let kb := roundF64 (bitsPerSec / 1000)
    if kb < 1000 then formatFixed 1 kb ++ " Kb/s".toList
    else formatFixed 2 (roundF64 (kb / 1000)) ++ " Mb/s".toList

/-- A rate is held as an `f64`. -/
def formatSpeed (bytesPerSec : ℚ) (unit : SpeedUnit) : Text :=
  let bytesPerSec := roundF64 bytesPerSec
  match unit with
  | .bytes => formatSpeedBytes bytesPerSec
  | .bits => formatSpeedBits (roundF64 (bytesPerSec * 8))

/-- As an `f64`, 1150 / 1000 is less than 1.15. -/
example : formatSpeed (575 / 4) .bits = "1.1 Kb/s".toList := by decide +kernel

end FlowBrake.Core
