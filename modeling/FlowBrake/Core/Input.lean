import Mathlib.Algebra.Order.Floor.Defs
import Mathlib.Data.Rat.Floor
import FlowBrake.Core.Rule
import FlowBrake.Lib.Text

/-! What the user may type for a delay, a loss rate or a speed limit. -/
namespace FlowBrake.Core
open Text

def delayError : Text := "Enter an integer from 0 to 5000 milliseconds".toList

def parseDelayMs (text : Text) : Except Text (Option UInt32) :=
  let text := trim text
  if text.isEmpty then .ok none
  else if !text.all Char.isDigit then .error delayError
  else
    match parseUnsigned (2 ^ 32) text with
    | none => .error delayError
    | some value =>
      if UInt32.ofNat value > maxDelayMs then .error delayError
      else .ok (some (UInt32.ofNat value))

def lossError : Text :=
  "Enter a percentage from 0 to 100 with at most two decimal places".toList

def parseLossPercent (text : Text) : Except Text (Option UInt16) :=
  let text := trim text
  if text.isEmpty then .ok none
  else
    let (whole, fraction) := (splitOnce '.' text).getD (text, [])
    if whole.isEmpty || !whole.all Char.isDigit || fraction.length > 2
        || !fraction.all Char.isDigit || text.contains '.' && fraction.isEmpty then
      .error lossError
    else
      match parseUnsigned (2 ^ 16) whole, parseUnsigned (2 ^ 16) fraction with
      | none, _ => .error lossError
      | some whole, fractionValue =>
        let fraction := match fraction.length with
          | 0 => some 0
          | 1 => fractionValue.map (· * 10)
          | _ => fractionValue
        match fraction with
        | none => .error lossError
        | some fraction =>
          if whole > 100 || whole = 100 && fraction > 0 then .error lossError
          else .ok (some (UInt16.ofNat (whole * 100 + fraction)))

inductive SpeedUnit
  | bits
  | bytes
  deriving DecidableEq

namespace SpeedUnit

def fromBitsMode (bitsMode : Bool) : SpeedUnit := if bitsMode then bits else bytes

end SpeedUnit

/-- `f64::round`: halves go away from zero. -/
def roundHalfAway (x : ℚ) : ℤ := if 0 ≤ x then ⌊x + 1 / 2⌋ else ⌈x - 1 / 2⌉

/-- `parseF64` reads the finite numbers of `f64`, as exact rationals. -/
def parseLimitInput (parseF64 : Text → Option ℚ) (text : Text) (unit : SpeedUnit) :
    Option UInt32 :=
  let text := trim text
  if text.isEmpty then some 0
  else
    match unit with
    | .bytes => (parseUnsigned (2 ^ 32) text).map UInt32.ofNat
    | .bits =>
      match parseF64 text with
      | none => none
      | some kbps =>
        let kibps := roundHalfAway (kbps * 1000 / 8 / 1024)
        if 0 ≤ kibps ∧ kibps < 2 ^ 32 then some (UInt32.ofNat kibps.toNat) else none

/-- A saved delay is read back. -/
theorem parseDelayMs_toDigits {value : UInt32} (h : value ≤ maxDelayMs) :
    parseDelayMs (Nat.toDigits 10 value.toNat) = .ok (some value) := by
  have hne : (Nat.toDigits 10 value.toNat).isEmpty = false := by simp [Nat.toDigits_ne_nil]
  have hall : (Nat.toDigits 10 value.toNat).all Char.isDigit = true :=
    List.all_eq_true.mpr fun c hc => isDigit_of_mem_toDigits hc
  simp only [parseDelayMs, trimmed_toDigits.eq, hne, hall,
    parseUnsigned_toDigits (UInt32.toNat_lt value)]
  simp [UInt32.ofNat_toNat, UInt32.not_lt.mpr h]

/-- A delay that is read is within the bound. -/
theorem le_of_parseDelayMs {text : Text} {value : UInt32}
    (h : parseDelayMs text = .ok (some value)) : value ≤ maxDelayMs := by
  unfold parseDelayMs at h
  dsimp only at h
  split at h
  · cases h
  · split at h
    · cases h
    · split at h
      · cases h
      · split at h
        · cases h
        · next hle =>
          cases h
          exact UInt32.not_lt.mp hle

end FlowBrake.Core
