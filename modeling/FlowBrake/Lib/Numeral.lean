import Mathlib.Data.Rat.Defs
import Mathlib.Algebra.Order.Field.Rat
import Mathlib.Tactic.FieldSimp
import Mathlib.Tactic.Positivity
import Mathlib.Tactic.Ring
import FlowBrake.Lib.Text

/-! Decimal numerals: what digits stand for, and how Rust's `str` reads numbers written with
them. -/
namespace Text

/-- One or more ASCII digits. -/
structure Numeral (t : Text) : Prop where
  ne_nil : t ≠ []
  isDigit : ∀ c ∈ t, c.isDigit = true

theorem numeral_iff {t : Text} : Numeral t ↔ t.isEmpty = false ∧ t.all Char.isDigit = true := by
  rw [List.isEmpty_eq_false_iff, List.all_eq_true]
  exact ⟨fun h => ⟨h.ne_nil, h.isDigit⟩, fun h => ⟨h.1, h.2⟩⟩

instance (t : Text) : Decidable (Numeral t) := decidable_of_iff _ numeral_iff.symm

/-- The number that the digits stand for. -/
def value (digits : Text) : ℕ := Nat.ofDigitChars 10 digits 0

/-- The number with the given digits before and behind the point. -/
def decimal (whole fraction : Text) : ℚ := value whole + value fraction / 10 ^ fraction.length

section Numeral
variable {t : Text}

@[simp] theorem value_nil : value [] = 0 := rfl

@[simp] theorem value_toDigits (n : ℕ) : value (Nat.toDigits 10 n) = n :=
  Nat.ofDigitChars_ten_toDigits

theorem numeral_toDigits (n : ℕ) : Numeral (Nat.toDigits 10 n) :=
  ⟨Nat.toDigits_ne_nil, fun _ => isDigit_of_mem_toDigits⟩

theorem value_append (s t : Text) : value (s ++ t) = value s * 10 ^ t.length + value t := by
  rw [value, Nat.ofDigitChars_append, Nat.ofDigitChars_eq_ofDigitChars_zero, mul_comm]
  rfl

/-- A number has no more digits than its numeral. -/
theorem value_lt (h : ∀ c ∈ t, c.isDigit = true) : value t < 10 ^ t.length := by
  induction t with
  | nil => simp
  | cons c t ih =>
    have hc : 48 ≤ c.toNat ∧ c.toNat ≤ 57 := Char.isDigit_iff_toNat.mp (h c List.mem_cons_self)
    have hrest := ih fun d hd => h d (List.mem_cons_of_mem c hd)
    have hcons : value (c :: t) = (c.toNat - 48) * 10 ^ t.length + value t := by
      rw [← List.singleton_append, value_append]
      simp [value, Nat.ofDigitChars_cons]
    have hdigit : c.toNat - 48 + 1 ≤ 10 := by omega
    have hbound := Nat.mul_le_mul_right (10 ^ t.length) hdigit
    rw [hcons, List.length_cons, pow_succ]
    rw [Nat.add_mul] at hbound
    omega

theorem Numeral.all (h : Numeral t) : t.all Char.isDigit = true :=
  List.all_eq_true.mpr h.isDigit

theorem Numeral.not_mem (h : Numeral t) {c : Char} (hc : c.isDigit = false) : c ∉ t := by
  intro hmem
  rw [h.isDigit c hmem] at hc
  cases hc

theorem Numeral.parseUnsigned (h : Numeral t) (limit : ℕ) :
    parseUnsigned limit t = if value t < limit then some (value t) else none := by
  have hplus : t.head? ≠ some '+' := fun hp =>
    h.not_mem (by decide) (List.mem_of_mem_head? hp)
  obtain ⟨hempty, hall⟩ := numeral_iff.mp h
  simp only [Text.parseUnsigned, if_neg hplus, hempty, hall, Bool.not_true, Bool.or_false,
    Bool.false_eq_true, if_false]
  rfl

/-- A text without white space is trimmed. -/
theorem trimmed_of_forall (h : ∀ c ∈ t, isWhitespace c = false) : Trimmed t := by
  refine trimmed_iff.mpr ⟨trimStart_eq_self.mpr fun c hc => ?_, trimEnd_eq_self.mpr fun c hc => ?_⟩
  · exact h c (List.mem_of_mem_head? hc)
  · exact h c (List.mem_of_mem_getLast? hc)

/-- Up to `places` digits behind the point make a whole number of units of the last place. -/
theorem decimal_eq_div_iff {whole fraction : Text} {places n : ℕ}
    (h : fraction.length ≤ places) : decimal whole fraction = n / 10 ^ places ↔
      value whole * 10 ^ places + value fraction * 10 ^ (places - fraction.length) = n := by
  obtain ⟨k, rfl⟩ := Nat.exists_eq_add_of_le h
  have hscaled : decimal whole fraction * 10 ^ (fraction.length + k) =
      ((value whole * 10 ^ (fraction.length + k) + value fraction * 10 ^ k : ℕ) : ℚ) := by
    rw [decimal, pow_add]
    push_cast
    rw [pow_add]
    field_simp
  rw [Nat.add_sub_cancel_left, eq_div_iff (by positivity), hscaled, Nat.cast_inj]

end Numeral

/-- A signed whole number. -/
def parseExponent : Text → Option ℤ
  | '-' :: t => if t.isEmpty || !t.all Char.isDigit then none else some (-value t)
  | '+' :: t => if t.isEmpty || !t.all Char.isDigit then none else some (value t)
  | t => if t.isEmpty || !t.all Char.isDigit then none else some (value t)

/-- Digits with at most one point among, before or behind them. -/
def parseMantissa (t : Text) : Option ℚ :=
  let (whole, fraction) := (splitOnce '.' t).getD (t, [])
  if (whole ++ fraction).isEmpty || !(whole ++ fraction).all Char.isDigit then none
  else some (decimal whole fraction)

def parseMagnitude (t : Text) : Option ℚ := do
  let mantissa ← parseMantissa (t.takeWhile fun c => c ≠ 'e' && c ≠ 'E')
  match t.dropWhile fun c => c ≠ 'e' && c ≠ 'E' with
  | [] => some mantissa
  | _ :: exponent => return mantissa * 10 ^ (← parseExponent exponent)

/-- `FromStr` of `f64` on the texts of finite numbers, without rounding. -/
def parseDecimal : Text → Option ℚ
  | '-' :: t => (parseMagnitude t).map Neg.neg
  | '+' :: t => parseMagnitude t
  | t => parseMagnitude t

theorem parseMantissa_of_numeral {t : Text} (h : Numeral t) : parseMantissa t = some (value t) := by
  obtain ⟨hempty, hall⟩ := numeral_iff.mp h
  have hsplit : splitOnce '.' t = none := splitOnce_eq_none (h.not_mem (by decide))
  simp only [parseMantissa, hsplit, Option.getD_none, List.append_nil, hempty, hall]
  simp [decimal]

theorem parseMagnitude_of_numeral {t : Text} (h : Numeral t) :
    parseMagnitude t = some (value t) := by
  have hmark : ∀ c ∈ t, (c ≠ 'e' && c ≠ 'E') = true := by
    intro c hc
    have hne (d : Char) (hd : d.isDigit = false) : c ≠ d := fun heq => h.not_mem hd (heq ▸ hc)
    simp [hne 'e' (by decide), hne 'E' (by decide)]
  rw [parseMagnitude, List.takeWhile_eq_self_iff.mpr hmark, List.dropWhile_eq_nil_iff.mpr hmark,
    parseMantissa_of_numeral h]
  rfl

/-- Digits alone are read as their number. -/
theorem parseDecimal_of_numeral {t : Text} (h : Numeral t) : parseDecimal t = some (value t) := by
  unfold parseDecimal
  split
  · exact absurd List.mem_cons_self (h.not_mem (by decide))
  · exact absurd List.mem_cons_self (h.not_mem (by decide))
  · exact parseMagnitude_of_numeral h

example : parseDecimal "-12.5e-1".toList = some (-5 / 4) := by decide +kernel

end Text
