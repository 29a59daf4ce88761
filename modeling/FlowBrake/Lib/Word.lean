import Mathlib.Data.BitVec
import Mathlib.Data.Nat.Count
import Mathlib.Data.Nat.ModEq
import Mathlib.Data.Nat.Prime.Basic
import Mathlib.Algebra.Order.Floor.Semiring
import Mathlib.Data.Rat.Floor

/-! Fixed-width words: maps that permute them, and how often a sequence that visits each of them
once is below a threshold. -/
namespace Word

section Permutations
variable {w : ℕ}

/-- A word is recovered from its xor with a shift of itself, highest bit first. -/
theorem xor_ushiftRight_injective {k : ℕ} (hk : 0 < k) :
    Function.Injective fun v : BitVec w => v ^^^ (v >>> k) := by
  intro v v' h
  have hbit : ∀ m i, w ≤ i + m → v.getLsbD i = v'.getLsbD i := by
    intro m
    induction m with
    | zero =>
      intro i hi
      rw [BitVec.getLsbD_of_ge v i hi, BitVec.getLsbD_of_ge v' i hi]
    | succ m ih =>
      intro i hi
      have hxor := congrArg (fun v : BitVec w => v.getLsbD i) h
      simp only [BitVec.getLsbD_xor, BitVec.getLsbD_ushiftRight] at hxor
      rw [ih (k + i) (by omega)] at hxor
      exact Bool.xor_left_inj.mp hxor
  exact BitVec.eq_of_getLsbD_eq fun i _ => hbit w i (by omega)

theorem mul_odd_injective {c : BitVec w} (hc : Odd c.toNat) :
    Function.Injective fun v : BitVec w => v * c := by
  intro v v' h
  have hmod : v.toNat * c.toNat ≡ v'.toNat * c.toNat [MOD 2 ^ w] := by
    have hnat := congrArg BitVec.toNat h
    simp only [BitVec.toNat_mul] at hnat
    exact hnat
  have hcoprime : Nat.gcd (2 ^ w) c.toNat = 1 := hc.coprime_two_left.pow_left w
  have heq := Nat.ModEq.cancel_right_of_coprime hcoprime hmod
  exact BitVec.eq_of_toNat_eq (heq.eq_of_lt_of_lt v.isLt v'.isLt)

/-- Steps by an odd word have full period. -/
theorem add_mul_odd_injOn {c : BitVec w} (hc : Odd c.toNat) (v : BitVec w) :
    Set.InjOn (fun i => v + BitVec.ofNat w i * c) {i | i < 2 ^ w} := by
  intro i hi j hj h
  have hmul : BitVec.ofNat w i = BitVec.ofNat w j := mul_odd_injective hc (add_left_cancel h)
  have hnat := congrArg BitVec.toNat hmul
  rwa [BitVec.toNat_ofNat, BitVec.toNat_ofNat, Nat.mod_eq_of_lt hi, Nat.mod_eq_of_lt hj] at hnat

end Permutations

section Counts

/-- A rearrangement of the first numbers leaves as many of them with a property. -/
theorem count_comp {n : ℕ} {g : ℕ → ℕ} (hmaps : ∀ i < n, g i < n) (hg : Set.InjOn g {i | i < n})
    (p : ℕ → Prop) [DecidablePred p] : Nat.count (fun i => p (g i)) n = Nat.count p n := by
  have himage : (Finset.range n).image g = Finset.range n := by
    refine Finset.eq_of_subset_of_card_le ?_ ?_
    · intro k hk
      obtain ⟨i, hi, rfl⟩ := Finset.mem_image.mp hk
      exact Finset.mem_range.mpr (hmaps i (Finset.mem_range.mp hi))
    · rw [Finset.card_image_of_injOn fun i hi j hj h =>
        hg (Finset.mem_range.mp hi) (Finset.mem_range.mp hj) h]
  have hcard : (((Finset.range n).filter fun i => p (g i)).image g).card =
      ((Finset.range n).filter fun i => p (g i)).card := by
    refine Finset.card_image_of_injOn fun i hi j hj h => hg ?_ ?_ h
    · exact Finset.mem_range.mp (Finset.mem_filter.mp hi).1
    · exact Finset.mem_range.mp (Finset.mem_filter.mp hj).1
  have hfilter :
      ((Finset.range n).filter fun i => p (g i)).image g = (Finset.range n).filter p := by
    rw [← Finset.filter_image, himage]
  rw [Nat.count_eq_card_filter_range, Nat.count_eq_card_filter_range, ← hcard, hfilter]

theorem count_lt {m n : ℕ} (h : m ≤ n) : Nat.count (· < m) n = m := by
  rw [Nat.count_eq_card_filter_range]
  have : (Finset.range n).filter (· < m) = Finset.range m := by
    ext i
    simp only [Finset.mem_filter, Finset.mem_range]
    omega
  rw [this, Finset.card_range]

/-- As many numbers as the quotient, rounded up, stay below a threshold when scaled. -/
theorem count_mul_lt {n scale threshold : ℕ} (hscale : 0 < scale) (h : threshold ≤ n * scale) :
    Nat.count (fun i => i * scale < threshold) n = ⌈(threshold / scale : ℚ)⌉₊ := by
  have hpos : (0 : ℚ) < scale := by exact_mod_cast hscale
  have hceil : ⌈(threshold / scale : ℚ)⌉₊ ≤ n := by
    rw [Nat.ceil_le, div_le_iff₀ hpos]
    exact_mod_cast h
  rw [← count_lt hceil]
  congr 1
  funext i
  rw [Nat.lt_ceil, lt_div_iff₀ hpos]
  exact_mod_cast rfl

end Counts

end Word
