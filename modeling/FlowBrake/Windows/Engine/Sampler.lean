import FlowBrake.Lib.Word
import FlowBrake.Windows.Engine.State

/-! How often the loss sampler drops over a whole period. -/
namespace FlowBrake.Windows

namespace LossSampler

/-- How many of `n` consecutive calls drop. -/
def drops (sampler : LossSampler) (basisPoints : UInt16) : ℕ → ℕ
  | 0 => 0
  | n + 1 =>
    (if (sampler.shouldDrop basisPoints).1 then 1 else 0) +
      (sampler.shouldDrop basisPoints).2.drops basisPoints n

/-- The output function of SplitMix64. -/
def mix (v : BitVec 64) : BitVec 64 :=
  let v := (v ^^^ (v >>> 30)) * 0xbf58476d1ce4e5b9
  let v := (v ^^^ (v >>> 27)) * 0x94d049bb133111eb
  v ^^^ (v >>> 31)

/-- The increment of SplitMix64's state. -/
def gamma : BitVec 64 := 0x9e3779b97f4a7c15

theorem mix_injective : Function.Injective mix := by
  intro v v' h
  have hfirst := Word.xor_ushiftRight_injective (by decide) h
  have hsecond := Word.xor_ushiftRight_injective (by decide)
    (Word.mul_odd_injective (c := 0x94d049bb133111eb) (by decide) hfirst)
  exact Word.xor_ushiftRight_injective (by decide)
    (Word.mul_odd_injective (c := 0xbf58476d1ce4e5b9) (by decide) hsecond)

/-- A call steps the state, and drops if what the new state maps to is below the threshold. -/
theorem shouldDrop_eq (sampler : LossSampler) {basisPoints : UInt16} (hpos : 0 < basisPoints)
    (hlt : basisPoints < 10000) :
    ((sampler.shouldDrop basisPoints).1 ↔
      (mix (sampler.state.toBitVec + gamma)).toNat * 10000 < basisPoints.toNat * 2 ^ 64) ∧
      (sampler.shouldDrop basisPoints).2.state.toBitVec = sampler.state.toBitVec + gamma := by
  have hne : basisPoints ≠ 0 := UInt16.pos_iff_ne_zero.mp hpos
  have hnot : ¬ basisPoints ≥ 10000 := UInt16.not_le.mpr hlt
  simp only [shouldDrop, if_neg hne, if_neg hnot, decide_eq_true_eq]
  exact ⟨Iff.rfl, rfl⟩

theorem drops_eq_count (sampler : LossSampler) {basisPoints : UInt16} (hpos : 0 < basisPoints)
    (hlt : basisPoints < 10000) (n : ℕ) :
    sampler.drops basisPoints n = Nat.count (fun i =>
      (mix (sampler.state.toBitVec + gamma + BitVec.ofNat 64 i * gamma)).toNat * 10000 <
        basisPoints.toNat * 2 ^ 64) n := by
  induction n generalizing sampler with
  | zero => rfl
  | succ n ih =>
    obtain ⟨hdrop, hstate⟩ := shouldDrop_eq sampler hpos hlt
    have hstep (i : ℕ) : sampler.state.toBitVec + gamma + gamma + BitVec.ofNat 64 i * gamma =
        sampler.state.toBitVec + gamma + BitVec.ofNat 64 (i + 1) * gamma := by
      have hone : BitVec.ofNat 64 1 = 1 := rfl
      rw [BitVec.ofNat_add, hone]
      ring
    have hfirst : sampler.state.toBitVec + gamma + BitVec.ofNat 64 0 * gamma =
        sampler.state.toBitVec + gamma := by
      have hzero : BitVec.ofNat 64 0 = 0 := rfl
      rw [hzero]
      ring
    simp only [drops, ih, hstate, hdrop, Nat.count_succ', hstep, hfirst]
    exact Nat.add_comm _ _

/-- Over a period the states are all the words, and so is what they are mapped to. -/
theorem drops_two_pow (sampler : LossSampler) {basisPoints : UInt16} (hpos : 0 < basisPoints)
    (hlt : basisPoints < 10000) :
    sampler.drops basisPoints (2 ^ 64) = ⌈(basisPoints.toNat * 2 ^ 64 / 10000 : ℚ)⌉₊ := by
  have hle : basisPoints.toNat * 2 ^ 64 ≤ 2 ^ 64 * 10000 := by
    have : basisPoints.toNat < 10000 := UInt16.lt_iff_toNat_lt.mp hlt
    omega
  have hinj : Set.InjOn (fun i => (mix (sampler.state.toBitVec + gamma +
      BitVec.ofNat 64 i * gamma)).toNat) {i | i < 2 ^ 64} := by
    intro i hi j hj h
    exact Word.add_mul_odd_injOn (by decide) _ hi hj (mix_injective (BitVec.eq_of_toNat_eq h))
  rw [drops_eq_count sampler hpos hlt,
    Word.count_comp (fun i _ => BitVec.isLt _) hinj (· * 10000 < basisPoints.toNat * 2 ^ 64),
    Word.count_mul_lt (by norm_num) hle]
  norm_num

/-- A higher rate drops whatever a lower one does. -/
theorem shouldDrop_mono (sampler : LossSampler) {basisPoints basisPoints' : UInt16}
    (h : basisPoints ≤ basisPoints') (hdrop : (sampler.shouldDrop basisPoints).1) :
    (sampler.shouldDrop basisPoints').1 := by
  by_cases hzero : basisPoints = 0
  · simp [shouldDrop, hzero] at hdrop
  have hpos : 0 < basisPoints := UInt16.pos_iff_ne_zero.mpr hzero
  by_cases hall : basisPoints' ≥ 10000
  · have hne : basisPoints' ≠ 0 := UInt16.pos_iff_ne_zero.mp (UInt16.lt_of_lt_of_le hpos h)
    simp only [shouldDrop, if_neg hne, if_pos hall]
  · have hlt : basisPoints' < 10000 := UInt16.not_le.mp hall
    have hle : basisPoints.toNat ≤ basisPoints'.toNat := UInt16.le_iff_toNat_le.mp h
    have hbelow := (shouldDrop_eq sampler hpos (UInt16.lt_of_le_of_lt h hlt)).1.mp hdrop
    refine (shouldDrop_eq sampler (UInt16.lt_of_lt_of_le hpos h) hlt).1.mpr (hbelow.trans_le ?_)
    exact Nat.mul_le_mul_right _ hle

/-- The state steps through all words and the output function permutes them, so that of 2⁶⁴ calls
in a row exactly the fraction asked for drops; a higher rate drops whatever a lower one does. -/
theorem calibrated (sampler : LossSampler) {basisPoints : UInt16} (hpos : 0 < basisPoints)
    (hlt : basisPoints < 10000) :
    Function.Bijective (fun state => ((⟨state⟩ : LossSampler).shouldDrop basisPoints).2.state) ∧
      Function.Bijective mix ∧
      sampler.drops basisPoints (2 ^ 64) = ⌈(basisPoints.toNat * 2 ^ 64 / 10000 : ℚ)⌉₊ ∧
      ∀ basisPoints', basisPoints < basisPoints' → (sampler.shouldDrop basisPoints).1 →
        (sampler.shouldDrop basisPoints').1 := by
  refine ⟨⟨fun state state' h => ?_, fun state => ?_⟩, ?_, drops_two_pow sampler hpos hlt,
    fun basisPoints' h => shouldDrop_mono sampler (UInt16.le_of_lt h)⟩
  · have hstep := (shouldDrop_eq ⟨state⟩ hpos hlt).2
    have hstep' := (shouldDrop_eq ⟨state'⟩ hpos hlt).2
    have hbits : state.toBitVec + gamma = state'.toBitVec + gamma := by
      rw [← hstep, ← hstep']
      exact congrArg UInt64.toBitVec h
    exact UInt64.toBitVec_inj.mp (add_right_cancel hbits)
  · refine ⟨⟨state.toBitVec - gamma⟩, UInt64.toBitVec_inj.mp ?_⟩
    rw [(shouldDrop_eq _ hpos hlt).2]
    exact sub_add_cancel _ _
  · have : Finite (BitVec 64) := .of_equiv _ BitVec.equivFin.symm.toEquiv
    exact Finite.injective_iff_bijective.mp mix_injective

/-- A rate of a half drops half of a period. -/
theorem calibrated_half : (⟨0⟩ : LossSampler).drops 5000 (2 ^ 64) = 2 ^ 63 := by
  refine (calibrated ⟨0⟩ (by decide : (0 : UInt16) < 5000) (by decide)).2.2.1.trans ?_
  have hrate : ((5000 : UInt16).toNat * 2 ^ 64 / 10000 : ℚ) = (2 ^ 63 : ℕ) := by
    have hnat : (5000 : UInt16).toNat = 5000 := rfl
    rw [hnat]
    norm_num
  rw [hrate, Nat.ceil_natCast]

end LossSampler

end FlowBrake.Windows
