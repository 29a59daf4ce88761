import Mathlib.Tactic.NormNum
import Mathlib.Tactic.FieldSimp
import FlowBrake.Core.Rate
import FlowBrake.Lib.Growth

/-! What the controller of adaptive mode comes to, measurement after measurement. -/
namespace FlowBrake.Core

/-- The rate after the controller has seen the measurements, in order. -/
def settle (target rate : ℚ) (measured : List ℚ) : ℚ :=
  measured.foldl (fun rate measuredAvg => computeAdaptiveRate rate measuredAvg target) rate

/-- From a twentieth of the target to the target. -/
structure InBand (target rate : ℚ) : Prop where
  floor : target * (5 / 100) ≤ rate
  ceiling : rate ≤ target

/-- The measurement is of some traffic, and not near the target. -/
structure Corrects (target measuredAvg : ℚ) : Prop where
  traffic : 100 ≤ measuredAvg
  off : measuredAvg < target * (98 / 100) ∨ target * (102 / 100) < measuredAvg

section Step
variable {currentRate measuredAvg target : ℚ}

theorem inBand_target (ht : 0 < target) : InBand target target := ⟨by linarith, le_refl target⟩

theorem inBand_clamp (ht : 0 < target) (rate : ℚ) :
    InBand target (min (max rate (target * (5 / 100))) target) :=
  ⟨le_min (le_max_right _ _) (inBand_target ht).floor, min_le_right _ _⟩

theorem ratio_lt_iff (ht : 0 < target) (bound : ℚ) :
    measuredAvg / target < bound ↔ measuredAvg < target * bound := by
  rw [div_lt_iff₀ ht, mul_comm]

theorem lt_ratio_iff (ht : 0 < target) (bound : ℚ) :
    bound < measuredAvg / target ↔ target * bound < measuredAvg := by
  rw [lt_div_iff₀ ht, mul_comm]

/-- A correction keeps the band, wherever the rate was. -/
theorem inBand_of_corrects (ht : 0 < target) (h : Corrects target measuredAvg) :
    InBand target (computeAdaptiveRate currentRate measuredAvg target) := by
  unfold computeAdaptiveRate
  dsimp only
  rw [if_neg (not_le.mpr ht), if_neg (not_lt.mpr h.traffic)]
  split
  · exact inBand_clamp ht _
  · next hnotAbove =>
    rw [gt_iff_lt, lt_ratio_iff ht] at hnotAbove
    split
    · exact inBand_clamp ht _
    · have hbelow : measuredAvg / target < 98 / 100 :=
        (ratio_lt_iff ht _).mpr (h.off.resolve_right hnotAbove)
      rw [if_pos hbelow]
      exact inBand_clamp ht _

/-- No measurement leads out of the band. -/
theorem InBand.computeAdaptiveRate (ht : 0 < target) (h : InBand target currentRate)
    (measuredAvg : ℚ) : InBand target (computeAdaptiveRate currentRate measuredAvg target) := by
  have hpos : 0 < currentRate := by
    have hfloor := h.floor
    linarith
  unfold Core.computeAdaptiveRate
  dsimp only
  rw [if_neg (not_le.mpr ht), if_neg (not_le.mpr hpos)]
  split_ifs
  · exact h
  · exact inBand_clamp ht _
  · exact inBand_clamp ht _
  · exact inBand_clamp ht _
  · exact h

/-- Traffic below the target raises the rate by a twentieth of it, up to the target. -/
theorem computeAdaptiveRate_grows (hpos : 0 < currentRate) (ht : 0 < target)
    (htraffic : 100 ≤ measuredAvg) (hbelow : measuredAvg < target * (98 / 100)) :
    min (105 / 100 * currentRate) target ≤ computeAdaptiveRate currentRate measuredAvg target := by
  have hnotAbove : ¬ measuredAvg / target > 102 / 100 := by
    rw [gt_iff_lt, lt_ratio_iff ht]
    linarith
  unfold computeAdaptiveRate
  dsimp only
  rw [if_neg (not_le.mpr ht), if_neg (not_lt.mpr htraffic), if_neg (not_le.mpr hpos),
    if_neg hnotAbove]
  split
  · refine min_le_min_right _ (le_trans ?_ (le_max_left _ _))
    linarith
  · rw [if_pos ((ratio_lt_iff ht _).mpr hbelow)]
    refine min_le_min_right _ (le_trans ?_ (le_max_left _ _))
    linarith

/-- Traffic above `excess` times the target lowers the rate by a factor, down to the floor. -/
theorem computeAdaptiveRate_shrinks {excess : ℚ} (hpos : 0 < currentRate) (ht : 0 < target)
    (htraffic : 100 ≤ measuredAvg) (hexcess : 102 / 100 < excess)
    (habove : target * excess ≤ measuredAvg) :
    computeAdaptiveRate currentRate measuredAvg target ≤
      max ((3 / 10 + 7 / 10 / excess) * currentRate) (target * (5 / 100)) := by
  have hmeasured : 0 < measuredAvg := by linarith
  have hcorrection : target / measuredAvg ≤ 1 / excess := by
    rw [div_le_div_iff₀ hmeasured (by linarith)]
    linarith
  have hratio : measuredAvg / target > 102 / 100 := by
    rw [gt_iff_lt, lt_ratio_iff ht]
    exact (mul_lt_mul_of_pos_left hexcess ht).trans_le habove
  unfold computeAdaptiveRate
  dsimp only
  rw [if_neg (not_le.mpr ht), if_neg (not_lt.mpr htraffic), if_neg (not_le.mpr hpos), if_pos hratio]
  refine (min_le_left _ _).trans (max_le_max_right _ ?_)
  rw [mul_comm]
  refine mul_le_mul_of_nonneg_right ?_ hpos.le
  have hfactor : 7 / 10 / excess = 7 / 10 * (1 / excess) := by ring
  rw [hfactor]
  linarith

end Step

section Settle
variable {target rate : ℚ} {measured : List ℚ}

theorem InBand.settle (ht : 0 < target) (h : InBand target rate) (measured : List ℚ) :
    InBand target (settle target rate measured) :=
  List.foldlRecOn _ _ h fun _ hrate _ _ => hrate.computeAdaptiveRate ht _

/-- Once it has corrected the rate, the controller keeps it in the band. -/
theorem inBand_settle (ht : 0 < target)
    (h : ∃ measuredAvg ∈ measured, Corrects target measuredAvg) :
    InBand target (settle target rate measured) := by
  obtain ⟨measuredAvg, hmem, hcorrects⟩ := h
  obtain ⟨before, after, rfl⟩ := List.append_of_mem hmem
  rw [Core.settle, List.foldl_append, List.foldl_cons]
  exact (inBand_of_corrects ht hcorrects).settle ht after

/-- After `n + 1` measurements of some traffic below the target, the rate is the floor's growth
over `n` of them, up to the target. -/
theorem settle_grows (ht : 0 < target)
    (h : ∀ measuredAvg ∈ measured, 100 ≤ measuredAvg ∧ measuredAvg < target * (98 / 100))
    {n : ℕ} (hlength : measured.length = n + 1) :
    min ((105 / 100) ^ n * (target * (5 / 100))) target ≤ settle target rate measured ∧
      settle target rate measured ≤ target := by
  obtain ⟨first, rest, rfl⟩ := List.exists_cons_of_length_eq_add_one hlength
  obtain ⟨⟨hfirst, hbelow⟩, hrest⟩ := List.forall_mem_cons.mp h
  have hband : InBand target (computeAdaptiveRate rate first target) :=
    inBand_of_corrects ht ⟨hfirst, .inl hbelow⟩
  have hfloor : 0 < target * (5 / 100) := by linarith
  have hgrows : ∀ rate, target * (5 / 100) ≤ rate → rate ≤ target → ∀ measuredAvg ∈ rest,
      (target * (5 / 100) ≤ computeAdaptiveRate rate measuredAvg target ∧
        computeAdaptiveRate rate measuredAvg target ≤ target) ∧
      min (105 / 100 * rate) target ≤ computeAdaptiveRate rate measuredAvg target := by
    intro rate hrate hrate' measuredAvg hmem
    have hstep := InBand.computeAdaptiveRate ht ⟨hrate, hrate'⟩ measuredAvg
    obtain ⟨htraffic, hbelow⟩ := hrest measuredAvg hmem
    exact ⟨⟨hstep.floor, hstep.ceiling⟩,
      computeAdaptiveRate_grows (hfloor.trans_le hrate) ht htraffic hbelow⟩
  have hgrown := Growth.le_foldl_of_grows (by norm_num) hfloor hgrows hband.floor hband.ceiling
  rw [Nat.add_right_cancel hlength] at hgrown
  refine ⟨le_trans ?_ hgrown.1, hgrown.2⟩
  have hpow : (0 : ℚ) ≤ (105 / 100) ^ n := by positivity
  exact min_le_min_right _ (mul_le_mul_of_nonneg_left hband.floor hpow)

/-- After 63 measurements of some traffic below the target, the rate is the target again. -/
theorem settle_eq_target (ht : 0 < target)
    (h : ∀ measuredAvg ∈ measured, 100 ≤ measuredAvg ∧ measuredAvg < target * (98 / 100))
    (hlength : 63 ≤ measured.length) : settle target rate measured = target := by
  obtain ⟨hlow, hhigh⟩ := @settle_grows target rate measured ht h _
    (Nat.sub_add_cancel (one_le_two.trans (le_trans (by norm_num) hlength))).symm
  have hpow : (20 : ℚ) ≤ (105 / 100) ^ (measured.length - 1) :=
    calc (20 : ℚ) ≤ (105 / 100) ^ 62 := by norm_num
      _ ≤ (105 / 100) ^ (measured.length - 1) :=
        pow_le_pow_right₀ (by norm_num) (Nat.le_sub_one_of_lt hlength)
  refine le_antisymm hhigh (le_trans (le_min ?_ (le_refl target)) hlow)
  have hgrown := mul_le_mul_of_nonneg_right hpow (by linarith : 0 ≤ target * (5 / 100))
  linarith

/-- After `n + 1` measurements of `excess` times the target or more, the rate is what the target
shrinks to over `n` of them, down to the floor. -/
theorem settle_shrinks {excess : ℚ} (ht : 0 < target) (hexcess : 102 / 100 < excess)
    (h : ∀ measuredAvg ∈ measured, 100 ≤ measuredAvg ∧ target * excess ≤ measuredAvg)
    {n : ℕ} (hlength : measured.length = n + 1) :
    target * (5 / 100) ≤ settle target rate measured ∧ settle target rate measured ≤
      max ((3 / 10 + 7 / 10 / excess) ^ n * target) (target * (5 / 100)) := by
  obtain ⟨first, rest, rfl⟩ := List.exists_cons_of_length_eq_add_one hlength
  obtain ⟨⟨hfirst, habove⟩, hrest⟩ := List.forall_mem_cons.mp h
  have hcorrects : Corrects target first :=
    ⟨hfirst, .inr ((mul_lt_mul_of_pos_left hexcess ht).trans_le habove)⟩
  have hband : InBand target (computeAdaptiveRate rate first target) :=
    inBand_of_corrects ht hcorrects
  have hfloor : 0 < target * (5 / 100) := by linarith
  have hpos : 0 < excess := by linarith
  have hquotient : 7 / 10 / excess ≤ 7 / 10 := by
    rw [div_le_iff₀ hpos]
    linarith
  have hnonneg : 0 ≤ 3 / 10 + 7 / 10 / excess := by positivity
  have hshrinks : ∀ rate, target * (5 / 100) ≤ rate → rate ≤ target → ∀ measuredAvg ∈ rest,
      (target * (5 / 100) ≤ computeAdaptiveRate rate measuredAvg target ∧
        computeAdaptiveRate rate measuredAvg target ≤ target) ∧
      computeAdaptiveRate rate measuredAvg target ≤
        max ((3 / 10 + 7 / 10 / excess) * rate) (target * (5 / 100)) := by
    intro rate hrate hrate' measuredAvg hmem
    have hstep := InBand.computeAdaptiveRate ht ⟨hrate, hrate'⟩ measuredAvg
    obtain ⟨htraffic, habove⟩ := hrest measuredAvg hmem
    exact ⟨⟨hstep.floor, hstep.ceiling⟩,
      computeAdaptiveRate_shrinks (hfloor.trans_le hrate) ht htraffic hexcess habove⟩
  have hshrunk := Growth.foldl_le_of_shrinks hnonneg (by linarith) hfloor.le hshrinks hband.floor
    hband.ceiling
  rw [Nat.add_right_cancel hlength] at hshrunk
  refine ⟨hshrunk.1, hshrunk.2.trans (max_le_max_right _ ?_)⟩
  exact mul_le_mul_of_nonneg_left hband.ceiling (pow_nonneg hnonneg n)

/-- After eight measurements of twice the target or more, the rate is at the floor. -/
theorem settle_eq_floor (ht : 0 < target)
    (h : ∀ measuredAvg ∈ measured, 100 ≤ measuredAvg ∧ target * 2 ≤ measuredAvg)
    (hlength : 8 ≤ measured.length) : settle target rate measured = target * (5 / 100) := by
  obtain ⟨hlow, hhigh⟩ := @settle_shrinks target rate measured 2 ht (by norm_num) h _
    (Nat.sub_add_cancel (le_trans (by norm_num) hlength)).symm
  have hpow : ((3 / 10 + 7 / 10 / 2 : ℚ)) ^ (measured.length - 1) ≤ 5 / 100 :=
    calc ((3 / 10 + 7 / 10 / 2 : ℚ)) ^ (measured.length - 1) ≤ (3 / 10 + 7 / 10 / 2) ^ 7 :=
        pow_le_pow_of_le_one (by norm_num) (by norm_num) (Nat.le_sub_one_of_lt hlength)
      _ ≤ 5 / 100 := by norm_num
  refine le_antisymm (hhigh.trans (max_le ?_ (le_refl _))) hlow
  rw [mul_comm target]
  exact mul_le_mul_of_nonneg_right hpow ht.le

end Settle

end FlowBrake.Core
