import FlowBrake.Core.Rule

/-! Measured rates, and the rate that adaptive mode holds a process to. -/
namespace FlowBrake.Core

/-- The mean of the last `window` samples. -/
structure RollingAverage where
  window : ℕ
  samples : List ℚ := []

namespace RollingAverage

def new (window : ℕ) : RollingAverage where
  window := max window 1

def push (average : RollingAverage) (sample : ℚ) : RollingAverage :=
  let samples := average.samples ++ [max sample 0]
  { average with samples := samples.drop (samples.length - average.window) }

def average (average : RollingAverage) : ℚ :=
  if average.samples.isEmpty then 0 else average.samples.sum / average.samples.length

end RollingAverage

def computeAdaptiveRate (currentRate measuredAvg target : ℚ) : ℚ :=
  if target ≤ 0 then 0
  else
    let currentRate := if currentRate ≤ 0 then target else currentRate
    if measuredAvg < 100 then currentRate
    else
      let ratio := measuredAvg / target
      let clamp (rate : ℚ) : ℚ := min (max rate (target * (5 / 100))) target
      if ratio > 102 / 100 then
        let correction := target / measuredAvg
        clamp (currentRate * (3 / 10 + 7 / 10 * correction))
      else if ratio < 90 / 100 then clamp (currentRate * (115 / 100))
      else if ratio < 98 / 100 then clamp (currentRate * (105 / 100))
      else currentRate

/-- The controller stays below a target that it is below. -/
theorem computeAdaptiveRate_le {currentRate target : ℚ} (measuredAvg : ℚ)
    (h : currentRate ≤ target) (ht : 0 < target) :
    computeAdaptiveRate currentRate measuredAvg target ≤ target := by
  have hcurrent : (if currentRate ≤ 0 then target else currentRate) ≤ target := by
    split
    · exact le_refl target
    · exact h
  unfold computeAdaptiveRate
  dsimp only
  rw [if_neg (not_le.mpr ht)]
  generalize (if currentRate ≤ 0 then target else currentRate) = current at hcurrent ⊢
  split_ifs
  · exact hcurrent
  · exact min_le_right _ _
  · exact min_le_right _ _
  · exact min_le_right _ _
  · exact hcurrent

end FlowBrake.Core
