import Mathlib.Data.List.DropRight
import FlowBrake.Core.Rate

/-! What a rolling average shows of the samples that it was given. -/
namespace FlowBrake.Core

/-- The mean of some samples; nothing was measured without any. -/
def mean (samples : List ℚ) : ℚ := samples.sum / samples.length

namespace RollingAverage
variable {average : RollingAverage} {samples : List ℚ} {sample : ℚ}

/-- The samples are those that were given, as far as the window reaches back. -/
def Shows (average : RollingAverage) (samples : List ℚ) : Prop :=
  average.samples = samples.rtake average.window

theorem shows_new (window : ℕ) : (new window).Shows [] := by
  rw [Shows, List.rtake_nil]
  rfl

theorem window_push : (average.push sample).window = average.window := rfl

theorem Shows.push (h : average.Shows samples) (hsample : 0 ≤ sample) :
    (average.push sample).Shows (samples ++ [sample]) := by
  have hnonneg : max sample 0 = sample := max_eq_left hsample
  rw [Shows, List.rtake] at h
  rw [Shows, window_push, List.rtake]
  simp only [RollingAverage.push, hnonneg, h, List.length_append, List.length_singleton,
    List.length_drop]
  by_cases hwindow : average.window = 0
  · simp [hwindow]
  · rw [← List.drop_append_of_le_length (Nat.sub_le _ _), List.drop_drop]
    congr 1
    omega

theorem Shows.average_eq (h : average.Shows samples) :
    average.average = mean (samples.rtake average.window) := by
  rw [RollingAverage.average, h]
  split
  · next hnil =>
    rw [List.isEmpty_iff.mp hnil]
    simp [mean]
  · rfl

end RollingAverage

end FlowBrake.Core
