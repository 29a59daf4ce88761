import Mathlib.Algebra.Order.Ring.Rat
import Mathlib.Tactic.Linarith
import FlowBrake.Windows.Engine.State

/-! What a token bucket admits over a window of accesses. -/
namespace FlowBrake.Windows
open FlowBrake.Core

/-- An access to a bucket, at a rate that may differ from the one before. -/
structure Access where
  now : Instant
  rate : ℚ
  packetLen : ℕ
  rate_nonneg : 0 ≤ rate

namespace BucketSlot

/-- The level of a bucket is between nothing and two seconds' worth of its rate. -/
structure Level (slot : BucketSlot) : Prop where
  nonneg : 0 ≤ slot.1.tokens
  le : slot.1.tokens ≤ 2 * slot.1.rateBps

/-- Whether the packet is admitted, and the bucket after the access. -/
def access (slot : BucketSlot) (a : Access) : Bool × BucketSlot :=
  let (exceeded, slot) := consumeExistingBucket a.now slot a.rate a.packetLen
  (!exceeded, slot)

/-- The seconds since the last access. -/
def elapsed (slot : BucketSlot) (a : Access) : ℚ := ((a.now - slot.2 : ℕ) : ℚ) / 10 ^ 9

/-- The bytes that an access admits. -/
def admits (slot : BucketSlot) (a : Access) : ℕ := if (slot.access a).1 then a.packetLen else 0

def run (slot : BucketSlot) : List Access → BucketSlot
  | [] => slot
  | a :: as => run (slot.access a).2 as

/-- The bytes that a run of accesses admits. -/
def admitted (slot : BucketSlot) : List Access → ℕ
  | [] => 0
  | a :: as => slot.admits a + admitted (slot.access a).2 as

/-- The tokens that accrue at the accesses' own rates. -/
def accrued (slot : BucketSlot) : List Access → ℚ
  | [] => 0
  | a :: as => a.rate * slot.elapsed a + accrued (slot.access a).2 as

theorem level_new (rate : ℚ) (now : Instant) : Level (.new rate, now) := by
  constructor
  · exact le_max_right _ _
  · simp only [TokenBucket.new]
    rcases le_total rate 0 with h | h
    · rw [max_eq_right (by linarith), max_eq_right h, mul_zero]
    · rw [max_eq_left (by linarith), max_eq_left h, mul_comm]

theorem elapsed_nonneg (slot : BucketSlot) (a : Access) : 0 ≤ slot.elapsed a :=
  div_nonneg (Nat.cast_nonneg _) (by positivity)

/-- What is left after an access, and what it admits, was there before or accrued since, and fits
into the bucket. -/
theorem access_spec {slot : BucketSlot} (h : 0 ≤ slot.1.tokens) (a : Access) :
    (slot.access a).2.2 = a.now ∧ (slot.access a).2.1.rateBps = a.rate ∧
      0 ≤ (slot.access a).2.1.tokens ∧
      (slot.access a).2.1.tokens + slot.admits a ≤ slot.1.tokens + a.rate * slot.elapsed a ∧
      (slot.access a).2.1.tokens + slot.admits a ≤ 2 * a.rate := by
  have haccrued : 0 ≤ a.rate * slot.elapsed a := mul_nonneg a.rate_nonneg (slot.elapsed_nonneg a)
  have hrate : max a.rate 0 = a.rate := max_eq_left a.rate_nonneg
  obtain ⟨filled, hfilled⟩ : ∃ filled, min ((if slot.1.tokens > a.rate * 2 then a.rate * 2
    else slot.1.tokens) + a.rate * slot.elapsed a) (a.rate * 2) = filled := ⟨_, rfl⟩
  have hnonneg : 0 ≤ filled := by
    rw [← hfilled]
    refine le_min (add_nonneg ?_ haccrued) (by linarith [a.rate_nonneg])
    split
    · linarith [a.rate_nonneg]
    · exact h
  have hle : filled ≤ slot.1.tokens + a.rate * slot.elapsed a := by
    rw [← hfilled]
    refine (min_le_left _ _).trans ?_
    split <;> linarith
  have hcap : filled ≤ 2 * a.rate := by
    rw [← hfilled, mul_comm 2]
    exact min_le_right _ _
  unfold elapsed at hfilled
  simp only [admits, access, consumeExistingBucket, TokenBucket.setRate, TokenBucket.tryConsume,
    TokenBucket.refill, hrate, hfilled]
  by_cases hfits : filled ≥ a.packetLen
  · simp only [if_pos hfits, Bool.not_true, Bool.not_false, if_true, sub_add_cancel]
    exact ⟨trivial, trivial, by linarith, hle, hcap⟩
  · simp only [if_neg hfits, Bool.not_true, Bool.not_false, Bool.false_eq_true, if_false,
      Nat.cast_zero, add_zero]
    exact ⟨trivial, trivial, hnonneg, hle, hcap⟩

theorem Level.access {slot : BucketSlot} (h : slot.Level) (a : Access) :
    (slot.access a).2.Level := by
  obtain ⟨-, hrate, hnonneg, -, hcap⟩ := access_spec h.nonneg a
  refine ⟨hnonneg, ?_⟩
  rw [hrate]
  linarith [(slot.admits a).cast_nonneg (α := ℚ)]

theorem Level.run {slot : BucketSlot} (h : slot.Level) (as : List Access) :
    (slot.run as).Level := by
  induction as generalizing slot with
  | nil => exact h
  | cons a as ih => exact ih (h.access a)

/-- A run admits no more than what it finds and what accrues. -/
theorem admitted_le {slot : BucketSlot} (h : slot.Level) (as : List Access) :
    (slot.run as).1.tokens + slot.admitted as ≤ slot.1.tokens + slot.accrued as := by
  induction as generalizing slot with
  | nil => simp [BucketSlot.run, admitted, accrued]
  | cons a as ih =>
    have hrest := ih (h.access a)
    have haccess := (access_spec h.nonneg a).2.2.2.1
    simp only [BucketSlot.run, admitted, accrued, Nat.cast_add]
    linarith

/-- The level of a bucket stays in its bounds, and the accesses from one on admit at most its burst
and what accrues at the later ones. -/
theorem token_bucket_conforms (initialRate : ℚ) (start : Instant) (before : List Access)
    (first : Access) (later : List Access) :
    (run (.new initialRate, start) before).Level ∧
      (admitted (run (.new initialRate, start) before) (first :: later) : ℚ) ≤
        2 * first.rate +
          accrued ((run (.new initialRate, start) before).access first).2 later := by
  have hlevel := (level_new initialRate start).run before
  have hfirst := hlevel.access first
  have hburst := (access_spec hlevel.nonneg first).2.2.2.2
  have hlater := admitted_le hfirst later
  have hend := (hfirst.run later).nonneg
  refine ⟨hlevel, ?_⟩
  simp only [admitted, Nat.cast_add]
  linarith

end BucketSlot

end FlowBrake.Windows
