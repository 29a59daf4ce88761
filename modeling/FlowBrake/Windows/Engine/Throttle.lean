import Mathlib.Tactic.Ring
import FlowBrake.Windows.Engine.Bucket
import FlowBrake.Windows.Packet.Extent

/-! Which packets get through a speed limit in the end. -/
namespace FlowBrake.Windows
open FlowBrake.Core

/-- The rate of a limit, in bytes per second. -/
def limitRate (kibps : UInt32) : ℚ := kibps.toNat * 1024

theorem limitRate_nonneg (kibps : UInt32) : 0 ≤ limitRate kibps :=
  mul_nonneg (Nat.cast_nonneg _) (by norm_num)

namespace BucketSlot

/-- A packet is offered at `now`, under a limit. -/
def offer (kibps : UInt32) (now : Instant) (packetLen : ℕ) : Access where
  now := now
  rate := limitRate kibps
  packetLen := packetLen
  rate_nonneg := limitRate_nonneg kibps

/-- An access admits what the bucket holds after it was clamped and refilled. -/
theorem access_iff (slot : BucketSlot) (a : Access) : (slot.access a).1 = true ↔
    (a.packetLen : ℚ) ≤ min ((if slot.1.tokens > a.rate * 2 then a.rate * 2 else slot.1.tokens) +
      a.rate * slot.elapsed a) (a.rate * 2) := by
  have hrate : max a.rate 0 = a.rate := max_eq_left a.rate_nonneg
  obtain ⟨filled, hfilled⟩ : ∃ filled, min ((if slot.1.tokens > a.rate * 2 then a.rate * 2
    else slot.1.tokens) + a.rate * slot.elapsed a) (a.rate * 2) = filled := ⟨_, rfl⟩
  rw [hfilled]
  unfold elapsed at hfilled
  simp only [access, consumeExistingBucket, TokenBucket.setRate, TokenBucket.tryConsume,
    TokenBucket.refill, hrate, hfilled]
  by_cases hfits : filled ≥ a.packetLen
  · simpa only [if_pos hfits, Bool.not_true, Bool.not_false, true_iff] using hfits
  · simpa only [if_neg hfits, Bool.not_true, Bool.not_false, Bool.false_eq_true, false_iff]
      using hfits

/-- More than the burst is never admitted. -/
theorem not_access_of_lt {slot : BucketSlot} {a : Access} (h : a.rate * 2 < a.packetLen) :
    (slot.access a).1 = false := by
  rw [← Bool.not_eq_true, access_iff, not_le]
  exact (min_le_right _ _).trans_lt h

/-- After two seconds the bucket is full. -/
theorem access_of_le {slot : BucketSlot} (hslot : 0 ≤ slot.1.tokens) {a : Access}
    (hwait : 2 ≤ slot.elapsed a) (h : a.packetLen ≤ a.rate * 2) : (slot.access a).1 = true := by
  have hrefill : a.rate * 2 ≤ a.rate * slot.elapsed a :=
    mul_le_mul_of_nonneg_left hwait a.rate_nonneg
  have hclamped : 0 ≤ if slot.1.tokens > a.rate * 2 then a.rate * 2 else slot.1.tokens := by
    split
    · linarith [a.rate_nonneg]
    · exact hslot
  rw [access_iff, le_min_iff]
  exact ⟨by linarith, h⟩

theorem elapsed_offer (slot : BucketSlot) (kibps : UInt32) (wait packetLen : ℕ) :
    slot.elapsed (offer kibps (slot.2 + wait) packetLen) = wait / 10 ^ 9 := by
  rw [elapsed, offer, Nat.add_sub_cancel_left]

/-- From every state of the bucket, a packet of no more than the limit's burst of two seconds is
admitted after two idle seconds, a longer one at no time; no packet that is parsed is longer than
the burst at 32 KiB/s or more. -/
theorem admitted_iff_burst (kibps : UInt32) (initialRate : ℚ) (start : Instant)
    (before : List Access) (packetLen : ℕ) :
    (packetLen ≤ 2 * 1024 * kibps.toNat → ∀ wait, 2 * 10 ^ 9 ≤ wait →
      ((run (.new initialRate, start) before).access
        (offer kibps ((run (.new initialRate, start) before).2 + wait) packetLen)).1 = true) ∧
    (2 * 1024 * kibps.toNat < packetLen → ∀ now,
      ((run (.new initialRate, start) before).access (offer kibps now packetLen)).1 = false) ∧
    (32 ≤ kibps → ∀ packet isIpv6 parsed, IpPacket.parse packet isIpv6 = .ok (some parsed) →
      parsed.payloadLen ≤ 2 * 1024 * kibps.toNat) := by
  have hburst : limitRate kibps * 2 = ((2 * 1024 * kibps.toNat : ℕ) : ℚ) := by
    rw [limitRate]
    push_cast
    ring
  refine ⟨fun hfits wait hwait => ?_, fun hlong now => ?_, fun hkibps packet isIpv6 parsed h => ?_⟩
  · refine access_of_le ((level_new initialRate start).run before).nonneg ?_ ?_
    · rw [elapsed_offer, le_div_iff₀ (by norm_num)]
      exact_mod_cast hwait
    · change (packetLen : ℚ) ≤ limitRate kibps * 2
      rw [hburst]
      exact_mod_cast hfits
  · apply not_access_of_lt
    change limitRate kibps * 2 < (packetLen : ℚ)
    rw [hburst]
    exact_mod_cast hlong
  · have hlt := payloadLen_lt h
    have hle : 32 ≤ kibps.toNat := UInt32.le_iff_toNat_le.mp hkibps
    omega

/-- A UDP packet with a payload of 2049 bytes. -/
def longPacket : List UInt8 :=
  [0x45, 0, 8, 29, 0, 0, 0, 0, 64, 17, 0, 0, 10, 0, 0, 1, 10, 0, 0, 2]
    ++ [0, 80, 0, 53, 8, 9, 0, 0] ++ List.replicate 2049 0

theorem parse_longPacket :
    ∃ parsed, IpPacket.parse longPacket false = .ok (some parsed) ∧ parsed.payloadLen = 2049 := by
  refine ⟨⟨.v4 0x0a000001, .v4 0x0a000002, .udp, 80, 53, 2077, 2049⟩, ?_, rfl⟩
  decide +kernel

/-- At 1 KiB/s it gets through at no time. -/
theorem longPacket_blackholed :
    ¬ ∀ (kibps : UInt32) (start : Instant) (before : List Access) (packet : List UInt8)
      (isIpv6 : Bool) (parsed : IpPacket), 1 ≤ kibps →
      (∀ a ∈ before, a.rate = limitRate kibps) →
      IpPacket.parse packet isIpv6 = .ok (some parsed) →
      ∃ idle, ((run (.new (limitRate kibps), start) before).access
        (offer kibps ((run (.new (limitRate kibps), start) before).2 + idle)
          parsed.payloadLen)).1 = true := by
  intro h
  obtain ⟨parsed, hparse, hlength⟩ := parse_longPacket
  obtain ⟨idle, hadmitted⟩ := h 1 0 [] longPacket false parsed (by decide) (by simp) hparse
  rw [not_access_of_lt] at hadmitted
  · cases hadmitted
  · change limitRate 1 * 2 < (parsed.payloadLen : ℚ)
    rw [hlength, limitRate, show (1 : UInt32).toNat = 1 from rfl]
    norm_num

end BucketSlot

end FlowBrake.Windows
