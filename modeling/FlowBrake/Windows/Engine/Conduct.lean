import FlowBrake.Windows.Engine.Pipeline

/-! Sets of rules under which the receiver does the same with every packet. -/
namespace FlowBrake.Windows
open FlowBrake.Core

namespace Policy

/-- All that the receiver asks of the rules. -/
structure ActsAs (policy policy' : Policy) : Prop where
  ruleRevision : policy.ruleRevision = policy'.ruleRevision
  globalBlocksPacket : policy.globalBlocksPacket = policy'.globalBlocksPacket
  needsAttribution : policy.needsAttribution = policy'.needsAttribution
  processBlocksPacket : policy.processBlocksPacket = policy'.processBlocksPacket
  effectiveLoss : policy.effectiveLoss = policy'.effectiveLoss
  globalRate : ∀ direction,
    policy.globalRule.effectiveBps direction = policy'.globalRule.effectiveBps direction
  processRate : ∀ (pid : UInt32) (direction : Direction),
    policy.rules[pid]?.bind (·.effectiveBps direction) =
      policy'.rules[pid]?.bind (·.effectiveBps direction)
  effectiveDelayMs : policy.effectiveDelayMs = policy'.effectiveDelayMs

end Policy

namespace Readings
variable (r : Readings) {policy policy' : Policy} (h : policy.ActsAs policy')

include h

theorem delay_of_actsAs : r.delay policy = r.delay policy' := by
  funext a locals
  unfold delay
  rw [h.effectiveDelayMs]

theorem limitProcess_of_actsAs : r.limitProcess policy = r.limitProcess policy' := by
  funext a locals
  have hheld (pid : UInt32) : a.heldTo policy.rules[pid]? = a.heldTo policy'.rules[pid]? := by
    unfold Admission.heldTo
    rw [h.processRate]
  unfold limitProcess
  rw [r.delay_of_actsAs h]
  simp only [hheld]

theorem limitGlobal_of_actsAs : r.limitGlobal policy = r.limitGlobal policy' := by
  funext a locals
  have hheld : a.heldTo (some policy.globalRule) = a.heldTo (some policy'.globalRule) := by
    unfold Admission.heldTo
    exact congrArg (ite _ none) (h.globalRate a.direction)
  unfold limitGlobal
  rw [r.limitProcess_of_actsAs h, hheld]

theorem lose_of_actsAs : r.lose policy = r.lose policy' := by
  funext p pid locals
  unfold lose sample limit
  rw [r.limitGlobal_of_actsAs h, h.effectiveLoss]

theorem blockProcess_of_actsAs : r.blockProcess policy = r.blockProcess policy' := by
  funext p pid locals
  unfold blockProcess
  rw [r.lose_of_actsAs h, h.processBlocksPacket]

theorem resolve_of_actsAs : r.resolve policy = r.resolve policy' := by
  funext p locals
  unfold resolve attribution
  rw [r.blockProcess_of_actsAs h, h.needsAttribution]

theorem blockGlobal_of_actsAs : r.blockGlobal policy = r.blockGlobal policy' := by
  funext c locals
  unfold blockGlobal
  rw [r.resolve_of_actsAs h, h.globalBlocksPacket]

/-- The whole handling of a packet hangs on no more. -/
theorem pipeline_of_actsAs : r.pipeline policy = r.pipeline policy' := by
  funext c locals
  unfold pipeline refreshed
  rw [r.blockGlobal_of_actsAs h, h.ruleRevision]

end Readings

end FlowBrake.Windows
