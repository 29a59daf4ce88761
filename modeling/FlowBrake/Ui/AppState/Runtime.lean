import FlowBrake.Ui.AppState.Agreement

/-! The normalised rules that the engine is given, against the rules that the user sets. -/
namespace FlowBrake.Ui
open FlowBrake.Core FlowBrake.Windows Text

/-- A rule without a draft limit, an adapted rate or an adaptive flag that has no effect. -/
structure Normal (rule : ProcessRule) : Prop where
  download : ¬ rule.limitDownload → rule.downloadKbps = 0 ∧ rule.adjustedDlBps = 0
  upload : ¬ rule.limitUpload → rule.uploadKbps = 0 ∧ rule.adjustedUlBps = 0
  adaptive : (∀ direction, rule.targetBps direction = none) →
    rule.adaptive = false ∧ rule.adjustedDlBps = 0 ∧ rule.adjustedUlBps = 0

namespace Normal

theorem no_target_iff {rule : ProcessRule} :
    ((rule.targetBps .download).isNone && (rule.targetBps .upload).isNone) = true ↔
      ∀ direction, rule.targetBps direction = none := by
  rw [Bool.and_eq_true, Option.isNone_iff_eq_none, Option.isNone_iff_eq_none]
  constructor
  · rintro ⟨hdownload, hupload⟩ direction
    cases direction
    · exact hdownload
    · exact hupload
  · exact fun h => ⟨h .download, h .upload⟩

/-- Normalisation leaves a normal rule. -/
theorem runtimeRule (rule : ProcessRule) : Normal (runtimeRule rule) := by
  have hlast : ∃ limited : ProcessRule, Ui.runtimeRule rule =
      if (limited.targetBps .download).isNone && (limited.targetBps .upload).isNone then
        { limited with adaptive := false, adjustedDlBps := 0, adjustedUlBps := 0 }
      else limited :=
    ⟨_, rfl⟩
  constructor
  · obtain ⟨_, limitDownload, _, limitUpload, _⟩ := rule
    cases limitDownload <;> cases limitUpload <;> simp [Ui.runtimeRule] <;> split <;> simp
  · obtain ⟨_, limitDownload, _, limitUpload, _⟩ := rule
    cases limitDownload <;> cases limitUpload <;> simp [Ui.runtimeRule] <;> split <;> simp
  · obtain ⟨limited, hlimited⟩ := hlast
    rw [hlimited]
    split
    · exact fun _ => ⟨rfl, rfl, rfl⟩
    · next htarget => exact fun h => absurd (no_target_iff.mpr h) htarget

/-- A normal rule is left as it is. -/
theorem runtimeRule_eq {rule : ProcessRule} (h : Normal rule) : Ui.runtimeRule rule = rule := by
  have hdownload : (if rule.limitDownload then rule
      else { rule with downloadKbps := 0, adjustedDlBps := 0 }) = rule := by
    split
    · rfl
    · next hlimit =>
      obtain ⟨hkbps, hadjusted⟩ := h.download hlimit
      rw [← hkbps, ← hadjusted]
  have hupload : (if rule.limitUpload then rule
      else { rule with uploadKbps := 0, adjustedUlBps := 0 }) = rule := by
    split
    · rfl
    · next hlimit =>
      obtain ⟨hkbps, hadjusted⟩ := h.upload hlimit
      rw [← hkbps, ← hadjusted]
  rw [Ui.runtimeRule, hdownload, hupload]
  split
  · next htarget =>
    obtain ⟨hadaptive, hdl, hul⟩ := h.adaptive (no_target_iff.mp htarget)
    obtain ⟨⟩ := rule
    simp_all
  · rfl

end Normal

/-- The rule neither blocks, loses, delays nor slows a packet. -/
structure NoEffect (rule : ProcessRule) : Prop where
  blockAll : rule.blockAll = false
  lossBasisPoints : ∀ direction, rule.lossBasisPoints direction = none
  delayMs : ∀ direction, rule.delayMs direction = none
  effectiveBps : ∀ direction, rule.effectiveBps direction = none

theorem noEffect_iff (rule : ProcessRule) : NoEffect rule ↔ PacketEquivalent rule default := by
  have hdefault : NoEffect default :=
    ⟨rfl, fun direction => by cases direction <;> rfl, fun direction => by cases direction <;> rfl,
      fun direction => by cases direction <;> rfl⟩
  constructor
  · intro h
    refine ⟨h.blockAll, fun direction => ?_, fun direction => ?_, fun direction => ?_⟩
    · exact (h.lossBasisPoints direction).trans (hdefault.lossBasisPoints direction).symm
    · exact (h.delayMs direction).trans (hdefault.delayMs direction).symm
    · exact (h.effectiveBps direction).trans (hdefault.effectiveBps direction).symm
  · intro h
    refine ⟨h.blockAll, fun direction => ?_, fun direction => ?_, fun direction => ?_⟩
    · exact (h.lossBasisPoints direction).trans (hdefault.lossBasisPoints direction)
    · exact (h.delayMs direction).trans (hdefault.delayMs direction)
    · exact (h.effectiveBps direction).trans (hdefault.effectiveBps direction)

/-- A rule that the engine does not keep has no effect. -/
theorem noEffect_of_not_hasAnyRule {rule : ProcessRule}
    (h : (runtimeRule rule).hasAnyRule = false) : NoEffect rule := by
  have hactive := PacketEquivalent.runtimeRule_active rule
  rw [ProcessRule.active_of_not_hasAnyRule (by simp [h])] at hactive
  exact (noEffect_iff rule).mpr hactive.symm

/-- The engines decide every packet of a PID, and of the machine, in the same way. -/
structure SameDecisions (engine engine' : EngineView) : Prop where
  globalBlocks : ∀ isLoopback, engine.policy.globalBlocksPacket isLoopback =
    engine'.policy.globalBlocksPacket isLoopback
  processBlocks : ∀ pid isLoopback, engine.policy.processBlocksPacket pid isLoopback =
    engine'.policy.processBlocksPacket pid isLoopback
  delayMs : ∀ pid direction isLoopback,
    engine.policy.effectiveDelayMs pid direction isLoopback =
      engine'.policy.effectiveDelayMs pid direction isLoopback
  processLoss : ∀ pid direction,
    engine.policy.processLoss pid direction = engine'.policy.processLoss pid direction
  globalLoss : ∀ direction, engine.policy.globalLoss direction = engine'.policy.globalLoss direction
  processRate : ∀ pid : UInt32, ∀ direction,
    engine.policy.rules[pid]?.bind (·.effectiveBps direction) =
      engine'.policy.rules[pid]?.bind (·.effectiveBps direction)
  globalRate : ∀ direction, engine.policy.globalRule.effectiveBps direction =
    engine'.policy.globalRule.effectiveBps direction

section Decisions
variable {engine engine' : EngineView}

/-- What a PID's rule decides is what the default rule decides where there is none. -/
theorem bind_rule_eq {α : Type} (f : ProcessRule → Option α) (hf : f default = none)
    (engine : EngineView) (pid : UInt32) :
    engine.policy.rules[pid]?.bind f = f (engine.ruleFor pid) := by
  rw [EngineView.ruleFor]
  cases engine.policy.rules[pid]? with
  | none => exact hf.symm
  | some rule => rfl

theorem sameDecisions_of_equivalent
    (hglobal : PacketEquivalent engine.policy.globalRule engine'.policy.globalRule)
    (hrules : ∀ pid, PacketEquivalent (engine.ruleFor pid) (engine'.ruleFor pid)) :
    SameDecisions engine engine' := by
  have hdelay (pid : Option UInt32) (direction : Direction) :
      engine.policy.processDelayMs pid direction = engine'.policy.processDelayMs pid direction := by
    cases pid with
    | none => rfl
    | some pid =>
      have hdefault : (default : ProcessRule).delayMs direction = none := by
        cases direction <;> rfl
      change engine.policy.rules[pid]?.bind (·.delayMs direction) =
        engine'.policy.rules[pid]?.bind (·.delayMs direction)
      rw [bind_rule_eq _ hdefault, bind_rule_eq _ hdefault]
      exact (hrules pid).delayMs direction
  constructor
  · intro isLoopback
    rw [Policy.globalBlocksPacket, Policy.globalBlocksPacket, hglobal.blockAll]
  · intro pid isLoopback
    cases pid with
    | none => rfl
    | some pid =>
      have hblock := (hrules pid).blockAll
      unfold EngineView.ruleFor at hblock
      have hany (rule : Option ProcessRule) :
          rule.any (·.blockAll) = (rule.getD default).blockAll := by
        cases rule <;> rfl
      simp only [Policy.processBlocksPacket, Option.any_some, hany, hblock]
  · intro pid direction isLoopback
    simp only [Policy.effectiveDelayMs, Policy.globalDelayMs, hdelay, hglobal.delayMs]
  · intro pid direction
    cases pid with
    | none => rfl
    | some pid =>
      have hdefault : (default : ProcessRule).lossBasisPoints direction = none := by
        cases direction <;> rfl
      change engine.policy.rules[pid]?.bind (·.lossBasisPoints direction) =
        engine'.policy.rules[pid]?.bind (·.lossBasisPoints direction)
      rw [bind_rule_eq _ hdefault, bind_rule_eq _ hdefault]
      exact (hrules pid).lossBasisPoints direction
  · intro direction
    rw [Policy.globalLoss, Policy.globalLoss, hglobal.lossBasisPoints]
  · intro pid direction
    have hdefault : (default : ProcessRule).effectiveBps direction = none := by
      cases direction <;> rfl
    rw [bind_rule_eq _ hdefault, bind_rule_eq _ hdefault]
    exact (hrules pid).effectiveBps direction
  · exact hglobal.effectiveBps

/-- The engine without its entry for a PID. -/
def EngineView.remove (engine : EngineView) (pid : UInt32) : EngineView :=
  { engine with policy := { engine.policy with rules := engine.policy.rules.erase pid } }

theorem EngineView.ruleFor_remove (engine : EngineView) (pid pid' : UInt32) :
    (engine.remove pid).ruleFor pid' = if pid' = pid then default else engine.ruleFor pid' := by
  simp only [ruleFor, remove, Std.ExtTreeMap.getElem?_erase]
  by_cases hpid : pid' = pid
  · simp [hpid]
  · simp [hpid, Ne.symm hpid]

/-- Two pushes of rules that treat packets alike come to the same. -/
theorem sameDecisions_updateRule (engine : EngineView) (pid : UInt32) {rule rule' : ProcessRule}
    (h : PacketEquivalent rule rule') : SameDecisions (engine.apply (.updateRule pid rule))
      (engine.apply (.updateRule pid rule')) := by
  refine sameDecisions_of_equivalent (PacketEquivalent.refl _) fun pid' => ?_
  rw [EngineView.ruleFor_updateRule, EngineView.ruleFor_updateRule]
  split
  · exact (PacketEquivalent.active rule).trans (h.trans (PacketEquivalent.active rule').symm)
  · exact PacketEquivalent.refl _

/-- To push a rule without an effect is to remove the entry. -/
theorem sameDecisions_remove (engine : EngineView) (pid : UInt32) {rule : ProcessRule}
    (h : NoEffect rule) :
    SameDecisions (engine.apply (.updateRule pid rule)) (engine.remove pid) := by
  refine sameDecisions_of_equivalent (PacketEquivalent.refl _) fun pid' => ?_
  rw [EngineView.ruleFor_updateRule, EngineView.ruleFor_remove]
  split
  · exact (PacketEquivalent.active rule).trans ((noEffect_iff rule).mp h)
  · exact PacketEquivalent.refl _

end Decisions

/-- Packets do not see whether a rule was normalised, and the engine drops only normalised rules
without an effect. -/
theorem runtimeRule_invisible (rule : ProcessRule) :
    PacketEquivalent (runtimeRule rule) rule ∧
      runtimeRule (runtimeRule rule) = runtimeRule rule ∧
      (∀ (engine : EngineView) (pid : UInt32),
        SameDecisions (engine.apply (.updateRule pid rule))
          (engine.apply (.updateRule pid (runtimeRule rule)))) ∧
      (∀ engine : EngineView, SameDecisions (engine.apply (.setGlobalRule rule))
        (engine.apply (.setGlobalRule (runtimeRule rule)))) ∧
      ((runtimeRule rule).hasAnyRule = false →
        NoEffect rule ∧ ∀ (engine : EngineView) (pid : UInt32),
          SameDecisions (engine.apply (.updateRule pid rule)) (engine.remove pid)) := by
  have hequivalent := PacketEquivalent.runtimeRule rule
  refine ⟨hequivalent, (Normal.runtimeRule rule).runtimeRule_eq, fun engine pid => ?_,
    fun engine => ?_, fun h => ⟨noEffect_of_not_hasAnyRule h, fun engine pid => ?_⟩⟩
  · exact sameDecisions_updateRule engine pid hequivalent.symm
  · exact sameDecisions_of_equivalent hequivalent.symm fun _ => PacketEquivalent.refl _
  · exact sameDecisions_remove engine pid (noEffect_of_not_hasAnyRule h)

end FlowBrake.Ui
