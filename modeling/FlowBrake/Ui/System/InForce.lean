import FlowBrake.Ui.AppState.Frame
import FlowBrake.Ui.System
import FlowBrake.Windows.Engine.Conduct

/-! What the engine does with packets is what the application's rules say, whatever the threads do
in between. -/
namespace FlowBrake.Ui
open FlowBrake.Core FlowBrake.Windows Text Transition

/-- The events after which the application finds the engine in another state. -/
def Event.controls : Event → Bool
  | start _ | stop | restartEngine _ | engineExit => true
  | _ => false

namespace AppState
variable {lower : Text → Text} {parseF64 : Text → Option ℚ} {st : AppState}

section Commands

theorem engine_applyRuleToRow (kind : RowKind) (rule : ProcessRule) :
    (st.applyRuleToRow lower kind rule).engine = st.engine.apply (rowCommand kind rule) := by
  cases kind <;> rfl

theorem engine_pushAllRules :
    st.pushAllRules.engine = st.ruleCommands.foldl EngineView.apply st.engine := by
  rw [pushAllRules, foldl_send _ fun p : UInt32 × ProcessRule => .updateRule p.1 (runtimeRule p.2),
    ruleCommands, List.foldl_cons, List.foldl_map]
  rfl

theorem engine_adjustGlobal (direction : Direction) (measuredBps : ℚ) :
    (st.adjustGlobal direction measuredBps).engine =
      (st.adjustGlobalCommands direction measuredBps).foldl EngineView.apply st.engine := by
  unfold adjustGlobal adjustGlobalCommands
  cases adjust st.globalRule direction measuredBps <;> rfl

theorem engine_adjustPid (pid : UInt32) (direction : Direction) (measuredBps : ℚ) :
    (st.adjustPid pid direction measuredBps).engine =
      (st.adjustPidCommands pid direction measuredBps).foldl EngineView.apply st.engine := by
  unfold adjustPid adjustPidCommands
  cases st.rules[pid]?.bind (adjust · direction measuredBps) <;> rfl

theorem engine_feedbackPids (pids : List UInt32) :
    (pids.foldl (fun st pid =>
      if st.rules[pid]?.any (·.adaptive) then
        let (dlBps, ulBps) := speedOf st.speeds pid
        (st.adjustPid pid .download dlBps).adjustPid pid .upload ulBps
      else st) st).engine = (st.feedbackPidsCommands pids).foldl EngineView.apply st.engine := by
  induction pids generalizing st with
  | nil => rfl
  | cons pid pids ih =>
    rw [List.foldl_cons, feedbackPidsCommands]
    split
    · rw [ih, List.foldl_append, List.foldl_append, ← engine_adjustPid, ← engine_adjustPid]
    · exact ih

theorem engine_runAdaptiveFeedback :
    st.runAdaptiveFeedback.engine = st.feedbackCommands.foldl EngineView.apply st.engine := by
  unfold runAdaptiveFeedback feedbackCommands
  split
  · rw [List.foldl_append, List.foldl_append, ← engine_adjustGlobal, ← engine_adjustGlobal]
    exact engine_feedbackPids _
  · exact engine_feedbackPids _

/-- An event does to the engine what its commands do. -/
theorem engine_step {e : Event} (he : e.controls = false) : (st.step lower parseF64 e).engine =
    (st.commands lower parseF64 e).foldl EngineView.apply st.engine := by
  cases hp : e.processes with
  | some processes =>
    have hcommands : st.commands lower parseF64 e = st.inheritCommands lower processes := by
      cases e <;> cases hp <;> rfl
    rw [engine_of_processes hp, engine_applyNameRulesFrom, hcommands, inheritCommands]
    split
    · rw [List.foldl_map]
    · rfl
  | none =>
    cases e
    case tick snapshot =>
      simp only [step, tick, commands]
      split
      · exact engine_runAdaptiveFeedback
      · rfl
    case start | stop | restartEngine | engineExit => cases he
    case rebuildRows | refreshTableOnTick => cases hp
    all_goals
      simp only [commands]
      split
      · next row edit hedited =>
        obtain ⟨st', hstep, hkept⟩ := step_of_edited hedited
        rw [hstep, engine_applyRuleToRow, engine_of_kept hkept]
        rfl
      · next hedited => exact engine_of_kept (kept_of_edited_none hedited rfl)

end Commands

section Settings

def config (st : AppState) : EngineConfig where
  policy := st.engine.policy
  ipv6Enabled := st.ipv6Enabled

theorem unmade_applyAll (commands : List EngineCommand) (engine : EngineView)
    (ipv6Enabled : Bool) :
    (unmade (applyAll commands)).foldl Setting.apply ⟨engine.policy, ipv6Enabled⟩ =
      ⟨(commands.foldl EngineView.apply engine).policy, ipv6Enabled⟩ := by
  induction commands generalizing engine with
  | nil => rfl
  | cons command commands ih =>
    have hone : command.settings.foldl Setting.apply ⟨engine.policy, ipv6Enabled⟩ =
        ⟨(engine.apply command).policy, ipv6Enabled⟩ := Setting.foldl_edits _ _
    have hsplit : unmade (applyAll (command :: commands)) =
        command.settings ++ unmade (applyAll commands) := rfl
    rw [hsplit, List.foldl_append, hone, ih]
    rfl

theorem ipv6Enabled_refreshRowSpeeds : st.refreshRowSpeeds.ipv6Enabled = st.ipv6Enabled := by
  unfold refreshRowSpeeds
  split <;> rfl

theorem ipv6Enabled_applyNameRulesFrom (processes : List ProcessInfo) :
    (st.applyNameRulesFrom lower processes).ipv6Enabled = st.ipv6Enabled := by
  unfold applyNameRulesFrom
  dsimp only
  split
  · rw [foldl_send _ fun p : UInt32 × ProcessRule => .updateRule p.1 (runtimeRule p.2)]
  · rfl

theorem ipv6Enabled_step {e : Event} (he : ∀ enabled, e ≠ .setIpv6Enabled enabled) :
    (st.step lower parseF64 e).ipv6Enabled = st.ipv6Enabled := by
  by_cases hedits : e.edits
  · exact congrArg Aside.ipv6Enabled (aside_step hedits)
  cases e with
  | rebuildRows processes =>
    exact ipv6Enabled_refreshRowSpeeds.trans (ipv6Enabled_applyNameRulesFrom processes)
  | refreshTableOnTick processes =>
    simp only [step, refreshTableOnTick]
    split
    · exact ipv6Enabled_refreshRowSpeeds.trans (ipv6Enabled_applyNameRulesFrom processes)
    · exact ipv6Enabled_refreshRowSpeeds.trans (ipv6Enabled_applyNameRulesFrom processes)
  | toggleRowExpanded rowIndex =>
    simp only [step, toggleRowExpanded]
    repeat' split
    all_goals rfl
  | tick snapshot =>
    obtain ⟨_, _, _, heq⟩ := st.exists_tick snapshot
    exact (congrArg AppState.ipv6Enabled heq :)
  | start started =>
    obtain ⟨_, heq⟩ := st.exists_start started
    exact (congrArg AppState.ipv6Enabled heq :)
  | restartEngine started =>
    obtain ⟨_, heq⟩ := st.exists_restartEngine started
    exact (congrArg AppState.ipv6Enabled heq :)
  | setIpv6Enabled enabled => exact absurd rfl (he enabled)
  | selectRow | clearSelection | setLimitEditing | setSpeedUnit | stop | engineExit => rfl
  | _ => exact absurd rfl hedits

/-- A start sets what `push_all_rules` tells. -/
theorem config_start (st : AppState) (started : Bool) : (st.start started).config =
    (unmade (applyAll st.ruleCommands ++ [.start])).foldl Setting.apply st.config := by
  obtain ⟨_, heq⟩ := st.exists_start started
  have hipv6 : (st.start started).ipv6Enabled = st.ipv6Enabled :=
    (congrArg AppState.ipv6Enabled heq :)
  have hpolicy : (st.start started).engine.policy =
      (st.ruleCommands.foldl EngineView.apply st.engine).policy :=
    (congrArg EngineView.policy (@engine_pushAllRules st) :)
  have hstart : unmade [.start] = [] := rfl
  rw [config, hipv6, hpolicy, unmade_append, hstart, List.append_nil]
  exact (unmade_applyAll _ st.engine st.ipv6Enabled).symm

/-- An operation sets in the engine what its calls set. -/
theorem config_operate (operation : Operation) :
    (st.operate lower parseF64 operation).config =
      (unmade (st.calls lower parseF64 operation)).foldl Setting.apply st.config := by
  cases operation with
  | fullExit => rfl
  | event e =>
    have hother (he : e.controls = false) (hipv6 : ∀ enabled, e ≠ .setIpv6Enabled enabled) :
        (st.step lower parseF64 e).config =
          (unmade (applyAll (st.commands lower parseF64 e))).foldl Setting.apply st.config := by
      rw [config, engine_step he, ipv6Enabled_step hipv6]
      exact (unmade_applyAll _ st.engine st.ipv6Enabled).symm
    cases e with
    | start started =>
      have hcalls : unmade (st.calls lower parseF64 (.event (.start started))) =
          .ipv6Enabled st.ipv6Enabled :: unmade (applyAll st.ruleCommands ++ [.start]) := rfl
      rw [hcalls, List.foldl_cons]
      exact config_start st started
    | stop => rfl
    | engineExit => rfl
    | restartEngine started =>
      simp only [operate, step, restartEngine, calls]
      split
      · have hcalls : unmade (.call .stop :: applyAll st.ruleCommands ++ [.start]) =
            unmade (applyAll st.ruleCommands ++ [.start]) := rfl
        rw [hcalls]
        exact config_start { st with engine := { st.engine with running := false } } started
      · rfl
    | setIpv6Enabled enabled =>
      simp only [calls]
      split
      · next heq => exact congrArg (EngineConfig.mk st.engine.policy) heq.symm
      · rfl
    | _ => exact hother rfl (by simp)

end Settings

section Running

theorem running_foldl (commands : List EngineCommand) (engine : EngineView) :
    (commands.foldl EngineView.apply engine).running = engine.running := by
  induction commands generalizing engine with
  | nil => rfl
  | cons command commands ih => exact ih (engine.apply command)

theorem start_notMem_applyAll (commands : List EngineCommand) : .start ∉ applyAll commands := by
  simp [applyAll]

/-- Where an operation does not leave the engine running, it does not start it, and stops it if it
ran. -/
theorem running_operate {operation : Operation} (hbegins : operation.begins) :
    (st.operate lower parseF64 operation).engine.running ∨
      .start ∉ st.calls lower parseF64 operation ∧
        (.call .stop ∈ st.calls lower parseF64 operation ∨
          (st.operate lower parseF64 operation).engine.running = st.engine.running) := by
  cases operation with
  | fullExit => exact .inr ⟨by simp [calls], .inl (by simp [calls])⟩
  | event e =>
    have hother (he : e.controls = false) :
        (st.step lower parseF64 e).engine.running = st.engine.running := by
      rw [engine_step he, running_foldl]
    cases e with
    | start started =>
      obtain rfl : started = true := hbegins
      exact .inl rfl
    | stop => exact .inr ⟨by simp [calls], .inl (by simp [calls])⟩
    | engineExit => cases hbegins
    | tick snapshot => cases hbegins
    | restartEngine started =>
      obtain rfl : started = true := hbegins
      simp only [operate, step, restartEngine, calls]
      split
      · exact .inl rfl
      · exact .inr ⟨List.not_mem_nil, .inr rfl⟩
    | setIpv6Enabled enabled =>
      refine .inr ⟨?_, .inr rfl⟩
      simp only [calls]
      split <;> simp
    | _ => exact .inr ⟨start_notMem_applyAll _, .inr (hother rfl)⟩

end Running

/-- The rules as the engine would hold them. -/
def RuleSet.policy (s : RuleSet) (ruleRevision : ℕ) : Policy where
  rules := s.rules
  globalRule := s.globalRule
  ruleRevision := ruleRevision

section Conduct
variable {engine : EngineView} {s : RuleSet}

theorem any_congr {rules rules' : RuleMap} {pid : UInt32} {p : ProcessRule → Bool}
    (hp : p default = false)
    (h : p (rules[pid]?.getD default) = p (rules'[pid]?.getD default)) :
    rules[pid]?.any p = rules'[pid]?.any p := by
  have hgetD (rules : RuleMap) : rules[pid]?.any p = p (rules[pid]?.getD default) := by
    cases rules[pid]? with
    | none => exact hp.symm
    | some rule => rfl
  rw [hgetD, hgetD, h]

theorem bind_congr {rules rules' : RuleMap} {pid : UInt32} {α : Type}
    {f : ProcessRule → Option α} (hf : f default = none)
    (h : f (rules[pid]?.getD default) = f (rules'[pid]?.getD default)) :
    rules[pid]?.bind f = rules'[pid]?.bind f := by
  have hgetD (rules : RuleMap) : rules[pid]?.bind f = f (rules[pid]?.getD default) := by
    cases rules[pid]? with
    | none => exact hf.symm
    | some rule => rfl
  rw [hgetD, hgetD, h]

/-- Whether some PID's rule has a property that the default rule does not have. -/
theorem any_toList (rules : RuleMap) {p : ProcessRule → Bool} (hp : p default = false) :
    (rules.toList.any fun (_, rule) => p rule) = true ↔
      ∃ pid : UInt32, p (rules[pid]?.getD default) := by
  rw [List.any_eq_true]
  constructor
  · rintro ⟨⟨pid, rule⟩, hmem, hrule⟩
    refine ⟨pid, ?_⟩
    rw [Std.ExtTreeMap.mem_toList_iff_getElem?_eq_some.mp hmem]
    exact hrule
  · rintro ⟨pid, hrule⟩
    cases hget : rules[pid]? with
    | none =>
      rw [hget, Option.getD_none, hp] at hrule
      cases hrule
    | some rule =>
      rw [hget] at hrule
      exact ⟨(pid, rule), Std.ExtTreeMap.mem_toList_iff_getElem?_eq_some.mpr hget, hrule⟩

/-- Whether a rule depends on the process. -/
def needsPid (rule : ProcessRule) : Bool :=
  rule.blockAll
    || rule.downloadLossBasisPoints.isSome
    || rule.uploadLossBasisPoints.isSome
    || rule.downloadDelayMs.isSome
    || rule.uploadDelayMs.isSome

theorem needsPid_congr {rule rule' : ProcessRule} (h : PacketEquivalent rule rule') :
    needsPid rule = needsPid rule' := by
  have hdownloadLoss : rule.downloadLossBasisPoints = rule'.downloadLossBasisPoints :=
    h.lossBasisPoints .download
  have huploadLoss : rule.uploadLossBasisPoints = rule'.uploadLossBasisPoints :=
    h.lossBasisPoints .upload
  have hdownloadDelay : rule.downloadDelayMs = rule'.downloadDelayMs := h.delayMs .download
  have huploadDelay : rule.uploadDelayMs = rule'.uploadDelayMs := h.delayMs .upload
  unfold needsPid
  rw [h.blockAll, hdownloadLoss, huploadLoss, hdownloadDelay, huploadDelay]

theorem Agrees.actsAs (h : Agrees engine s) :
    engine.policy.ActsAs (s.policy engine.policy.ruleRevision) where
  ruleRevision := rfl
  globalBlocksPacket := by
    funext isLoopback
    exact congrArg (!isLoopback && ·) h.globalRule.blockAll
  needsAttribution := by
    have hengine := any_toList engine.policy.rules (p := needsPid) rfl
    have htable := any_toList s.rules (p := needsPid) rfl
    refine Bool.eq_iff_iff.mpr (hengine.trans (.trans (exists_congr fun pid => ?_) htable.symm))
    exact iff_of_eq (congrArg (· = true) (needsPid_congr (h.rules pid)))
  processBlocksPacket := by
    funext pid isLoopback
    cases pid with
    | none => rfl
    | some pid => exact congrArg (!isLoopback && ·) (any_congr rfl (h.rules pid).blockAll)
  effectiveLoss := by
    funext pid direction
    have hglobal : engine.policy.globalLoss direction =
        (s.policy engine.policy.ruleRevision).globalLoss direction :=
      congrArg (Option.getD · 0) (h.globalRule.lossBasisPoints direction)
    have hprocess : engine.policy.processLoss pid direction =
        (s.policy engine.policy.ruleRevision).processLoss pid direction := by
      cases pid with
      | none => rfl
      | some pid =>
        exact bind_congr (by cases direction <;> rfl) ((h.rules pid).lossBasisPoints direction)
    unfold Policy.effectiveLoss
    rw [hglobal, hprocess]
  globalRate := h.globalRule.effectiveBps
  processRate pid direction :=
    bind_congr (by cases direction <;> rfl) ((h.rules pid).effectiveBps direction)
  effectiveDelayMs := by
    funext pid direction isLoopback
    have hglobal : engine.policy.globalDelayMs direction =
        (s.policy engine.policy.ruleRevision).globalDelayMs direction :=
      congrArg (Option.getD · 0) (h.globalRule.delayMs direction)
    have hprocess : engine.policy.processDelayMs pid direction =
        (s.policy engine.policy.ruleRevision).processDelayMs pid direction := by
      cases pid with
      | none => rfl
      | some pid =>
        exact bind_congr (by cases direction <;> rfl) ((h.rules pid).delayMs direction)
    unfold Policy.effectiveDelayMs
    rw [hglobal, hprocess]

end Conduct

end AppState

namespace System
variable {lower : Text → Text} {parseF64 : Text → Option ℚ}

/-- The engine has been told, or will be, what the application's rules are, and an engine that runs
is one that the application knows to run. -/
structure Coupled (sys : System) : Prop where
  owner : sys.owner.Reachable
  settled : (unmade sys.agenda).foldl Setting.apply sys.owner.engine.settledConfig = sys.app.config
  mirrors : AppState.Mirrors sys.app.engine sys.app.ruleSet
  running : sys.app.engine.running ∨ .start ∉ sys.agenda ∧ sys.owner.phase = .idle ∧
    (sys.owner.engine.Halting ∨ .call .stop ∈ sys.agenda)

theorem returned_iff {sys : System} :
    sys.returned ↔ sys.agenda = [] ∧ sys.owner.phase = .idle ∧ sys.owner.engine.ops .ui = [] := by
  simp [returned, and_assoc]

namespace Coupled
variable {sys sys' : System} {label : OwnerLabel} {owner : Owner}

/-- A step of the engine, or the next call. -/
theorem advance (h : Coupled sys) (hstep : sys.owner.step label = some owner)
    {agenda : List OwnerLabel}
    (hagenda : label.internal ∧ sys.agenda = agenda ∨ sys.agenda = label :: agenda) :
    Coupled { sys with owner, agenda } where
  owner := h.owner.next hstep
  settled := by
    have hsettled : (unmade sys.agenda).foldl Setting.apply sys.owner.engine.settledConfig =
        (unmade agenda).foldl Setting.apply owner.engine.settledConfig := by
      rw [Owner.settledConfig_step h.owner (.of_step hstep)]
      rcases hagenda with ⟨hinternal, rfl⟩ | hagenda
      · cases label <;> first | rfl | cases hinternal
      · rw [hagenda]
        exact List.foldl_append
    exact hsettled.symm.trans h.settled
  mirrors := h.mirrors
  running := by
    rcases h.running with hrunning | ⟨hstart, hphase, hhalting⟩
    · exact .inl hrunning
    have hlabel : label ≠ .start := by
      rintro rfl
      rcases hagenda with ⟨hinternal, -⟩ | hagenda
      · cases hinternal
      · exact hstart (hagenda ▸ List.mem_cons_self)
    have hsub : agenda ⊆ sys.agenda := by
      rcases hagenda with ⟨-, rfl⟩ | hagenda
      · exact List.Subset.refl _
      · exact hagenda ▸ List.subset_cons_self _ _
    have hphase' := Owner.phase_step hphase hlabel (.of_step hstep)
    refine .inr ⟨fun hmem => hstart (hsub hmem), hphase', ?_⟩
    rcases hhalting with hhalting | hstop
    · exact .inl (Owner.halting_step hhalting hphase h.owner hlabel (.of_step hstep))
    · rcases hagenda with ⟨-, rfl⟩ | hagenda
      · exact .inr hstop
      · rw [hagenda] at hstop
        rcases List.mem_cons.mp hstop with rfl | hstop
        · exact .inl (Owner.halting_of_stop (.of_step hstep))
        · exact .inr hstop

theorem halting (h : Coupled sys) (hagenda : sys.agenda = []) :
    sys.app.engine.running ∨ sys.owner.engine.Halting := by
  rcases h.running with hrunning | ⟨-, -, hhalting⟩
  · exact .inl hrunning
  · exact .inr (hhalting.resolve_right (by simp [hagenda]))

/-- Once all calls have returned, an engine that runs is one that the application started. -/
theorem running_of_isRunning (h : Coupled sys) (hreturned : sys.returned)
    (hrunning : sys.owner.engine.isRunning) : sys.app.engine.running := by
  obtain ⟨hagenda, -, hidle⟩ := returned_iff.mp hreturned
  refine (h.halting hagenda).resolve_right fun hhalting => ?_
  rw [(hhalting.halted hidle).not_running] at hrunning
  cases hrunning

theorem settledConfig_eq (h : Coupled sys) (hagenda : sys.agenda = []) :
    sys.owner.engine.settledConfig = sys.app.config := by
  have hsettled := h.settled
  rw [hagenda] at hsettled
  exact hsettled

theorem config_eq (h : Coupled sys) (hreturned : sys.returned) :
    sys.owner.engine.config = sys.app.config := by
  obtain ⟨hagenda, -, hidle⟩ := returned_iff.mp hreturned
  have hconfig := h.settledConfig_eq hagenda
  rw [State.settledConfig, hidle] at hconfig
  exact hconfig

/-- An operation begins. -/
theorem operate (h : Coupled sys) (hreturned : sys.returned) {operation : AppState.Operation}
    (hbegins : operation.begins) : Coupled { sys with
      app := (sys.app.observe sys.owner.engine.isRunning).operate lower parseF64 operation
      agenda := (sys.app.observe sys.owner.engine.isRunning).calls lower parseF64 operation } := by
  obtain ⟨hagenda, hphase, hidle⟩ := returned_iff.mp hreturned
  have hobserved : AppState.Mirrors (sys.app.observe sys.owner.engine.isRunning).engine
      (sys.app.observe sys.owner.engine.isRunning).ruleSet :=
    ⟨h.mirrors.vacant, fun hr =>
      have hagrees := h.mirrors.agrees (h.running_of_isRunning hreturned hr)
      ⟨hagrees.globalRule, hagrees.rules⟩⟩
  have hconfig : sys.owner.engine.settledConfig =
      (sys.app.observe sys.owner.engine.isRunning).config := h.settledConfig_eq hagenda
  refine ⟨h.owner, ?_, hobserved.operate operation, ?_⟩
  · rw [hconfig]
    exact (AppState.config_operate operation).symm
  · have hrunning := @AppState.running_operate lower parseF64
      (sys.app.observe sys.owner.engine.isRunning) operation hbegins
    rcases hrunning with hr | ⟨hstart, hstop | hsame⟩
    · exact .inl hr
    · exact .inr ⟨hstart, hphase, .inr hstop⟩
    · by_cases hrunning : sys.owner.engine.isRunning = true
      · exact .inl (hsame.trans hrunning)
      · have hhalted : sys.owner.engine.Halted :=
          .inr ⟨Bool.not_eq_true _ ▸ hrunning, by rw [hidle]; rfl⟩
        exact .inr ⟨hstart, hphase, .inl (.inl hhalted)⟩

/-- A tick goes on with its snapshot. -/
theorem tick (h : Coupled sys) (hreturned : sys.returned) (snapshot : EngineSnapshot) :
    Coupled { sys with
      app := sys.app.operate lower parseF64 (.event (.tick snapshot))
      agenda := sys.app.calls lower parseF64 (.event (.tick snapshot))
      ticking := false } := by
  obtain ⟨hagenda, hphase, -⟩ := returned_iff.mp hreturned
  refine ⟨h.owner, ?_, @AppState.Mirrors.operate lower parseF64 _ h.mirrors _, ?_⟩
  · rw [h.settledConfig_eq hagenda]
    exact (AppState.config_operate (.event (.tick snapshot))).symm
  · have hsame : (sys.app.operate lower parseF64 (.event (.tick snapshot))).engine.running =
        sys.app.engine.running := by
      refine (congrArg EngineView.running (AppState.engine_step rfl)).trans ?_
      exact AppState.running_foldl _ _
    refine (h.halting hagenda).imp hsame.trans fun hhalting => ?_
    exact ⟨AppState.start_notMem_applyAll _, hphase, .inl hhalting⟩

end Coupled

section Runs
variable {F : Type} [F32 F] {settings : AppSettings F} {sys : System}

theorem Coupled.step {sys' : System} {label : SystemLabel} (h : Coupled sys)
    (hstep : sys.step lower parseF64 label = some sys') : Coupled sys' := by
  cases label with
  | engine label =>
    simp only [System.step, Option.ite_none_right_eq_some] at hstep
    obtain ⟨hinternal, hstep⟩ := hstep
    obtain ⟨owner, howner, rfl⟩ := Option.map_eq_some_iff.mp hstep
    exact h.advance howner (.inl ⟨hinternal, rfl⟩)
  | next =>
    simp only [System.step] at hstep
    split at hstep
    · cases hstep
    · next label agenda hagenda =>
      obtain ⟨owner, howner, rfl⟩ := Option.map_eq_some_iff.mp hstep
      exact h.advance howner (.inr hagenda)
  | operate operation =>
    simp only [System.step, Option.ite_none_right_eq_some, Bool.and_eq_true] at hstep
    obtain ⟨⟨⟨hreturned, -⟩, hbegins⟩, hstep⟩ := hstep
    cases hstep
    exact h.operate hreturned hbegins
  | snapshot =>
    simp only [System.step, Option.ite_none_right_eq_some, Bool.and_eq_true] at hstep
    obtain ⟨⟨hreturned, -⟩, hstep⟩ := hstep
    cases hstep
    obtain ⟨hagenda, hphase, -⟩ := returned_iff.mp hreturned
    have hsettled := h.settled
    rw [hagenda] at hsettled
    refine ⟨h.owner, hsettled, h.mirrors, (h.halting hagenda).imp id fun hhalting => ?_⟩
    exact ⟨by simp, hphase, .inl hhalting⟩
  | tick =>
    simp only [System.step, Option.ite_none_right_eq_some, Bool.and_eq_true] at hstep
    obtain ⟨⟨hreturned, -⟩, hstep⟩ := hstep
    obtain ⟨snapshot, -, hstep⟩ := Option.bind_eq_some_iff.mp hstep
    cases hstep
    exact h.tick hreturned snapshot

theorem Coupled.new (settings : AppSettings F) : Coupled (.new settings) where
  owner := Transition.Reachable.of_init rfl
  settled := rfl
  mirrors := by
    refine ⟨fun pid _ => ?_, fun hr => absurd hr Bool.false_ne_true⟩
    have hnone : (AppState.new settings).engine.ruleFor pid = default := by
      simp [EngineView.ruleFor, AppState.new]
    exact hnone ▸ PacketEquivalent.refl default
  running := .inr ⟨by simp [System.new], rfl, .inl (.inl (.inr ⟨rfl, rfl⟩))⟩

theorem Coupled.of_reachable (h : Reachable lower parseF64 settings sys) : Coupled sys :=
  Transition.Reachable.invariant (fun _ hnew => hnew ▸ .new settings)
    (fun _ _ _ _ hs hstep => hs.step hstep) h

/-- Whatever the threads did in between: when the calls of an operation have returned, the engine
has the application's settings, and one that runs handles every packet as the application's rules
say. -/
theorem rules_in_force (h : Reachable lower parseF64 settings sys) (hreturned : sys.returned) :
    sys.owner.engine.config = sys.app.config ∧
      (sys.owner.engine.isRunning → ∀ (r : Readings) (c : Received) (locals : RecvLocals),
        r.pipeline sys.owner.engine.policy c locals =
          r.pipeline (sys.app.ruleSet.policy sys.owner.engine.policy.ruleRevision) c locals) := by
  have hcoupled := Coupled.of_reachable h
  have hconfig := hcoupled.config_eq hreturned
  refine ⟨hconfig, fun hrunning r c locals => ?_⟩
  have hpolicy : sys.owner.engine.policy = sys.app.engine.policy :=
    congrArg EngineConfig.policy hconfig
  have hagrees := hcoupled.mirrors.agrees (hcoupled.running_of_isRunning hreturned hrunning)
  rw [hpolicy]
  exact congrFun (congrFun (r.pipeline_of_actsAs hagrees.actsAs) c) locals

end Runs

/-- The engine is started with a delay for uploads. -/
def startedRun : List SystemLabel :=
  let ui (count : ℕ) : List SystemLabel := List.replicate count (.engine (.run .ui {}))
  [.next] ++ ui 1 ++ [.operate (.event (.start true)), .next] ++ ui 1 ++ [.next] ++ ui 11 ++ [.next]
    ++ ui 10 ++ [.engine (.openDivert true)] ++ ui 1 ++ [.engine .synced] ++ ui 2

theorem rules_in_force_startedRun : ∃ sys : System,
    startedRun.foldlM (step toAsciiLowercase fun _ => none) (.new
      { globalRule := { uploadDelayMs := some 50 } : AppSettings WholeF32 }) = some sys ∧
    sys.returned ∧ sys.owner.engine.isRunning ∧
    sys.owner.engine.policy.globalRule.uploadDelayMs = some 50 ∧
    sys.owner.engine.config = sys.app.config ∧
    ∀ (r : Readings) (c : Received) (locals : RecvLocals),
      r.pipeline sys.owner.engine.policy c locals =
        r.pipeline (sys.app.ruleSet.policy sys.owner.engine.policy.ruleRevision) c locals := by
  have hrun : ∃ sys : System,
      startedRun.foldlM (step toAsciiLowercase fun _ => none) (.new
        { globalRule := { uploadDelayMs := some 50 } : AppSettings WholeF32 }) = some sys ∧
      sys.returned ∧ sys.owner.engine.isRunning ∧
      sys.owner.engine.policy.globalRule.uploadDelayMs = some 50 := ⟨_, rfl, rfl, rfl, rfl⟩
  obtain ⟨sys, hsys, hreturned, hrunning, hdelay⟩ := hrun
  obtain ⟨hconfig, hpipeline⟩ := rules_in_force ⟨_, _, rfl, .of_foldlM hsys⟩ hreturned
  exact ⟨sys, hsys, hreturned, hrunning, hdelay, hconfig, hpipeline hrunning⟩

end System

end FlowBrake.Ui
