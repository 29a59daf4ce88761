import FlowBrake.Ui.AppState.Step

/-! The engine's copy of the rules, against the application's. -/
namespace FlowBrake.Ui
open FlowBrake.Core FlowBrake.Windows Text

/-- The rules treat every packet in the same way. -/
structure PacketEquivalent (rule rule' : ProcessRule) : Prop where
  blockAll : rule.blockAll = rule'.blockAll
  lossBasisPoints : ∀ direction, rule.lossBasisPoints direction = rule'.lossBasisPoints direction
  delayMs : ∀ direction, rule.delayMs direction = rule'.delayMs direction
  effectiveBps : ∀ direction, rule.effectiveBps direction = rule'.effectiveBps direction

namespace PacketEquivalent

theorem refl (rule : ProcessRule) : PacketEquivalent rule rule :=
  ⟨rfl, fun _ => rfl, fun _ => rfl, fun _ => rfl⟩

theorem symm {rule rule' : ProcessRule} (h : PacketEquivalent rule rule') :
    PacketEquivalent rule' rule where
  blockAll := h.blockAll.symm
  lossBasisPoints direction := (h.lossBasisPoints direction).symm
  delayMs direction := (h.delayMs direction).symm
  effectiveBps direction := (h.effectiveBps direction).symm

theorem trans {rule rule' rule'' : ProcessRule} (h : PacketEquivalent rule rule')
    (h' : PacketEquivalent rule' rule'') : PacketEquivalent rule rule'' where
  blockAll := h.blockAll.trans h'.blockAll
  lossBasisPoints direction := (h.lossBasisPoints direction).trans (h'.lossBasisPoints direction)
  delayMs direction := (h.delayMs direction).trans (h'.delayMs direction)
  effectiveBps direction := (h.effectiveBps direction).trans (h'.effectiveBps direction)

theorem effectiveBps_eq_none {rule : ProcessRule} {direction : Direction}
    (h : rule.targetBps direction = none) : rule.effectiveBps direction = none := by
  unfold ProcessRule.effectiveBps
  rw [h]
  rfl

/-- A rule without an active field has no effect. -/
theorem active (rule : ProcessRule) : PacketEquivalent rule.active rule := by
  by_cases h : rule.hasAnyRule
  · rw [ProcessRule.active_of_hasAnyRule h]
    exact refl rule
  · have hpersisted := ProcessRule.persisted_of_not_hasAnyRule h
    have htarget (direction : Direction) : rule.targetBps direction = none := by
      change rule.persisted.targetBps direction = none
      rw [hpersisted]
      cases direction <;> rfl
    rw [ProcessRule.active_of_not_hasAnyRule h]
    constructor
    · exact (congrArg ProcessRule.blockAll hpersisted).symm
    · exact fun direction => (congrArg (·.lossBasisPoints direction) hpersisted).symm
    · exact fun direction => (congrArg (·.delayMs direction) hpersisted).symm
    · intro direction
      rw [effectiveBps_eq_none (htarget direction)]
      cases direction <;> rfl

theorem of_not_limitDownload {rule : ProcessRule} (h : ¬ rule.limitDownload) :
    PacketEquivalent { rule with downloadKbps := 0, adjustedDlBps := 0 } rule := by
  refine ⟨rfl, fun _ => rfl, fun _ => rfl, fun direction => ?_⟩
  cases direction with
  | download =>
    have htarget : rule.targetBps .download = none := by simp [ProcessRule.targetBps, h]
    rw [effectiveBps_eq_none htarget]
    exact effectiveBps_eq_none (by simp [ProcessRule.targetBps])
  | upload => rfl

theorem of_not_limitUpload {rule : ProcessRule} (h : ¬ rule.limitUpload) :
    PacketEquivalent { rule with uploadKbps := 0, adjustedUlBps := 0 } rule := by
  refine ⟨rfl, fun _ => rfl, fun _ => rfl, fun direction => ?_⟩
  cases direction with
  | download => rfl
  | upload =>
    have htarget : rule.targetBps .upload = none := by simp [ProcessRule.targetBps, h]
    rw [effectiveBps_eq_none htarget]
    exact effectiveBps_eq_none (by simp [ProcessRule.targetBps])

theorem of_no_target {rule : ProcessRule} (h : ∀ direction, rule.targetBps direction = none) :
    PacketEquivalent { rule with adaptive := false, adjustedDlBps := 0, adjustedUlBps := 0 }
      rule := by
  refine ⟨rfl, fun _ => rfl, fun _ => rfl, fun direction => ?_⟩
  rw [effectiveBps_eq_none (h direction)]
  apply effectiveBps_eq_none
  cases direction
  · exact h .download
  · exact h .upload

/-- The engine gets a rule without the rates that are not in force. -/
theorem runtimeRule (rule : ProcessRule) : PacketEquivalent (runtimeRule rule) rule := by
  have hdownload : PacketEquivalent (if rule.limitDownload then rule
      else { rule with downloadKbps := 0, adjustedDlBps := 0 }) rule := by
    split
    · exact refl rule
    · next h => exact of_not_limitDownload h
  unfold Ui.runtimeRule
  generalize (if rule.limitDownload then rule
    else { rule with downloadKbps := 0, adjustedDlBps := 0 }) = limited at hdownload
  have hupload : PacketEquivalent (if limited.limitUpload then limited
      else { limited with uploadKbps := 0, adjustedUlBps := 0 }) limited := by
    split
    · exact refl limited
    · next h => exact of_not_limitUpload h
  dsimp only
  generalize (if limited.limitUpload then limited
    else { limited with uploadKbps := 0, adjustedUlBps := 0 }) = runtime at hupload
  refine .trans ?_ (hupload.trans hdownload)
  split
  · next h =>
    rw [Bool.and_eq_true, Option.isNone_iff_eq_none, Option.isNone_iff_eq_none] at h
    apply of_no_target
    intro direction
    cases direction
    · exact h.1
    · exact h.2
  · exact refl runtime

/-- So it may keep the rule that the application keeps, or drop it where the application does. -/
theorem runtimeRule_active (rule : ProcessRule) :
    PacketEquivalent (Ui.runtimeRule rule).active rule :=
  (active _).trans (runtimeRule rule)

end PacketEquivalent

namespace EngineView

theorem getD_of_hasAnyRule (rule : ProcessRule) :
    (if rule.hasAnyRule then some rule else none).getD default = rule.active := by
  unfold ProcessRule.active
  split <;> rfl

/-- The rule of a PID; without one, the default rule. -/
def ruleFor (engine : EngineView) (pid : UInt32) : ProcessRule :=
  engine.policy.rules[pid]?.getD default

variable (engine : EngineView)

theorem ruleFor_updateRule (pid : UInt32) (rule : ProcessRule) (pid' : UInt32) :
    (engine.apply (.updateRule pid rule)).ruleFor pid' =
      if pid' = pid then rule.active else engine.ruleFor pid' := by
  change (AppState.updatePidRule engine.policy.rules pid rule)[pid']?.getD default = _
  rw [AppState.getElem?_updatePidRule]
  split
  · exact getD_of_hasAnyRule rule
  · rfl

theorem globalRule_updateRule (pid : UInt32) (rule : ProcessRule) :
    (engine.apply (.updateRule pid rule)).policy.globalRule = engine.policy.globalRule :=
  rfl

theorem apply_updateRuleForPids_cons (pid : UInt32) (pids : List UInt32) (rule : ProcessRule) :
    engine.apply (.updateRuleForPids (pid :: pids) rule) =
      (engine.apply (.updateRule pid rule)).apply (.updateRuleForPids pids rule) :=
  rfl

theorem ruleFor_updateRuleForPids (pids : List UInt32) (rule : ProcessRule) (pid' : UInt32) :
    (engine.apply (.updateRuleForPids pids rule)).ruleFor pid' =
      if pid' ∈ pids then rule.active else engine.ruleFor pid' := by
  induction pids generalizing engine with
  | nil => simp [apply, EngineCommand.edits, ruleFor]
  | cons pid pids ih =>
    rw [apply_updateRuleForPids_cons, ih, ruleFor_updateRule]
    by_cases hpid : pid' ∈ pids <;> simp [hpid]

theorem globalRule_updateRuleForPids (pids : List UInt32) (rule : ProcessRule) :
    (engine.apply (.updateRuleForPids pids rule)).policy.globalRule =
      engine.policy.globalRule := by
  induction pids generalizing engine with
  | nil => rfl
  | cons pid pids ih => rw [apply_updateRuleForPids_cons, ih, globalRule_updateRule]

end EngineView

namespace AppState

def RuleSet.ruleFor (s : RuleSet) (pid : UInt32) : ProcessRule := s.rules[pid]?.getD default

/-- The engine treats every packet as the rules say. -/
structure Agrees (engine : EngineView) (s : RuleSet) : Prop where
  globalRule : PacketEquivalent engine.policy.globalRule s.globalRule
  rules : ∀ pid, PacketEquivalent (engine.ruleFor pid) (s.ruleFor pid)

/-- A running engine agrees with the rules, and no engine holds a rule for a PID without one. -/
structure Mirrors (engine : EngineView) (s : RuleSet) : Prop where
  vacant : ∀ pid, s.rules[pid]? = none → PacketEquivalent (engine.ruleFor pid) default
  agrees : engine.running → Agrees engine s

section Step
variable {lower : Text → Text} {parseF64 : Text → Option ℚ} {st : AppState}

/-- What the engine is told of a row is what the application writes. -/
theorem Mirrors.applyRuleToRow (h : Mirrors st.engine st.ruleSet) (kind : RowKind)
    (rule : ProcessRule) : Mirrors (st.applyRuleToRow lower kind rule).engine
      (st.applyRuleToRow lower kind rule).ruleSet := by
  have hruntime := PacketEquivalent.runtimeRule_active rule
  have hrunning : (st.applyRuleToRow lower kind rule).engine.running = st.engine.running := by
    cases kind <;> rfl
  have hengine : ∀ pid, (st.applyRuleToRow lower kind rule).engine.ruleFor pid =
      if pid ∈ kind.pids then (runtimeRule rule).active else st.engine.ruleFor pid := by
    intro pid
    cases kind with
    | global => rfl
    | group => exact EngineView.ruleFor_updateRuleForPids _ _ _ _
    | child =>
      refine (EngineView.ruleFor_updateRule _ _ _ _).trans ?_
      simp only [RowKind.pids, List.mem_singleton]
  rw [ruleSet_applyRuleToRow]
  constructor
  · intro pid hvacant
    rw [RuleSet.getElem?_applyRuleToRow] at hvacant
    rw [hengine]
    split at hvacant
    · next hpid =>
      split at hvacant
      · cases hvacant
      · next hrule =>
        rw [if_pos hpid]
        rw [← ProcessRule.active_of_not_hasAnyRule hrule]
        exact hruntime.trans (PacketEquivalent.active rule).symm
    · next hpid =>
      rw [if_neg hpid]
      exact h.vacant pid hvacant
  · intro hr
    rw [hrunning] at hr
    obtain ⟨hglobal, hrules⟩ := h.agrees hr
    constructor
    · cases kind with
      | global => exact PacketEquivalent.runtimeRule rule
      | group =>
        refine .trans ?_ hglobal
        change PacketEquivalent (EngineView.apply _ _).policy.globalRule _
        rw [EngineView.globalRule_updateRuleForPids]
        exact PacketEquivalent.refl _
      | child => exact hglobal
    · intro pid
      rw [hengine, RuleSet.ruleFor, RuleSet.getElem?_applyRuleToRow]
      split
      · rw [EngineView.getD_of_hasAnyRule]
        exact hruntime.trans (PacketEquivalent.active rule).symm
      · exact hrules pid

/-- What the engine holds for one PID does not hang on another. -/
theorem Mirrors.updateRule {engine : EngineView} {s : RuleSet} (h : Mirrors engine s)
    (pid : UInt32) {rule rule' : ProcessRule} (hrule : PacketEquivalent rule.active rule') :
    Mirrors (engine.apply (.updateRule pid rule)) { s with rules := s.rules.insert pid rule' } where
  vacant pid' hvacant := by
    rw [Std.ExtTreeMap.getElem?_insert] at hvacant
    split at hvacant
    · cases hvacant
    · next hne =>
      have hne' : pid' ≠ pid := fun heq => hne (Std.compare_eq_iff_eq.mpr heq.symm)
      rw [EngineView.ruleFor_updateRule, if_neg hne']
      exact h.vacant pid' hvacant
  agrees hrunning := by
    obtain ⟨hglobal, hrules⟩ := h.agrees hrunning
    refine ⟨hglobal, fun pid' => ?_⟩
    rw [EngineView.ruleFor_updateRule, RuleSet.ruleFor, Std.ExtTreeMap.getElem?_insert]
    by_cases hpid : pid' = pid
    · subst hpid
      rw [if_pos rfl, if_pos Std.compare_self]
      exact hrule
    · have hne : compare pid pid' ≠ .eq := fun heq => hpid (Std.compare_eq_iff_eq.mp heq).symm
      rw [if_neg hpid, if_neg hne]
      exact hrules pid'

/-- Where the engine runs, it is told of the rules that processes take over from their names. -/
theorem Mirrors.inherit {engine : EngineView} {s : RuleSet} (h : Mirrors engine s)
    (processes : List ProcessInfo) :
    Mirrors (if engine.running then
        (inheritNameRules lower s.rules s.nameRules processes).2.foldl
          (fun engine p => engine.apply (.updateRule p.1 (runtimeRule p.2))) engine
      else engine)
      { s with rules := (inheritNameRules lower s.rules s.nameRules processes).1 } := by
  cases hrunning : engine.running with
  | false =>
    refine ⟨fun pid hvacant => h.vacant pid ?_, fun hr => ?_⟩
    · rw [getElem?_inheritNameRules, Option.or_eq_none_iff] at hvacant
      exact hvacant.1
    · rw [if_neg Bool.false_ne_true, hrunning] at hr
      cases hr
  | true =>
    rw [if_pos rfl]
    clear hrunning
    induction processes generalizing engine s with
    | nil => exact h
    | cons process processes ih =>
      rw [inheritNameRules]
      cases s.nameRules[lower process.name]? with
      | none => exact ih h
      | some rule =>
        dsimp only
        split
        · exact ih h
        · exact ih (h.updateRule process.pid (PacketEquivalent.runtimeRule_active rule))

theorem Mirrors.adjustGlobal (h : Mirrors st.engine st.ruleSet) (direction : Direction)
    (measuredBps : ℚ) : Mirrors (st.adjustGlobal direction measuredBps).engine
      (st.adjustGlobal direction measuredBps).ruleSet := by
  unfold AppState.adjustGlobal
  split
  · exact h
  · exact ⟨h.vacant, fun hr => ⟨PacketEquivalent.refl _, (h.agrees hr).rules⟩⟩

theorem Mirrors.adjustPid (h : Mirrors st.engine st.ruleSet) (pid : UInt32)
    (direction : Direction) (measuredBps : ℚ) :
    Mirrors (st.adjustPid pid direction measuredBps).engine
      (st.adjustPid pid direction measuredBps).ruleSet := by
  unfold AppState.adjustPid
  split
  · exact h
  · next rule _ => exact h.updateRule pid (PacketEquivalent.active rule)

theorem Mirrors.tick (h : Mirrors st.engine st.ruleSet) (snapshot : EngineSnapshot) :
    Mirrors (st.tick snapshot).1.engine (st.tick snapshot).1.ruleSet := by
  have hmeasure : Mirrors (st.measure snapshot).engine (st.measure snapshot).ruleSet := h
  unfold AppState.tick
  dsimp only
  split
  · unfold runAdaptiveFeedback
    dsimp only
    refine List.foldlRecOn (motive := fun st : AppState => Mirrors st.engine st.ruleSet) _ _ ?_ ?_
    · split
      · exact (hmeasure.adjustGlobal _ _).adjustGlobal _ _
      · exact hmeasure
    · intro st hst pid _
      split
      · exact (hst.adjustPid pid _ _).adjustPid pid _ _
      · exact hst
  · exact hmeasure

/-- A pushed rule is in agreement, and stays so when others are pushed. -/
theorem ruleFor_foldl_updateRule {s : RuleSet} {pushed : List (UInt32 × ProcessRule)}
    {engine : EngineView} (hpushed : ∀ p ∈ pushed, s.rules[p.1]? = some p.2) {pid : UInt32}
    (h : PacketEquivalent (engine.ruleFor pid) (s.ruleFor pid) ∨ ∃ p ∈ pushed, p.1 = pid) :
    PacketEquivalent ((pushed.foldl (fun engine p =>
      engine.apply (.updateRule p.1 (runtimeRule p.2))) engine).ruleFor pid) (s.ruleFor pid) := by
  induction pushed generalizing engine with
  | nil =>
    rcases h with h | ⟨p, hp, -⟩
    · exact h
    · cases hp
  | cons p pushed ih =>
    refine ih (fun q hq => hpushed q (List.mem_cons_of_mem _ hq)) ?_
    rw [EngineView.ruleFor_updateRule]
    split
    · next heq =>
      subst heq
      left
      rw [RuleSet.ruleFor, hpushed p List.mem_cons_self]
      exact PacketEquivalent.runtimeRule_active p.2
    · next hne =>
      refine h.imp_right ?_
      rintro ⟨q, hq, hqpid⟩
      rcases List.mem_cons.mp hq with rfl | hq
      · exact absurd hqpid.symm hne
      · exact ⟨q, hq, hqpid⟩

theorem globalRule_foldl_updateRule (pushed : List (UInt32 × ProcessRule)) (engine : EngineView) :
    (pushed.foldl (fun engine p => engine.apply (.updateRule p.1 (runtimeRule p.2)))
      engine).policy.globalRule = engine.policy.globalRule := by
  induction pushed generalizing engine with
  | nil => rfl
  | cons p pushed ih => exact ih _

/-- After all rules are pushed, the engine agrees with them, running or not. -/
theorem Mirrors.pushAllRules (h : Mirrors st.engine st.ruleSet) :
    Agrees st.pushAllRules.engine st.pushAllRules.ruleSet := by
  have hpushed : ∀ p ∈ st.rules.toList, st.rules[p.1]? = some p.2 :=
    fun p hp => Std.ExtTreeMap.mem_toList_iff_getElem?_eq_some.mp hp
  rw [ruleSet_pushAllRules, AppState.pushAllRules,
    foldl_send _ fun p : UInt32 × ProcessRule => .updateRule p.1 (runtimeRule p.2)]
  constructor
  · dsimp only
    rw [globalRule_foldl_updateRule]
    exact PacketEquivalent.runtimeRule st.globalRule
  · intro pid
    refine ruleFor_foldl_updateRule hpushed ?_
    cases hpid : st.rules[pid]? with
    | none =>
      have hdefault : st.ruleSet.ruleFor pid = default := by
        rw [RuleSet.ruleFor, show st.ruleSet.rules[pid]? = none from hpid, Option.getD_none]
      rw [hdefault]
      exact .inl (h.vacant pid hpid)
    | some rule =>
      exact .inr ⟨(pid, rule), Std.ExtTreeMap.mem_toList_iff_getElem?_eq_some.mpr hpid, rfl⟩

theorem Agrees.mirrors {engine : EngineView} {s : RuleSet} (h : Agrees engine s) (running : Bool) :
    Mirrors { engine with running } s where
  vacant pid hvacant := by
    have hrule := h.rules pid
    rw [RuleSet.ruleFor, hvacant] at hrule
    exact hrule
  agrees _ := ⟨h.globalRule, h.rules⟩

theorem Mirrors.idle {engine : EngineView} {s : RuleSet} (h : Mirrors engine s) :
    Mirrors { engine with running := false } s :=
  ⟨h.vacant, fun hr => absurd hr Bool.false_ne_true⟩

theorem Mirrors.stop (h : Mirrors st.engine st.ruleSet) :
    Mirrors st.stop.engine st.stop.ruleSet := by
  refine ⟨fun pid hvacant => h.vacant pid ?_, fun hr => absurd hr Bool.false_ne_true⟩
  change (st.rules.map fun _ rule => rule.persisted)[pid]? = none at hvacant
  rw [Std.ExtTreeMap.getElem?_map, Option.map_eq_none_iff] at hvacant
  exact hvacant

theorem engine_refreshRowSpeeds : st.refreshRowSpeeds.engine = st.engine := by
  unfold refreshRowSpeeds
  split <;> rfl

theorem engine_rebuildRowsFrom (processes : List ProcessInfo) :
    (st.rebuildRowsFrom lower processes).engine = st.engine :=
  engine_refreshRowSpeeds

theorem engine_applyNameRulesFrom (processes : List ProcessInfo) :
    (st.applyNameRulesFrom lower processes).engine =
      if st.engine.running then
        (inheritNameRules lower st.rules st.nameRules processes).2.foldl
          (fun engine p => engine.apply (.updateRule p.1 (runtimeRule p.2))) st.engine
      else st.engine := by
  unfold applyNameRulesFrom
  dsimp only
  split
  · rw [foldl_send _ fun p : UInt32 × ProcessRule => .updateRule p.1 (runtimeRule p.2)]
  · rfl

theorem engine_of_processes {e : Event} {processes : List ProcessInfo}
    (he : e.processes = some processes) : (st.step lower parseF64 e).engine =
      (st.applyNameRulesFrom lower processes).engine := by
  cases e <;> cases he
  · exact @engine_rebuildRowsFrom lower _ processes
  · simp only [step, refreshTableOnTick]
    split
    · exact @engine_rebuildRowsFrom lower _ processes
    · exact engine_refreshRowSpeeds

theorem Mirrors.step (h : Mirrors st.engine st.ruleSet) (e : Event) :
    Mirrors (st.step lower parseF64 e).engine (st.step lower parseF64 e).ruleSet := by
  cases hp : e.processes with
  | some processes =>
    rw [engine_of_processes hp, ruleSet_of_processes lower parseF64 st hp,
      engine_applyNameRulesFrom]
    exact h.inherit processes
  | none =>
    cases hedited : st.edited lower parseF64 e with
    | some p =>
      obtain ⟨row, edit⟩ := p
      obtain ⟨st', hstep, hkept⟩ := step_of_edited hedited
      rw [← engine_of_kept hkept, ← ruleSet_of_kept hkept] at h
      rw [hstep]
      exact h.applyRuleToRow row.kind _
    | none =>
      cases e with
      | rebuildRows | refreshTableOnTick => cases hp
      | tick snapshot => exact h.tick snapshot
      | start started => exact h.pushAllRules.mirrors _
      | stop => exact h.stop
      | restartEngine started =>
        simp only [AppState.step, restartEngine]
        split
        · exact (@Mirrors.pushAllRules { st with engine := _ } h.idle).mirrors _
        · exact h
      | engineExit => exact h.idle
      | _ =>
        have hkept := kept_of_edited_none hedited rfl
        rw [engine_of_kept hkept, ruleSet_of_kept hkept]
        exact h

end Step

/-- What the user and the system do to the application, up to its end. -/
inductive Operation
  | event (e : Event)
  | fullExit

variable (lower : Text → Text) (parseF64 : Text → Option ℚ)

def operate (st : AppState) : Operation → AppState
  | .event e => st.step lower parseF64 e
  | .fullExit => st.fullExit

variable {lower parseF64}

theorem Mirrors.operate {st : AppState} (h : Mirrors st.engine st.ruleSet) (o : Operation) :
    Mirrors (st.operate lower parseF64 o).engine (st.operate lower parseF64 o).ruleSet := by
  cases o with
  | event e => exact h.step e
  | fullExit =>
    have hcleared (pid : UInt32) : (st.engine.apply .clearRules).ruleFor pid = default := by
      simp [EngineView.apply, EngineCommand.edits, Edit.apply, EngineView.ruleFor]
    refine ⟨fun pid _ => ?_, fun hr => absurd hr Bool.false_ne_true⟩
    change PacketEquivalent ((st.engine.apply .clearRules).ruleFor pid) default
    rw [hcleared]
    exact PacketEquivalent.refl default

/-- After any operations, an engine that runs treats every packet as the application's rules
say. -/
theorem agrees_of_running {F : Type} [F32 F] (lower : Text → Text) (parseF64 : Text → Option ℚ)
    (settings : AppSettings F) (operations : List Operation)
    (h : (operations.foldl (operate lower parseF64) (.new settings)).engine.running) :
    Agrees (operations.foldl (operate lower parseF64) (.new settings)).engine
      (operations.foldl (operate lower parseF64) (.new settings)).ruleSet := by
  have hnew : Mirrors (AppState.new settings).engine (AppState.new settings).ruleSet := by
    refine ⟨fun pid _ => ?_, fun hr => absurd hr Bool.false_ne_true⟩
    have hnone : (AppState.new settings).engine.ruleFor pid = default := by
      simp [EngineView.ruleFor, AppState.new]
    rw [hnone]
    exact PacketEquivalent.refl default
  have hmirrors := List.foldlRecOn (motive := fun st : AppState => Mirrors st.engine st.ruleSet)
    operations (operate lower parseF64) hnew fun _ hst o _ => hst.operate o
  exact hmirrors.agrees h

/-- A rule taken over from a name, an edit and a tick, with the engine running. -/
def mirroredOperations : List Operation :=
  let processes : List ProcessInfo := [.new 10 "browser".toList]
  [.event (.start true), .event (.rebuildRows processes),
    .event (.editBool 1 "limit_dl".toList true), .event (.tick { running := true })]

def mirrored : AppState :=
  mirroredOperations.foldl (operate toAsciiLowercase fun _ => none) (.new
    { nameRules := (∅ : NameRules).insert "browser".toList { blockAll := true } :
      AppSettings WholeF32 })

theorem agrees_of_running_mirrored : Agrees mirrored.engine mirrored.ruleSet :=
  agrees_of_running toAsciiLowercase (fun _ => none)
    { nameRules := (∅ : NameRules).insert "browser".toList { blockAll := true } :
      AppSettings WholeF32 } mirroredOperations (by decide +kernel)

end AppState

end FlowBrake.Ui
