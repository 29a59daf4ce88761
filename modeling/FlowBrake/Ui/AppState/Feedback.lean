import FlowBrake.Core.Rate.Controller
import FlowBrake.Ui.AppState.Adaptive
import FlowBrake.Ui.AppState.Agreement
import FlowBrake.Ui.AppState.Measured

/-! Adaptive mode as a closed loop: what the ticks measure, and the rate that the engine holds a
process or the machine to. -/
namespace FlowBrake.Ui
open FlowBrake.Core FlowBrake.Windows Text

namespace AppState

/-- The rule of a PID, or the machine's. -/
def ruleOf (st : AppState) : Option UInt32 → Option ProcessRule
  | some pid => st.rules[pid]?
  | none => some st.globalRule

/-- The rule that the engine has for a PID, or for the machine. -/
def heldFor (st : AppState) : Option UInt32 → ProcessRule
  | some pid => st.engine.ruleFor pid
  | none => st.engine.policy.globalRule

/-- The measured rates, download first. -/
def measuredOf (st : AppState) : Option UInt32 → ℚ × ℚ
  | some pid => speedOf st.speeds pid
  | none => (st.globalDlBps, st.globalUlBps)

def rateIn (rates : ℚ × ℚ) : Direction → ℚ
  | .download => rates.1
  | .upload => rates.2

/-- The rule after one step of the controller in both directions. -/
def adapted (rule : ProcessRule) (measured : ℚ × ℚ) : ProcessRule :=
  let rule := (adjust rule .download measured.1).getD rule
  (adjust rule .upload measured.2).getD rule

section Adapt
variable {rule : ProcessRule} {direction : Direction} {measuredBps target : ℚ} {measured : ℚ × ℚ}

theorem persisted_getD_adjust (rule : ProcessRule) (direction : Direction) (measuredBps : ℚ) :
    ((adjust rule direction measuredBps).getD rule).persisted = rule.persisted := by
  cases hadjust : adjust rule direction measuredBps with
  | none => rfl
  | some rule' => exact persisted_of_adjust hadjust

theorem targetBps_persisted (rule : ProcessRule) (direction : Direction) :
    rule.persisted.targetBps direction = rule.targetBps direction := by
  cases direction <;> rfl

theorem targetBps_of_persisted {rule' : ProcessRule} (h : rule'.persisted = rule.persisted)
    (direction : Direction) : rule'.targetBps direction = rule.targetBps direction := by
  rw [← targetBps_persisted, h, targetBps_persisted]

theorem adjusted_getD_adjust_self (h : rule.targetBps direction = some target) :
    adjusted ((adjust rule direction measuredBps).getD rule) direction =
      computeAdaptiveRate (adjusted rule direction) measuredBps target := by
  rw [adjust, h]
  cases direction <;> rfl

theorem adjusted_getD_adjust_of_ne {direction' : Direction} (hne : direction' ≠ direction) :
    adjusted ((adjust rule direction measuredBps).getD rule) direction' =
      adjusted rule direction' := by
  rw [adjust]
  cases rule.targetBps direction with
  | none => rfl
  | some target => cases direction <;> cases direction' <;> first | rfl | exact absurd rfl hne

theorem persisted_adapted (rule : ProcessRule) (measured : ℚ × ℚ) :
    (adapted rule measured).persisted = rule.persisted := by
  rw [adapted, persisted_getD_adjust, persisted_getD_adjust]

/-- In a direction with a target, a tick is one step of the controller. -/
theorem adjusted_adapted (h : rule.targetBps direction = some target) :
    adjusted (adapted rule measured) direction =
      computeAdaptiveRate (adjusted rule direction) (rateIn measured direction) target := by
  rw [adapted]
  cases direction with
  | download =>
    rw [adjusted_getD_adjust_of_ne (by decide), adjusted_getD_adjust_self h]
    rfl
  | upload =>
    have htarget := (targetBps_of_persisted (persisted_getD_adjust rule .download measured.1)
      .upload).trans h
    rw [adjusted_getD_adjust_self htarget, adjusted_getD_adjust_of_ne (by decide)]
    rfl

theorem persisted_foldl_adapted (rule : ProcessRule) (measured : List (ℚ × ℚ)) :
    (measured.foldl adapted rule).persisted = rule.persisted :=
  List.foldlRecOn (motive := fun rule' : ProcessRule => rule'.persisted = rule.persisted) _ _ rfl
    fun _ hrule measured _ => (persisted_adapted _ measured).trans hrule

/-- In a direction with a target, ticks are steps of the controller. -/
theorem adjusted_foldl_adapted (h : rule.targetBps direction = some target)
    (measured : List (ℚ × ℚ)) : adjusted (measured.foldl adapted rule) direction =
      settle target (adjusted rule direction) (measured.map (rateIn · direction)) := by
  induction measured generalizing rule with
  | nil => rfl
  | cons first rest ih =>
    have htarget := (targetBps_of_persisted (persisted_adapted rule first) direction).trans h
    rw [List.foldl_cons, ih htarget, adjusted_adapted h]
    rfl

end Adapt

section Feedback
variable {st : AppState} {rule : ProcessRule} {pid : UInt32}

theorem getElem?_adjustPid (st : AppState) (pid : UInt32) (direction : Direction) (measuredBps : ℚ)
    (pid' : UInt32) : (st.adjustPid pid direction measuredBps).rules[pid']? =
      if pid = pid' then
        st.rules[pid']?.map fun rule => (adjust rule direction measuredBps).getD rule
      else st.rules[pid']? := by
  unfold adjustPid
  by_cases hpid : pid = pid'
  · subst hpid
    rw [if_pos rfl]
    cases hrule : st.rules[pid]? with
    | none => simpa using hrule
    | some rule =>
      simp only [Option.bind_some, Option.map_some]
      split
      · next hnone => rw [hrule, hnone, Option.getD_none]
      · next rule' hadjust =>
        change (st.rules.insert pid rule')[pid]? = _
        rw [Std.ExtTreeMap.getElem?_insert_self, hadjust, Option.getD_some]
  · rw [if_neg hpid]
    split
    · rfl
    · next rule' _ =>
      change (st.rules.insert pid rule')[pid']? = _
      rw [Std.ExtTreeMap.getElem?_insert, if_neg (mt Std.compare_eq_iff_eq.mp hpid)]

theorem speeds_adjustPid (pid : UInt32) (direction : Direction) (measuredBps : ℚ) :
    (st.adjustPid pid direction measuredBps).speeds = st.speeds := by
  unfold adjustPid
  split <;> rfl

/-- One turn of the loop over the PIDs in `run_adaptive_feedback`. -/
def feedbackPid (st : AppState) (pid : UInt32) : AppState :=
  if st.rules[pid]?.any (·.adaptive) then
    let (dlBps, ulBps) := speedOf st.speeds pid
    (st.adjustPid pid .download dlBps).adjustPid pid .upload ulBps
  else st

def feedbackGlobal (st : AppState) : AppState :=
  if st.globalRule.adaptive then
    (st.adjustGlobal .download st.globalDlBps).adjustGlobal .upload st.globalUlBps
  else st

theorem runAdaptiveFeedback_eq (st : AppState) : st.runAdaptiveFeedback =
    st.feedbackGlobal.rules.keys.foldl feedbackPid st.feedbackGlobal :=
  rfl

/-- What a tick of the running engine makes of a rule. -/
def nextRule (rule : ProcessRule) (measured : ℚ × ℚ) : ProcessRule :=
  if rule.adaptive then adapted rule measured else rule

theorem speeds_feedbackPid : (st.feedbackPid pid).speeds = st.speeds := by
  unfold feedbackPid
  split
  · rw [speeds_adjustPid, speeds_adjustPid]
  · rfl

theorem getElem?_feedbackPid_self (hrule : st.rules[pid]? = some rule) :
    (st.feedbackPid pid).rules[pid]? = some (nextRule rule (speedOf st.speeds pid)) := by
  rw [feedbackPid, hrule, Option.any_some, nextRule]
  split
  · rw [getElem?_adjustPid, if_pos rfl, getElem?_adjustPid, if_pos rfl, hrule]
    rfl
  · exact hrule

theorem getElem?_feedbackPid_of_ne {pid' : UInt32} (hne : pid' ≠ pid) :
    (st.feedbackPid pid').rules[pid]? = st.rules[pid]? := by
  unfold feedbackPid
  split
  · rw [getElem?_adjustPid, if_neg hne, getElem?_adjustPid, if_neg hne]
  · rfl

theorem foldl_feedbackPid_of_notMem {pids : List UInt32} (h : pid ∉ pids) :
    (pids.foldl feedbackPid st).rules[pid]? = st.rules[pid]? := by
  induction pids generalizing st with
  | nil => rfl
  | cons pid' pids ih =>
    rw [List.foldl_cons, ih (List.not_mem_of_not_mem_cons h),
      getElem?_feedbackPid_of_ne (List.ne_of_not_mem_cons h).symm]

/-- Every PID has its turn once. -/
theorem foldl_feedbackPid {pids : List UInt32} (hnodup : pids.Nodup) (hmem : pid ∈ pids)
    (hrule : st.rules[pid]? = some rule) :
    (pids.foldl feedbackPid st).rules[pid]? = some (nextRule rule (speedOf st.speeds pid)) := by
  induction pids generalizing st with
  | nil => cases hmem
  | cons pid' pids ih =>
    obtain ⟨hpid', hnodup⟩ := List.nodup_cons.mp hnodup
    rw [List.foldl_cons]
    by_cases hpid : pid' = pid
    · subst hpid
      rw [foldl_feedbackPid_of_notMem hpid', getElem?_feedbackPid_self hrule]
    · have hmem' : pid ∈ pids := (List.mem_cons.mp hmem).resolve_left (Ne.symm hpid)
      rw [ih hnodup hmem' ((getElem?_feedbackPid_of_ne hpid).trans hrule), speeds_feedbackPid]

theorem rules_feedbackGlobal : st.feedbackGlobal.rules = st.rules := by
  have hrules (st : AppState) (direction : Direction) (measuredBps : ℚ) :
      (st.adjustGlobal direction measuredBps).rules = st.rules := by
    unfold adjustGlobal
    split <;> rfl
  unfold feedbackGlobal
  split
  · rw [hrules, hrules]
  · rfl

theorem speeds_feedbackGlobal : st.feedbackGlobal.speeds = st.speeds := by
  have hspeeds (st : AppState) (direction : Direction) (measuredBps : ℚ) :
      (st.adjustGlobal direction measuredBps).speeds = st.speeds := by
    unfold adjustGlobal
    split <;> rfl
  unfold feedbackGlobal
  split
  · rw [hspeeds, hspeeds]
  · rfl

theorem globalRule_adjustGlobal (st : AppState) (direction : Direction) (measuredBps : ℚ) :
    (st.adjustGlobal direction measuredBps).globalRule =
      (adjust st.globalRule direction measuredBps).getD st.globalRule := by
  unfold adjustGlobal
  split
  · next hnone => rw [hnone, Option.getD_none]
  · next rule hadjust => rw [hadjust, Option.getD_some]; rfl

theorem globalRule_feedbackGlobal : st.feedbackGlobal.globalRule =
    nextRule st.globalRule (st.globalDlBps, st.globalUlBps) := by
  rw [feedbackGlobal, nextRule]
  split
  · rw [globalRule_adjustGlobal, globalRule_adjustGlobal]
    rfl
  · rfl

theorem globalRule_foldl_feedbackPid (pids : List UInt32) :
    (pids.foldl feedbackPid st).globalRule = st.globalRule := by
  have hadjust (st : AppState) (pid : UInt32) (direction : Direction) (measuredBps : ℚ) :
      (st.adjustPid pid direction measuredBps).globalRule = st.globalRule := by
    unfold adjustPid
    split <;> rfl
  refine List.foldlRecOn (motive := fun st' : AppState => st'.globalRule = st.globalRule) _ _ rfl
    fun st' hst' pid _ => ?_
  unfold feedbackPid
  split
  · rw [hadjust, hadjust, hst']
  · exact hst'

/-- The feedback takes every adaptive rule one step on, with what was measured of its own. -/
theorem ruleOf_runAdaptiveFeedback {who : Option UInt32} (hrule : st.ruleOf who = some rule) :
    st.runAdaptiveFeedback.ruleOf who = some (nextRule rule (st.measuredOf who)) := by
  rw [runAdaptiveFeedback_eq]
  cases who with
  | none =>
    obtain rfl := Option.some.inj hrule
    exact congrArg some ((globalRule_foldl_feedbackPid _).trans globalRule_feedbackGlobal)
  | some pid =>
    have hrule' : st.feedbackGlobal.rules[pid]? = some rule := by
      rw [rules_feedbackGlobal]
      exact hrule
    have hmem : pid ∈ st.feedbackGlobal.rules.keys := by
      rw [Std.ExtTreeMap.mem_keys, Std.ExtTreeMap.mem_iff_isSome_getElem?, hrule']
      rfl
    have hfolded := foldl_feedbackPid Std.ExtTreeMap.nodup_keys hmem hrule'
    rwa [speeds_feedbackGlobal] at hfolded

end Feedback

/-- The row's rule is the machine's, or that of the PID. -/
def Governs : Option UInt32 → RowKind → Prop
  | some pid, kind => pid ∈ kind.pids
  | none, kind => kind = .global

variable (lower : Text → Text) (parseF64 : Text → Option ℚ)

/-- The rule is neither edited nor, with the engine, set back. -/
def Undisturbed (who : Option UInt32) : AppState → List Event → Prop
  | _, [] => True
  | st, e :: events => (e ≠ .stop ∧ ∀ row edit, st.edited lower parseF64 e = some (row, edit) →
      ¬ Governs who row.kind) ∧ Undisturbed who (st.step lower parseF64 e) events

/-- What the ticks measured, download first. -/
def meansOf (ticks : List Tick) : Option UInt32 → ℚ × ℚ
  | some pid => (recent ByteCounters.download (samplesOf ticks pid),
      recent ByteCounters.upload (samplesOf ticks pid))
  | none => (mean ((globalSamples EngineSnapshot.globalDownloadBytes ticks).rtake 5),
      mean ((globalSamples EngineSnapshot.globalUploadBytes ticks).rtake 5))

/-- What the running engine's ticks measure, each with the ticks before it. -/
def meansIn (who : Option UInt32) : List Tick → AppState → List Event → List (ℚ × ℚ)
  | _, _, [] => []
  | ticks, st, e :: events =>
    let ticks' := ticks ++ (st.tickOf e).toList
    let measured := match e with
      | .tick snapshot => if snapshot.running then [meansOf ticks' who] else []
      | _ => []
    measured ++ meansIn who ticks' (st.step lower parseF64 e) events

section Run
variable {lower : Text → Text} {parseF64 : Text → Option ℚ} {st : AppState} {ticks : List Tick}
  {who : Option UInt32} {rule : ProcessRule}

theorem Measured.measuredOf_eq (h : Measured ticks st) (who : Option UInt32) :
    st.measuredOf who = meansOf ticks who := by
  cases who with
  | none => exact Prod.ext h.globalDownload.bps h.globalUpload.bps
  | some pid => exact h.speedOf_eq pid

theorem ruleOf_of_ruleSet {st' : AppState} (h : st'.ruleSet = st.ruleSet) (who : Option UInt32) :
    st'.ruleOf who = st.ruleOf who := by
  injection h with hrules _ hglobal
  cases who with
  | none => exact congrArg some hglobal
  | some pid => exact congrArg (fun rules : RuleMap => rules[pid]?) hrules

/-- An edit of another row. -/
theorem ruleOf_of_edited {e : Event} {row : ProcessRow} {edit : FieldEdit}
    (hedited : st.edited lower parseF64 e = some (row, edit)) (h : ¬ Governs who row.kind) :
    (st.step lower parseF64 e).ruleOf who = st.ruleOf who := by
  have hruleSet := ruleSet_of_edited hedited
  cases who with
  | none =>
    have hglobal := congrArg RuleSet.globalRule hruleSet
    refine congrArg some (hglobal.trans ?_)
    cases hkind : row.kind with
    | global => exact absurd hkind h
    | group => rfl
    | child => rfl
  | some pid =>
    have hrules := congrArg (fun s : RuleSet => s.rules[pid]?) hruleSet
    exact hrules.trans ((RuleSet.getElem?_applyRuleToRow _ _ _ _).trans (if_neg h))

/-- A refresh gives no rule to a PID that has one. -/
theorem ruleOf_of_processes {e : Event} (he : e.processes.isSome)
    (hrule : st.ruleOf who = some rule) : (st.step lower parseF64 e).ruleOf who = some rule := by
  obtain ⟨processes, hprocesses⟩ := Option.isSome_iff_exists.mp he
  have hruleSet := ruleSet_of_processes lower parseF64 st hprocesses
  cases who with
  | none =>
    have hglobal := congrArg RuleSet.globalRule hruleSet
    exact (congrArg some hglobal).trans hrule
  | some pid =>
    have hrules := congrArg (fun s : RuleSet => s.rules[pid]?) hruleSet
    refine hrules.trans ?_
    have hold : st.rules[pid]? = some rule := hrule
    change (inheritNameRules lower st.rules st.nameRules processes).1[pid]? = _
    rw [getElem?_inheritNameRules, hold, Option.some_or]

theorem ruleOf_tick (snapshot : EngineSnapshot) (hrule : st.ruleOf who = some rule) :
    (st.tick snapshot).1.ruleOf who =
      some (if snapshot.running then nextRule rule ((st.measure snapshot).measuredOf who)
        else rule) := by
  have hmeasure : (st.measure snapshot).ruleOf who = some rule :=
    (ruleOf_of_ruleSet rfl who).trans hrule
  unfold AppState.tick
  dsimp only
  split
  · exact ruleOf_runAdaptiveFeedback hmeasure
  · exact hmeasure

/-- An undisturbed adaptive rule changes with the running engine's ticks only. -/
theorem ruleOf_step (h : Measured ticks st) (hrule : st.ruleOf who = some rule)
    (hadaptive : rule.adaptive) {e : Event} (hstop : e ≠ .stop)
    (hedited : ∀ row edit, st.edited lower parseF64 e = some (row, edit) → ¬ Governs who row.kind) :
    (st.step lower parseF64 e).ruleOf who =
      some ((meansIn lower parseF64 who ticks st [e]).foldl adapted rule) := by
  cases hedit : st.edited lower parseF64 e with
  | some p =>
    have hkept := (ruleOf_of_edited hedit (hedited p.1 p.2 hedit)).trans hrule
    cases e <;> first | exact hkept | cases hedit
  | none =>
    cases e with
    | stop => exact absurd rfl hstop
    | tick snapshot =>
      refine (ruleOf_tick snapshot hrule).trans ?_
      have hmeasured := (h.measure snapshot).measuredOf_eq who
      simp only [meansIn, tickOf, Option.toList_some, List.append_nil]
      split
      · rw [nextRule, if_pos hadaptive, hmeasured]
        rfl
      · rfl
    | rebuildRows | refreshTableOnTick => exact ruleOf_of_processes rfl hrule
    | start => exact (ruleOf_of_ruleSet (ruleSet_pushAllRules st) who).trans hrule
    | restartEngine started =>
      refine (ruleOf_of_ruleSet ?_ who).trans hrule
      simp only [AppState.step, restartEngine]
      split
      · exact ruleSet_pushAllRules _
      · rfl
    | engineExit => exact (ruleOf_of_ruleSet rfl who).trans hrule
    | _ =>
      have hkept := ruleSet_of_kept (kept_of_edited_none hedit rfl)
      exact (ruleOf_of_ruleSet hkept who).trans hrule

theorem meansIn_cons (e : Event) (events : List Event) :
    meansIn lower parseF64 who ticks st (e :: events) =
      meansIn lower parseF64 who ticks st [e] ++ meansIn lower parseF64 who
        (ticks ++ (st.tickOf e).toList) (st.step lower parseF64 e) events := by
  simp only [meansIn, List.append_nil]

theorem adaptive_of_persisted {rule' : ProcessRule} (h : rule'.persisted = rule.persisted) :
    rule'.adaptive = rule.adaptive := by
  have hadaptive := congrArg ProcessRule.adaptive h
  exact hadaptive

/-- Over a run that leaves it undisturbed, an adaptive rule takes the steps of the ticks. -/
theorem ruleOf_run (h : Measured ticks st) (hrule : st.ruleOf who = some rule)
    (hadaptive : rule.adaptive) {events : List Event}
    (hundisturbed : Undisturbed lower parseF64 who st events) :
    (st.run lower parseF64 events).ruleOf who =
      some ((meansIn lower parseF64 who ticks st events).foldl adapted rule) := by
  induction events generalizing ticks st rule with
  | nil => exact hrule
  | cons e events ih =>
    obtain ⟨⟨hstop, hedited⟩, hrest⟩ := hundisturbed
    have hstep := ruleOf_step h hrule hadaptive hstop hedited
    have hadaptive' := (adaptive_of_persisted
      (persisted_foldl_adapted rule (meansIn lower parseF64 who ticks st [e]))).trans hadaptive
    rw [meansIn_cons, List.foldl_append]
    exact ih (h.step e) hstep hadaptive' hrest

end Run

section Held
variable {lower : Text → Text} {parseF64 : Text → Option ℚ} {st : AppState}
  {who : Option UInt32} {rule : ProcessRule}

theorem mirrors_run {F : Type} [F32 F] (settings : AppSettings F) (events : List Event) :
    Mirrors ((new settings).run lower parseF64 events).engine
      ((new settings).run lower parseF64 events).ruleSet := by
  have hnew : Mirrors (new settings).engine (new settings).ruleSet := by
    refine ⟨fun pid _ => ?_, fun hrunning => absurd hrunning Bool.false_ne_true⟩
    rw [show (new settings).engine.ruleFor pid = default by simp [EngineView.ruleFor, new]]
    exact PacketEquivalent.refl default
  exact List.foldlRecOn (motive := fun st : AppState => Mirrors st.engine st.ruleSet) _ _ hnew
    fun _ hst e _ => hst.step e

/-- A running engine holds its packets to the rates of the rule. -/
theorem effectiveBps_heldFor (h : Mirrors st.engine st.ruleSet) (hrunning : st.engine.running)
    (hrule : st.ruleOf who = some rule) (direction : Direction) :
    (st.heldFor who).effectiveBps direction = rule.effectiveBps direction := by
  have hagrees := h.agrees hrunning
  cases who with
  | none =>
    obtain rfl := Option.some.inj hrule
    exact hagrees.globalRule.effectiveBps direction
  | some pid =>
    have hrules := (hagrees.rules pid).effectiveBps direction
    have hfor : st.ruleSet.ruleFor pid = rule := congrArg (·.getD default) hrule
    rwa [hfor] at hrules

theorem undisturbed_of_not_edits {events : List Event}
    (h : ∀ e ∈ events, e.edits = false ∧ e ≠ .stop) :
    Undisturbed lower parseF64 who st events := by
  induction events generalizing st with
  | nil => trivial
  | cons e events ih =>
    obtain ⟨⟨hedits, hstop⟩, hrest⟩ := List.forall_mem_cons.mp h
    refine ⟨⟨hstop, fun row edit hedited => ?_⟩, ih hrest⟩
    rw [edits_of_edited hedited] at hedits
    cases hedits

/-- The rate that a rule adapts to in one direction, and what the engine holds its packets to. -/
structure Holds (st : AppState) (who : Option UInt32) (direction : Direction) (target rate : ℚ) :
    Prop where
  adjusted : (st.ruleOf who).map (adjusted · direction) = some rate
  held : st.engine.running →
    (st.heldFor who).effectiveBps direction = some (if rate > 0 then rate else target)

theorem run_append (st : AppState) (before events : List Event) :
    st.run lower parseF64 (before ++ events) =
      (st.run lower parseF64 before).run lower parseF64 events :=
  List.foldl_append

/-- In a direction with a target, the rate after the run is the controller's. -/
theorem holds_run {F : Type} [F32 F] {settings : AppSettings F} {before events : List Event}
    (hrule : ((new settings).run lower parseF64 before).ruleOf who = some rule)
    (hadaptive : rule.adaptive)
    (hundisturbed :
      Undisturbed lower parseF64 who ((new settings).run lower parseF64 before) events)
    {direction : Direction} {target : ℚ} (htarget : rule.targetBps direction = some target) :
    Holds ((new settings).run lower parseF64 (before ++ events)) who direction target
      (settle target (adjusted rule direction)
        ((meansIn lower parseF64 who (ticksOf lower parseF64 (new settings) before)
          ((new settings).run lower parseF64 before) events).map (rateIn · direction))) := by
  have hmeasured := @Measured.run lower parseF64 _ _ (measured_new settings) before
  rw [List.nil_append] at hmeasured
  have hrun := ruleOf_run hmeasured hrule hadaptive hundisturbed
  rw [← run_append] at hrun
  refine ⟨?_, fun hrunning => ?_⟩
  · rw [hrun, Option.map_some, adjusted_foldl_adapted htarget]
  · have hheld := effectiveBps_heldFor (mirrors_run settings (before ++ events)) hrunning hrun
      direction
    have hpersisted := persisted_foldl_adapted rule (meansIn lower parseF64 who
      (ticksOf lower parseF64 (new settings) before)
      ((new settings).run lower parseF64 before) events)
    have htarget' := (targetBps_of_persisted hpersisted direction).trans htarget
    rw [hheld, effectiveBps_of_targetBps htarget', adaptive_of_persisted hpersisted,
      if_pos hadaptive, adjusted_foldl_adapted htarget]

/-- In every run, from any state on that has an adaptive rule for a process or the machine, and as
long as that rule is not edited and the engine not stopped: in each direction with a target, the
rate that the packets are held to is what the controller makes of the means that the ticks measured.
Once a tick measures some traffic that is not near the target, it is a twentieth of the target at
least, and the target at most. After 63 ticks that measure some traffic below 98 % of the target it
is the target; after eight that measure twice the target or more it is a twentieth of it. -/
theorem adaptive_limits {F : Type} [F32 F] (settings : AppSettings F) (before events : List Event)
    (hrule : ((new settings).run lower parseF64 before).ruleOf who = some rule)
    (hadaptive : rule.adaptive)
    (hundisturbed :
      Undisturbed lower parseF64 who ((new settings).run lower parseF64 before) events)
    (direction : Direction) (target : ℚ) (htarget : rule.targetBps direction = some target) :
    ∃ measured rate,
      measured = (meansIn lower parseF64 who (ticksOf lower parseF64 (new settings) before)
        ((new settings).run lower parseF64 before) events).map (rateIn · direction) ∧
      rate = settle target (adjusted rule direction) measured ∧
      Holds ((new settings).run lower parseF64 (before ++ events)) who direction target rate ∧
      ((∃ measuredAvg ∈ measured, Corrects target measuredAvg) → InBand target rate) ∧
      ((∀ measuredAvg ∈ measured, 100 ≤ measuredAvg ∧ measuredAvg < target * (98 / 100)) →
        63 ≤ measured.length → rate = target) ∧
      ((∀ measuredAvg ∈ measured, 100 ≤ measuredAvg ∧ target * 2 ≤ measuredAvg) →
        8 ≤ measured.length → rate = target * (5 / 100)) := by
  have ht := target_pos_of_targetBps htarget
  exact ⟨_, _, rfl, rfl, holds_run hrule hadaptive hundisturbed htarget, inBand_settle ht,
    settle_eq_target ht, settle_eq_floor ht⟩

/-- The machine is limited adaptively, with the engine running. -/
def limitedEvents : List Event :=
  [.setSpeedUnit .bytes, .start true, .rebuildRows [], .editBool 0 "limit_dl".toList true,
    .rebuildRows [], .editRowLimit 0 "dl".toList "1000".toList 0, .rebuildRows [],
    .editBool 0 "adaptive".toList true]

/-- Eight ticks that measure twice the limit. -/
def busyEvents : List Event :=
  .replicate 8 (.tick { running := true, globalDownloadBytes := 2048000 })

theorem adaptive_limits_busy : ∃ rate,
    Holds ((new countedSettings).run toAsciiLowercase (fun _ => none)
      (limitedEvents ++ busyEvents)) none .download 1024000 rate ∧ rate = 51200 := by
  have hundisturbed : Undisturbed toAsciiLowercase (fun _ => none) none
      ((new countedSettings).run toAsciiLowercase (fun _ => none) limitedEvents) busyEvents := by
    refine undisturbed_of_not_edits fun e he => ?_
    rw [List.eq_of_mem_replicate he]
    exact ⟨rfl, nofun⟩
  obtain ⟨measured, rate, hmeasured, -, hholds, -, -, hfloor⟩ :=
    adaptive_limits countedSettings limitedEvents busyEvents rfl (by decide +kernel) hundisturbed
      .download 1024000 (by decide +kernel)
  have hmeasured' : measured = .replicate 8 2048000 := hmeasured.trans (by decide +kernel)
  refine ⟨rate, hholds, (hfloor ?_ ?_).trans (by norm_num)⟩
  · intro measuredAvg hmem
    rw [hmeasured'] at hmem
    rw [List.eq_of_mem_replicate hmem]
    norm_num
  · rw [hmeasured', List.length_replicate]

end Held

end AppState

end FlowBrake.Ui
