import FlowBrake.Ui.AppState.Adaptive
import FlowBrake.Ui.AppState.Refresh

/-! What an edit of one field does to the rule that it is meant for. -/
namespace FlowBrake.Ui
open FlowBrake.Core FlowBrake.Windows Text

/-- A rule that is not adaptive has no adapted rate. -/
def Tidy (rule : ProcessRule) : Prop :=
  rule.adaptive = false → rule.adjustedDlBps = 0 ∧ rule.adjustedUlBps = 0

theorem tidy_of_persisted (rule : ProcessRule) : Tidy rule.persisted := fun _ => ⟨rfl, rfl⟩

theorem tidy_of_adaptive {rule : ProcessRule} (h : rule.adaptive) : Tidy rule :=
  fun hadaptive => absurd h (by simp [hadaptive])

/-- A tidy rule without an active field has no field at all, and is not missed. -/
theorem Tidy.active_eq {rule : ProcessRule} (h : Tidy rule) : rule.active = rule := by
  by_cases hrule : rule.hasAnyRule
  · exact ProcessRule.active_of_hasAnyRule hrule
  · have hadaptive : rule.adaptive = false := by
      simp only [ProcessRule.hasAnyRule, Bool.or_eq_true, not_or, Bool.not_eq_true] at hrule
      exact hrule.1.1.1.1.2
    obtain ⟨hdl, hul⟩ := h hadaptive
    have hpersisted : rule.persisted = rule := by
      cases rule
      simp only at hdl hul
      rw [ProcessRule.persisted, hdl, hul]
    rw [ProcessRule.active_of_not_hasAnyRule hrule, ← ProcessRule.persisted_of_not_hasAnyRule hrule,
      hpersisted]

namespace FieldEdit

/-- The rule without what the edit sets. -/
def forget (rule : ProcessRule) : FieldEdit → ProcessRule
  | blockAll _ => { rule with blockAll := false }
  | limitDownload _ => { rule with limitDownload := false }
  | limitUpload _ => { rule with limitUpload := false }
  | adaptive value =>
    if value then { rule with adaptive := false }
    else { rule with adaptive := false, adjustedDlBps := 0, adjustedUlBps := 0 }
  | downloadKbps _ => { rule with downloadKbps := 0 }
  | uploadKbps _ => { rule with uploadKbps := 0 }
  | downloadLoss _ => { rule with downloadLossBasisPoints := none }
  | uploadLoss _ => { rule with uploadLossBasisPoints := none }
  | downloadDelay _ => { rule with downloadDelayMs := none }
  | uploadDelay _ => { rule with uploadDelayMs := none }

/-- The rules agree in all that the edit leaves as it is. -/
def AgreeElsewhere (edit : FieldEdit) (rule rule' : ProcessRule) : Prop :=
  edit.forget rule = edit.forget rule'

instance (edit : FieldEdit) (rule rule' : ProcessRule) :
    Decidable (edit.AgreeElsewhere rule rule') :=
  inferInstanceAs (Decidable (_ = _))

theorem apply_eq_iff (edit : FieldEdit) (rule rule' : ProcessRule) :
    edit.apply rule = edit.apply rule' ↔ edit.AgreeElsewhere rule rule' := by
  cases rule
  cases rule'
  cases edit with
  | adaptive value => cases value <;> simp [apply, forget, AgreeElsewhere]
  | _ => simp [apply, forget, AgreeElsewhere]

theorem tidy_apply {rule : ProcessRule} (h : Tidy rule) (edit : FieldEdit) :
    Tidy (edit.apply rule) := by
  cases edit with
  | adaptive value =>
    cases value with
    | false => exact fun _ => ⟨rfl, rfl⟩
    | true => exact tidy_of_adaptive rfl
  | _ => exact h

end FieldEdit

/-- The user looks around. -/
def Event.browses : Event → Bool
  | selectRow _ | clearSelection | toggleRowExpanded _ | setLimitEditing _ | setSpeedUnit _
  | setIpv6Enabled _ => true
  | _ => false

/-- The row stands for one rule. -/
def Single : RowKind → Prop
  | .global => True
  | .group _ _ _ pids _ => pids.length = 1
  | .child _ _ _ _ => True

namespace AppState

/-- The rule that a row stands for, of the user's rules. -/
def RuleSet.ruleOf (s : RuleSet) (kind : RowKind) : ProcessRule := kind.rule s.rules s.globalRule

section
variable {lower : Text → Text} {parseF64 : Text → Option ℚ} {st : AppState} {e : Event}

/-- A tidy rule is found where it was written. -/
theorem RuleSet.ruleOf_applyRuleToRow (s : RuleSet) {kind : RowKind} (hkind : Single kind)
    {rule : ProcessRule} (hrule : Tidy rule) :
    (s.applyRuleToRow lower kind rule).ruleOf kind = rule := by
  have hget (pid : UInt32) (hpid : pid ∈ kind.pids) :
      (s.applyRuleToRow lower kind rule).rules[pid]?.getD {} = rule := by
    have hactive := hrule.active_eq
    rw [RuleSet.getElem?_applyRuleToRow, if_pos hpid]
    by_cases hany : rule.hasAnyRule
    · rw [if_pos hany, Option.getD_some]
    · rw [ProcessRule.active_of_not_hasAnyRule hany] at hactive
      rw [if_neg hany, Option.getD_none]
      exact hactive
  cases kind with
  | global => rfl
  | child processName displayName exePath pid => exact hget pid List.mem_cons_self
  | group processName displayName exePath pids expanded =>
    obtain ⟨pid, rfl⟩ := List.length_eq_one_iff.mp hkind
    rw [RuleSet.ruleOf, RowKind.rule, firstExistingRule, List.findSome?_singleton]
    exact hget pid List.mem_cons_self

variable (lower parseF64) in
/-- The event edits one field of the rule that the row stands for, and no other. -/
def EditsField (st : AppState) (e : Event) : Prop :=
  ∀ row edit, st.edited lower parseF64 e = some (row, edit) → Single row.kind →
    (st.step lower parseF64 e).ruleSet.ruleOf row.kind = edit.apply (st.ruleSet.ruleOf row.kind)

variable (lower parseF64) in
/-- The row's copy of the rule is right in the other fields. -/
def CopyAgrees (st : AppState) (e : Event) : Prop :=
  ∀ row edit, st.edited lower parseF64 e = some (row, edit) → Single row.kind →
    edit.AgreeElsewhere row.rule (st.ruleSet.ruleOf row.kind)

theorem editsField_iff (h : Everywhere Tidy st) :
    EditsField lower parseF64 st e ↔ CopyAgrees lower parseF64 st e := by
  refine forall₂_congr fun row edit => forall₂_congr fun hedited hkind => ?_
  have hrow : Tidy row.rule := (h.2 row (mem_rows_of_edited hedited)).1
  rw [ruleSet_of_edited hedited, RuleSet.ruleOf_applyRuleToRow _ hkind (edit.tidy_apply hrow),
    edit.apply_eq_iff]

theorem tidy_of_adjust {rule rule' : ProcessRule} {direction : Direction} {measuredBps : ℚ}
    (hadaptive : rule.adaptive) (h : adjust rule direction measuredBps = some rule') :
    Tidy rule' :=
  tidy_of_adaptive ((adaptive_of_adjust h).trans hadaptive)

/-- Every event leaves all rules tidy. -/
theorem everywhere_tidy_step (h : Everywhere Tidy st) (e : Event) :
    Everywhere Tidy (st.step lower parseF64 e) :=
  h.step tidy_of_persisted (fun _ _ _ _ _ => tidy_of_adjust)
    fun _ edit _ hrow => edit.tidy_apply hrow

theorem everywhere_tidy_run (h : Everywhere Tidy st) (events : List Event) :
    Everywhere Tidy (st.run lower parseF64 events) := by
  induction events generalizing st with
  | nil => exact h
  | cons e events ih => exact ih (everywhere_tidy_step h e)

end

section Rebuilt
variable {lower : Text → Text} {parseF64 : Text → Option ℚ} {st : AppState}

/-- Every row shows its rule as it is. -/
def AllUpToDate (st : AppState) : Prop := ∀ row ∈ st.rows, st.UpToDate row

/-- A rebuild brings every row up to date. -/
theorem allUpToDate_rebuildRows (st : AppState) (processes : List ProcessInfo) :
    AllUpToDate (st.rebuildRows lower processes) := by
  intro row hrow
  obtain ⟨inherited, hinherited⟩ : ∃ inherited, st.applyNameRulesFrom lower processes = inherited :=
    ⟨_, rfl⟩
  have hset : (st.rebuildRows lower processes).ruleSet = inherited.ruleSet :=
    hinherited ▸ ruleSet_rebuildRowsFrom lower _ processes
  have hpairs := map_kind_rule_refreshRowSpeeds { inherited with
    rows := buildProcessRows lower processes inherited.expanded inherited.rules inherited.speeds
      inherited.globalRule .process .ascending }
  have hmem : (row.kind, row.rule) ∈ (inherited.rebuildRowsFrom lower processes).rows.map
      fun row => (row.kind, row.rule) := by
    subst hinherited
    exact List.mem_map_of_mem hrow
  rw [rebuildRowsFrom, hpairs] at hmem
  obtain ⟨built, hbuilt, hpair⟩ := List.mem_map.mp hmem
  injection hpair with hkind hrule
  have hshown := rule_of_mem_buildProcessRows hbuilt
  rw [hkind, hrule] at hshown
  change row.rule = (st.rebuildRows lower processes).ruleSet.ruleOf row.kind
  rw [hset, hshown]
  rfl

theorem AllUpToDate.of_kept {st' : AppState} (h : AllUpToDate st) (hkept : st'.kept = st.kept) :
    AllUpToDate st' := by
  intro row hrow
  rw [rows_of_kept hkept] at hrow
  have hrule : row.rule = st.ruleSet.ruleOf row.kind := h row hrow
  rw [← ruleSet_of_kept hkept] at hrule
  exact hrule

theorem kept_of_browses {e : Event} (h : e.browses) :
    (st.step lower parseF64 e).kept = st.kept := by
  cases e with
  | selectRow | clearSelection | toggleRowExpanded | setLimitEditing | setSpeedUnit
  | setIpv6Enabled => exact kept_of_edited_none rfl rfl
  | _ => cases h

theorem AllUpToDate.run (h : AllUpToDate st) {browsing : List Event}
    (hbrowsing : ∀ e ∈ browsing, e.browses) : AllUpToDate (st.run lower parseF64 browsing) := by
  induction browsing generalizing st with
  | nil => exact h
  | cons e browsing ih =>
    have hstep : AllUpToDate (st.step lower parseF64 e) :=
      h.of_kept (kept_of_browses (hbrowsing e List.mem_cons_self))
    exact ih hstep fun e he => hbrowsing e (List.mem_cons_of_mem _ he)

/-- A row that is up to date is right in all fields. -/
theorem AllUpToDate.copyAgrees (h : AllUpToDate st) (e : Event) :
    CopyAgrees lower parseF64 st e := by
  intro row edit hedited _
  have hrow : row.rule = st.ruleSet.ruleOf row.kind := h row (mem_rows_of_edited hedited)
  exact congrArg (edit.forget ·) hrow

end Rebuilt

/-- Whatever happened before, an edit changes its field only, exactly if the row's copy of the
rule is right in all others. -/
theorem editsField_run_iff {F : Type} [F32 F] (lower : Text → Text)
    (parseF64 : Text → Option ℚ) (contents : Option Text) (events : List Event) (e : Event) :
    let st := (AppState.new (AppSettings.load lower contents : AppSettings F)).run lower parseF64
      events
    EditsField lower parseF64 st e ↔ CopyAgrees lower parseF64 st e :=
  editsField_iff (everywhere_tidy_run (everywhere_new lower tidy_of_persisted contents) events)

/-- So it does where the table was rebuilt, and since then the user looked around only. -/
theorem editsField_of_rebuilt {F : Type} [F32 F] (lower : Text → Text)
    (parseF64 : Text → Option ℚ) (contents : Option Text) (before : List Event)
    (processes : List ProcessInfo) {browsing : List Event} (h : ∀ e ∈ browsing, e.browses)
    (e : Event) : EditsField lower parseF64
      ((AppState.new (AppSettings.load lower contents : AppSettings F)).run lower parseF64
        (before ++ .rebuildRows processes :: browsing)) e := by
  apply (editsField_run_iff lower parseF64 contents _ e).mpr
  rw [run, List.foldl_append]
  exact ((allUpToDate_rebuildRows _ processes).run h).copyAgrees e

section Feedback

/-- The machine is limited adaptively, a tick adapts its rate, and the refresh of the table finds
the same processes. -/
def adaptedEvents : List Event :=
  let processes : List ProcessInfo := [.new 10 "browser".toList]
  [.setSpeedUnit .bytes, .rebuildRows processes, .start true,
    .editBool 0 "limit_dl".toList true, .rebuildRows processes,
    .editRowLimit 0 "dl".toList "1000".toList 0, .rebuildRows processes,
    .editBool 0 "adaptive".toList true, .rebuildRows processes,
    .tick { running := true, globalDownloadBytes := 2048000 }, .refreshTableOnTick processes]

/-- A block of the machine undoes the step of the controller. -/
theorem not_editsField_adapted : ¬ EditsField toAsciiLowercase (fun _ => none)
    ((AppState.new (AppSettings.load toAsciiLowercase none : AppSettings WholeF32)).run
      toAsciiLowercase (fun _ => none) adaptedEvents)
    (.editBool 0 "block".toList true) := by
  intro h
  have hrow : ∃ row, (AppState.edited toAsciiLowercase (fun _ => none)
      ((AppState.new (AppSettings.load toAsciiLowercase none : AppSettings WholeF32)).run
        toAsciiLowercase (fun _ => none) adaptedEvents)
      (.editBool 0 "block".toList true)) = some (row, .blockAll true) ∧ row.kind = .global :=
    ⟨_, by rfl, rfl⟩
  obtain ⟨row, hedited, hkind⟩ := hrow
  have hrule := h row (.blockAll true) hedited (by rw [hkind]; trivial)
  rw [hkind] at hrule
  exact absurd hrule (by decide +kernel)

end Feedback

end AppState

end FlowBrake.Ui
