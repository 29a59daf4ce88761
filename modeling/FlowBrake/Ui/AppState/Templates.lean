import Mathlib.Logic.Function.Basic
import FlowBrake.Lib.Transition
import FlowBrake.Ui.AppState.Step

/-! What edits of groups leave in the rules that are saved under their names. -/
namespace FlowBrake.Ui
open FlowBrake.Core FlowBrake.Windows Text

namespace FieldEdit

/-- The saved fields that the edit leaves alone. -/
def others (rule : ProcessRule) : FieldEdit → ProcessRule
  | blockAll _ => { rule.persisted with blockAll := false }
  | limitDownload _ => { rule.persisted with limitDownload := false }
  | limitUpload _ => { rule.persisted with limitUpload := false }
  | adaptive _ => { rule.persisted with adaptive := false }
  | downloadKbps _ => { rule.persisted with downloadKbps := 0 }
  | uploadKbps _ => { rule.persisted with uploadKbps := 0 }
  | downloadLoss _ => { rule.persisted with downloadLossBasisPoints := none }
  | uploadLoss _ => { rule.persisted with uploadLossBasisPoints := none }
  | downloadDelay _ => { rule.persisted with downloadDelayMs := none }
  | uploadDelay _ => { rule.persisted with uploadDelayMs := none }

theorem persisted_apply_eq_iff (edit : FieldEdit) (rule rule' : ProcessRule) :
    (edit.apply rule).persisted = (edit.apply rule').persisted ↔
      edit.others rule = edit.others rule' := by
  cases edit with
  | adaptive value => cases value <;> simp [apply, others, ProcessRule.persisted]
  | _ => simp [apply, others, ProcessRule.persisted]

/-- What an edit saves depends on what was saved only. -/
theorem persisted_apply_congr (edit : FieldEdit) {rule rule' : ProcessRule}
    (h : rule.persisted = rule'.persisted) :
    (edit.apply rule).persisted = (edit.apply rule').persisted := by
  rw [persisted_apply_eq_iff]
  cases edit <;> simp only [others, h]

end FieldEdit

namespace AppState
variable (lower : Text → Text) (parseF64 : Text → Option ℚ)

/-- The rule that is saved under a name. -/
def template (st : AppState) (key : Text) : ProcessRule := st.nameRules[key]?.getD default

/-- The name under which an event edits a group, and the edit. -/
def groupEdit (st : AppState) (e : Event) : Option (Text × FieldEdit) :=
  match st.edited lower parseF64 e with
  | some (⟨.group processName _ _ _ _, _, _, _⟩, edit) => some (lower processName, edit)
  | _ => none

/-- The edits of groups among the events, in order. -/
def groupEdits : AppState → List Event → List (Text × FieldEdit)
  | _, [] => []
  | st, e :: events =>
    (st.groupEdit lower parseF64 e).toList ++ groupEdits (st.step lower parseF64 e) events

/-- Each edit changes its field of the rule under its name. -/
def editTemplates (templates : Text → ProcessRule) (edits : List (Text × FieldEdit)) :
    Text → ProcessRule :=
  edits.foldl (fun templates (key, edit) =>
    Function.update templates key (edit.apply (templates key))) templates

variable {lower parseF64}

theorem template_eq_of_nameRules {st st' : AppState} (h : st'.nameRules = st.nameRules)
    (key : Text) : st'.template key = st.template key := by
  rw [template, template, h]

theorem groupEdit_eq_some {st : AppState} {e : Event} {key : Text} {edit : FieldEdit}
    (h : st.groupEdit lower parseF64 e = some (key, edit)) :
    ∃ row processName displayName exePath pids expanded,
      st.edited lower parseF64 e = some (row, edit) ∧
        row.kind = .group processName displayName exePath pids expanded ∧
          lower processName = key := by
  unfold groupEdit at h
  split at h
  · next hedited =>
    cases h
    exact ⟨_, _, _, _, _, _, hedited, rfl, rfl⟩
  · cases h

/-- An event that edits no group leaves the saved rules as they are. -/
theorem nameRules_of_groupEdit_none {st : AppState} {e : Event}
    (h : st.groupEdit lower parseF64 e = none) :
    (st.step lower parseF64 e).nameRules = st.nameRules := by
  cases hedited : st.edited lower parseF64 e with
  | none =>
    cases hp : e.processes with
    | none => exact (sameRules_of_edited_none hedited hp).nameRules
    | some processes =>
      exact congrArg RuleSet.nameRules (ruleSet_of_processes lower parseF64 st hp)
  | some p =>
    obtain ⟨⟨kind, _, _, rule⟩, edit⟩ := p
    have hset := congrArg RuleSet.nameRules (ruleSet_of_edited hedited)
    cases kind with
    | global => exact hset
    | child => exact hset
    | group => simp [groupEdit, hedited] at h

/-- An edit of a group saves the rule that its row showed, with the field changed. -/
theorem template_of_group {st : AppState} {e : Event} {row : ProcessRow} {edit : FieldEdit}
    {processName displayName exePath : Text} {pids : List UInt32} {expanded : Bool}
    (h : st.edited lower parseF64 e = some (row, edit))
    (hkind : row.kind = .group processName displayName exePath pids expanded) (key : Text) :
    ((st.step lower parseF64 e).template key).persisted =
      if key = lower processName then (edit.apply row.rule).persisted
      else (st.template key).persisted := by
  have hset := congrArg RuleSet.nameRules (ruleSet_of_edited h)
  rw [hkind] at hset
  rw [template, show (st.step lower parseF64 e).nameRules = _ from hset]
  by_cases hkey : key = lower processName
  · subst hkey
    by_cases hrule : (edit.apply row.rule).hasAnyRule
    · simp [RuleSet.applyRuleToRow, hrule]
    · rw [ProcessRule.persisted_of_not_hasAnyRule hrule]
      simp [RuleSet.applyRuleToRow, hrule]
  · have hne : lower processName ≠ key := Ne.symm hkey
    by_cases hrule : (edit.apply row.rule).hasAnyRule <;>
      simp [RuleSet.applyRuleToRow, hrule, hkey, hne, template, ruleSet,
        Std.ExtTreeMap.getElem?_insert, Std.ExtTreeMap.getElem?_erase]

variable (lower parseF64) in
/-- Where the event edits a group, the row shows the saved rule, but for the edited field. -/
def ShowsTemplate (st : AppState) (e : Event) : Prop :=
  ∀ row edit processName displayName exePath pids expanded,
    st.edited lower parseF64 e = some (row, edit) →
    row.kind = .group processName displayName exePath pids expanded →
      edit.others row.rule = edit.others (st.template (lower processName))

/-- The saved rules, and what the edits of groups alone would have saved. -/
def SavedAs (s : AppState × (Text → ProcessRule)) : Prop :=
  ∀ key, (s.1.template key).persisted = (s.2 key).persisted

variable (lower parseF64) in
def templateStep (s : AppState × (Text → ProcessRule)) (e : Event) :
    AppState × (Text → ProcessRule) :=
  (s.1.step lower parseF64 e, editTemplates s.2 (s.1.groupEdit lower parseF64 e).toList)

theorem foldl_templateStep (st : AppState) (templates : Text → ProcessRule) (events : List Event) :
    events.foldl (templateStep lower parseF64) (st, templates) =
      (st.run lower parseF64 events,
        editTemplates templates (groupEdits lower parseF64 st events)) := by
  induction events generalizing st templates with
  | nil => rfl
  | cons e events ih =>
    rw [List.foldl_cons, templateStep, ih, groupEdits, editTemplates, editTemplates, editTemplates,
      List.foldl_append]
    rfl

variable (lower parseF64) in
/-- One event keeps the saved rules to the edits of groups exactly if the edited group showed its
saved rule. -/
theorem savedAs_step_iff (s : AppState × (Text → ProcessRule)) (e : Event) (h : SavedAs s) :
    SavedAs (templateStep lower parseF64 s e) ↔ ShowsTemplate lower parseF64 s.1 e := by
  obtain ⟨st, templates⟩ := s
  cases hedit : st.groupEdit lower parseF64 e with
  | none =>
    have hnames := nameRules_of_groupEdit_none hedit
    constructor
    · intro _ row edit processName displayName exePath pids expanded hedited hkind
      obtain ⟨kind, _, _, _⟩ := row
      subst hkind
      simp [groupEdit, hedited] at hedit
    · intro _ key
      simp only [templateStep, hedit, template_eq_of_nameRules hnames]
      exact h key
  | some p =>
    obtain ⟨key, edit⟩ := p
    obtain ⟨row, processName, displayName, exePath, pids, expanded, hedited, hkind, rfl⟩ :=
      groupEdit_eq_some hedit
    have hshown : ShowsTemplate lower parseF64 st e ↔
        edit.others row.rule = edit.others (st.template (lower processName)) := by
      constructor
      · exact fun hall => hall _ _ _ _ _ _ _ hedited hkind
      · intro hrow row' edit' processName' _ _ _ _ hedited' hkind'
        rw [hedited, Option.some.injEq, Prod.mk.injEq] at hedited'
        obtain ⟨rfl, rfl⟩ := hedited'
        rw [hkind] at hkind'
        cases hkind'
        exact hrow
    have hintended : (edit.apply (templates (lower processName))).persisted =
        (edit.apply (st.template (lower processName))).persisted :=
      edit.persisted_apply_congr (h _).symm
    rw [hshown, ← FieldEdit.persisted_apply_eq_iff, ← hintended]
    constructor
    · intro hsaved
      have hkey := hsaved (lower processName)
      simpa [templateStep, hedit, editTemplates, template_of_group hedited hkind] using hkey
    · intro hrow key
      simp only [templateStep, hedit, editTemplates, template_of_group hedited hkind,
        Option.toList_some, List.foldl_cons, List.foldl_nil, Function.update_apply]
      split
      · exact hrow
      · exact h key

/-- The saved rules are what the edits of groups made of them, in every state of a run, exactly if
each edited group showed its saved rule. -/
theorem templates_follow_groupEdits_iff (lower : Text → Text) (parseF64 : Text → Option ℚ)
    (st : AppState) (events : List Event) :
    (∀ es, es <+: events → ∀ key,
      ((st.run lower parseF64 es).template key).persisted =
        (editTemplates st.template (groupEdits lower parseF64 st es) key).persisted) ↔
    ∀ es e, es ++ [e] <+: events → ShowsTemplate lower parseF64 (st.run lower parseF64 es) e := by
  have h := Transition.forall_prefix_iff (savedAs_step_iff lower parseF64)
    (s := (st, st.template)) (fun _ => rfl) events
  simp only [foldl_templateStep] at h
  exact h

section Browser

/-- One of two browsers is blocked on its own row; then their group is given a limit. -/
def browserEvents : List Event :=
  let processes : List ProcessInfo := [.new 10 "browser".toList, .new 20 "browser".toList]
  [.rebuildRows processes, .toggleRowExpanded 1, .rebuildRows processes,
    .editBool 2 "block".toList true, .rebuildRows processes,
    .editBool 1 "limit_dl".toList true]

/-- The block of the one browser is saved for all of them. -/
theorem templates_do_not_follow_groupEdits :
    groupEdits toAsciiLowercase (fun _ => none) {} browserEvents =
      [("browser".toList, .limitDownload true)] ∧
    ((AppState.run toAsciiLowercase (fun _ => none) {} browserEvents).template
        "browser".toList).persisted ≠
      (editTemplates (AppState.template {})
        (groupEdits toAsciiLowercase (fun _ => none) {} browserEvents)
          "browser".toList).persisted := by
  decide +kernel

end Browser

end AppState

end FlowBrake.Ui
