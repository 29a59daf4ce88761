import FlowBrake.Ui.AppState.Step

/-! What is left of the rule that the user gave to one process, once the table was refreshed. -/
namespace FlowBrake.Ui
open FlowBrake.Core FlowBrake.Windows Text

namespace AppState
variable {lower : Text → Text} {parseF64 : Text → Option ℚ}

/-- The rule that a process is held to. -/
def ruleFor (st : AppState) (pid : UInt32) : ProcessRule := (st.rules[pid]?.getD default).active

/-- A refresh that finds the process on the PID, under its name. -/
def Finds (pid : UInt32) (name : Text) (e : Event) : Prop :=
  ∃ processes, e.processes = some processes ∧ (∃ process ∈ processes, process.pid = pid) ∧
    ∀ process ∈ processes, process.pid = pid → process.name = name

theorem findSome?_templateFor {nameRules : NameRules} {processes : List ProcessInfo} {pid : UInt32}
    {name : Text} (hlisted : ∃ process ∈ processes, process.pid = pid)
    (hname : ∀ process ∈ processes, process.pid = pid → process.name = name) :
    processes.findSome? (templateFor lower nameRules pid) = nameRules[lower name]? := by
  induction processes with
  | nil => simp at hlisted
  | cons process rest ih =>
    rw [List.findSome?_cons]
    by_cases hpid : process.pid = pid
    · rw [templateFor, if_pos hpid, hname process List.mem_cons_self hpid]
      cases htemplate : nameRules[lower name]? with
      | some rule => rfl
      | none =>
        refine List.findSome?_eq_none_iff.mpr fun other hother => ?_
        unfold templateFor
        split
        · next hp => rw [hname other (List.mem_cons_of_mem _ hother) hp, htemplate]
        · rfl
    · rw [templateFor, if_neg hpid]
      refine ih ?_ fun other hother => hname other (List.mem_cons_of_mem _ hother)
      obtain ⟨other, hother, hp⟩ := hlisted
      rcases List.mem_cons.mp hother with rfl | hother
      · exact absurd hp hpid
      · exact ⟨other, hother, hp⟩

variable (lower parseF64) in
/-- A refresh fills a vacant PID with its name's rule, and does nothing to the others. -/
theorem getElem?_rules_of_finds (st : AppState) {pid : UInt32} {name : Text} {e : Event}
    (h : Finds pid name e) :
    (st.step lower parseF64 e).rules[pid]? = st.rules[pid]?.or st.nameRules[lower name]? ∧
      (st.step lower parseF64 e).nameRules = st.nameRules := by
  obtain ⟨processes, he, hlisted, hname⟩ := h
  have hset := ruleSet_of_processes lower parseF64 st he
  refine ⟨?_, congrArg RuleSet.nameRules hset⟩
  rw [show (st.step lower parseF64 e).rules = _ from congrArg RuleSet.rules hset]
  rw [getElem?_inheritNameRules, findSome?_templateFor hlisted hname]

theorem getElem?_rules_run {st : AppState} {pid : UInt32} {name : Text} {refreshes : List Event}
    (h : ∀ e ∈ refreshes, Finds pid name e) (hne : refreshes ≠ []) :
    (st.run lower parseF64 refreshes).rules[pid]? =
      st.rules[pid]?.or st.nameRules[lower name]? := by
  induction refreshes generalizing st with
  | nil => exact absurd rfl hne
  | cons e refreshes ih =>
    obtain ⟨hrules, hnames⟩ := getElem?_rules_of_finds lower parseF64 st (h e List.mem_cons_self)
    cases refreshes with
    | nil => exact hrules
    | cons e' rest =>
      change (run lower parseF64 (st.step lower parseF64 e) (e' :: rest)).rules[pid]? = _
      rw [ih (fun e he => h e (List.mem_cons_of_mem _ he)) (by simp), hrules, hnames,
        Option.or_assoc, Option.or_self]

/-- What the user sets for one process lasts through all refreshes, except where it is no rule at
all and the process's name has one. -/
theorem child_rule_lasts_iff (st : AppState) (processName displayName exePath : Text)
    (pid : UInt32) (rule : ProcessRule) (name : Text) (refreshes : List Event)
    (h : ∀ e ∈ refreshes, Finds pid name e) (hne : refreshes ≠ []) :
    ((st.applyRuleToRow lower (.child processName displayName exePath pid) rule).run
        lower parseF64 refreshes).ruleFor pid = rule.active ↔
      rule.hasAnyRule ∨ ∀ template ∈ st.nameRules[lower name]?, ¬ template.hasAnyRule := by
  have hrules : (st.applyRuleToRow lower (.child processName displayName exePath pid)
      rule).rules[pid]? = if rule.hasAnyRule then some rule else none :=
    (getElem?_updatePidRule st.rules pid pid rule).trans (if_pos rfl)
  have hnames : (st.applyRuleToRow lower (.child processName displayName exePath pid)
      rule).nameRules = st.nameRules := rfl
  rw [ruleFor, getElem?_rules_run h hne, hrules, hnames]
  by_cases hrule : rule.hasAnyRule
  · simp [hrule]
  · simp only [hrule, Bool.false_eq_true, if_false, Option.none_or, false_or,
      ProcessRule.active_of_not_hasAnyRule hrule]
    cases st.nameRules[lower name]? with
    | none => simp
    | some template => simp [ProcessRule.active_eq_default_iff]

section Browser

def browserName : Text := "browser".toList

def browserProcesses : List ProcessInfo := [.new 10 browserName, .new 20 browserName]

/-- Both browsers are blocked through their name, and shown with a row each. -/
def blockedBrowsers : AppState :=
  { expanded := .ofList [browserName]
    nameRules := (∅ : NameRules).insert browserName { blockAll := true } : AppState }.run
      toAsciiLowercase (fun _ => none) [.rebuildRows browserProcesses]

theorem finds_browser : Finds 10 browserName (.rebuildRows browserProcesses) :=
  ⟨browserProcesses, rfl, by decide, by decide⟩

theorem child_rule_lasts_limited :
    ((blockedBrowsers.applyRuleToRow toAsciiLowercase (.child browserName browserName [] 10)
        { limitDownload := true, downloadKbps := 64 }).run toAsciiLowercase (fun _ => none)
          [.rebuildRows browserProcesses]).ruleFor 10 =
      { limitDownload := true, downloadKbps := 64 } :=
  (child_rule_lasts_iff blockedBrowsers browserName browserName [] 10
    { limitDownload := true, downloadKbps := 64 } browserName [.rebuildRows browserProcesses]
    (by simpa using finds_browser) (by simp)).mpr (.inl rfl)

/-- One browser is released by a click on its row, and blocked again by the next refresh. -/
theorem child_rule_does_not_last :
    blockedBrowsers.edited toAsciiLowercase (fun _ => none)
        (.editBool 2 "block".toList false) =
      some (⟨.child browserName browserName [] 10, 0, 0, { blockAll := true }⟩, .blockAll false) ∧
    ((blockedBrowsers.applyRuleToRow toAsciiLowercase (.child browserName browserName [] 10)
        (FieldEdit.apply { blockAll := true } (.blockAll false))).run toAsciiLowercase
          (fun _ => none) [.rebuildRows browserProcesses]).ruleFor 10 ≠
      (FieldEdit.apply { blockAll := true } (.blockAll false)).active := by
  decide +kernel

end Browser

end AppState

end FlowBrake.Ui
