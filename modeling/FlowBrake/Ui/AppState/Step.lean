import FlowBrake.Ui.AppState

/-! What one event does to the rules and to the table. -/
namespace FlowBrake.Ui
open FlowBrake.Core FlowBrake.Windows Text

/-- Whether the event reads the processes or concerns the engine. -/
def Event.operates : Event → Bool
  | rebuildRows _ | refreshTableOnTick _ | tick _ | start _ | stop | restartEngine _
  | engineExit => true
  | _ => false

/-- Whether the event is an input for a field of a rule. -/
def Event.edits : Event → Bool
  | editBool .. | editSelectedBool .. | editRowLimit .. | editSelectedLimit .. | editSelectedLoss ..
  | editSelectedDelay .. => true
  | _ => false

namespace AppState

/-- The rules that the user has set, on every level. -/
structure RuleSet where
  rules : RuleMap
  nameRules : NameRules
  globalRule : GlobalRule

def ruleSet (st : AppState) : RuleSet where
  rules := st.rules
  nameRules := st.nameRules
  globalRule := st.globalRule

section Inheritance
variable (lower : Text → Text)

/-- The rule that a listed process takes over from its name. -/
def templateFor (nameRules : NameRules) (pid : UInt32) (process : ProcessInfo) :
    Option ProcessRule :=
  if process.pid = pid then nameRules[lower process.name]? else none

/-- Rules stay as they are, and vacant PIDs take the rule of the first name that has one. -/
theorem getElem?_inheritNameRules (rules : RuleMap) (nameRules : NameRules)
    (processes : List ProcessInfo) (pid : UInt32) :
    (inheritNameRules lower rules nameRules processes).1[pid]? =
      rules[pid]?.or (processes.findSome? (templateFor lower nameRules pid)) := by
  induction processes generalizing rules with
  | nil => simp [inheritNameRules]
  | cons process rest ih =>
    rw [inheritNameRules, List.findSome?_cons]
    by_cases hpid : process.pid = pid
    · subst hpid
      cases htemplate : nameRules[lower process.name]? with
      | none => simp [templateFor, htemplate, ih]
      | some rule =>
        by_cases hmem : process.pid ∈ rules
        · simp [ih, hmem]
        · simp [ih, hmem, templateFor, htemplate]
    · have hother : templateFor lower nameRules pid process = none := if_neg hpid
      rw [hother]
      cases nameRules[lower process.name]? with
      | none => exact ih rules
      | some rule =>
        by_cases hmem : process.pid ∈ rules
        · simp [ih, hmem]
        · simp [ih, hmem, Std.ExtTreeMap.getElem?_insert, hpid]

end Inheritance

section Frame
variable (lower : Text → Text) (parseF64 : Text → Option ℚ) (st : AppState)

@[simp] theorem ruleSet_send (command : EngineCommand) : (st.send command).ruleSet = st.ruleSet :=
  rfl

@[simp] theorem ruleSet_refreshRowSpeeds : st.refreshRowSpeeds.ruleSet = st.ruleSet := by
  unfold refreshRowSpeeds
  split <;> rfl

@[simp] theorem ruleSet_rebuildRowsFrom (processes : List ProcessInfo) :
    (st.rebuildRowsFrom lower processes).ruleSet = st.ruleSet := by
  rw [rebuildRowsFrom, ruleSet_refreshRowSpeeds]
  rfl

/-- Commands reach the engine only. -/
theorem foldl_send {α : Type} (command : α → EngineCommand) (as : List α) :
    as.foldl (fun st a => st.send (command a)) st =
      { st with engine := as.foldl (fun engine a => engine.apply (command a)) st.engine } := by
  induction as generalizing st with
  | nil => rfl
  | cons a as ih => rw [List.foldl_cons, ih, send, List.foldl_cons]

@[simp] theorem ruleSet_applyNameRulesFrom (processes : List ProcessInfo) :
    (st.applyNameRulesFrom lower processes).ruleSet =
      { st.ruleSet with rules := (inheritNameRules lower st.rules st.nameRules processes).1 } := by
  unfold applyNameRulesFrom
  dsimp only
  split
  · rw [foldl_send _ fun p : UInt32 × ProcessRule => .updateRule p.1 (runtimeRule p.2)]
    rfl
  · rfl

@[simp] theorem ruleSet_rebuildRows (processes : List ProcessInfo) :
    (st.rebuildRows lower processes).ruleSet =
      { st.ruleSet with rules := (inheritNameRules lower st.rules st.nameRules processes).1 } :=
  (ruleSet_rebuildRowsFrom lower _ processes).trans (ruleSet_applyNameRulesFrom lower st processes)

@[simp] theorem ruleSet_refreshTableOnTick (processes : List ProcessInfo) :
    (st.refreshTableOnTick lower processes).ruleSet =
      { st.ruleSet with rules := (inheritNameRules lower st.rules st.nameRules processes).1 } := by
  rw [refreshTableOnTick]
  split
  · rw [ruleSet_rebuildRowsFrom]
    exact ruleSet_applyNameRulesFrom lower st processes
  · rw [ruleSet_refreshRowSpeeds]
    exact ruleSet_applyNameRulesFrom lower st processes

@[simp] theorem ruleSet_pushAllRules : st.pushAllRules.ruleSet = st.ruleSet := by
  rw [pushAllRules, foldl_send _ fun p : UInt32 × ProcessRule => .updateRule p.1 (runtimeRule p.2)]
  rfl

/-- A refresh hands out the names' rules. -/
theorem ruleSet_of_processes {e : Event} {processes : List ProcessInfo}
    (h : e.processes = some processes) : (st.step lower parseF64 e).ruleSet =
      { st.ruleSet with rules := (inheritNameRules lower st.rules st.nameRules processes).1 } := by
  cases e <;> cases h
  · exact ruleSet_rebuildRows lower st processes
  · exact ruleSet_refreshTableOnTick lower st processes

end Frame

section Edits
variable {lower : Text → Text} {parseF64 : Text → Option ℚ} {st : AppState}

/-- `apply_rule_to_row` on the rules alone. -/
def RuleSet.applyRuleToRow (lower : Text → Text) (s : RuleSet) (kind : RowKind)
    (rule : ProcessRule) : RuleSet :=
  match kind with
  | .global => { s with globalRule := rule }
  | .group processName _ _ pids _ =>
    let key := lower processName
    { s with
      nameRules := if rule.hasAnyRule then s.nameRules.insert key rule else s.nameRules.erase key
      rules := pids.foldl (fun rules pid => updatePidRule rules pid rule) s.rules }
  | .child _ _ _ pid => { s with rules := updatePidRule s.rules pid rule }

theorem ruleSet_applyRuleToRow (st : AppState) (kind : RowKind) (rule : ProcessRule) :
    (st.applyRuleToRow lower kind rule).ruleSet = st.ruleSet.applyRuleToRow lower kind rule := by
  cases kind <;> rfl

theorem toOption_eq_some_iff {ε α : Type} {x : Except ε α} {a : α} :
    x.toOption = some a ↔ x = .ok a := by
  cases x <;> simp [Except.toOption]

theorem getElem?_updatePidRule (rules : RuleMap) (pid pid' : UInt32) (rule : ProcessRule) :
    (updatePidRule rules pid rule)[pid']? =
      if pid' = pid then if rule.hasAnyRule then some rule else none else rules[pid']? := by
  unfold updatePidRule
  by_cases hpid : pid' = pid
  · subst hpid
    split <;> simp
  · have hne : pid ≠ pid' := Ne.symm hpid
    split <;> simp [Std.ExtTreeMap.getElem?_insert, Std.ExtTreeMap.getElem?_erase, hne]

theorem getElem?_foldl_updatePidRule (pids : List UInt32) (rules : RuleMap) (rule : ProcessRule)
    (pid : UInt32) : (pids.foldl (fun rules pid => updatePidRule rules pid rule) rules)[pid]? =
      if pid ∈ pids then if rule.hasAnyRule then some rule else none else rules[pid]? := by
  induction pids generalizing rules with
  | nil => simp
  | cons first pids ih =>
    rw [List.foldl_cons, ih, getElem?_updatePidRule]
    by_cases hpid : pid ∈ pids <;> simp [hpid]

/-- The rule goes to the PIDs of the row, and to no other. -/
theorem RuleSet.getElem?_applyRuleToRow (s : RuleSet) (kind : RowKind) (rule : ProcessRule)
    (pid : UInt32) : (s.applyRuleToRow lower kind rule).rules[pid]? =
      if pid ∈ kind.pids then if rule.hasAnyRule then some rule else none
      else s.rules[pid]? := by
  cases kind with
  | global => simp [applyRuleToRow, RowKind.pids]
  | group => exact getElem?_foldl_updatePidRule _ _ _ _
  | child => simp [applyRuleToRow, RowKind.pids, getElem?_updatePidRule]

/-- What neither a selection nor a draft changes. -/
def kept (st : AppState) : EngineView × RuleSet × List ProcessRow :=
  (st.engine, st.ruleSet, st.rows)

theorem engine_of_kept {st st' : AppState} (h : st'.kept = st.kept) : st'.engine = st.engine :=
  congrArg Prod.fst h

theorem ruleSet_of_kept {st st' : AppState} (h : st'.kept = st.kept) : st'.ruleSet = st.ruleSet :=
  congrArg (·.2.1) h

theorem rows_of_kept {st st' : AppState} (h : st'.kept = st.kept) : st'.rows = st.rows :=
  congrArg (·.2.2) h

/-- The table's rows, and what they were built from. -/
def table (st : AppState) : List ProcessRow × TableFingerprint := (st.rows, st.tableFingerprint)

/-- The states differ in a selection, a draft or a setting of the window at most. -/
structure Browsed (st st' : AppState) : Prop where
  kept : st'.kept = st.kept
  table : st'.table = st.table

theorem browsed_setLossDraft (draft : Option Text) (direction : Direction) :
    Browsed st (st.setLossDraft draft direction) := by
  cases direction <;> exact ⟨rfl, rfl⟩

theorem browsed_setDelayDraft (draft : Option Text) (direction : Direction) :
    Browsed st (st.setDelayDraft draft direction) := by
  cases direction <;> exact ⟨rfl, rfl⟩

theorem browsed_toggleRowExpanded (rowIndex : ℤ) :
    Browsed st (st.toggleRowExpanded lower rowIndex) := by
  unfold toggleRowExpanded
  split
  · split
    · exact ⟨rfl, rfl⟩
    · split <;> exact ⟨rfl, rfl⟩
  · exact ⟨rfl, rfl⟩

/-- A text that a field of the selected row does not allow changes its draft alone. -/
theorem exists_browsed_editSelectedText {ε α : Type}
    {setDraft : AppState → Option Text → Direction → AppState}
    (hdraft : ∀ draft direction, Browsed st (setDraft st draft direction))
    (parse : Text → Except ε α) (edit : α → Direction → FieldEdit) (direction text : Text) :
    ∃ st', Browsed st st' ∧
      (st.editSelectedText lower parse setDraft edit direction text).1 =
        match (do
          let row ← st.selectedRow lower
          let direction ← FieldEdit.direction direction
          return (row, edit (← (parse text).toOption) direction)) with
        | some (row, edit) => st'.applyRuleToRow lower row.kind (edit.apply row.rule)
        | none => st' := by
  unfold editSelectedText
  cases st.selectedRow lower with
  | none => exact ⟨st, ⟨rfl, rfl⟩, rfl⟩
  | some row =>
    cases FieldEdit.direction direction with
    | none => exact ⟨st, ⟨rfl, rfl⟩, rfl⟩
    | some side =>
      cases parse text with
      | error message => exact ⟨_, hdraft (some text) side, rfl⟩
      | ok value => exact ⟨_, hdraft none side, rfl⟩

variable (lower parseF64) in
/-- An edit handler applies the changed rule to the row that showed it, if its input comes to an
edit. -/
theorem step_edits (st : AppState) {e : Event} (he : e.edits) : ∃ st', Browsed st st' ∧
    st.step lower parseF64 e = match st.edited lower parseF64 e with
      | some (row, edit) => st'.applyRuleToRow lower row.kind (edit.apply row.rule)
      | none => st' := by
  cases e with
  | editBool rowIndex field value =>
    simp only [step, editBool, edited]
    cases st.rowAt rowIndex with
    | none => exact ⟨st, ⟨rfl, rfl⟩, rfl⟩
    | some row =>
      refine ⟨{ st with selected := some (.ofKind lower row.kind) }, ⟨rfl, rfl⟩, ?_⟩
      cases FieldEdit.ofBool field value <;> rfl
  | editSelectedBool field value =>
    simp only [step, editSelectedBool, edited]
    cases st.selectedRow lower with
    | none => exact ⟨st, ⟨rfl, rfl⟩, rfl⟩
    | some row =>
      refine ⟨st, ⟨rfl, rfl⟩, ?_⟩
      cases FieldEdit.ofBool field value <;> rfl
  | editRowLimit rowIndex direction text now =>
    simp only [step, editRowLimit, edited]
    cases st.rowAt rowIndex with
    | none => exact ⟨st, ⟨rfl, rfl⟩, rfl⟩
    | some row =>
      cases parseLimitInput parseF64 text st.speedUnit with
      | none => exact ⟨st, ⟨rfl, rfl⟩, rfl⟩
      | some kibps =>
        refine ⟨{ st with
          selected := some (.ofKind lower row.kind)
          suppressTableRefreshUntil := suppressDeadline now }, ⟨rfl, rfl⟩, ?_⟩
        cases FieldEdit.direction direction <;> rfl
  | editSelectedLimit direction text now =>
    simp only [step, editSelectedLimit, edited]
    cases st.selectedRow lower with
    | none => exact ⟨st, ⟨rfl, rfl⟩, rfl⟩
    | some row =>
      cases parseLimitInput parseF64 text st.speedUnit with
      | none => exact ⟨st, ⟨rfl, rfl⟩, rfl⟩
      | some kibps =>
        refine ⟨{ st with suppressTableRefreshUntil := suppressDeadline now }, ⟨rfl, rfl⟩, ?_⟩
        cases FieldEdit.direction direction <;> rfl
  | editSelectedLoss direction text =>
    exact exists_browsed_editSelectedText browsed_setLossDraft parseLossPercent .loss direction text
  | editSelectedDelay direction text =>
    exact exists_browsed_editSelectedText browsed_setDelayDraft parseDelayMs .delay direction text
  | _ => cases he

theorem edits_of_edited {e : Event} {row : ProcessRow} {edit : FieldEdit}
    (h : st.edited lower parseF64 e = some (row, edit)) : e.edits := by
  cases e with
  | editBool | editSelectedBool | editRowLimit | editSelectedLimit | editSelectedLoss
  | editSelectedDelay => rfl
  | _ => cases h

/-- An edit applies the changed rule to the row that showed it. -/
theorem step_of_edited {e : Event} {row : ProcessRow} {edit : FieldEdit}
    (h : st.edited lower parseF64 e = some (row, edit)) :
    ∃ st', st.step lower parseF64 e = applyRuleToRow lower st' row.kind (edit.apply row.rule) ∧
      st'.kept = st.kept := by
  obtain ⟨st', hbrowsed, hstep⟩ := step_edits lower parseF64 st (edits_of_edited h)
  rw [h] at hstep
  exact ⟨st', hstep, hbrowsed.kept⟩

theorem mem_rows_of_rowAt {rowIndex : ℤ} {row : ProcessRow} (h : st.rowAt rowIndex = some row) :
    row ∈ st.rows := by
  unfold rowAt at h
  split at h
  · cases h
  · exact List.mem_of_getElem? h

theorem mem_rows_of_selectedRow {row : ProcessRow} (h : st.selectedRow lower = some row) :
    row ∈ st.rows := by
  obtain ⟨_, -, hfind⟩ := Option.bind_eq_some_iff.mp h
  exact List.mem_of_find?_eq_some hfind

/-- An event edits a row of the table. -/
theorem mem_rows_of_edited {e : Event} {row : ProcessRow} {edit : FieldEdit}
    (h : st.edited lower parseF64 e = some (row, edit)) : row ∈ st.rows := by
  cases e with
  | editBool | editRowLimit =>
    simp only [edited, Option.bind_eq_bind, Option.bind_eq_some_iff, Option.pure_def,
      Option.some.injEq, Prod.mk.injEq] at h
    obtain ⟨shown, hrow, h⟩ := h
    obtain rfl : shown = row := by grind
    exact mem_rows_of_rowAt hrow
  | editSelectedBool | editSelectedLimit | editSelectedLoss | editSelectedDelay =>
    simp only [edited, Option.bind_eq_bind, Option.bind_eq_some_iff, Option.pure_def,
      Option.some.injEq, Prod.mk.injEq] at h
    obtain ⟨shown, hrow, h⟩ := h
    obtain rfl : shown = row := by grind
    exact mem_rows_of_selectedRow hrow
  | _ => cases h

theorem ruleSet_of_edited {e : Event} {row : ProcessRow} {edit : FieldEdit}
    (h : st.edited lower parseF64 e = some (row, edit)) : (st.step lower parseF64 e).ruleSet =
      st.ruleSet.applyRuleToRow lower row.kind (edit.apply row.rule) := by
  obtain ⟨st', hstep, hkept⟩ := step_of_edited h
  rw [hstep, ruleSet_applyRuleToRow, ruleSet_of_kept hkept]

/-- An edit that comes to nothing changes no more than a selection does. -/
theorem browsed_of_edited_none {e : Event} (h : st.edited lower parseF64 e = none)
    (he : e.operates = false) : Browsed st (st.step lower parseF64 e) := by
  by_cases hedits : e.edits
  · obtain ⟨st', hbrowsed, hstep⟩ := step_edits lower parseF64 st hedits
    rw [h] at hstep
    rw [hstep]
    exact hbrowsed
  · cases e with
    | selectRow | clearSelection | setLimitEditing | setSpeedUnit | setIpv6Enabled =>
      exact ⟨rfl, rfl⟩
    | toggleRowExpanded rowIndex => exact browsed_toggleRowExpanded rowIndex
    | editBool | editSelectedBool | editRowLimit | editSelectedLimit | editSelectedLoss
    | editSelectedDelay => exact absurd rfl hedits
    | _ => cases he

theorem kept_of_edited_none {e : Event} (h : st.edited lower parseF64 e = none)
    (he : e.operates = false) : (st.step lower parseF64 e).kept = st.kept :=
  (browsed_of_edited_none h he).kept

/-- Without an edit and without a refresh, the rules change by adaptation only. -/
structure SameRules (st st' : AppState) : Prop where
  nameRules : st'.nameRules = st.nameRules
  rules : ∀ pid : UInt32,
    st'.rules[pid]?.map ProcessRule.persisted = st.rules[pid]?.map ProcessRule.persisted

theorem SameRules.trans {st st' st'' : AppState} (h : SameRules st st')
    (h' : SameRules st' st'') : SameRules st st'' where
  nameRules := h'.nameRules.trans h.nameRules
  rules pid := (h'.rules pid).trans (h.rules pid)

theorem SameRules.of_ruleSet {st st' : AppState} (h : st'.ruleSet = st.ruleSet) :
    SameRules st st' where
  nameRules := congrArg RuleSet.nameRules h
  rules pid := by rw [show st'.rules = st.rules from congrArg RuleSet.rules h]

theorem sameRules_adjustGlobal (direction : Direction) (measuredBps : ℚ) :
    SameRules st (st.adjustGlobal direction measuredBps) := by
  unfold adjustGlobal
  split
  · exact .of_ruleSet rfl
  · exact ⟨rfl, fun _ => rfl⟩

theorem persisted_of_adjust {rule rule' : ProcessRule} {direction : Direction} {measuredBps : ℚ}
    (h : adjust rule direction measuredBps = some rule') : rule'.persisted = rule.persisted := by
  obtain ⟨target, -, rfl⟩ := Option.map_eq_some_iff.mp h
  cases direction <;> rfl

theorem sameRules_adjustPid (pid : UInt32) (direction : Direction) (measuredBps : ℚ) :
    SameRules st (st.adjustPid pid direction measuredBps) := by
  unfold adjustPid
  split
  · exact .of_ruleSet rfl
  · next rule' hadjust =>
    obtain ⟨rule, hrule, hadjust⟩ := Option.bind_eq_some_iff.mp hadjust
    refine ⟨rfl, fun pid' => ?_⟩
    change ((st.rules.insert pid rule')[pid']?).map _ = _
    rw [Std.ExtTreeMap.getElem?_insert]
    split
    · next heq =>
      rw [← Std.compare_eq_iff_eq.mp heq, hrule]
      exact congrArg some (persisted_of_adjust hadjust)
    · rfl

theorem sameRules_foldl {f : AppState → UInt32 → AppState} (h : ∀ st pid, SameRules st (f st pid))
    (pids : List UInt32) : SameRules st (pids.foldl f st) := by
  induction pids generalizing st with
  | nil => exact .of_ruleSet rfl
  | cons pid pids ih =>
    rw [List.foldl_cons]
    exact (h st pid).trans ih

theorem sameRules_runAdaptiveFeedback : SameRules st st.runAdaptiveFeedback := by
  unfold runAdaptiveFeedback
  refine .trans ?_ (sameRules_foldl (fun st pid => ?_) _)
  · split
    · exact (sameRules_adjustGlobal _ _).trans (sameRules_adjustGlobal _ _)
    · exact .of_ruleSet rfl
  · dsimp only
    split
    · exact (sameRules_adjustPid pid _ _).trans (sameRules_adjustPid pid _ _)
    · exact .of_ruleSet rfl

theorem sameRules_tick (snapshot : EngineSnapshot) : SameRules st (st.tick snapshot).1 := by
  have hmeasure : SameRules st (st.measure snapshot) := .of_ruleSet rfl
  unfold tick
  dsimp only
  split
  · exact hmeasure.trans sameRules_runAdaptiveFeedback
  · exact hmeasure

theorem sameRules_stop : SameRules st st.stop := by
  refine ⟨rfl, fun pid => ?_⟩
  change ((st.rules.map fun _ rule => rule.persisted)[pid]?).map _ = _
  rw [Std.ExtTreeMap.getElem?_map]
  cases st.rules[pid]? <;> rfl

theorem sameRules_of_edited_none {e : Event} (h : st.edited lower parseF64 e = none)
    (hp : e.processes = none) : SameRules st (st.step lower parseF64 e) := by
  cases e with
  | rebuildRows processes => cases hp
  | refreshTableOnTick processes => cases hp
  | tick snapshot => exact sameRules_tick snapshot
  | stop => exact sameRules_stop
  | start started => exact .of_ruleSet (ruleSet_pushAllRules st)
  | restartEngine started =>
    apply SameRules.of_ruleSet
    simp only [step, restartEngine]
    split
    · exact ruleSet_pushAllRules _
    · rfl
  | engineExit => exact .of_ruleSet rfl
  | _ => exact .of_ruleSet (ruleSet_of_kept (kept_of_edited_none h rfl))

end Edits

section Table
variable {lower : Text → Text} {parseF64 : Text → Option ℚ} {st : AppState}

theorem table_applyRuleToRow (st : AppState) (kind : RowKind) (rule : ProcessRule) :
    (st.applyRuleToRow lower kind rule).table = st.table := by
  cases kind <;> rfl

theorem table_applyNameRulesFrom (processes : List ProcessInfo) :
    (st.applyNameRulesFrom lower processes).table = st.table := by
  unfold applyNameRulesFrom
  dsimp only
  split
  · rw [foldl_send _ fun p : UInt32 × ProcessRule => .updateRule p.1 (runtimeRule p.2)]
    rfl
  · rfl

theorem table_adjustGlobal (direction : Direction) (measuredBps : ℚ) :
    (st.adjustGlobal direction measuredBps).table = st.table := by
  unfold adjustGlobal
  split <;> rfl

theorem table_adjustPid (pid : UInt32) (direction : Direction) (measuredBps : ℚ) :
    (st.adjustPid pid direction measuredBps).table = st.table := by
  unfold adjustPid
  split <;> rfl

theorem table_tick (snapshot : EngineSnapshot) : (st.tick snapshot).1.table = st.table := by
  have hmeasure : (st.measure snapshot).table = st.table := rfl
  unfold tick
  dsimp only
  split
  · unfold runAdaptiveFeedback
    dsimp only
    refine List.foldlRecOn (motive := fun st' : AppState => st'.table = st.table) _ _ ?_
      fun st' hst' pid _ => ?_
    · split
      · rw [table_adjustGlobal, table_adjustGlobal, hmeasure]
      · exact hmeasure
    · split
      · rw [table_adjustPid, table_adjustPid, hst']
      · exact hst'
  · exact hmeasure

theorem table_pushAllRules : st.pushAllRules.table = st.table := by
  rw [pushAllRules, foldl_send _ fun p : UInt32 × ProcessRule => .updateRule p.1 (runtimeRule p.2)]
  rfl

/-- Only a refresh changes the table. -/
theorem table_step {e : Event} (h : e.processes = none) :
    (st.step lower parseF64 e).table = st.table := by
  cases hedited : st.edited lower parseF64 e with
  | some p =>
    obtain ⟨st', hbrowsed, hstep⟩ := step_edits lower parseF64 st (edits_of_edited hedited)
    rw [hedited] at hstep
    rw [hstep]
    exact (table_applyRuleToRow _ _ _).trans hbrowsed.table
  | none =>
    cases e with
    | rebuildRows | refreshTableOnTick => cases h
    | stop | engineExit => rfl
    | tick snapshot => exact table_tick snapshot
    | start started => exact table_pushAllRules
    | restartEngine started =>
      simp only [step, restartEngine]
      split
      · exact @table_pushAllRules { st with engine := _ }
      · rfl
    | _ => exact (browsed_of_edited_none hedited rfl).table

end Table

end AppState

end FlowBrake.Ui
