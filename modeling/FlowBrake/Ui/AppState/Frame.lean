import FlowBrake.Ui.AppState.Step

/-! Which fields of the application's state its operations may change. -/
namespace FlowBrake.Ui
open FlowBrake.Core FlowBrake.Windows Text

namespace AppState

section Table
variable (lower : Text → Text) (st : AppState) (processes : List ProcessInfo)

/-- Handing out the names' rules changes the rules, and the engine's copy of them. -/
theorem exists_applyNameRulesFrom : ∃ engine rules,
    st.applyNameRulesFrom lower processes = { st with engine, rules } := by
  unfold applyNameRulesFrom
  dsimp only
  split
  · rw [foldl_send _ fun p : UInt32 × ProcessRule => .updateRule p.1 (runtimeRule p.2)]
    exact ⟨_, _, rfl⟩
  · exact ⟨_, _, rfl⟩

theorem exists_refreshRowSpeeds : ∃ rows, st.refreshRowSpeeds = { st with rows } := by
  unfold refreshRowSpeeds
  split
  · exact ⟨st.rows, rfl⟩
  · exact ⟨_, rfl⟩

theorem exists_rebuildRowsFrom : ∃ rows,
    st.rebuildRowsFrom lower processes = { st with rows } := by
  obtain ⟨rows, hrows⟩ := exists_refreshRowSpeeds { st with
    rows := buildProcessRows lower processes st.expanded st.rules st.speeds st.globalRule .process
      .ascending }
  exact ⟨rows, hrows⟩

/-- A rebuild changes the rules, the engine's copy of them, and the table. -/
theorem exists_rebuildRows : ∃ engine rules rows tableFingerprint,
    st.rebuildRows lower processes = { st with engine, rules, rows, tableFingerprint } := by
  obtain ⟨engine, rules, hrules⟩ := exists_applyNameRulesFrom lower st processes
  obtain ⟨rows, hrows⟩ := exists_rebuildRowsFrom lower { st with engine, rules } processes
  exact ⟨engine, rules, rows, _, by rw [rebuildRows, hrules, hrows]⟩

theorem exists_refreshTableOnTick : ∃ engine rules rows tableFingerprint,
    st.refreshTableOnTick lower processes =
      { st with engine, rules, rows, tableFingerprint } := by
  obtain ⟨engine, rules, hrules⟩ := exists_applyNameRulesFrom lower st processes
  rw [refreshTableOnTick, hrules]
  split
  · obtain ⟨rows, hrows⟩ := exists_rebuildRowsFrom lower { st with
      engine, rules
      tableFingerprint := .fromProcesses processes st.expanded } processes
    exact ⟨engine, rules, rows, _, hrows⟩
  · obtain ⟨rows, hrows⟩ := exists_refreshRowSpeeds { st with engine, rules }
    exact ⟨engine, rules, rows, _, hrows⟩

/-- A double click opens or closes a group, and may hand the selection to it. -/
theorem exists_toggleRowExpanded (rowIndex : ℤ) : ∃ expanded selected,
    st.toggleRowExpanded lower rowIndex = { st with expanded, selected } := by
  unfold toggleRowExpanded
  split
  · split
    · exact ⟨_, _, rfl⟩
    · split
      · exact ⟨_, _, rfl⟩
      · exact ⟨_, _, rfl⟩
  · exact ⟨_, _, rfl⟩

end Table

/-- What was measured. -/
structure Measurements where
  dlHistory : Std.ExtTreeMap UInt32 RollingAverage
  ulHistory : Std.ExtTreeMap UInt32 RollingAverage
  speeds : Speeds
  globalDlHistory : RollingAverage
  globalUlHistory : RollingAverage
  globalDlBps : ℚ
  globalUlBps : ℚ

def measurements (st : AppState) : Measurements where
  dlHistory := st.dlHistory
  ulHistory := st.ulHistory
  speeds := st.speeds
  globalDlHistory := st.globalDlHistory
  globalUlHistory := st.globalUlHistory
  globalDlBps := st.globalDlBps
  globalUlBps := st.globalUlBps

/-- What no edit of a rule changes. -/
structure Aside where
  expanded : Std.ExtTreeSet Text
  table : List ProcessRow × TableFingerprint
  measurements : Measurements
  limitEditing : Bool
  speedUnit : SpeedUnit
  ipv6Enabled : Bool
  language : LanguagePreference

def aside (st : AppState) : Aside where
  expanded := st.expanded
  table := st.table
  measurements := st.measurements
  limitEditing := st.limitEditing
  speedUnit := st.speedUnit
  ipv6Enabled := st.ipv6Enabled
  language := st.language

section Edits
variable {lower : Text → Text} {parseF64 : Text → Option ℚ} {st : AppState}

theorem aside_editRow (row : ProcessRow) (edit : FieldEdit) :
    (st.editRow lower row edit).aside = st.aside := by
  unfold editRow applyRuleToRow
  split <;> rfl

theorem aside_setLossDraft (draft : Option Text) (direction : Direction) :
    (st.setLossDraft draft direction).aside = st.aside := by
  cases direction <;> rfl

theorem aside_setDelayDraft (draft : Option Text) (direction : Direction) :
    (st.setDelayDraft draft direction).aside = st.aside := by
  cases direction <;> rfl

theorem aside_editSelectedText {ε α : Type}
    {setDraft : AppState → Option Text → Direction → AppState}
    (hdraft : ∀ draft direction, (setDraft st draft direction).aside = st.aside)
    (parse : Text → Except ε α) (edit : α → Direction → FieldEdit) (direction text : Text) :
    (st.editSelectedText lower parse setDraft edit direction text).1.aside = st.aside := by
  unfold editSelectedText
  split
  · rfl
  · split
    · rfl
    · split
      · exact hdraft _ _
      · exact (aside_editRow _ _).trans (hdraft _ _)

/-- An input for a field of a rule leaves everything else alone. -/
theorem aside_step {e : Event} (he : e.edits) : (st.step lower parseF64 e).aside = st.aside := by
  cases e with
  | editBool =>
    simp only [step, editBool]
    split
    · rfl
    · split
      · rfl
      · exact aside_editRow _ _
  | editSelectedBool =>
    simp only [step, editSelectedBool]
    split
    · rfl
    · split
      · rfl
      · exact aside_editRow _ _
  | editRowLimit =>
    simp only [step, editRowLimit]
    split
    · rfl
    · split
      · rfl
      · split
        · rfl
        · exact aside_editRow _ _
  | editSelectedLimit =>
    simp only [step, editSelectedLimit]
    split
    · rfl
    · split
      · rfl
      · split
        · rfl
        · exact aside_editRow _ _
  | editSelectedLoss => exact aside_editSelectedText aside_setLossDraft _ _ _ _
  | editSelectedDelay => exact aside_editSelectedText aside_setDelayDraft _ _ _ _
  | _ => cases he

end Edits

section Engine
variable (st : AppState)

theorem exists_pushAllRules : ∃ engine, st.pushAllRules = { st with engine } := by
  rw [pushAllRules, foldl_send _ fun p : UInt32 × ProcessRule => .updateRule p.1 (runtimeRule p.2)]
  exact ⟨_, rfl⟩

theorem exists_start (started : Bool) : ∃ engine, st.start started = { st with engine } := by
  obtain ⟨engine, hengine⟩ := st.exists_pushAllRules
  exact ⟨{ engine with running := started || engine.running }, by rw [start, hengine]⟩

theorem exists_restartEngine (started : Bool) :
    ∃ engine, st.restartEngine started = { st with engine } := by
  unfold restartEngine
  split
  · obtain ⟨engine, hengine⟩ := exists_start { st with engine := _ } started
    exact ⟨engine, hengine⟩
  · exact ⟨st.engine, rfl⟩

theorem exists_runAdaptiveFeedback : ∃ engine rules globalRule,
    st.runAdaptiveFeedback = { st with engine, rules, globalRule } := by
  have hglobal (st : AppState) (direction : Direction) (measuredBps : ℚ) : ∃ engine globalRule,
      st.adjustGlobal direction measuredBps = { st with engine, globalRule } := by
    unfold adjustGlobal
    split
    · exact ⟨st.engine, st.globalRule, rfl⟩
    · exact ⟨_, _, rfl⟩
  have hpid (st : AppState) (pid : UInt32) (direction : Direction) (measuredBps : ℚ) :
      ∃ engine rules, st.adjustPid pid direction measuredBps = { st with engine, rules } := by
    unfold adjustPid
    split
    · exact ⟨st.engine, st.rules, rfl⟩
    · exact ⟨_, _, rfl⟩
  unfold runAdaptiveFeedback
  dsimp only
  refine List.foldlRecOn (motive := fun st' : AppState => ∃ engine rules globalRule,
    st' = { st with engine, rules, globalRule }) _ _ ?_ ?_
  · split
    · obtain ⟨engine, globalRule, heq⟩ := hglobal st .download st.globalDlBps
      obtain ⟨engine', globalRule', heq'⟩ := hglobal { st with engine, globalRule } .upload
        st.globalUlBps
      exact ⟨engine', st.rules, globalRule', by rw [heq, heq']⟩
    · exact ⟨st.engine, st.rules, st.globalRule, rfl⟩
  · rintro st' ⟨engine, rules, globalRule, rfl⟩ pid -
    split
    · obtain ⟨engine₁, rules₁, heq⟩ := hpid { st with engine, rules, globalRule } pid .download
        (speedOf st.speeds pid).1
      obtain ⟨engine₂, rules₂, heq'⟩ := hpid
        { st with engine := engine₁, rules := rules₁, globalRule } pid .upload
        (speedOf st.speeds pid).2
      exact ⟨engine₂, rules₂, globalRule, by rw [heq, heq']⟩
    · exact ⟨engine, rules, globalRule, rfl⟩

/-- A tick measures, and adapts rules. -/
theorem exists_tick (snapshot : EngineSnapshot) : ∃ engine rules globalRule,
    (st.tick snapshot).1 = { st.measure snapshot with engine, rules, globalRule } := by
  unfold tick
  dsimp only
  split
  · exact (st.measure snapshot).exists_runAdaptiveFeedback
  · exact ⟨_, _, _, rfl⟩

end Engine

end AppState

end FlowBrake.Ui
