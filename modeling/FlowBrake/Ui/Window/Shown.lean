import FlowBrake.Ui.AppState.Refresh
import FlowBrake.Ui.Window.Simulation

/-! What the window shows, against the state of the application. -/
namespace FlowBrake.Ui
open FlowBrake.Core FlowBrake.Windows Text

/-- What the window shows of the application. -/
structure AppState.Shown where
  rows : List ProcessRow
  selected : Option RowSelection
  speedUnit : SpeedUnit
  language : LanguagePreference
  lossDownloadDraft : Option Text
  lossUploadDraft : Option Text
  delayDownloadDraft : Option Text
  delayUploadDraft : Option Text

def AppState.shown (st : AppState) : AppState.Shown where
  rows := st.rows
  selected := st.selected
  speedUnit := st.speedUnit
  language := st.language
  lossDownloadDraft := st.lossDownloadDraft
  lossUploadDraft := st.lossUploadDraft
  delayDownloadDraft := st.delayDownloadDraft
  delayUploadDraft := st.delayUploadDraft

/-- The sidebar and a row of the table tell the same. -/
structure Sidebar.Agrees (sidebar : Sidebar) (uiRow : UiRow) : Prop where
  dlSpeed : sidebar.dlSpeed = uiRow.dlSpeed
  ulSpeed : sidebar.ulSpeed = uiRow.ulSpeed
  limitDl : sidebar.limitDl = uiRow.limitDl
  limitUl : sidebar.limitUl = uiRow.limitUl
  block : sidebar.block = uiRow.block
  adaptive : sidebar.adaptive = uiRow.adaptive

namespace AppWindow
variable {F : Type} [F32 F] {env : Surroundings} {w w' : AppWindow} {ans : Answers}

/-- What the window shows. -/
structure Screen where
  uiRows : Option (List UiRow)
  selectedRow : ℤ
  lossSelection : Option RowSelection
  connections : Connections
  sidebar : Sidebar

def screen (w : AppWindow) : Screen where
  uiRows := w.uiRows
  selectedRow := w.selectedRow
  lossSelection := w.lossSelection
  connections := w.connections
  sidebar := w.sidebar

section Shown
variable (env w)

/-- The table shows the rows, and marks the selected one. -/
structure ShowsTable : Prop where
  uiRows : w.uiRows = some (w.app.rows.map (toUiRow env (w.offText env) w.app.speedUnit))
  selectedRow : w.selectedRow = w.app.selectedRowIndex env.lower

/-- The sidebar shows the selected row, as far as the texts of its fields do not hold what the user
types. -/
structure ShowsSelection : Prop where
  selection : w.lossSelection = w.app.selected
  sidebar : w.sidebar = match w.app.selectedRow env.lower with
    | none => {}
    | some row => showRow env w.app w.connections w.sidebar row false

structure Shows : Prop extends ShowsTable env w, ShowsSelection env w

end Shown

section Publishing

theorem showsTable_publishFullTable (w : AppWindow) : ShowsTable env (w.publishFullTable env) :=
  ⟨rfl, rfl⟩

/-- Rows that differ in their rates alone are shown as rows whose rates are written anew. -/
theorem zipWith_speeds (off : Text) (unit : SpeedUnit) {rows rows' : List ProcessRow}
    (h : (rows'.map fun row => (row.kind, row.rule)) = rows.map fun row => (row.kind, row.rule)) :
    List.zipWith (fun (uiRow : UiRow) row =>
        { uiRow with
          dlSpeed := formatSpeed row.dlBps unit
          ulSpeed := formatSpeed row.ulBps unit }) (rows.map (toUiRow env off unit)) rows' =
      rows'.map (toUiRow env off unit) := by
  induction rows generalizing rows' with
  | nil =>
    rw [List.map_nil, List.map_eq_nil_iff] at h
    rw [h]
    rfl
  | cons row rows ih =>
    cases rows' with
    | nil => cases h
    | cons row' rows' =>
      rw [List.map_cons, List.map_cons, List.cons.injEq, Prod.mk.injEq] at h
      obtain ⟨⟨hkind, hrule⟩, hrows⟩ := h
      rw [List.map_cons, List.zipWith_cons_cons, ih hrows, List.map_cons, toUiRow, toUiRow, hkind,
        hrule]

theorem showsTable_publishSpeedUpdates {w' : AppWindow} (h : ShowsTable env w)
    (huiRows : w'.uiRows = w.uiRows) (hlanguage : w'.app.language = w.app.language)
    (hunit : w'.app.speedUnit = w.app.speedUnit)
    (hrows : (w'.app.rows.map fun row => (row.kind, row.rule)) =
      w.app.rows.map fun row => (row.kind, row.rule)) :
    ShowsTable env (w'.publishSpeedUpdates env) := by
  have hlength : w.app.rows.length = w'.app.rows.length := by
    simpa using (congrArg List.length hrows).symm
  have hshown : w'.publishSpeedUpdates env = { w' with
      uiRows := some (w'.app.rows.map (toUiRow env (w'.offText env) w'.app.speedUnit))
      selectedRow := w'.app.selectedRowIndex env.lower } := by
    rw [publishSpeedUpdates, huiRows, h.uiRows]
    simp only [List.length_map, hlength, ne_eq, not_true_eq_false, ↓reduceIte]
    rw [← hunit, zipWith_speeds _ _ hrows, offText, offText, hlanguage]
  rw [hshown]
  exact ⟨rfl, rfl⟩

theorem shows_updateSelectedSidebar (h : ShowsTable env w) :
    Shows env (w.updateSelectedSidebar env) := by
  unfold updateSelectedSidebar
  dsimp only
  by_cases hchanged : w.lossSelection ≠ w.app.selected
  · rw [if_pos (decide_eq_true hchanged)]
    refine ⟨⟨h.uiRows, h.selectedRow⟩, rfl, ?_⟩
    dsimp only
    cases w.app.clearDrafts.selectedRow env.lower <;> rfl
  · rw [if_neg (by simpa using hchanged)]
    refine ⟨⟨h.uiRows, h.selectedRow⟩, rfl, ?_⟩
    dsimp only
    cases w.app.selectedRow env.lower <;> rfl

theorem showsTable_refreshConnections (h : ShowsTable env w) (tables : SystemTables) :
    ShowsTable env (w.refreshConnections env tables) := by
  unfold refreshConnections
  split
  · exact ⟨h.uiRows, h.selectedRow⟩
  · exact h

theorem shows_renderRows (w : AppWindow) (ans : Answers) : Shows env (w.renderRows env ans) :=
  shows_updateSelectedSidebar (showsTable_publishFullTable _)

/-- While the table stays the one of the same processes, its rows keep their kinds and rules. -/
theorem exists_refreshTableOnTick_of_same {lower : Text → Text} {st : AppState}
    {processes : List ProcessInfo}
    (h : TableFingerprint.fromProcesses processes st.expanded = st.tableFingerprint) :
    ∃ engine rules rows, st.refreshTableOnTick lower processes =
        { st with engine, rules, rows } ∧
      (rows.map fun row => (row.kind, row.rule)) = st.rows.map fun row => (row.kind, row.rule) := by
  obtain ⟨engine, rules, hrules⟩ := AppState.exists_applyNameRulesFrom lower st processes
  obtain ⟨rows, hrows⟩ := AppState.exists_refreshRowSpeeds { st with engine, rules }
  refine ⟨engine, rules, rows, ?_, ?_⟩
  · rw [AppState.refreshTableOnTick, hrules]
    exact (if_neg (not_not.mpr h)).trans hrows
  · have hpairs := AppState.map_kind_rule_refreshRowSpeeds { st with engine, rules }
    rwa [hrows] at hpairs

theorem shows_refreshTableOnTick (h : ShowsTable env w) (ans : Answers) :
    Shows env (w.refreshTableOnTick env ans) := by
  have hconnections := showsTable_refreshConnections h ans.tables
  unfold refreshTableOnTick
  dsimp only
  refine shows_updateSelectedSidebar ?_
  split
  · exact showsTable_publishFullTable _
  · next hsame =>
    obtain ⟨engine, rules, rows, hrefresh, hrows⟩ :=
      @exists_refreshTableOnTick_of_same env.lower _ _ (not_not.mp hsame)
    exact showsTable_publishSpeedUpdates hconnections rfl (by rw [hrefresh]) (by rw [hrefresh])
      (by rw [hrefresh]; exact hrows)

end Publishing

section Callbacks

/-- A window that has nothing but what is shown. -/
def Screen.window (screen : Screen) (shown : AppState.Shown) : AppWindow where
  app := {
    rows := shown.rows
    selected := shown.selected
    speedUnit := shown.speedUnit
    language := shown.language
    lossDownloadDraft := shown.lossDownloadDraft
    lossUploadDraft := shown.lossUploadDraft
    delayDownloadDraft := shown.delayDownloadDraft
    delayUploadDraft := shown.delayUploadDraft }
  lossSelection := screen.lossSelection
  connections := screen.connections
  uiRows := screen.uiRows
  selectedRow := screen.selectedRow
  sidebar := screen.sidebar
  file := none

/-- What neither changes the window nor what it shows of the application leaves it showing that. -/
theorem Shows.of_shown (h : Shows env w) (happ : w'.app.shown = w.app.shown)
    (hscreen : w'.screen = w.screen) : Shows env w' := by
  -- Both windows are shown as the one that has nothing but what is shown.
  have hplain (w : AppWindow) : Shows env w ↔ Shows env (w.screen.window w.app.shown) :=
    ⟨fun h => ⟨⟨h.uiRows, h.selectedRow⟩, h.selection, h.sidebar⟩,
      fun h => ⟨⟨h.uiRows, h.selectedRow⟩, h.selection, h.sidebar⟩⟩
  rw [hplain, happ, hscreen]
  exact (hplain w).mp h

theorem shows_save (h : Shows env w) (saved : Bool) (settings : AppSettings F) :
    Shows env (w.save F saved settings) := by
  refine h.of_shown (congrArg AppState.shown (app_save w saved settings)) ?_
  unfold save
  split <;> rfl

theorem shows_persistSettings (h : Shows env w) (ans : Answers) :
    Shows env (w.persistSettings F ans) :=
  shows_save h ans.saved (w.settings F ans.window)

/-- In another language, the rows that were shown differ in the texts of their limits. -/
theorem zipWith_limits (off off' : Text) (unit : SpeedUnit) (rows : List ProcessRow) :
    List.zipWith (fun (uiRow : UiRow) row =>
        { uiRow with
          dlLimit := limitDisplayText off' row.rule.limitDownload row.rule.downloadKbps unit
          ulLimit := limitDisplayText off' row.rule.limitUpload row.rule.uploadKbps unit })
        (rows.map (toUiRow env off unit)) rows =
      rows.map (toUiRow env off' unit) := by
  induction rows with
  | nil => rfl
  | cons row rows ih =>
    rw [List.map_cons, List.zipWith_cons_cons, ih, List.map_cons]
    rfl

theorem shows_applyLanguage (h : Shows env w) (choice : ℤ) (selected : Bool) (ans : Answers) :
    Shows env (w.applyLanguage F env choice selected ans) := by
  unfold applyLanguage
  split
  · exact h.of_shown rfl rfl
  · apply shows_persistSettings
    refine ⟨⟨?_, h.selectedRow⟩, h.selection, ?_⟩
    · dsimp only
      rw [h.uiRows, Option.map_some, zipWith_limits, List.drop_eq_nil_of_le (by simp),
        List.append_nil]
      rfl
    · have hsidebar := h.sidebar
      dsimp only
      have hrow : ({ w.app with language := .fromChoice choice } : AppState).selectedRow env.lower =
        w.app.selectedRow env.lower := rfl
      rw [hrow]
      cases hselected : w.app.selectedRow env.lower with
      | none =>
        rw [hselected] at hsidebar
        exact hsidebar
      | some row =>
        rw [hselected] at hsidebar
        dsimp only at hsidebar ⊢
        rw [hsidebar]
        rfl

/-- An edit of the selected row leaves the table as it is until the rows are built anew. -/
theorem showsTable_edit (h : ShowsTable env w) {e : Event} (he : e.edits)
    (hselected : (w.app.step env.lower env.parseF64 e).selected = w.app.selected) :
    ShowsTable env (w.update env e) := by
  have haside := @AppState.aside_step env.lower env.parseF64 w.app e he
  have hrows : (w.update env e).app.rows = w.app.rows := congrArg (·.table.1) haside
  have hunit : (w.update env e).app.speedUnit = w.app.speedUnit :=
    congrArg AppState.Aside.speedUnit haside
  have hlanguage : (w.update env e).app.language = w.app.language :=
    congrArg AppState.Aside.language haside
  have hselected : (w.update env e).app.selected = w.app.selected := hselected
  refine ⟨?_, ?_⟩
  · rw [hrows, hunit, offText, hlanguage]
    exact h.uiRows
  · rw [AppState.selectedRowIndex, hselected, hrows]
    exact h.selectedRow

theorem selected_editRow {lower : Text → Text} (st : AppState) (row : ProcessRow)
    (edit : FieldEdit) : (st.editRow lower row edit).selected = st.selected := by
  unfold AppState.editRow AppState.applyRuleToRow
  split <;> rfl

theorem shows_submit (h : Shows env w) {e : Event} (he : e.edits) {app : AppState × Bool}
    (happ : app.1 = w.app.step env.lower env.parseF64 e)
    (hselected : app.1.selected = w.app.selected) (ans : Answers) :
    Shows env (w.submit F env app ans) := by
  unfold submit
  dsimp only
  split
  · exact shows_persistSettings (shows_renderRows _ ans) ans
  · refine shows_updateSelectedSidebar ?_
    rw [happ] at hselected ⊢
    exact showsTable_edit h.toShowsTable he hselected

theorem selected_editSelectedLimit (lower : Text → Text) (parseF64 : Text → Option ℚ)
    (st : AppState) (direction text : Text) (now : Instant) :
    (st.editSelectedLimit lower parseF64 direction text now).selected = st.selected := by
  unfold AppState.editSelectedLimit
  split
  · rfl
  · split
    · rfl
    · split
      · rfl
      · exact selected_editRow _ _ _

theorem selected_editSelectedText {lower : Text → Text} {ε α : Type}
    {setDraft : AppState → Option Text → Direction → AppState}
    (hdraft : ∀ st draft direction, (setDraft st draft direction).selected = st.selected)
    (parse : Text → Except ε α) (edit : α → Direction → FieldEdit) (st : AppState)
    (direction text : Text) :
    (st.editSelectedText lower parse setDraft edit direction text).1.selected = st.selected := by
  unfold AppState.editSelectedText
  split
  · rfl
  · split
    · rfl
    · split
      · exact hdraft _ _ _
      · exact (selected_editRow _ _ _).trans (hdraft _ _ _)

theorem selected_setLossDraft (st : AppState) (draft : Option Text) (direction : Direction) :
    (st.setLossDraft draft direction).selected = st.selected := by
  cases direction <;> rfl

theorem selected_setDelayDraft (st : AppState) (draft : Option Text) (direction : Direction) :
    (st.setDelayDraft draft direction).selected = st.selected := by
  cases direction <;> rfl

theorem shows_exit (h : Shows env w) : Shows env w.exit := h.of_shown rfl rfl

theorem shows_timer (h : Shows env w) (snapshot : EngineSnapshot) (now : Instant) (ans : Answers) :
    Shows env (w.on F env ans (.timer snapshot now)) := by
  obtain ⟨engine, rules, globalRule, htick⟩ := AppState.exists_tick w.app snapshot
  have hticked : Shows env { w.update env (.tick snapshot) with
      running := snapshot.running
      status := (w.update env (.tick snapshot)).app.runningStatus snapshot } := by
    refine h.of_shown ?_ rfl
    rw [update, AppState.step, htick]
    rfl
  unfold on
  dsimp only
  split
  · exact shows_refreshTableOnTick hticked.toShowsTable ans
  · exact hticked

/-- Every callback leaves the window showing the state of the application. -/
theorem shows_on (h : Shows env w) (ans : Answers) (c : Callback) :
    Shows env (w.on F env ans c) := by
  cases c with
  | rowClicked | selectionCleared => exact shows_renderRows _ ans
  | boolRuleEdited | rowLimitSubmitted | selectedBoolRuleEdited =>
    exact shows_persistSettings (shows_renderRows _ ans) ans
  | rowLimitFocusChanged => exact h.of_shown rfl rfl
  | selectedLimitSubmitted direction value now =>
    have hselected := selected_editSelectedLimit env.lower env.parseF64 w.app direction value now
    have hedit : ShowsTable env (w.update env (.editSelectedLimit direction value now)) :=
      showsTable_edit h.toShowsTable rfl hselected
    exact shows_persistSettings (shows_updateSelectedSidebar hedit) ans
  | selectedLossSubmitted direction value =>
    refine shows_submit h (e := .editSelectedLoss direction value) rfl rfl ?_ ans
    exact selected_editSelectedText selected_setLossDraft _ _ w.app direction value
  | selectedDelaySubmitted direction value =>
    refine shows_submit h (e := .editSelectedDelay direction value) rfl rfl ?_ ans
    exact selected_editSelectedText selected_setDelayDraft _ _ w.app direction value
  | sidebarFocusChanged focused =>
    cases focused with
    | true => exact h.of_shown rfl rfl
    | false => exact shows_renderRows _ ans
  | speedUnitBitsChanged bitsMode => exact shows_renderRows _ ans
  | ipv6EnabledChanged enabled started =>
    unfold on
    dsimp only
    split
    · exact h
    · exact shows_renderRows _ ans
  | connectionDisconnectRequested key =>
    refine shows_updateSelectedSidebar (showsTable_refreshConnections ?_ ans.tables)
    split
    · exact h.toShowsTable
    · split <;> exact ⟨h.uiRows, h.selectedRow⟩
  | disconnectAllTcpRequested =>
    refine shows_updateSelectedSidebar (showsTable_refreshConnections ?_ ans.tables)
    split <;> exact ⟨h.uiRows, h.selectedRow⟩
  | languageChanged choice selected => exact shows_applyLanguage h choice selected ans
  | maximizeToggled nextMaximized => exact shows_save h _ _
  | autoStart elevated started =>
    obtain ⟨engine, hstart⟩ := w.app.exists_start started
    unfold on applyEngineStart
    dsimp only
    split
    · exact h.of_shown rfl rfl
    · exact h.of_shown (by rw [hstart]; rfl) rfl
  | timer snapshot now => exact shows_timer h snapshot now ans
  | tray action =>
    cases action with
    | «open» => exact h.of_shown rfl rfl
    | exit => exact shows_exit (shows_renderRows _ ans)
  | closeRequested =>
    unfold on handleCloseRequest
    dsimp only
    split
    · exact (shows_persistSettings h ans).of_shown rfl rfl
    · exact shows_exit (shows_renderRows _ ans)
  | engineExit => exact h.of_shown rfl rfl

theorem shows_run (env : Surroundings) (file : Option Text) (ans : Answers)
    (callbacks : List (Callback × Answers)) :
    Shows env ((start F env file ans).run F env callbacks) := by
  refine List.foldlRecOn (motive := fun w => Shows env w) _ _ (shows_renderRows _ ans)
    fun w h c _ => ?_
  split
  · exact h
  · exact shows_on h c.2 c.1

end Callbacks

section Marked

/-- The selected row is where its index says. -/
theorem exists_selectedRowIndex {lower : Text → Text} (st : AppState) :
    match st.selectedRow lower with
    | none => st.selectedRowIndex lower = -1
    | some row => ∃ i : ℕ, st.selectedRowIndex lower = i ∧ st.rows[i]? = some row := by
  unfold AppState.selectedRow AppState.selectedRowIndex
  cases st.selected with
  | none => rfl
  | some selected =>
    simp only [Option.bind_eq_bind, Option.bind_some]
    cases hindex : st.rows.findIdx? fun row => RowSelection.ofKind lower row.kind = selected with
    | none =>
      rw [List.find?_eq_none.mpr (by simpa using List.findIdx?_eq_none_iff.mp hindex)]
    | some i =>
      obtain ⟨hi, hrow, hleast⟩ := List.findIdx?_eq_some_iff_getElem.mp hindex
      have hfind : (st.rows.find? fun row => RowSelection.ofKind lower row.kind = selected) =
          some st.rows[i] :=
        List.find?_eq_some_iff_getElem.mpr ⟨hrow, i, hi, rfl, by simpa using hleast⟩
      rw [hfind]
      exact ⟨i, rfl, List.getElem?_eq_getElem hi⟩

/-- The table shows every row as it is held, with the row's own copy of its rule; the row that is
marked is the selected one, and the sidebar is open on it and tells of it what the table tells. -/
structure Tells (env : Surroundings) (w : AppWindow) : Prop where
  uiRows : w.uiRows = some (w.app.rows.map (toUiRow env (w.offText env) w.app.speedUnit))
  unselected : w.app.selectedRow env.lower = none →
    w.selectedRow = -1 ∧ w.sidebar.isOpen = false
  selected : ∀ row, w.app.selectedRow env.lower = some row →
    ∃ (i : ℕ) (uiRow : UiRow), w.app.rows[i]? = some row ∧
      w.uiRows.bind (·[i]?) = some uiRow ∧ w.selectedRow = i ∧
      w.sidebar.isOpen = true ∧ w.sidebar.Agrees uiRow

theorem Shows.tells (h : Shows env w) : Tells env w := by
  have hindex := @exists_selectedRowIndex env.lower w.app
  have hsidebar := h.sidebar
  refine ⟨h.uiRows, fun hrow => ?_, fun row hrow => ?_⟩
  · rw [hrow] at hindex hsidebar
    exact ⟨h.selectedRow.trans hindex, by rw [hsidebar]⟩
  · rw [hrow] at hindex hsidebar
    obtain ⟨i, hi, hat⟩ := hindex
    refine ⟨i, toUiRow env (w.offText env) w.app.speedUnit row, hat, ?_, h.selectedRow.trans hi,
      by rw [hsidebar]; rfl, ?_⟩
    · rw [h.uiRows, Option.bind_some, List.getElem?_map, hat, Option.map_some]
    · rw [hsidebar]
      exact ⟨rfl, rfl, rfl, rfl, rfl, rfl⟩

/-- In every run of the window, it tells what the rows of the application are. -/
theorem run_tells (env : Surroundings) (file : Option Text) (ans : Answers)
    (callbacks : List (Callback × Answers)) :
    Tells env ((start F env file ans).run F env callbacks) :=
  (shows_run env file ans callbacks).tells

end Marked

end AppWindow

end FlowBrake.Ui
