import FlowBrake.Ui.AppState.Feedback
import FlowBrake.Ui.AppState.Saved
import FlowBrake.Ui.Window.Connections

/-! What the settings file holds, callback after callback, of what the window's user has set. -/
namespace FlowBrake.Ui
open FlowBrake.Core FlowBrake.Windows Text

namespace AppState
variable {F : Type} [F32 F] {lower : Text → Text} {parseF64 : Text → Option ℚ} {st : AppState}

section Settings

theorem toSettings_rebuildRows (st : AppState) (processes : List ProcessInfo) :
    ((st.rebuildRows lower processes).toSettings : AppSettings F) = st.toSettings := by
  obtain ⟨engine, rules, rows, tableFingerprint, heq⟩ :=
    @exists_rebuildRows lower st processes
  rw [heq]
  rfl

theorem toSettings_refreshTableOnTick (st : AppState) (processes : List ProcessInfo) :
    ((st.refreshTableOnTick lower processes).toSettings : AppSettings F) = st.toSettings := by
  obtain ⟨engine, rules, rows, tableFingerprint, heq⟩ :=
    @exists_refreshTableOnTick lower st processes
  rw [heq]
  rfl

theorem toSettings_start (st : AppState) (started : Bool) :
    ((st.start started).toSettings : AppSettings F) = st.toSettings := by
  obtain ⟨engine, heq⟩ := st.exists_start started
  rw [heq]
  rfl

/-- A tick adapts rates, which are not saved. -/
theorem persisted_toSettings_tick (st : AppState) (snapshot : EngineSnapshot) :
    ((st.tick snapshot).1.toSettings : AppSettings F).persisted = st.toSettings.persisted := by
  have hglobal : (st.tick snapshot).1.globalRule.persisted = st.globalRule.persisted := by
    have hself : st.ruleOf none = some st.globalRule := rfl
    rw [Option.some.inj (ruleOf_tick snapshot hself)]
    split
    · rw [nextRule]
      split
      · exact persisted_adapted _ _
      · rfl
    · rfl
  have hsettings : ((st.tick snapshot).1.toSettings : AppSettings F) =
      { st.toSettings with globalRule := (st.tick snapshot).1.globalRule } := by
    obtain ⟨engine, rules, globalRule, heq⟩ := st.exists_tick snapshot
    rw [heq]
    rfl
  rw [hsettings, AppSettings.persisted, hglobal]
  rfl

/-- A text that is not applied is kept as a draft, which is not saved. -/
theorem toSettings_editSelectedText {ε α : Type}
    {setDraft : AppState → Option Text → Direction → AppState}
    (hdraft : ∀ draft direction,
      ((setDraft st draft direction).toSettings : AppSettings F) = st.toSettings)
    (parse : Text → Except ε α) (edit : α → Direction → FieldEdit) (direction text : Text) :
    (st.editSelectedText lower parse setDraft edit direction text).2 = false →
      ((st.editSelectedText lower parse setDraft edit direction text).1.toSettings :
        AppSettings F) = st.toSettings := by
  unfold editSelectedText
  cases st.selectedRow lower with
  | none => exact fun _ => rfl
  | some row =>
    cases FieldEdit.direction direction with
    | none => exact fun _ => rfl
    | some direction =>
      cases parse text with
      | error => exact fun _ => hdraft _ _
      | ok value => exact fun h => absurd h (by simp)

theorem toSettings_setLossDraft (st : AppState) (draft : Option Text) (direction : Direction) :
    ((st.setLossDraft draft direction).toSettings : AppSettings F) = st.toSettings := by
  cases direction <;> rfl

theorem toSettings_setDelayDraft (st : AppState) (draft : Option Text) (direction : Direction) :
    ((st.setDelayDraft draft direction).toSettings : AppSettings F) = st.toSettings := by
  cases direction <;> rfl

end Settings

end AppState

namespace AppWindow
variable {F : Type} [F32 F] {env : Surroundings} {w w' : AppWindow} {ans : Answers}

section Writing

/-- The settings are those that the application has set, in a window that the file can hold. -/
structure Holds (s : AppSettings F) (app : AppState) : Prop where
  set : ((AppState.new s).toSettings : AppSettings F) = app.toSettings
  windowWidth : F32.lt s.windowWidth (minWindowWidth F) = false ∧
    F32.lt (maxWindowSide F) s.windowWidth = false
  windowHeight : F32.lt s.windowHeight (minWindowHeight F) = false ∧
    F32.lt (maxWindowSide F) s.windowHeight = false

theorem new_toSettings (st : AppState) :
    ((AppState.new (st.toSettings : AppSettings F)).toSettings : AppSettings F) =
      st.toSettings := by
  cases hunit : st.speedUnit <;>
    simp [AppState.new, AppState.toSettings, hunit, SpeedUnit.fromBitsMode]

theorem holds_toSettings [OrderedF32 F] (app : AppState) :
    Holds (app.toSettings : AppSettings F) app := by
  have hdefault := @stable_default F _ id _
  exact ⟨new_toSettings app, hdefault.windowWidth, hdefault.windowHeight⟩

theorem Holds.captureWindow [OrderedF32 F] {s : AppSettings F} {app : AppState} (h : Holds s app)
    (window : Geometry) : Holds (s.captureWindow window) app := by
  unfold AppSettings.captureWindow
  split
  · exact ⟨h.set, h.windowWidth, h.windowHeight⟩
  · exact ⟨h.set, clamp_within _ 900 10000 (by decide) (by decide) (by decide),
      clamp_within _ 500 10000 (by decide) (by decide) (by decide)⟩

theorem Holds.eq_core {s : AppSettings F} {app : AppState} (h : Holds s app) :
    s.globalRule = app.core.globalRule ∧ s.nameRules = app.core.nameRules ∧
      s.expanded = app.core.expanded := by
  have hglobal := congrArg AppSettings.globalRule h.set
  have hnameRules := congrArg AppSettings.nameRules h.set
  have hexpanded := congrArg AppSettings.expanded h.set
  exact ⟨hglobal, hnameRules, hexpanded⟩

variable (F) in
/-- Neither the file nor what the application has set differs. -/
structure Same (w w' : AppWindow) : Prop where
  file : w'.file = w.file
  quit : w'.quit = w.quit
  set : (w'.app.toSettings : AppSettings F) = w.app.toSettings

theorem Same.trans {w'' : AppWindow} (h : Same F w w') (h' : Same F w' w'') : Same F w w'' :=
  ⟨h'.file.trans h.file, h'.quit.trans h.quit, h'.set.trans h.set⟩

variable (F env) in
theorem same_refreshConnections (w : AppWindow) (tables : SystemTables) :
    Same F w (w.refreshConnections env tables) := by
  unfold refreshConnections
  split <;> exact ⟨rfl, rfl, rfl⟩

variable (F env) in
theorem same_updateSelectedSidebar (w : AppWindow) : Same F w (w.updateSelectedSidebar env) := by
  unfold updateSelectedSidebar
  dsimp only
  split <;> exact ⟨rfl, rfl, rfl⟩

variable (F env) in
theorem same_renderRows (w : AppWindow) (ans : Answers) : Same F w (w.renderRows env ans) := by
  have hrefreshed := same_refreshConnections F env w ans.tables
  refine hrefreshed.trans (.trans ?_ (same_updateSelectedSidebar F env _))
  exact ⟨rfl, rfl, AppState.toSettings_rebuildRows _ _⟩

theorem same_publishSpeedUpdates (w : AppWindow) : Same F w (w.publishSpeedUpdates env) := by
  unfold publishSpeedUpdates
  split
  · exact ⟨rfl, rfl, rfl⟩
  · split <;> exact ⟨rfl, rfl, rfl⟩

variable (F env) in
theorem same_refreshTableOnTick (w : AppWindow) (ans : Answers) :
    Same F w (w.refreshTableOnTick env ans) := by
  have hrefreshed := same_refreshConnections F env w ans.tables
  unfold refreshTableOnTick
  dsimp only
  refine hrefreshed.trans (.trans ?_ (same_updateSelectedSidebar F env _))
  split
  · exact ⟨rfl, rfl, AppState.toSettings_refreshTableOnTick _ _⟩
  · refine .trans ?_ (same_publishSpeedUpdates _)
    exact ⟨rfl, rfl, AppState.toSettings_refreshTableOnTick _ _⟩

variable (F) in
/-- The file was written with what the application has set. -/
def Wrote (w : AppWindow) : Prop :=
  w.quit = false ∧ ∃ s : AppSettings F, w.file = some s.toContents ∧ Holds s w.app

theorem Wrote.same (h : Wrote F w) (hsame : Same F w w') : Wrote F w' := by
  obtain ⟨hquit, s, hfile, hset, hwidth, hheight⟩ := h
  exact ⟨hsame.quit.trans hquit, s, hsame.file.trans hfile, hset.trans hsame.set.symm, hwidth,
    hheight⟩

theorem Wrote.renderRows (h : Wrote F w) (ans : Answers) : Wrote F (w.renderRows env ans) :=
  h.same (same_renderRows F env w ans)

theorem wrote_save {s : AppSettings F} (hquit : w.quit = false) (hsaved : ans.saved = true)
    (h : Holds s w.app) : Wrote F (w.save F ans.saved s) := by
  rw [save, if_pos hsaved]
  exact ⟨hquit, s, rfl, h⟩

theorem wrote_persistSettings [OrderedF32 F] (hquit : w.quit = false) (hsaved : ans.saved = true) :
    Wrote F (w.persistSettings F ans) :=
  wrote_save hquit hsaved ((holds_toSettings w.app).captureWindow ans.window)

end Writing

section Callbacks

variable (F) in
/-- Until the event loop is left, what the application has set is in the file wherever it was before
the callback; and the callback that leaves it has written what was set. -/
inductive Saves (w w' : AppWindow) : Prop
  | kept (quit : w'.quit = false) (file : w'.file = w.file)
      (set : (w'.app.toSettings : AppSettings F).persisted = w.app.toSettings.persisted)
  | wrote (wrote : Wrote F w')
  | left (left : ∃ w'' : AppWindow, w' = w''.exit) (s : AppSettings F)
      (file : w'.file = some s.toContents) (holds : Holds s w.app)

theorem Same.saves (h : Same F w w') (hquit : w.quit = false) : Saves F w w' :=
  .kept (h.quit.trans hquit) h.file (by rw [h.set])

theorem saves_rowClicked [OrderedF32 F] (hquit : w.quit = false) (hsaved : ans.saved = true)
    (rowIndex : ℤ) (now : Instant) : Saves F w (w.on F env ans (.rowClicked rowIndex now)) := by
  have hclick : Same F w (w.handleRowClick rowIndex now).1 := by
    unfold handleRowClick
    split
    · split <;> exact ⟨rfl, rfl, rfl⟩
    · exact ⟨rfl, rfl, rfl⟩
  have hselect (w : AppWindow) : Same F w (w.update env (.selectRow rowIndex)) := ⟨rfl, rfl, rfl⟩
  unfold on
  dsimp only
  by_cases hdouble : (w.handleRowClick rowIndex now).2
  · have hwrote : Wrote F (((w.handleRowClick rowIndex now).1.update env
        (.toggleRowExpanded rowIndex)).persistSettings F ans) :=
      wrote_persistSettings (hclick.quit.trans hquit) hsaved
    rw [if_pos hdouble]
    exact .wrote (hwrote.renderRows ans)
  · rw [if_neg hdouble]
    exact Same.saves ((hclick.trans (hselect _)).trans (same_renderRows F env _ ans)) hquit

theorem saves_submit [OrderedF32 F] (hquit : w.quit = false) (hsaved : ans.saved = true)
    {app : AppState × Bool}
    (happ : app.2 = false → (app.1.toSettings : AppSettings F) = w.app.toSettings) :
    Saves F w (w.submit F env app ans) := by
  unfold submit
  dsimp only
  split
  · have hrendered := same_renderRows F env { w with app := app.1 } ans
    exact .wrote (wrote_persistSettings (hrendered.quit.trans hquit) hsaved)
  · next hdraft =>
    have hdrafted : Same F w { w with app := app.1 } := ⟨rfl, rfl, happ (by simpa using hdraft)⟩
    exact Same.saves (hdrafted.trans (same_updateSelectedSidebar F env _)) hquit

theorem saves_ipv6EnabledChanged [OrderedF32 F] (hquit : w.quit = false)
    (hsaved : ans.saved = true) (enabled started : Bool) :
    Saves F w (w.on F env ans (.ipv6EnabledChanged enabled started)) := by
  unfold on
  dsimp only
  split
  · exact Same.saves ⟨rfl, rfl, rfl⟩ hquit
  · refine .wrote (Wrote.renderRows (wrote_persistSettings ?_ hsaved) ans)
    dsimp only
    split <;> exact hquit

theorem saves_applyLanguage [OrderedF32 F] (hquit : w.quit = false) (hsaved : ans.saved = true)
    (choice : ℤ) (selected : Bool) : Saves F w (w.applyLanguage F env choice selected ans) := by
  unfold applyLanguage
  split
  · exact Same.saves ⟨rfl, rfl, rfl⟩ hquit
  · exact .wrote (wrote_persistSettings hquit hsaved)

theorem saves_timer (hquit : w.quit = false) (snapshot : EngineSnapshot) (now : Instant) :
    Saves F w (w.on F env ans (.timer snapshot now)) := by
  have htick := AppState.persisted_toSettings_tick (F := F) w.app snapshot
  unfold on
  dsimp only
  split
  · have hrefreshed := same_refreshTableOnTick F env
      { w.update env (.tick snapshot) with
        running := snapshot.running
        status := (w.update env (.tick snapshot)).app.runningStatus snapshot } ans
    refine .kept (hrefreshed.quit.trans hquit) hrefreshed.file ?_
    rw [hrefreshed.set]
    exact htick
  · exact .kept hquit rfl htick

/-- Leaving the event loop writes the file first. -/
theorem saves_exit [OrderedF32 F] (hquit : w.quit = false) (hsaved : ans.saved = true) :
    Saves F w (((w.persistSettings F ans).applyEngineStop env ans).exit) := by
  obtain ⟨-, s, hfile, hholds⟩ := wrote_persistSettings (F := F) hquit hsaved
  rw [app_persistSettings] at hholds
  refine .left ⟨_, rfl⟩ s ?_ hholds
  have hrendered := same_renderRows F env { w.persistSettings F ans with
    app := (w.persistSettings F ans).app.stop, trayVisible := false, running := false
    status := .stopped } ans
  exact hrendered.file.trans hfile

variable (F env) in
theorem saves_on [OrderedF32 F] (hquit : w.quit = false) (hsaved : ans.saved = true)
    (c : Callback) : Saves F w (w.on F env ans c) := by
  cases c with
  | rowClicked rowIndex now => exact saves_rowClicked hquit hsaved rowIndex now
  | selectionCleared =>
    have hclear : Same F w (w.update env .clearSelection) := ⟨rfl, rfl, rfl⟩
    exact (hclear.trans (same_renderRows F env _ ans)).saves hquit
  | boolRuleEdited rowIndex field value =>
    have hrendered := same_renderRows F env
      (w.update env (.editBool rowIndex field value)) ans
    exact .wrote (wrote_persistSettings (hrendered.quit.trans hquit) hsaved)
  | rowLimitSubmitted rowIndex direction value now =>
    have hrendered := same_renderRows F env
      (w.update env (.editRowLimit rowIndex direction value now)) ans
    exact .wrote (wrote_persistSettings (hrendered.quit.trans hquit) hsaved)
  | selectedBoolRuleEdited field value =>
    have hrendered := same_renderRows F env
      (w.update env (.editSelectedBool field value)) ans
    exact .wrote (wrote_persistSettings (hrendered.quit.trans hquit) hsaved)
  | rowLimitFocusChanged | engineExit => exact Same.saves ⟨rfl, rfl, rfl⟩ hquit
  | selectedLimitSubmitted direction value now =>
    have hupdated := same_updateSelectedSidebar F env
      (w.update env (.editSelectedLimit direction value now))
    exact .wrote (wrote_persistSettings (hupdated.quit.trans hquit) hsaved)
  | selectedLossSubmitted direction value =>
    exact saves_submit hquit hsaved (AppState.toSettings_editSelectedText
      (AppState.toSettings_setLossDraft _) _ _ direction value)
  | selectedDelaySubmitted direction value =>
    exact saves_submit hquit hsaved (AppState.toSettings_editSelectedText
      (AppState.toSettings_setDelayDraft _) _ _ direction value)
  | sidebarFocusChanged focused =>
    have hfocus : Same F w (w.update env (.setLimitEditing focused)) := ⟨rfl, rfl, rfl⟩
    cases focused with
    | true => exact hfocus.saves hquit
    | false => exact (hfocus.trans (same_renderRows F env _ ans)).saves hquit
  | speedUnitBitsChanged bitsMode =>
    exact .wrote (Wrote.renderRows (wrote_persistSettings
      (w := w.update env (.setSpeedUnit (.fromBitsMode bitsMode))) hquit hsaved) ans)
  | ipv6EnabledChanged enabled started =>
    exact saves_ipv6EnabledChanged hquit hsaved enabled started
  | connectionDisconnectRequested key =>
    refine Same.saves (.trans ?_ ((same_refreshConnections F env _ ans.tables).trans
      (same_updateSelectedSidebar F env _))) hquit
    split
    · exact ⟨rfl, rfl, rfl⟩
    · split <;> exact ⟨rfl, rfl, rfl⟩
  | disconnectAllTcpRequested =>
    refine Same.saves (.trans ?_ ((same_refreshConnections F env _ ans.tables).trans
      (same_updateSelectedSidebar F env _))) hquit
    split <;> exact ⟨rfl, rfl, rfl⟩
  | languageChanged choice selected => exact saves_applyLanguage hquit hsaved choice selected
  | maximizeToggled nextMaximized =>
    have hholds : Holds
        { w.app.toSettings (F := F) with windowMaximized := nextMaximized } w.app := by
      obtain ⟨hset, hwidth, hheight⟩ := holds_toSettings (F := F) w.app
      exact ⟨hset, hwidth, hheight⟩
    refine .wrote (wrote_save hquit hsaved ?_)
    split
    · exact hholds
    · exact hholds.captureWindow ans.window
  | autoStart elevated started =>
    refine Same.saves ?_ hquit
    unfold on applyEngineStart
    dsimp only
    split
    · exact ⟨rfl, rfl, rfl⟩
    · exact ⟨rfl, rfl, AppState.toSettings_start _ _⟩
  | timer snapshot now => exact saves_timer hquit snapshot now
  | tray action =>
    cases action with
    | «open» => exact Same.saves ⟨rfl, rfl, rfl⟩ hquit
    | exit => exact saves_exit hquit hsaved
  | closeRequested =>
    unfold on handleCloseRequest
    dsimp only
    split
    · exact .wrote ((wrote_persistSettings hquit hsaved).same ⟨rfl, rfl, rfl⟩)
    · exact saves_exit hquit hsaved

end Callbacks

section Sessions

/-- The names of the files that processes run are such as the settings file can hold. -/
def SavableNames (lower : Text → Text) (query : ProcessQuery) : Prop :=
  ∀ pid path name, query.api.imagePath pid = some path → query.api.fileStem path = some name →
    Savable lower (lower name)

theorem savable_of_fetched {queries : List ProcessQuery} {e : Event}
    (h : e.Fetched env queries) (hnames : ∀ query ∈ queries, SavableNames env.lower query) :
    e.Savable env.lower := by
  intro processes hprocesses process hprocess
  rcases h.listing hprocesses with rfl | ⟨query, hquery, _, _, _, hlisting⟩
  · cases hprocess
  · obtain ⟨path, hpath, hstem⟩ :=
      Option.bind_eq_some_iff.mp (hlisting.shown process hprocess).told
    obtain ⟨name, hname, heq⟩ := Option.map_eq_some_iff.mp hstem
    cases heq
    exact hnames query hquery _ _ _ hpath hname

theorem storable_load [OrderedF32 F] {lower : Text → Text} (hlower : FullyLowercases lower)
    (file : Option Text) : (AppSettings.load lower file : AppSettings F).Storable lower := by
  cases file with
  | some contents => exact storable_fromContents hlower contents
  | none =>
    have hdefault := @stable_default F _ lower _
    refine ⟨hdefault.windowWidth, hdefault.windowHeight, ?_, fun n hn => ?_, fun n rule hn => ?_,
      fun n hn => ?_⟩
    · exact AppState.typable_default
    · exact absurd hn Std.ExtTreeMap.not_mem_empty
    · change (∅ : NameRules)[n]? = some rule at hn
      simp at hn
    · exact absurd hn Std.ExtTreeSet.not_mem_empty

/-- A file has no adapted rates. -/
theorem persisted_of_storable {lower : Text → Text} {s : AppSettings F} (h : s.Storable lower) :
    s.persisted = s := by
  have hglobal : s.globalRule.persisted = s.globalRule := h.globalRule.unadjusted.symm
  have hnameRules : (s.nameRules.map fun _ rule => rule.persisted) = s.nameRules := by
    refine Std.ExtTreeMap.ext_getElem? fun n => ?_
    rw [Std.ExtTreeMap.getElem?_map]
    cases hrule : s.nameRules[n]? with
    | none => rfl
    | some rule => exact congrArg some (h.rules n rule hrule).2.unadjusted.symm
  rw [AppSettings.persisted, hglobal, hnameRules]

variable (F) in
/-- The next start of the application reads of the file what this one has set. -/
def Synced (env : Surroundings) (file : Option Text) (app : AppState) : Prop :=
  ((AppState.new (AppSettings.load env.lower file : AppSettings F)).toSettings : AppSettings F) =
    app.toSettings.persisted

theorem synced_of_storable [LawfulF32 F] {s : AppSettings F} {app : AppState} (h : Holds s app)
    (hs : s.persisted.Storable env.lower) : Synced F env (some s.toContents) app := by
  have hload : AppSettings.load env.lower (some s.toContents) = s.persisted := by
    rw [← toContents_persisted]
    exact reload_of_storable hs
  rw [Synced, hload, ← h.set]
  rfl

/-- While the event loop runs, the file can hold what the application has set. -/
theorem storable_of_holds [OrderedF32 F] (hlower : FullyLowercases env.lower)
    (hcase : IgnoresAsciiCase env.lower) {file : Option Text} {ans : Answers}
    {callbacks : List (Callback × Answers)}
    (hnames : ∀ query ∈ asked ans callbacks, SavableNames env.lower query)
    (hquit : ((start F env file ans).run F env callbacks).quit = false) {s : AppSettings F}
    (h : Holds s ((start F env file ans).run F env callbacks).app) :
    s.persisted.Storable env.lower := by
  have hevents : ∀ e ∈ runEvents F env file ans callbacks, e.Savable env.lower :=
    fun e he => savable_of_fetched (fetched_runEvents file ans callbacks e he) hnames
  have hcore := core_run F env file ans callbacks
  simp only [hquit, Bool.false_eq_true, if_false] at hcore
  obtain ⟨hglobal, hnameRules, hexpanded⟩ := h.eq_core
  rw [hcore, AppState.core_globalRule] at hglobal
  rw [hcore, AppState.core_nameRules] at hnameRules
  rw [hcore, AppState.core_expanded] at hexpanded
  exact AppState.storable_run hcase (storable_load hlower file) hevents hglobal hnameRules
    hexpanded h.windowWidth h.windowHeight

variable (F env) in
theorem run_concat (w : AppWindow) (callbacks : List (Callback × Answers))
    (c : Callback × Answers) : w.run F env (callbacks ++ [c]) =
      if (w.run F env callbacks).quit then w.run F env callbacks
      else (w.run F env callbacks).on F env c.2 c.1 :=
  List.foldl_append

theorem asked_subset_concat (ans : Answers) (callbacks : List (Callback × Answers))
    (c : Callback × Answers) : asked ans callbacks ⊆ asked ans (callbacks ++ [c]) := by
  rw [asked, asked, List.map_append, ← List.cons_append]
  exact List.subset_append_left _ _

/-- While every save succeeds and the event loop runs, the file tells what is set. -/
theorem synced_run [OrderedF32 F] (hlower : FullyLowercases env.lower)
    (hcase : IgnoresAsciiCase env.lower) (file : Option Text) (ans : Answers)
    {callbacks : List (Callback × Answers)}
    (hnames : ∀ query ∈ asked ans callbacks, SavableNames env.lower query)
    (hsaved : ∀ c ∈ callbacks, c.2.saved = true)
    (hquit : ((start F env file ans).run F env callbacks).quit = false) :
    Synced F env ((start F env file ans).run F env callbacks).file
      ((start F env file ans).run F env callbacks).app := by
  induction callbacks using List.reverseRecOn with
  | nil =>
    have hrendered := same_renderRows F env
      { app := .new (AppSettings.load env.lower file : AppSettings F), file := file } ans
    change Synced F env (start F env file ans).file (start F env file ans).app
    rw [Synced, start, hrendered.file, hrendered.set]
    exact (congrArg (fun s : AppSettings F => ((AppState.new s).toSettings : AppSettings F))
      (persisted_of_storable (storable_load hlower file))).symm
  | append_singleton callbacks c ih =>
    have hrun := run_concat F env (start F env file ans) callbacks c
    have hbefore : ((start F env file ans).run F env callbacks).quit = false := by
      by_contra hleft
      rw [hrun, if_pos (by simpa using hleft)] at hquit
      exact hleft hquit
    have hon : (start F env file ans).run F env (callbacks ++ [c]) =
        ((start F env file ans).run F env callbacks).on F env c.2 c.1 := by
      rw [hrun, hbefore, if_neg Bool.false_ne_true]
    have hsynced := ih
      (fun query hquery => hnames query (asked_subset_concat ans callbacks c hquery))
      (fun c hc => hsaved c (List.mem_append_left _ hc)) hbefore
    rcases saves_on F env hbefore (hsaved c (by simp)) c.1 with
      ⟨-, hfile, hset⟩ | hwrote | ⟨⟨w'', hleft⟩, -⟩
    · rw [hon, Synced, hfile, hset]
      exact hsynced
    · rw [← hon] at hwrote
      obtain ⟨-, s, hfile, hholds⟩ := hwrote
      rw [hfile]
      exact synced_of_storable hholds (storable_of_holds hlower hcase hnames hquit hholds)
    · rw [hon, hleft] at hquit
      cases hquit

variable (F) in
/-- The next start reads what is set, and so it does if a callback leaves the event loop, which
stops the engine and rids it of every rule. -/
structure Restores (env : Surroundings) (w : AppWindow) : Prop where
  running : Synced F env w.file w.app
  left : ∀ (last : Answers) (c : Callback), last.saved = true →
    (w.on F env last c).quit = true →
      Synced F env (w.on F env last c).file w.app ∧
        (w.on F env last c).app.engine.running = false ∧
        (w.on F env last c).app.engine.policy.rules = ∅ ∧
        (w.on F env last c).app.engine.policy.globalRule = {}

/-- As long as every save succeeds, the file tells the next start what is set, adapted rates
apart. -/
theorem run_restores [OrderedF32 F] (hlower : FullyLowercases env.lower)
    (hcase : IgnoresAsciiCase env.lower) (file : Option Text) (ans : Answers)
    {callbacks : List (Callback × Answers)}
    (hnames : ∀ query ∈ asked ans callbacks, SavableNames env.lower query)
    (hsaved : ∀ c ∈ callbacks, c.2.saved = true)
    (hquit : ((start F env file ans).run F env callbacks).quit = false) :
    Restores F env ((start F env file ans).run F env callbacks) := by
  refine ⟨synced_run hlower hcase file ans hnames hsaved hquit, fun last c hlast hleft => ?_⟩
  rcases saves_on F env hquit hlast c with
    ⟨hstays, -⟩ | hwrote | ⟨⟨w'', hexit⟩, s, hfile, hholds⟩
  · rw [hstays] at hleft
    cases hleft
  · rw [hwrote.1] at hleft
    cases hleft
  · refine ⟨?_, by rw [hexit]; rfl, by rw [hexit]; rfl, by rw [hexit]; rfl⟩
    rw [hfile]
    exact synced_of_storable hholds (storable_of_holds hlower hcase hnames hquit hholds)

/-- One process is blocked before the window is closed. -/
def blocking : List (Callback × Answers) :=
  [(.rowClicked 1 0, refusing), (.selectedBoolRuleEdited "block".toList true, refusing)]

theorem run_restores_blocked : ∃ w : AppWindow,
    w = (start WholeF32 plainSurroundings none refusing).run WholeF32 plainSurroundings blocking ∧
    w.app.nameRules.keys = ["web".toList] ∧ Restores WholeF32 plainSurroundings w := by
  have hweb : Savable toAsciiLowercase (toAsciiLowercase "web".toList) :=
    ⟨⟨by decide, by decide, by decide⟩, ⟨by decide, by decide⟩, ⟨by decide, by decide⟩, by decide⟩
  have hasked : ∀ query ∈ asked refusing blocking,
      SavableNames plainSurroundings.lower query := by
    intro query hquery pid path name _ hname
    have heq : query = refusing.query := by simpa [asked, blocking] using hquery
    rw [heq] at hname
    cases hname
    exact hweb
  have hsaved : ∀ c ∈ blocking, c.2.saved = true := by decide
  refine ⟨_, rfl, by decide +kernel, ?_⟩
  refine run_restores fullyLowercases_toAsciiLowercase ignoresAsciiCase_toAsciiLowercase none
    refusing hasked hsaved ?_
  decide +kernel

end Sessions

end AppWindow

end FlowBrake.Ui
