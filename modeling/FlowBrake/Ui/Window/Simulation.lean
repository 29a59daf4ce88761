import FlowBrake.Ui.AppState.Frame
import FlowBrake.Ui.Window

/-! The window's callbacks as events of the application: what is proved of the events' runs holds
of the window. -/
namespace FlowBrake.Ui
open FlowBrake.Core FlowBrake.Windows Text

namespace AppState

/-- The state without the drafts and the language, which are the window's affair. -/
def core (st : AppState) : AppState := { st.clearDrafts with language := .system }

section Core
variable {lower : Text → Text} {parseF64 : Text → Option ℚ}

@[simp] theorem core_engine (st : AppState) : st.core.engine = st.engine := rfl
@[simp] theorem core_expanded (st : AppState) : st.core.expanded = st.expanded := rfl
@[simp] theorem core_rules (st : AppState) : st.core.rules = st.rules := rfl
@[simp] theorem core_nameRules (st : AppState) : st.core.nameRules = st.nameRules := rfl
@[simp] theorem core_globalRule (st : AppState) : st.core.globalRule = st.globalRule := rfl
@[simp] theorem core_rows (st : AppState) : st.core.rows = st.rows := rfl
@[simp] theorem core_speeds (st : AppState) : st.core.speeds = st.speeds := rfl
@[simp] theorem core_selected (st : AppState) : st.core.selected = st.selected := rfl
@[simp] theorem core_speedUnit (st : AppState) : st.core.speedUnit = st.speedUnit := rfl
@[simp] theorem core_tableFingerprint (st : AppState) :
    st.core.tableFingerprint = st.tableFingerprint := rfl
@[simp] theorem core_core (st : AppState) : st.core.core = st.core := rfl

theorem foldl_core {α : Type} {f : AppState → α → AppState}
    (hf : ∀ st a, f st.core a = (f st a).core) (as : List α) (st : AppState) :
    as.foldl f st.core = (as.foldl f st).core := by
  induction as generalizing st with
  | nil => rfl
  | cons a as ih => rw [List.foldl_cons, List.foldl_cons, hf, ih]

theorem core_editRow (st : AppState) (row : ProcessRow) (edit : FieldEdit) :
    st.core.editRow lower row edit = (st.editRow lower row edit).core := by
  unfold editRow applyRuleToRow
  split <;> rfl

theorem core_applyNameRulesFrom (st : AppState) (processes : List ProcessInfo) :
    st.core.applyNameRulesFrom lower processes = (st.applyNameRulesFrom lower processes).core := by
  unfold applyNameRulesFrom
  dsimp only
  by_cases hrunning : st.engine.running
  · rw [if_pos (show st.core.engine.running from hrunning), if_pos hrunning]
    exact foldl_core (f := fun st (p : UInt32 × ProcessRule) =>
        st.send (.updateRule p.1 (runtimeRule p.2))) (fun _ _ => rfl) _
      { st with rules := (inheritNameRules lower st.rules st.nameRules processes).1 }
  · rw [if_neg (show ¬ st.core.engine.running from hrunning), if_neg hrunning]
    rfl

theorem core_refreshRowSpeeds (st : AppState) :
    st.core.refreshRowSpeeds = st.refreshRowSpeeds.core := by
  unfold refreshRowSpeeds
  simp only [core_rows]
  split <;> rfl

theorem core_rebuildRowsFrom (st : AppState) (processes : List ProcessInfo) :
    st.core.rebuildRowsFrom lower processes = (st.rebuildRowsFrom lower processes).core :=
  core_refreshRowSpeeds { st with
    rows := buildProcessRows lower processes st.expanded st.rules st.speeds st.globalRule .process
      .ascending }

theorem core_rebuildRows (st : AppState) (processes : List ProcessInfo) :
    st.core.rebuildRows lower processes = (st.rebuildRows lower processes).core := by
  rw [rebuildRows, rebuildRows, core_applyNameRulesFrom, core_rebuildRowsFrom]
  rfl

theorem core_refreshTableOnTick (st : AppState) (processes : List ProcessInfo) :
    st.core.refreshTableOnTick lower processes = (st.refreshTableOnTick lower processes).core := by
  unfold refreshTableOnTick
  simp only [core_applyNameRulesFrom, core_expanded, core_tableFingerprint]
  split
  · exact core_rebuildRowsFrom { st.applyNameRulesFrom lower processes with
      tableFingerprint := .fromProcesses processes _ } processes
  · exact core_refreshRowSpeeds _

theorem core_toggleRowExpanded (st : AppState) (rowIndex : ℤ) :
    st.core.toggleRowExpanded lower rowIndex = (st.toggleRowExpanded lower rowIndex).core := by
  unfold toggleRowExpanded
  rw [show st.core.rowAt rowIndex = st.rowAt rowIndex from rfl]
  split
  · split
    · rfl
    · split <;> rfl
  · rfl

theorem core_pushAllRules (st : AppState) : st.core.pushAllRules = st.pushAllRules.core :=
  foldl_core (f := fun st (p : UInt32 × ProcessRule) =>
      st.send (.updateRule p.1 (runtimeRule p.2))) (fun _ _ => rfl) st.rules.toList
    (st.send (.setGlobalRule (runtimeRule st.globalRule)))

theorem core_start (st : AppState) (started : Bool) :
    st.core.start started = (st.start started).core := by
  rw [start, core_pushAllRules]
  rfl

theorem core_restartEngine (st : AppState) (started : Bool) :
    st.core.restartEngine started = (st.restartEngine started).core := by
  unfold restartEngine
  by_cases hrunning : st.engine.running
  · rw [if_pos (show st.core.engine.running from hrunning), if_pos hrunning]
    exact core_start { st with engine := { st.engine with running := false } } started
  · rw [if_neg (show ¬ st.core.engine.running from hrunning), if_neg hrunning]

theorem core_adjustGlobal (st : AppState) (direction : Direction) (measuredBps : ℚ) :
    st.core.adjustGlobal direction measuredBps = (st.adjustGlobal direction measuredBps).core := by
  unfold adjustGlobal
  simp only [core_globalRule]
  split <;> rfl

theorem core_adjustPid (st : AppState) (pid : UInt32) (direction : Direction) (measuredBps : ℚ) :
    st.core.adjustPid pid direction measuredBps =
      (st.adjustPid pid direction measuredBps).core := by
  unfold adjustPid
  simp only [core_rules]
  split <;> rfl

theorem core_runAdaptiveFeedback (st : AppState) :
    st.core.runAdaptiveFeedback = st.runAdaptiveFeedback.core := by
  have hglobal : (if st.core.globalRule.adaptive then (st.core.adjustGlobal .download
      st.core.globalDlBps).adjustGlobal .upload st.core.globalUlBps else st.core) =
      (if st.globalRule.adaptive then (st.adjustGlobal .download
        st.globalDlBps).adjustGlobal .upload st.globalUlBps else st).core := by
    simp only [core_globalRule, core_adjustGlobal]
    split <;> rfl
  unfold runAdaptiveFeedback
  dsimp only
  rw [hglobal]
  refine foldl_core (fun st pid => ?_) _ _
  simp only [core_rules, core_speeds, core_adjustPid]
  split <;> rfl

theorem core_tick (st : AppState) (snapshot : EngineSnapshot) :
    (st.core.tick snapshot).1 = (st.tick snapshot).1.core := by
  have hmeasure : st.core.measure snapshot = (st.measure snapshot).core := rfl
  unfold tick
  simp only [hmeasure]
  split
  · exact core_runAdaptiveFeedback _
  · rfl

theorem core_fullExit_of_core {st st' : AppState} (h : st'.core = st.core) :
    st'.fullExit.core = st.fullExit.core := by
  have hcore (st : AppState) : st.core.fullExit.core = st.fullExit.core := rfl
  rw [← hcore, h, hcore]

theorem core_setLossDraft (st : AppState) (draft : Option Text) (direction : Direction) :
    (st.setLossDraft draft direction).core = st.core := by
  cases direction <;> rfl

theorem core_setDelayDraft (st : AppState) (draft : Option Text) (direction : Direction) :
    (st.setDelayDraft draft direction).core = st.core := by
  cases direction <;> rfl

theorem core_editSelectedText {ε α : Type}
    {setDraft : AppState → Option Text → Direction → AppState}
    (hdraft : ∀ st draft direction, (setDraft st draft direction).core = st.core)
    (parse : Text → Except ε α) (edit : α → Direction → FieldEdit) (st : AppState)
    (direction text : Text) :
    (st.core.editSelectedText lower parse setDraft edit direction text).1.core =
      (st.editSelectedText lower parse setDraft edit direction text).1.core := by
  simp only [editSelectedText, show st.core.selectedRow lower = st.selectedRow lower from rfl]
  split
  · rfl
  · split
    · rfl
    · split
      · exact (hdraft st.core _ _).trans (hdraft st _ _).symm
      · dsimp only
        rw [← core_editRow, ← core_editRow, hdraft, hdraft, core_core]

/-- An event does the same, whatever the drafts and the language are. -/
theorem core_step (st : AppState) (e : Event) :
    (st.core.step lower parseF64 e).core = (st.step lower parseF64 e).core := by
  cases e with
  | editBool rowIndex field value =>
    simp only [step, editBool, show st.core.rowAt rowIndex = st.rowAt rowIndex from rfl]
    split
    · rfl
    · split
      · rfl
      · simp only [← core_editRow]
        rfl
  | editSelectedBool field value =>
    simp only [step, editSelectedBool,
      show st.core.selectedRow lower = st.selectedRow lower from rfl]
    split
    · rfl
    · split
      · rfl
      · simp only [← core_editRow]
        rfl
  | editRowLimit rowIndex direction text now =>
    simp only [step, editRowLimit, core_speedUnit,
      show st.core.rowAt rowIndex = st.rowAt rowIndex from rfl]
    split
    · rfl
    · split
      · rfl
      · split
        · rfl
        · simp only [← core_editRow]
          rfl
  | editSelectedLimit direction text now =>
    simp only [step, editSelectedLimit, core_speedUnit,
      show st.core.selectedRow lower = st.selectedRow lower from rfl]
    split
    · rfl
    · split
      · rfl
      · split
        · rfl
        · simp only [← core_editRow]
          rfl
  | editSelectedLoss direction text =>
    exact core_editSelectedText core_setLossDraft parseLossPercent .loss st direction text
  | editSelectedDelay direction text =>
    exact core_editSelectedText core_setDelayDraft parseDelayMs .delay st direction text
  | rebuildRows processes => simp only [step, core_rebuildRows, core_core]
  | refreshTableOnTick processes => simp only [step, core_refreshTableOnTick, core_core]
  | toggleRowExpanded rowIndex => simp only [step, core_toggleRowExpanded, core_core]
  | tick snapshot => simp only [step, core_tick, core_core]
  | start started => simp only [step, core_start, core_core]
  | restartEngine started => simp only [step, core_restartEngine, core_core]
  | selectRow | clearSelection | setLimitEditing | setSpeedUnit | setIpv6Enabled | stop
  | engineExit => rfl

theorem core_step_of_core {st st' : AppState} (h : st'.core = st.core) (e : Event) :
    (st'.step lower parseF64 e).core = (st.step lower parseF64 e).core := by
  rw [← core_step, h, core_step]

theorem core_run_of_core {st st' : AppState} (h : st'.core = st.core) (events : List Event) :
    (st'.run lower parseF64 events).core = (st.run lower parseF64 events).core := by
  induction events generalizing st st' with
  | nil => exact h
  | cons e events ih => exact ih (core_step_of_core h e)

end Core

end AppState

/-- What the event reads of the processes is the list that the window fetched with one of the
queries. -/
def Event.Fetched (env : Surroundings) (queries : List ProcessQuery) (e : Event) : Prop :=
  ∀ processes ∈ e.processes, ∃ query ∈ queries, ∃ w : AppWindow,
    processes = (w.fetchProcesses env query).1

/-- What the event reads of the processes is what `get_network_processes` gave for one of the
queries, with the PIDs of some rules and the display names found so far. -/
def Event.Sourced (lower : Text → Text) (queries : List ProcessQuery) (e : Event) : Prop :=
  ∀ processes ∈ e.processes, ∃ query ∈ queries, ∃ activeRulePids cache cache',
    { query with activeRulePids }.getNetworkProcesses lower cache = some (processes, cache')

namespace Event
variable {env : Surroundings} {queries queries' : List ProcessQuery} {e : Event}

theorem Fetched.mono (h : e.Fetched env queries) (hsubset : queries ⊆ queries') :
    e.Fetched env queries' := by
  intro processes hprocesses
  obtain ⟨query, hquery, hfetched⟩ := h processes hprocesses
  exact ⟨query, hsubset hquery, hfetched⟩

theorem fetched_of_none (he : e.processes = none) : e.Fetched env queries := by
  intro processes hprocesses
  rw [he] at hprocesses
  cases hprocesses

theorem fetched_fetchProcesses (w : AppWindow) {query : ProcessQuery} (hquery : query ∈ queries)
    (he : e.processes = some (w.fetchProcesses env query).1) : e.Fetched env queries := by
  intro processes hprocesses
  rw [he] at hprocesses
  cases hprocesses
  exact ⟨query, hquery, w, rfl⟩

/-- A list that was fetched is one that the system told of, or nothing was told. -/
theorem Fetched.listing (h : e.Fetched env queries) {processes : List ProcessInfo}
    (hprocesses : processes ∈ e.processes) : processes = [] ∨ ∃ query ∈ queries,
      ∃ activeRulePids names runningPids,
        Listing env.lower names { query with activeRulePids } runningPids processes := by
  obtain ⟨query, hquery, w, hfetched⟩ := h processes hprocesses
  unfold AppWindow.fetchProcesses at hfetched
  dsimp only at hfetched
  cases hget : { query with activeRulePids := w.app.rules.keys }.getNetworkProcesses env.lower
      w.processCache with
  | none =>
    rw [hget] at hfetched
    exact .inl hfetched
  | some listed =>
    rw [hget] at hfetched
    obtain ⟨runningPids, hlisting⟩ := exists_listing_of_getNetworkProcesses hget
    exact .inr ⟨query, hquery, _, _, runningPids, hfetched.symm ▸ hlisting⟩

theorem Fetched.distinct (h : e.Fetched env queries) : e.Distinct := by
  intro processes hprocesses
  rcases h.listing hprocesses with rfl | ⟨_, _, _, _, _, hlisting⟩
  · exact .nil
  · exact hlisting.nodup

theorem Fetched.sourced (h : e.Fetched env queries) (hlawful : ∀ query ∈ queries, query.Lawful) :
    e.Sourced env.lower queries := by
  intro processes hprocesses
  obtain ⟨query, hquery, w, rfl⟩ := h processes hprocesses
  have hquery' : { query with activeRulePids := w.app.rules.keys }.Lawful :=
    ⟨(hlawful query hquery).laws, (hlawful query hquery).few⟩
  obtain ⟨processes, cache', hget, -, -⟩ :=
    getNetworkProcesses_listed env.lower hquery' w.processCache
  refine ⟨query, hquery, w.app.rules.keys, w.processCache, cache', ?_⟩
  unfold AppWindow.fetchProcesses
  dsimp only
  rw [hget]
  rfl

end Event

namespace AppWindow
variable (F : Type) [F32 F] (env : Surroundings)

section Events

/-- Events after which the table is built anew from the list that is fetched then. -/
def redrawn (w : AppWindow) (ans : Answers) (events : List Event) : List Event :=
  events ++ [.rebuildRows ({ w with app := w.app.run env.lower env.parseF64 events }.fetchProcesses
    env ans.query).1]

/-- The events that a callback comes to, in order. -/
def events (w : AppWindow) (ans : Answers) : Callback → List Event
  | .rowClicked rowIndex now =>
    w.redrawn env ans [if (w.handleRowClick rowIndex now).2 then .toggleRowExpanded rowIndex
      else .selectRow rowIndex]
  | .selectionCleared => w.redrawn env ans [.clearSelection]
  | .boolRuleEdited rowIndex field value => w.redrawn env ans [.editBool rowIndex field value]
  | .rowLimitSubmitted rowIndex direction value now =>
    w.redrawn env ans [.editRowLimit rowIndex direction value now]
  | .rowLimitFocusChanged focused => [.setLimitEditing focused]
  | .selectedLimitSubmitted direction value now => [.editSelectedLimit direction value now]
  | .selectedLossSubmitted direction value =>
    if (w.app.editSelectedLoss env.lower direction value).2 then
      w.redrawn env ans [.editSelectedLoss direction value]
    else [.editSelectedLoss direction value]
  | .selectedDelaySubmitted direction value =>
    if (w.app.editSelectedDelay env.lower direction value).2 then
      w.redrawn env ans [.editSelectedDelay direction value]
    else [.editSelectedDelay direction value]
  | .selectedBoolRuleEdited field value => w.redrawn env ans [.editSelectedBool field value]
  | .sidebarFocusChanged focused =>
    if focused then [.setLimitEditing true] else w.redrawn env ans [.setLimitEditing false]
  | .speedUnitBitsChanged bitsMode => w.redrawn env ans [.setSpeedUnit (.fromBitsMode bitsMode)]
  | .ipv6EnabledChanged enabled started =>
    if w.app.ipv6Enabled = enabled then []
    else w.redrawn env ans [.setIpv6Enabled enabled, .restartEngine started]
  | .connectionDisconnectRequested _ | .disconnectAllTcpRequested | .languageChanged _ _
  | .maximizeToggled _ | .tray .open => []
  | .autoStart elevated started => if elevated then [.start started] else []
  | .timer snapshot now =>
    let ticked := w.update env (.tick snapshot)
    .tick snapshot :: if ticked.app.canRefreshTable now then
        [.refreshTableOnTick (ticked.fetchProcesses env ans.query).1]
      else []
  | .tray .exit => w.redrawn env ans [.stop]
  | .closeRequested => if w.app.engine.running then [] else w.redrawn env ans [.stop]
  | .engineExit => [.engineExit]

/-- After the callback, the event loop is left. -/
def leaves (w : AppWindow) : Callback → Bool
  | .tray .exit => true
  | .closeRequested => !w.app.engine.running
  | _ => false

/-- The events of the callbacks that are called until the event loop is left. -/
def eventsFrom (w : AppWindow) : List (Callback × Answers) → List Event
  | [] => []
  | c :: callbacks =>
    if w.quit then [] else w.events env c.2 c.1 ++ (w.on F env c.2 c.1).eventsFrom callbacks

/-- The window before its first table. -/
def opened (file : Option Text) : AppWindow :=
  { app := .new (AppSettings.load env.lower file : AppSettings F), file }

/-- The events of a run: the first table, and what the callbacks come to. -/
def runEvents (file : Option Text) (ans : Answers) (callbacks : List (Callback × Answers)) :
    List Event :=
  (opened F env file).redrawn env ans [] ++ (start F env file ans).eventsFrom F env callbacks

/-- The queries of the system that a run makes. -/
def asked (ans : Answers) (callbacks : List (Callback × Answers)) : List ProcessQuery :=
  ans.query :: callbacks.map fun c => c.2.query

end Events

variable {F env} {queries : List ProcessQuery} {w w' w'' : AppWindow} {ans : Answers}
  {events events' : List Event}

section Fetched

theorem fetched_redrawn (hevents : ∀ e ∈ events, e.processes = none) :
    ∀ e ∈ w.redrawn env ans events, e.Fetched env [ans.query] := by
  intro e he
  rcases List.mem_append.mp he with he | he
  · exact Event.fetched_of_none (hevents e he)
  · obtain rfl := List.mem_singleton.mp he
    exact Event.fetched_fetchProcesses _ (List.mem_singleton_self ans.query) rfl

/-- The lists that a callback reads are the ones that the window fetches. -/
theorem fetched_events (w : AppWindow) (ans : Answers) (c : Callback) :
    ∀ e ∈ w.events env ans c, e.Fetched env [ans.query] := by
  have hone {e : Event} (he : e.processes = none) :
      ∀ e' ∈ [e], e'.Fetched env [ans.query] :=
    fun e' he' => Event.fetched_of_none (List.mem_singleton.mp he' ▸ he)
  have hredrawn {e : Event} (he : e.processes = none) :
      ∀ e' ∈ w.redrawn env ans [e], e'.Fetched env [ans.query] :=
    fetched_redrawn fun e' he' => List.mem_singleton.mp he' ▸ he
  have hnone : ∀ e ∈ ([] : List Event), e.Fetched env [ans.query] :=
    fun e he => absurd he List.not_mem_nil
  cases c with
  | rowClicked rowIndex now =>
    refine hredrawn ?_
    split <;> rfl
  | selectionCleared | boolRuleEdited | rowLimitSubmitted | selectedBoolRuleEdited
  | speedUnitBitsChanged => exact hredrawn rfl
  | rowLimitFocusChanged | selectedLimitSubmitted | engineExit => exact hone rfl
  | connectionDisconnectRequested | disconnectAllTcpRequested | languageChanged
  | maximizeToggled => exact hnone
  | selectedLossSubmitted | selectedDelaySubmitted =>
    simp only [AppWindow.events]
    split
    · exact hredrawn rfl
    · exact hone rfl
  | sidebarFocusChanged focused =>
    simp only [AppWindow.events]
    split
    · exact hone rfl
    · exact hredrawn rfl
  | ipv6EnabledChanged enabled started =>
    simp only [AppWindow.events]
    split
    · exact hnone
    · refine fetched_redrawn fun e he => ?_
      simp only [List.mem_cons, List.not_mem_nil, or_false] at he
      rcases he with rfl | rfl <;> rfl
  | autoStart elevated started =>
    simp only [AppWindow.events]
    split
    · exact hone rfl
    · exact hnone
  | timer snapshot now =>
    intro e he
    rcases List.mem_cons.mp he with rfl | he
    · exact Event.fetched_of_none rfl
    · split at he
      · obtain rfl := List.mem_singleton.mp he
        exact Event.fetched_fetchProcesses _ (List.mem_singleton_self ans.query) rfl
      · cases he
  | tray action =>
    cases action with
    | «open» => exact hnone
    | exit => exact hredrawn rfl
  | closeRequested =>
    simp only [AppWindow.events]
    split
    · exact hnone
    · exact hredrawn rfl

theorem fetched_eventsFrom (w : AppWindow) (callbacks : List (Callback × Answers)) :
    ∀ e ∈ w.eventsFrom F env callbacks, e.Fetched env (callbacks.map fun c => c.2.query) := by
  induction callbacks generalizing w with
  | nil => exact fun e he => absurd he List.not_mem_nil
  | cons c callbacks ih =>
    intro e he
    unfold eventsFrom at he
    split at he
    · cases he
    · rcases List.mem_append.mp he with he | he
      · exact (fetched_events w c.2 c.1 e he).mono (by simp)
      · exact (ih _ e he).mono (List.subset_cons_self _ _)

theorem fetched_runEvents (file : Option Text) (ans : Answers)
    (callbacks : List (Callback × Answers)) :
    ∀ e ∈ runEvents F env file ans callbacks, e.Fetched env (asked ans callbacks) := by
  intro e he
  rcases List.mem_append.mp he with he | he
  · exact (fetched_redrawn (fun e he => absurd he List.not_mem_nil) e he).mono (by simp [asked])
  · exact (fetched_eventsFrom _ callbacks e he).mono (List.subset_cons_self _ _)

end Fetched

section Follows

/-- The application's second state is what the events make of the first one. -/
structure Follows (env : Surroundings) (w : AppWindow) (events : List Event) (w' : AppWindow) :
    Prop where
  core : w'.app.core = (w.app.run env.lower env.parseF64 events).core
  quit : w'.quit = w.quit

/-- The second window differs in nothing that a list of the processes depends on, either. -/
structure FollowsUnlisted (env : Surroundings) (w : AppWindow) (events : List Event)
    (w' : AppWindow) : Prop extends Follows env w events w' where
  processCache : w'.processCache = w.processCache

namespace Follows

theorem trans (h : Follows env w events w') (h' : Follows env w' events' w'') :
    Follows env w (events ++ events') w'' where
  core := by
    rw [h'.core, AppState.core_run_of_core h.core]
    exact congrArg AppState.core List.foldl_append.symm
  quit := h'.quit.trans h.quit

theorem of_core (h : Follows env w events w') (hcore : w''.app.core = w'.app.core)
    (hquit : w''.quit = w'.quit) : Follows env w events w'' :=
  ⟨hcore.trans h.core, hquit.trans h.quit⟩

end Follows

theorem FollowsUnlisted.of_core (h : FollowsUnlisted env w events w')
    (hcore : w''.app.core = w'.app.core) (hquit : w''.quit = w'.quit)
    (hcache : w''.processCache = w'.processCache) : FollowsUnlisted env w events w'' :=
  ⟨h.toFollows.of_core hcore hquit, hcache.trans h.processCache⟩

theorem followsUnlisted_update (w : AppWindow) (e : Event) :
    FollowsUnlisted env w [e] (w.update env e) :=
  ⟨⟨rfl, rfl⟩, rfl⟩

/-- What is fetched depends on the rules' PIDs and on the display names found so far. -/
theorem fetchProcesses_congr (env : Surroundings) (query : ProcessQuery)
    (hrules : w'.app.rules = w.app.rules) (hcache : w'.processCache = w.processCache) :
    w'.fetchProcesses env query = w.fetchProcesses env query := by
  unfold fetchProcesses
  rw [hrules, hcache]

theorem app_refreshConnections (w : AppWindow) (tables : SystemTables) :
    (w.refreshConnections env tables).app = w.app := by
  unfold refreshConnections
  split <;> rfl

theorem kept_refreshConnections (w : AppWindow) (tables : SystemTables) :
    (w.refreshConnections env tables).quit = w.quit ∧
      (w.refreshConnections env tables).processCache = w.processCache := by
  unfold refreshConnections
  split <;> exact ⟨rfl, rfl⟩

theorem core_updateSelectedSidebar (w : AppWindow) :
    (w.updateSelectedSidebar env).app.core = w.app.core := by
  simp only [updateSelectedSidebar]
  split <;> rfl

theorem app_publishSpeedUpdates (w : AppWindow) : (w.publishSpeedUpdates env).app = w.app := by
  unfold publishSpeedUpdates
  split
  · rfl
  · split <;> rfl

theorem quit_publishSpeedUpdates (w : AppWindow) : (w.publishSpeedUpdates env).quit = w.quit := by
  unfold publishSpeedUpdates
  split
  · rfl
  · split <;> rfl

/-- A redraw is a rebuild of the table, with the list that is fetched. -/
theorem follows_renderRows (w : AppWindow) (ans : Answers) :
    Follows env w [.rebuildRows (w.fetchProcesses env ans.query).1] (w.renderRows env ans) := by
  have happ := @app_refreshConnections env w ans.tables
  obtain ⟨hquit, hcache⟩ := @kept_refreshConnections env w ans.tables
  constructor
  · rw [renderRows, core_updateSelectedSidebar]
    simp only [publishFullTable, happ,
      fetchProcesses_congr env ans.query (congrArg AppState.rules happ) hcache]
    rfl
  · exact hquit

theorem FollowsUnlisted.redrawn (h : FollowsUnlisted env w events w') (ans : Answers) :
    Follows env w (w.redrawn env ans events) (w'.renderRows env ans) := by
  have hrules : w'.app.core.rules = (w.app.run env.lower env.parseF64 events).core.rules :=
    congrArg AppState.rules h.core
  have hfetched : w'.fetchProcesses env ans.query =
      { w with app := w.app.run env.lower env.parseF64 events }.fetchProcesses env ans.query :=
    fetchProcesses_congr env ans.query hrules h.processCache
  have hrendered := @follows_renderRows env w' ans
  rw [hfetched] at hrendered
  exact h.toFollows.trans hrendered

theorem follows_refreshTableOnTick (w : AppWindow) (ans : Answers) :
    Follows env w [.refreshTableOnTick (w.fetchProcesses env ans.query).1]
      (w.refreshTableOnTick env ans) := by
  have happ := @app_refreshConnections env w ans.tables
  obtain ⟨hquit, hcache⟩ := @kept_refreshConnections env w ans.tables
  constructor
  · rw [refreshTableOnTick, core_updateSelectedSidebar]
    simp only [happ, fetchProcesses_congr env ans.query (congrArg AppState.rules happ) hcache]
    split
    · rfl
    · rw [app_publishSpeedUpdates]
      rfl
  · unfold refreshTableOnTick
    dsimp only
    split
    · exact hquit
    · exact (quit_publishSpeedUpdates _).trans hquit

theorem app_save (w : AppWindow) (saved : Bool) (settings : AppSettings F) :
    (w.save F saved settings).app = w.app := by
  unfold save
  split <;> rfl

theorem app_persistSettings (w : AppWindow) (ans : Answers) :
    (w.persistSettings F ans).app = w.app :=
  app_save _ _ _

theorem kept_save (w : AppWindow) (saved : Bool) (settings : AppSettings F) :
    (w.save F saved settings).quit = w.quit ∧
      (w.save F saved settings).processCache = w.processCache := by
  unfold save
  split <;> exact ⟨rfl, rfl⟩

theorem Follows.persistSettings (h : Follows env w events w') (ans : Answers) :
    Follows env w events (w'.persistSettings F ans) := by
  have happ := app_persistSettings (F := F) w' ans
  exact h.of_core (congrArg AppState.core happ) (kept_save w' ans.saved _).1

theorem FollowsUnlisted.persistSettings (h : FollowsUnlisted env w events w') (ans : Answers) :
    FollowsUnlisted env w events (w'.persistSettings F ans) := by
  have happ := app_persistSettings (F := F) w' ans
  obtain ⟨hquit, hcache⟩ := kept_save w' ans.saved (w'.settings F ans.window)
  exact h.of_core (congrArg AppState.core happ) hquit hcache

theorem kept_handleRowClick (w : AppWindow) (rowIndex : ℤ) (now : Instant) :
    (w.handleRowClick rowIndex now).1.app = w.app ∧
      (w.handleRowClick rowIndex now).1.quit = w.quit ∧
      (w.handleRowClick rowIndex now).1.processCache = w.processCache := by
  unfold handleRowClick
  split
  · split <;> exact ⟨rfl, rfl, rfl⟩
  · exact ⟨rfl, rfl, rfl⟩

theorem follows_applyLanguage (w : AppWindow) (choice : ℤ) (selected : Bool) (ans : Answers) :
    Follows env w [] (w.applyLanguage F env choice selected ans) := by
  unfold applyLanguage
  split
  · exact ⟨rfl, rfl⟩
  · refine Follows.persistSettings ?_ ans
    exact ⟨rfl, rfl⟩

theorem follows_toggleMaximized (w : AppWindow) (nextMaximized : Bool) (ans : Answers) :
    Follows env w [] (w.toggleMaximized F nextMaximized ans) := by
  let settings : AppSettings F := { w.app.toSettings with windowMaximized := nextMaximized }
  let saved := if nextMaximized then settings else settings.captureWindow ans.window
  exact ⟨congrArg AppState.core (app_save w ans.saved saved), (kept_save w ans.saved saved).1⟩

theorem follows_applyEngineStart (w : AppWindow) (elevated started : Bool) :
    Follows env w (if elevated then [.start started] else [])
      (w.applyEngineStart elevated started) := by
  unfold applyEngineStart
  cases elevated with
  | true => exact ⟨rfl, rfl⟩
  | false => exact ⟨rfl, rfl⟩

theorem FollowsUnlisted.applyEngineStop (h : FollowsUnlisted env w [] w') (ans : Answers) :
    Follows env w (w.redrawn env ans [.stop]) (w'.applyEngineStop env ans) := by
  have hstop : FollowsUnlisted env w [.stop] { w' with
      app := w'.app.stop, trayVisible := false, running := false, status := .stopped } := by
    refine ⟨⟨?_, h.quit⟩, h.processCache⟩
    exact @AppState.core_step_of_core env.lower env.parseF64 _ _ h.core .stop
  exact hstop.redrawn ans

/-- The connections are listed anew, and the sidebar is. -/
theorem follows_relist (hcore : w'.app.core = w.app.core) (hquit : w'.quit = w.quit)
    (tables : SystemTables) :
    Follows env w [] ((w'.refreshConnections env tables).updateSelectedSidebar env) := by
  refine ⟨?_, (kept_refreshConnections w' tables).1.trans hquit⟩
  rw [core_updateSelectedSidebar, app_refreshConnections, hcore]
  rfl

theorem follows_submit {e : Event} {app : AppState × Bool}
    (happ : app.1 = w.app.step env.lower env.parseF64 e) (ans : Answers) :
    Follows env w (if app.2 then w.redrawn env ans [e] else [e]) (w.submit F env app ans) := by
  have hedit : FollowsUnlisted env w [e] { w with app := app.1 } :=
    ⟨⟨congrArg AppState.core happ, rfl⟩, rfl⟩
  unfold submit
  dsimp only
  split
  · exact (hedit.redrawn ans).persistSettings ans
  · exact hedit.toFollows.of_core (core_updateSelectedSidebar _) rfl

theorem follows_rowClicked (w : AppWindow) (rowIndex : ℤ) (now : Instant) (ans : Answers) :
    Follows env w (w.events env ans (.rowClicked rowIndex now))
      (w.on F env ans (.rowClicked rowIndex now)) := by
  obtain ⟨happ, hquit, hcache⟩ := kept_handleRowClick w rowIndex now
  have hclick (e : Event) :
      FollowsUnlisted env w [e] ((w.handleRowClick rowIndex now).1.update env e) := by
    refine ⟨⟨?_, hquit⟩, hcache⟩
    rw [update, happ]
    rfl
  simp only [on, AppWindow.events]
  by_cases hdouble : (w.handleRowClick rowIndex now).2
  · rw [if_pos hdouble, if_pos hdouble]
    exact ((hclick _).persistSettings ans).redrawn ans
  · rw [if_neg hdouble, if_neg hdouble]
    exact (hclick _).redrawn ans

theorem follows_ipv6EnabledChanged (w : AppWindow) (enabled started : Bool) (ans : Answers) :
    Follows env w (w.events env ans (.ipv6EnabledChanged enabled started))
      (w.on F env ans (.ipv6EnabledChanged enabled started)) := by
  simp only [on, AppWindow.events]
  by_cases hsame : w.app.ipv6Enabled = enabled
  · rw [if_pos hsame, if_pos hsame]
    exact ⟨rfl, rfl⟩
  · rw [if_neg hsame, if_neg hsame]
    refine FollowsUnlisted.redrawn (.persistSettings ?_ ans) ans
    split <;> exact ⟨⟨rfl, rfl⟩, rfl⟩

theorem follows_timer (w : AppWindow) (snapshot : EngineSnapshot) (now : Instant) (ans : Answers) :
    Follows env w (w.events env ans (.timer snapshot now))
      (w.on F env ans (.timer snapshot now)) := by
  have htick : Follows env w [.tick snapshot] { w.update env (.tick snapshot) with
      running := snapshot.running
      status := (w.update env (.tick snapshot)).app.runningStatus snapshot } := ⟨rfl, rfl⟩
  simp only [on, AppWindow.events]
  split
  · exact htick.trans (follows_refreshTableOnTick _ ans)
  · exact htick

variable (F env) in
/-- A callback does to the application what its events do, and then perhaps leaves the event
loop. -/
theorem follows_on (w : AppWindow) (ans : Answers) (c : Callback) :
    ∃ w', Follows env w (w.events env ans c) w' ∧
      w.on F env ans c = if w.leaves c then w'.exit else w' := by
  cases c with
  | rowClicked rowIndex now => exact ⟨_, follows_rowClicked w rowIndex now ans, rfl⟩
  | selectionCleared => exact ⟨_, (followsUnlisted_update w _).redrawn ans, rfl⟩
  | boolRuleEdited | rowLimitSubmitted | selectedBoolRuleEdited =>
    exact ⟨_, ((followsUnlisted_update w _).redrawn ans).persistSettings ans, rfl⟩
  | rowLimitFocusChanged | engineExit => exact ⟨_, (followsUnlisted_update w _).toFollows, rfl⟩
  | selectedLimitSubmitted direction value now =>
    have hedit := (@followsUnlisted_update env w (.editSelectedLimit direction value now)).toFollows
    exact ⟨_, (hedit.of_core (core_updateSelectedSidebar _) rfl).persistSettings ans, rfl⟩
  | selectedLossSubmitted direction value =>
    exact ⟨_, follows_submit (e := .editSelectedLoss direction value) rfl ans, rfl⟩
  | selectedDelaySubmitted direction value =>
    exact ⟨_, follows_submit (e := .editSelectedDelay direction value) rfl ans, rfl⟩
  | sidebarFocusChanged focused =>
    cases focused with
    | true => exact ⟨_, (followsUnlisted_update w _).toFollows, rfl⟩
    | false => exact ⟨_, (followsUnlisted_update w _).redrawn ans, rfl⟩
  | speedUnitBitsChanged bitsMode =>
    exact ⟨_, ((followsUnlisted_update w _).persistSettings ans).redrawn ans, rfl⟩
  | ipv6EnabledChanged enabled started =>
    exact ⟨_, follows_ipv6EnabledChanged w enabled started ans, rfl⟩
  | connectionDisconnectRequested key =>
    refine ⟨_, follows_relist ?_ ?_ ans.tables, rfl⟩
    · split
      · rfl
      · split <;> rfl
    · split
      · rfl
      · split <;> rfl
  | disconnectAllTcpRequested =>
    refine ⟨_, follows_relist ?_ ?_ ans.tables, rfl⟩ <;> split <;> rfl
  | languageChanged choice selected => exact ⟨_, follows_applyLanguage w choice selected ans, rfl⟩
  | maximizeToggled nextMaximized =>
    exact ⟨_, follows_toggleMaximized w nextMaximized ans, rfl⟩
  | autoStart elevated started => exact ⟨_, follows_applyEngineStart w elevated started, rfl⟩
  | timer snapshot now => exact ⟨_, follows_timer (F := F) w snapshot now ans, rfl⟩
  | tray action =>
    cases action with
    | «open» => exact ⟨w.on F env ans (.tray .open), ⟨rfl, rfl⟩, rfl⟩
    | exit =>
      have hsaved : FollowsUnlisted env w [] (w.persistSettings F ans) :=
        FollowsUnlisted.persistSettings ⟨⟨rfl, rfl⟩, rfl⟩ ans
      exact ⟨_, hsaved.applyEngineStop ans, rfl⟩
  | closeRequested =>
    have hsaved : FollowsUnlisted env w [] (w.persistSettings F ans) :=
      FollowsUnlisted.persistSettings ⟨⟨rfl, rfl⟩, rfl⟩ ans
    have happ := app_persistSettings (F := F) w ans
    simp only [AppWindow.events, leaves, on, handleCloseRequest, happ]
    by_cases hrunning : w.app.engine.running
    · simp only [hrunning, if_true, Bool.not_true, Bool.false_eq_true, if_false]
      refine ⟨{ w.persistSettings F ans with trayVisible := true, visible := false, app := w.app },
        ⟨rfl, hsaved.quit⟩, rfl⟩
    · simp only [hrunning, Bool.not_false, if_true]
      exact ⟨_, hsaved.applyEngineStop ans, rfl⟩

theorem run_cons (w : AppWindow) (c : Callback × Answers) (callbacks : List (Callback × Answers)) :
    w.run F env (c :: callbacks) = (if w.quit then w else w.on F env c.2 c.1).run F env callbacks :=
  rfl

/-- Nothing happens once the event loop is left. -/
theorem run_of_quit (h : w.quit = true) (callbacks : List (Callback × Answers)) :
    w.run F env callbacks = w := by
  induction callbacks with
  | nil => rfl
  | cons c callbacks ih => rw [run_cons, if_pos h, ih]

variable (F env) in
theorem follows_run (callbacks : List (Callback × Answers)) {w : AppWindow}
    (hquit : w.quit = false) :
    ∃ w', Follows env w (w.eventsFrom F env callbacks) w' ∧
      w.run F env callbacks = if (w.run F env callbacks).quit then w'.exit else w' := by
  induction callbacks generalizing w with
  | nil =>
    refine ⟨w, ⟨rfl, rfl⟩, ?_⟩
    rw [show w.run F env [] = w from rfl, hquit]
    rfl
  | cons c callbacks ih =>
    obtain ⟨w', hfollows, hon⟩ := follows_on F env w c.2 c.1
    rw [run_cons, eventsFrom, if_neg (by simp [hquit]), if_neg (by simp [hquit])]
    have hquit' : w'.quit = false := hfollows.quit.trans hquit
    by_cases hleaves : w.leaves c.1
    · rw [if_pos hleaves] at hon
      have hleft : (w.on F env c.2 c.1).quit = true := by rw [hon]; rfl
      have hnone : (w.on F env c.2 c.1).eventsFrom F env callbacks = [] := by
        cases callbacks with
        | nil => rfl
        | cons c callbacks => exact if_pos hleft
      rw [run_of_quit hleft, hnone, List.append_nil]
      simp only [hleft, if_true]
      exact ⟨w', hfollows, hon⟩
    · rw [if_neg hleaves] at hon
      rw [hon]
      obtain ⟨w'', hfollows', hrun⟩ := ih hquit'
      exact ⟨w'', hfollows.trans hfollows', hrun⟩

variable (F env) in
/-- A run of the window does to the application what its events do, and then perhaps exits. -/
theorem core_run (file : Option Text) (ans : Answers) (callbacks : List (Callback × Answers)) :
    ((start F env file ans).run F env callbacks).app.core =
      let st := (AppState.new (AppSettings.load env.lower file : AppSettings F)).run env.lower
        env.parseF64 (runEvents F env file ans callbacks)
      (if ((start F env file ans).run F env callbacks).quit then st.fullExit else st).core := by
  have hopened : FollowsUnlisted env (opened F env file) [] (opened F env file) :=
    ⟨⟨rfl, rfl⟩, rfl⟩
  have hstart : Follows env (opened F env file) ((opened F env file).redrawn env ans [])
      (start F env file ans) := hopened.redrawn ans
  obtain ⟨w', hfollows, hrun⟩ := follows_run F env callbacks (w := start F env file ans)
    hstart.quit
  have hcore := (hstart.trans hfollows).core
  have hend := congrArg (fun w : AppWindow => w.app.core) hrun
  refine hend.trans ?_
  by_cases hquit : ((start F env file ans).run F env callbacks).quit
  · simp only [hquit, if_true]
    exact AppState.core_fullExit_of_core hcore
  · simp only [hquit]
    exact hcore

/-- In every run, the application is what the events of the callbacks make of it, up to the exit.
The events read what `get_network_processes` gave, and no callback after the exit changes
anything. -/
theorem run_simulates (env : Surroundings) (file : Option Text) (ans : Answers)
    (callbacks : List (Callback × Answers))
    (hlawful : ∀ query ∈ asked ans callbacks, query.Lawful) :
    (((start F env file ans).run F env callbacks).app.core =
      let st := (AppState.new (AppSettings.load env.lower file : AppSettings F)).run env.lower
        env.parseF64 (runEvents F env file ans callbacks)
      (if ((start F env file ans).run F env callbacks).quit then st.fullExit else st).core) ∧
    (∀ e ∈ runEvents F env file ans callbacks, e.Sourced env.lower (asked ans callbacks)) ∧
    (((start F env file ans).run F env callbacks).quit = true → ∀ later,
      (start F env file ans).run F env (callbacks ++ later) =
        (start F env file ans).run F env callbacks) := by
  refine ⟨core_run F env file ans callbacks, fun e he => ?_, fun hquit later => ?_⟩
  · exact (fetched_runEvents file ans callbacks e he).sourced hlawful
  · rw [run, List.foldl_append]
    exact run_of_quit hquit later

end Follows


section Leaving

/-- One process, with one connection, which the system refuses to close. -/
def refusing : Answers where
  query := webQuery (some [36895])
  tables := answerTables establishedTables
  setTcpEntry := fun _ => 5
  saved := true
  window := {}

def plainSurroundings : Surroundings where
  lower := toAsciiLowercase
  parseF64 := fun _ => none
  display := plainText
  parseAddr := parsePlain
  computerName := []
  off := fun _ => []

/-- One process is blocked while the engine runs, and the application is left. -/
def leaving : List (Callback × Answers) :=
  [(.autoStart true true, refusing), (.boolRuleEdited 1 "block".toList true, refusing),
    (.tray .exit, refusing), (.selectionCleared, refusing)]

theorem run_simulates_leaving : ∃ w : AppWindow,
    w = (start WholeF32 plainSurroundings none refusing).run WholeF32 plainSurroundings leaving ∧
    w.quit = true ∧ w.app.nameRules.keys = ["web".toList] ∧
    w.app.core = ((AppState.new (AppSettings.load toAsciiLowercase none :
      AppSettings WholeF32)).run toAsciiLowercase plainSurroundings.parseF64
        (runEvents WholeF32 plainSurroundings none refusing leaving)).fullExit.core := by
  have hlawful : ∀ query ∈ asked refusing leaving, query.Lawful := by
    intro query hquery
    have heq : query = refusing.query := by simpa [asked, leaving] using hquery
    rw [heq]
    exact lawful_webQuery (by simp)
  obtain ⟨hcore, -, -⟩ := run_simulates (F := WholeF32) plainSurroundings none refusing leaving
    hlawful
  have hquit : ((start WholeF32 plainSurroundings none refusing).run WholeF32 plainSurroundings
      leaving).quit = true := by decide +kernel
  rw [hquit] at hcore
  exact ⟨_, rfl, hquit, by decide +kernel, hcore⟩

end Leaving

end AppWindow

end FlowBrake.Ui
