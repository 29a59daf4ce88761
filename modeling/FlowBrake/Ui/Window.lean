import FlowBrake.Core.Input.Limit
import FlowBrake.Core.Input.Validation
import FlowBrake.Core.Speed
import FlowBrake.Ui.AppState.Selection
import FlowBrake.Ui.Connections
import FlowBrake.Windows.IpHelper.Listing

/-! The application's window: what it shows of the state, what its callbacks do, and when the
settings file is written. -/
namespace FlowBrake.Ui
open FlowBrake.Core FlowBrake.Windows Text

namespace LanguagePreference

def fromChoice (choice : ℤ) : LanguagePreference :=
  if choice = 1 then simplifiedChinese
  else if choice = 2 then english
  else system

end LanguagePreference

/-- What the application runs in: lower-casing, the reading of `f64`, the texts of addresses, the
computer's name, and the translations of `Off`. -/
structure Surroundings where
  lower : Text → Text
  parseF64 : Text → Option ℚ
  display : IpAddr → Text
  parseAddr : Text → Option IpAddr
  computerName : Text
  off : LanguagePreference → Text

section Rows

/-- A row of the table as the window shows it, without its icon. -/
structure UiRow where
  process : Text
  pid : Text
  showIcon : Bool
  useComputerIcon : Bool
  expandable : Bool
  expanded : Bool
  dlSpeed : Text
  ulSpeed : Text
  limitDl : Bool
  dlLimit : Text
  dlLimitEdit : Text
  limitUl : Bool
  ulLimit : Text
  ulLimitEdit : Text
  block : Bool
  adaptive : Bool
  isGlobal : Bool
  isGroup : Bool
  depth : ℕ
  deriving DecidableEq

/-- `{pid}` -/
def pidText (pid : UInt32) : Text := Nat.toDigits 10 pid.toNat

def limitDisplayText (off : Text) (enabled : Bool) (kibps : UInt32) (unit : SpeedUnit) : Text :=
  if enabled && kibps > 0 then formatLimitKibps kibps unit else off

variable (env : Surroundings)

/-- `off` is the translation of `Off` that is selected. -/
def toUiRow (off : Text) (unit : SpeedUnit) (row : ProcessRow) : UiRow where
  process := match row.kind with
    | .global => env.computerName
    | .group _ displayName _ pids _ =>
      if pids.length > 1 then
        displayName ++ " (".toList ++ Nat.toDigits 10 pids.length ++ ")".toList
      else displayName
    | .child _ _ _ pid => "PID ".toList ++ pidText pid
  pid := match row.kind with
    | .global => []
    | .group _ _ _ pids _ => if pids.length = 1 then (pids.head?.map pidText).getD [] else []
    | .child _ _ _ pid => pidText pid
  showIcon := row.kind ≠ .global
  useComputerIcon := row.kind = .global
  expandable := match row.kind with
    | .group _ _ _ pids _ => pids.length > 1
    | _ => false
  expanded := match row.kind with
    | .group _ _ _ _ expanded => expanded
    | _ => false
  dlSpeed := formatSpeed row.dlBps unit
  ulSpeed := formatSpeed row.ulBps unit
  limitDl := row.rule.limitDownload
  dlLimit := limitDisplayText off row.rule.limitDownload row.rule.downloadKbps unit
  dlLimitEdit := limitText row.rule.downloadKbps unit
  limitUl := row.rule.limitUpload
  ulLimit := limitDisplayText off row.rule.limitUpload row.rule.uploadKbps unit
  ulLimitEdit := limitText row.rule.uploadKbps unit
  block := row.rule.blockAll
  adaptive := row.rule.adaptive
  isGlobal := row.kind = .global
  isGroup := match row.kind with
    | .group .. => true
    | _ => false
  depth := match row.kind with
    | .child .. => 1
    | _ => 0

end Rows

/-- What the sidebar shows of the selected row. -/
structure Sidebar where
  isOpen : Bool := false
  title : Text := []
  pid : Text := []
  dlSpeed : Text := []
  ulSpeed : Text := []
  limitDl : Bool := false
  dlLimit : Text := []
  limitUl : Bool := false
  ulLimit : Text := []
  dlLoss : Text := []
  ulLoss : Text := []
  dlLossInvalid : Bool := false
  ulLossInvalid : Bool := false
  dlDelay : Text := []
  ulDelay : Text := []
  dlDelayInvalid : Bool := false
  ulDelayInvalid : Bool := false
  block : Bool := false
  adaptive : Bool := false
  showConnections : Bool := false
  /-- The number that the summary and the title of the connections tell. -/
  connectionCount : ℕ := 0
  canDisconnectAll : Bool := false
  connections : List ConnectionRow := []

/-- The status line, without the errors' texts. -/
inductive StatusMessage
  | stopped
  | started
  | adminRequired
  | saveFailed
  | engineFailed
  | disconnectFailed (error : CloseTcpError)
  | disconnectPartial (failed : ℕ)
  | languageFailed
  | running (snapshot : EngineSnapshot) (download upload : Text) (lossPercent : ℚ)

/-- The window on the screen. -/
structure Geometry where
  isMaximized : Bool := false
  width : ℕ := 1180
  height : ℕ := 700
  x : ℤ := 0
  y : ℤ := 0

def AppSettings.captureWindow {F : Type} [F32 F] (s : AppSettings F) (window : Geometry) :
    AppSettings F :=
  if window.isMaximized then { s with windowMaximized := true }
  else
    { s with
      windowMaximized := false
      windowWidth := clamp (F32.ofInt window.width) (minWindowWidth F) (maxWindowSide F)
      windowHeight := clamp (F32.ofInt window.height) (minWindowHeight F) (maxWindowSide F)
      windowX := F32.ofInt window.x
      windowY := F32.ofInt window.y }

/-- The state that the callbacks share, the window's properties, and the settings file. -/
structure AppWindow where
  app : AppState
  processCache : ProcessMetadataCache := {}
  lastRowClick : Option (ℤ × Instant) := none
  lossSelection : Option RowSelection := none
  connections : Connections := {}
  status : StatusMessage := .stopped
  uiRows : Option (List UiRow) := none
  selectedRow : ℤ := -1
  sidebar : Sidebar := {}
  running : Bool := false
  /-- What the settings file holds. -/
  file : Option Text
  visible : Bool := true
  trayVisible : Bool := false
  /-- The event loop has been left. -/
  quit : Bool := false

/-- The system's answers to one callback: its processes and its tables of connections, the status of
each connection that is to be closed, whether the settings file could be written, and where the
window is. -/
structure Answers where
  query : ProcessQuery
  tables : SystemTables
  setTcpEntry : MibTcpRow → UInt32
  saved : Bool
  window : Geometry

namespace AppState

def canRefreshTable (st : AppState) (now : Instant) : Bool :=
  !st.limitEditing && st.suppressTableRefreshUntil.all (· ≤ now)

/-- The status line of `tick`. -/
def runningStatus (st : AppState) (snapshot : EngineSnapshot) : StatusMessage :=
  .running snapshot (formatSpeed st.globalDlBps st.speedUnit)
    (formatSpeed st.globalUlBps st.speedUnit)
    (if snapshot.packetsLossEligible = 0 then 0
      else snapshot.packetsLossDropped * 100 / snapshot.packetsLossEligible)

/-- The drafts of a row that is no longer selected are dropped. -/
def clearDrafts (st : AppState) : AppState :=
  { st with
    lossDownloadDraft := none
    lossUploadDraft := none
    delayDownloadDraft := none
    delayUploadDraft := none }

end AppState

namespace AppWindow
variable (F : Type) [F32 F] (env : Surroundings)

section Publishing

/-- `off` in the language of the window. -/
def offText (w : AppWindow) : Text := env.off w.app.language

def fetchProcesses (w : AppWindow) (query : ProcessQuery) :
    List ProcessInfo × ProcessMetadataCache :=
  let query := { query with activeRulePids := w.app.rules.keys }
  (query.getNetworkProcesses env.lower w.processCache).getD ([], w.processCache)

def refreshConnections (w : AppWindow) (tables : SystemTables) : AppWindow :=
  match listTcpConnections env.display tables w.app.ipv6Enabled with
  | .ok listed => { w with connections := .refresh listed }
  | .error _ => w

def publishFullTable (w : AppWindow) : AppWindow :=
  { w with
    uiRows := some (w.app.rows.map (toUiRow env (w.offText env) w.app.speedUnit))
    selectedRow := w.app.selectedRowIndex env.lower }

def publishSpeedUpdates (w : AppWindow) : AppWindow :=
  match w.uiRows with
  | none => w
  | some model =>
    if model.length ≠ w.app.rows.length then w
    else
      { w with
        uiRows := some (List.zipWith (fun (uiRow : UiRow) row =>
          { uiRow with
            dlSpeed := formatSpeed row.dlBps w.app.speedUnit
            ulSpeed := formatSpeed row.ulBps w.app.speedUnit }) model w.app.rows)
        selectedRow := w.app.selectedRowIndex env.lower }

/-- The sidebar of a row; while the user types in one of its fields, the texts of the fields stay as
they are. -/
def showRow (st : AppState) (connections : Connections) (sidebar : Sidebar) (row : ProcessRow)
    (retype : Bool) : Sidebar where
  isOpen := true
  title := match row.kind with
    | .global => env.computerName
    | .group _ displayName _ _ _ => displayName
    | .child _ displayName _ _ => displayName
  pid := match row.kind with
    | .group _ _ _ [pid] _ => pidText pid
    | .child _ _ _ pid => pidText pid
    | _ => "-".toList
  dlSpeed := formatSpeed row.dlBps st.speedUnit
  ulSpeed := formatSpeed row.ulBps st.speedUnit
  limitDl := row.rule.limitDownload
  dlLimit := if retype then limitText row.rule.downloadKbps st.speedUnit else sidebar.dlLimit
  limitUl := row.rule.limitUpload
  ulLimit := if retype then limitText row.rule.uploadKbps st.speedUnit else sidebar.ulLimit
  dlLoss := if retype then
      st.lossDownloadDraft.getD (formatLossPercent row.rule.downloadLossBasisPoints)
    else sidebar.dlLoss
  ulLoss := if retype then
      st.lossUploadDraft.getD (formatLossPercent row.rule.uploadLossBasisPoints)
    else sidebar.ulLoss
  dlLossInvalid := st.lossDownloadDraft.isSome
  ulLossInvalid := st.lossUploadDraft.isSome
  dlDelay := if retype then st.delayDownloadDraft.getD (formatDelayMs row.rule.downloadDelayMs)
    else sidebar.dlDelay
  ulDelay := if retype then st.delayUploadDraft.getD (formatDelayMs row.rule.uploadDelayMs)
    else sidebar.ulDelay
  dlDelayInvalid := st.delayDownloadDraft.isSome
  ulDelayInvalid := st.delayUploadDraft.isSome
  block := row.rule.blockAll
  adaptive := row.rule.adaptive
  showConnections := row.kind ≠ .global
  connectionCount := (connections.forPids env.display row.kind.pids).length
  canDisconnectAll := (connections.forPids env.display row.kind.pids).any TcpConnection.closable
  connections :=
    ((connections.forPids env.display row.kind.pids).take maxVisibleConnections).map
      fun connection => toUiConnectionRow env.display connection (row.kind.pids.length > 1)

def updateSelectedSidebar (w : AppWindow) : AppWindow :=
  let selectionChanged : Bool := w.lossSelection ≠ w.app.selected
  let app := if selectionChanged then w.app.clearDrafts else w.app
  let sidebar := match app.selectedRow env.lower with
    | none => {}
    | some row =>
      showRow env app w.connections w.sidebar row (!app.limitEditing || selectionChanged)
  { w with app, lossSelection := app.selected, sidebar }

def renderRows (w : AppWindow) (ans : Answers) : AppWindow :=
  let w := w.refreshConnections env ans.tables
  let (processes, processCache) := w.fetchProcesses env ans.query
  let w := { w with app := w.app.rebuildRows env.lower processes, processCache }
  (w.publishFullTable env).updateSelectedSidebar env

def refreshTableOnTick (w : AppWindow) (ans : Answers) : AppWindow :=
  let w := w.refreshConnections env ans.tables
  let (processes, processCache) := w.fetchProcesses env ans.query
  let fingerprint := TableFingerprint.fromProcesses processes w.app.expanded
  let tableFingerprint := w.app.tableFingerprint
  let w := { w with app := w.app.refreshTableOnTick env.lower processes, processCache }
  let w := if fingerprint ≠ tableFingerprint then w.publishFullTable env
    else w.publishSpeedUpdates env
  w.updateSelectedSidebar env

end Publishing

section Saving

/-- The settings that are saved, with the window as it is. -/
def settings (w : AppWindow) (window : Geometry) : AppSettings F :=
  (w.app.toSettings : AppSettings F).captureWindow window

def save (w : AppWindow) (saved : Bool) (settings : AppSettings F) : AppWindow :=
  if saved then { w with file := some settings.toContents } else { w with status := .saveFailed }

def persistSettings (w : AppWindow) (ans : Answers) : AppWindow :=
  w.save F ans.saved (w.settings F ans.window)

end Saving

section Engine

def applyEngineStart (w : AppWindow) (elevated started : Bool) : AppWindow :=
  if !elevated then { w with running := false, status := .adminRequired }
  else
    { w with
      app := w.app.start started
      running := started
      status := if started then .started else .engineFailed }

def applyEngineStop (w : AppWindow) (ans : Answers) : AppWindow :=
  let w := { w with
    app := w.app.stop, trayVisible := false, running := false, status := .stopped }
  w.renderRows env ans

/-- `full_exit`, after which the event loop is left. -/
def exit (w : AppWindow) : AppWindow :=
  { w with app := w.app.fullExit, trayVisible := false, visible := false, quit := true }

def handleCloseRequest (w : AppWindow) (ans : Answers) : AppWindow :=
  let w := w.persistSettings F ans
  if w.app.engine.running then { w with trayVisible := true, visible := false }
  else (w.applyEngineStop env ans).exit

end Engine

/-- The flag tells whether the click is the second of a double click. -/
def handleRowClick (w : AppWindow) (rowIndex : ℤ) (now : Instant) : AppWindow × Bool :=
  match w.lastRowClick with
  | some (lastIndex, lastTime) =>
    if lastIndex = rowIndex ∧ now - lastTime < 400 * 10 ^ 6 then
      ({ w with lastRowClick := none }, true)
    else ({ w with lastRowClick := some (rowIndex, now) }, false)
  | none => ({ w with lastRowClick := some (rowIndex, now) }, false)

/-- `apply_language`; `selected` tells whether the translation could be selected. -/
def applyLanguage (w : AppWindow) (choice : ℤ) (selected : Bool) (ans : Answers) : AppWindow :=
  if !selected then { w with status := .languageFailed }
  else
    let w := { w with app := { w.app with language := .fromChoice choice } }
    let off := w.offText env
    let uiRows := w.uiRows.map fun model =>
      List.zipWith (fun (uiRow : UiRow) row =>
        { uiRow with
          dlLimit :=
            limitDisplayText off row.rule.limitDownload row.rule.downloadKbps w.app.speedUnit
          ulLimit :=
            limitDisplayText off row.rule.limitUpload row.rule.uploadKbps w.app.speedUnit })
        model w.app.rows ++ model.drop w.app.rows.length
    let sidebar := match w.app.selectedRow env.lower with
      | none => w.sidebar
      | some row =>
        { w.sidebar with
          connectionCount := (w.connections.forPids env.display row.kind.pids).length
          dlLossInvalid := w.app.lossDownloadDraft.isSome
          ulLossInvalid := w.app.lossUploadDraft.isSome
          dlDelayInvalid := w.app.delayDownloadDraft.isSome
          ulDelayInvalid := w.app.delayUploadDraft.isSome }
    { w with uiRows, sidebar }.persistSettings F ans

/-- The second of the sidebar's two ways to close connections: all of the selected row's. -/
def disconnectAll (w : AppWindow) (ans : Answers) : AppWindow :=
  let pids := ((w.app.selectedRow env.lower).map fun row => row.kind.pids).getD []
  let expected := (w.connections.all.filter fun connection =>
    pids.contains connection.pid && connection.closable).length
  let closed := closeTcpConnectionsForPids ans.setTcpEntry pids w.connections.all
  let failed := expected - closed
  let w := if pids ≠ [] ∧ failed > 0 then { w with status := .disconnectPartial failed } else w
  (w.refreshConnections env ans.tables).updateSelectedSidebar env

/-- The connection with an id is closed. -/
def disconnect (w : AppWindow) (key : Text) (ans : Answers) : AppWindow :=
  let w := match TcpConnectionKey.decodeId env.parseAddr key with
    | none => w
    | some key =>
      match closeTcpConnection ans.setTcpEntry key with
      | .ok () => w
      | .error error => { w with status := .disconnectFailed error }
  (w.refreshConnections env ans.tables).updateSelectedSidebar env

/-- The window is maximized, or is again as it was. -/
def toggleMaximized (w : AppWindow) (nextMaximized : Bool) (ans : Answers) : AppWindow :=
  let settings : AppSettings F := { w.app.toSettings with windowMaximized := nextMaximized }
  w.save F ans.saved (if nextMaximized then settings else settings.captureWindow ans.window)

end AppWindow

inductive TrayAction
  | open
  | exit

/-- What the user does in the window, the timers, and the end of the engine's worker. -/
inductive Callback
  | rowClicked (rowIndex : ℤ) (now : Instant)
  | selectionCleared
  | boolRuleEdited (rowIndex : ℤ) (field : Text) (value : Bool)
  | rowLimitSubmitted (rowIndex : ℤ) (direction value : Text) (now : Instant)
  | rowLimitFocusChanged (focused : Bool)
  | selectedLimitSubmitted (direction value : Text) (now : Instant)
  | selectedLossSubmitted (direction value : Text)
  | selectedDelaySubmitted (direction value : Text)
  | selectedBoolRuleEdited (field : Text) (value : Bool)
  | sidebarFocusChanged (focused : Bool)
  | speedUnitBitsChanged (bitsMode : Bool)
  | ipv6EnabledChanged (enabled started : Bool)
  | connectionDisconnectRequested (key : Text)
  | disconnectAllTcpRequested
  | languageChanged (choice : ℤ) (selected : Bool)
  | maximizeToggled (nextMaximized : Bool)
  | autoStart (elevated started : Bool)
  | timer (snapshot : EngineSnapshot) (now : Instant)
  | tray (action : TrayAction)
  | closeRequested
  | engineExit

namespace AppWindow
variable (F : Type) [F32 F] (env : Surroundings)

/-- A handler's new state of the application. -/
def update (w : AppWindow) (e : Event) : AppWindow :=
  { w with app := w.app.step env.lower env.parseF64 e }

/-- A value from the sidebar is applied, or kept as a draft. -/
def submit (w : AppWindow) (app : AppState × Bool) (ans : Answers) : AppWindow :=
  let w := { w with app := app.1 }
  if app.2 then (w.renderRows env ans).persistSettings F ans
  else w.updateSelectedSidebar env

def on (w : AppWindow) (ans : Answers) : Callback → AppWindow
  | .rowClicked rowIndex now =>
    let (w, isDoubleClick) := w.handleRowClick rowIndex now
    let w := if isDoubleClick then
        (w.update env (.toggleRowExpanded rowIndex)).persistSettings F ans
      else w.update env (.selectRow rowIndex)
    w.renderRows env ans
  | .selectionCleared => (w.update env .clearSelection).renderRows env ans
  | .boolRuleEdited rowIndex field value =>
    ((w.update env (.editBool rowIndex field value)).renderRows env ans).persistSettings F ans
  | .rowLimitSubmitted rowIndex direction value now =>
    ((w.update env (.editRowLimit rowIndex direction value now)).renderRows env
      ans).persistSettings F ans
  | .rowLimitFocusChanged focused => w.update env (.setLimitEditing focused)
  | .selectedLimitSubmitted direction value now =>
    ((w.update env (.editSelectedLimit direction value now)).updateSelectedSidebar
      env).persistSettings F ans
  | .selectedLossSubmitted direction value =>
    w.submit F env (w.app.editSelectedLoss env.lower direction value) ans
  | .selectedDelaySubmitted direction value =>
    w.submit F env (w.app.editSelectedDelay env.lower direction value) ans
  | .selectedBoolRuleEdited field value =>
    ((w.update env (.editSelectedBool field value)).renderRows env ans).persistSettings F ans
  | .sidebarFocusChanged focused =>
    let w := w.update env (.setLimitEditing focused)
    if focused then w else w.renderRows env ans
  | .speedUnitBitsChanged bitsMode =>
    ((w.update env (.setSpeedUnit (.fromBitsMode bitsMode))).persistSettings F ans).renderRows env
      ans
  | .ipv6EnabledChanged enabled started =>
    if w.app.ipv6Enabled = enabled then w
    else
      let w := w.update env (.setIpv6Enabled enabled)
      let needsRestart := w.app.engine.running
      let w := w.update env (.restartEngine started)
      let w := if needsRestart && !started then { w with status := .engineFailed } else w
      ({ w with running := w.app.engine.running }.persistSettings F ans).renderRows env ans
  | .connectionDisconnectRequested key => w.disconnect env key ans
  | .disconnectAllTcpRequested => w.disconnectAll env ans
  | .languageChanged choice selected => w.applyLanguage F env choice selected ans
  | .maximizeToggled nextMaximized => w.toggleMaximized F nextMaximized ans
  | .autoStart elevated started => w.applyEngineStart elevated started
  | .timer snapshot now =>
    let w := w.update env (.tick snapshot)
    let w := { w with running := snapshot.running, status := w.app.runningStatus snapshot }
    if w.app.canRefreshTable now then w.refreshTableOnTick env ans else w
  | .tray .open => { w with trayVisible := false, visible := true }
  | .tray .exit => ((w.persistSettings F ans).applyEngineStop env ans).exit
  | .closeRequested => w.handleCloseRequest F env ans
  | .engineExit => w.update env .engineExit

/-- The window that `main` opens on the settings file. -/
def start (file : Option Text) (ans : Answers) : AppWindow :=
  { app := .new (AppSettings.load env.lower file : AppSettings F), file : AppWindow }.renderRows env
    ans

/-- The callbacks that are called until the event loop is left. -/
def run (w : AppWindow) (callbacks : List (Callback × Answers)) : AppWindow :=
  callbacks.foldl (fun w c => if w.quit then w else w.on F env c.2 c.1) w

end AppWindow

end FlowBrake.Ui
