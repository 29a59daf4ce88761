import FlowBrake.Ui.Window.Shown

/-! The connections that the window shows of the selected row, and what becomes of the requests to
close them. -/
namespace FlowBrake.Ui
open FlowBrake.Core FlowBrake.Windows Text

namespace AppState

section Pids
variable {lower : Text → Text} {parseF64 : Text → Option ℚ}

end Pids

end AppState

namespace AppWindow
variable {F : Type} [F32 F] {env : Surroundings} {w w' : AppWindow} {ans : Answers}

section Kept

/-- The connections are kept by PID as they were last listed. -/
def Keeps (w : AppWindow) : Prop := w.connections = .refresh w.connections.all

theorem Keeps.of_connections (h : w.Keeps) (hconnections : w'.connections = w.connections) :
    w'.Keeps := by
  rw [Keeps, hconnections]
  exact h

theorem Keeps.refreshConnections (h : w.Keeps) (tables : SystemTables) :
    (w.refreshConnections env tables).Keeps := by
  unfold AppWindow.refreshConnections
  split
  · rfl
  · exact h

theorem connections_save (w : AppWindow) (saved : Bool) (settings : AppSettings F) :
    (w.save F saved settings).connections = w.connections := by
  unfold save
  split <;> rfl

theorem Keeps.persistSettings (h : w.Keeps) (ans : Answers) : (w.persistSettings F ans).Keeps :=
  h.of_connections (connections_save w ans.saved (w.settings F ans.window))

theorem Keeps.renderRows (h : w.Keeps) (ans : Answers) : (w.renderRows env ans).Keeps :=
  (h.refreshConnections ans.tables).of_connections rfl

theorem Keeps.refreshTableOnTick (h : w.Keeps) (ans : Answers) :
    (w.refreshTableOnTick env ans).Keeps := by
  have hrefreshed : (w.refreshConnections env ans.tables).Keeps := h.refreshConnections ans.tables
  refine hrefreshed.of_connections ?_
  unfold AppWindow.refreshTableOnTick updateSelectedSidebar publishSpeedUpdates
  dsimp only
  split
  · rfl
  · split
    · rfl
    · split <;> rfl

theorem Keeps.submit (h : w.Keeps) (app : AppState × Bool) (ans : Answers) :
    (w.submit F env app ans).Keeps := by
  have hedit : { w with app := app.1 }.Keeps := h
  unfold AppWindow.submit
  dsimp only
  split
  · exact (hedit.renderRows ans).persistSettings ans
  · exact hedit

theorem Keeps.applyEngineStop (h : w.Keeps) (ans : Answers) : (w.applyEngineStop env ans).Keeps :=
  Keeps.renderRows (w := { w with
    app := w.app.stop, trayVisible := false, running := false, status := .stopped }) h ans

theorem Keeps.rowClicked (h : w.Keeps) (rowIndex : ℤ) (now : Instant) (ans : Answers) :
    (w.on F env ans (.rowClicked rowIndex now)).Keeps := by
  have hclick : (w.handleRowClick rowIndex now).1.Keeps := by
    refine h.of_connections ?_
    unfold handleRowClick
    split
    · split <;> rfl
    · rfl
  unfold AppWindow.on
  dsimp only
  by_cases hdouble : (w.handleRowClick rowIndex now).2
  · rw [if_pos hdouble]
    exact (Keeps.persistSettings (w := (w.handleRowClick rowIndex now).1.update env
      (.toggleRowExpanded rowIndex)) hclick ans).renderRows ans
  · rw [if_neg hdouble]
    exact Keeps.renderRows (w := (w.handleRowClick rowIndex now).1.update env
      (.selectRow rowIndex)) hclick ans

theorem Keeps.ipv6EnabledChanged (h : w.Keeps) (enabled started : Bool) (ans : Answers) :
    (w.on F env ans (.ipv6EnabledChanged enabled started)).Keeps := by
  unfold on
  dsimp only
  split
  · exact h
  · refine Keeps.renderRows (Keeps.persistSettings (h.of_connections ?_) ans) ans
    split <;> rfl

theorem Keeps.applyLanguage (h : w.Keeps) (choice : ℤ) (selected : Bool) (ans : Answers) :
    (w.applyLanguage F env choice selected ans).Keeps := by
  unfold AppWindow.applyLanguage
  split
  · exact h
  · refine Keeps.persistSettings ?_ ans
    exact h

/-- Every callback leaves the connections as they were, or as they are listed then. -/
theorem Keeps.on (h : w.Keeps) (ans : Answers) (c : Callback) : (w.on F env ans c).Keeps := by
  cases c with
  | rowClicked rowIndex now => exact h.rowClicked rowIndex now ans
  | selectionCleared => exact Keeps.renderRows (w := w.update env .clearSelection) h ans
  | boolRuleEdited rowIndex field value =>
    exact (Keeps.renderRows (w := w.update env (.editBool rowIndex field value)) h
      ans).persistSettings ans
  | rowLimitSubmitted rowIndex direction value now =>
    exact (Keeps.renderRows (w := w.update env (.editRowLimit rowIndex direction value now)) h
      ans).persistSettings ans
  | selectedBoolRuleEdited field value =>
    exact (Keeps.renderRows (w := w.update env (.editSelectedBool field value)) h
      ans).persistSettings ans
  | rowLimitFocusChanged | engineExit => exact h
  | selectedLimitSubmitted direction value now =>
    exact Keeps.persistSettings (w := (w.update env
      (.editSelectedLimit direction value now)).updateSelectedSidebar env) h ans
  | selectedLossSubmitted | selectedDelaySubmitted => exact h.submit _ ans
  | sidebarFocusChanged focused =>
    cases focused with
    | true => exact h
    | false => exact Keeps.renderRows (w := w.update env (.setLimitEditing false)) h ans
  | speedUnitBitsChanged bitsMode =>
    exact (Keeps.persistSettings (w := w.update env (.setSpeedUnit (.fromBitsMode bitsMode))) h
      ans).renderRows ans
  | ipv6EnabledChanged enabled started => exact h.ipv6EnabledChanged enabled started ans
  | connectionDisconnectRequested key =>
    refine Keeps.refreshConnections (h.of_connections ?_) ans.tables
    split
    · rfl
    · split <;> rfl
  | disconnectAllTcpRequested =>
    refine Keeps.refreshConnections (h.of_connections ?_) ans.tables
    split <;> rfl
  | languageChanged choice selected => exact h.applyLanguage choice selected ans
  | maximizeToggled nextMaximized => exact h.of_connections (connections_save _ _ _)
  | autoStart elevated started =>
    refine h.of_connections ?_
    unfold AppWindow.on applyEngineStart
    dsimp only
    split <;> rfl
  | timer snapshot now =>
    unfold AppWindow.on
    dsimp only
    split
    · exact Keeps.refreshTableOnTick (w := { w.update env (.tick snapshot) with
        running := snapshot.running
        status := (w.update env (.tick snapshot)).app.runningStatus snapshot }) h ans
    · exact h
  | tray action =>
    cases action with
    | «open» => exact h
    | exit => exact (h.persistSettings ans).applyEngineStop ans
  | closeRequested =>
    unfold AppWindow.on handleCloseRequest
    dsimp only
    split
    · exact h.persistSettings ans
    · exact (h.persistSettings ans).applyEngineStop ans

end Kept

section Told

end Told

end AppWindow

end FlowBrake.Ui
