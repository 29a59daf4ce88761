import FlowBrake.Core.Input
import FlowBrake.Core.Rate
import FlowBrake.Core.Rows
import FlowBrake.Ui.Settings
import FlowBrake.Windows.Engine.Step

/-! The application's state: the rules that the user sets, the table that shows them, and what
the engine is told of them. -/
namespace FlowBrake.Ui
open FlowBrake.Core FlowBrake.Windows Text

inductive RowSelection
  | global
  | group (name : Text)
  | child (pid : UInt32)
  deriving DecidableEq

/-- `RowSelection::from` -/
def RowSelection.ofKind (lower : Text → Text) : RowKind → RowSelection
  | .global => .global
  | .group processName _ _ _ _ => .group (lower processName)
  | .child _ _ _ pid => .child pid

/-- What the application sees of the engine. -/
structure EngineView where
  policy : Policy := {}
  running : Bool := false

def EngineView.apply (engine : EngineView) (command : EngineCommand) : EngineView :=
  { engine with policy := command.edits.foldl Edit.apply engine.policy }

structure TableFingerprint where
  pids : List UInt32 := []
  expanded : List Text := []
  deriving DecidableEq

def TableFingerprint.fromProcesses (processes : List ProcessInfo)
    (expanded : Std.ExtTreeSet Text) : TableFingerprint where
  pids := (processes.map ProcessInfo.pid).insertionSort (· ≤ ·)
  expanded := expanded.toList

structure AppState where
  engine : EngineView := {}
  expanded : Std.ExtTreeSet Text := ∅
  rules : RuleMap := ∅
  nameRules : NameRules := ∅
  globalRule : GlobalRule := {}
  rows : List ProcessRow := []
  dlHistory : Std.ExtTreeMap UInt32 RollingAverage := ∅
  ulHistory : Std.ExtTreeMap UInt32 RollingAverage := ∅
  speeds : Speeds := ∅
  globalDlHistory : RollingAverage := .new 5
  globalUlHistory : RollingAverage := .new 5
  globalDlBps : ℚ := 0
  globalUlBps : ℚ := 0
  suppressTableRefreshUntil : Option Instant := none
  limitEditing : Bool := false
  lossDownloadDraft : Option Text := none
  lossUploadDraft : Option Text := none
  delayDownloadDraft : Option Text := none
  delayUploadDraft : Option Text := none
  selected : Option RowSelection := none
  speedUnit : SpeedUnit := .bits
  ipv6Enabled : Bool := true
  language : LanguagePreference := .system
  tableFingerprint : TableFingerprint := {}

/-- One field of a rule with its new value. -/
inductive FieldEdit
  | blockAll (value : Bool)
  | limitDownload (value : Bool)
  | limitUpload (value : Bool)
  | adaptive (value : Bool)
  | downloadKbps (value : UInt32)
  | uploadKbps (value : UInt32)
  | downloadLoss (value : Option UInt16)
  | uploadLoss (value : Option UInt16)
  | downloadDelay (value : Option UInt32)
  | uploadDelay (value : Option UInt32)
  deriving DecidableEq

namespace FieldEdit

def apply (rule : ProcessRule) : FieldEdit → ProcessRule
  | blockAll value => { rule with blockAll := value }
  | limitDownload value => { rule with limitDownload := value }
  | limitUpload value => { rule with limitUpload := value }
  | adaptive value =>
    if value then { rule with adaptive := value }
    else { rule with adaptive := value, adjustedDlBps := 0, adjustedUlBps := 0 }
  | downloadKbps value => { rule with downloadKbps := value }
  | uploadKbps value => { rule with uploadKbps := value }
  | downloadLoss value => { rule with downloadLossBasisPoints := value }
  | uploadLoss value => { rule with uploadLossBasisPoints := value }
  | downloadDelay value => { rule with downloadDelayMs := value }
  | uploadDelay value => { rule with uploadDelayMs := value }

/-- The arms of `edit_bool` and `edit_selected_bool`. -/
def ofBool (field : Text) (value : Bool) : Option FieldEdit :=
  if field = "limit_dl".toList then some (limitDownload value)
  else if field = "limit_ul".toList then some (limitUpload value)
  else if field = "block".toList then some (blockAll value)
  else if field = "adaptive".toList then some (adaptive value)
  else none

/-- `"dl"` and `"ul"` -/
def direction (text : Text) : Option Direction :=
  if text = "dl".toList then some .download
  else if text = "ul".toList then some .upload
  else none

def limit (kibps : UInt32) : Direction → FieldEdit
  | .download => downloadKbps kibps
  | .upload => uploadKbps kibps

def loss (value : Option UInt16) : Direction → FieldEdit
  | .download => downloadLoss value
  | .upload => uploadLoss value

def delay (value : Option UInt32) : Direction → FieldEdit
  | .download => downloadDelay value
  | .upload => uploadDelay value

end FieldEdit

/-- The rules after the vacant PIDs have taken their names' rules, and the rules they took. -/
def inheritNameRules (lower : Text → Text) (rules : RuleMap) (nameRules : NameRules) :
    List ProcessInfo → RuleMap × List (UInt32 × ProcessRule)
  | [] => (rules, [])
  | process :: rest =>
    match nameRules[lower process.name]? with
    | none => inheritNameRules lower rules nameRules rest
    | some rule =>
      if process.pid ∈ rules then inheritNameRules lower rules nameRules rest
      else
        let (rules, added) := inheritNameRules lower (rules.insert process.pid rule) nameRules rest
        (rules, (process.pid, rule) :: added)

/-- The rule without what has no effect. -/
def runtimeRule (rule : ProcessRule) : ProcessRule :=
  let rule := if rule.limitDownload then rule
    else { rule with downloadKbps := 0, adjustedDlBps := 0 }
  let rule := if rule.limitUpload then rule
    else { rule with uploadKbps := 0, adjustedUlBps := 0 }
  if (rule.targetBps .download).isNone && (rule.targetBps .upload).isNone then
    { rule with adaptive := false, adjustedDlBps := 0, adjustedUlBps := 0 }
  else rule

namespace AppState
variable (lower : Text → Text) (parseF64 : Text → Option ℚ)

def new {F : Type} [F32 F] (settings : AppSettings F) : AppState where
  expanded := settings.expanded
  nameRules := settings.nameRules
  globalRule := settings.globalRule
  speedUnit := .fromBitsMode settings.speedUnitBits
  ipv6Enabled := settings.ipv6Enabled
  language := settings.language

def toSettings {F : Type} [F32 F] (st : AppState) : AppSettings F where
  speedUnitBits := st.speedUnit = .bits
  ipv6Enabled := st.ipv6Enabled
  language := st.language
  globalRule := st.globalRule
  nameRules := st.nameRules
  expanded := st.expanded

def send (st : AppState) (command : EngineCommand) : AppState :=
  { st with engine := st.engine.apply command }

section Table

def applyNameRulesFrom (st : AppState) (processes : List ProcessInfo) : AppState :=
  let (rules, added) := inheritNameRules lower st.rules st.nameRules processes
  let st := { st with rules }
  if st.engine.running then
    added.foldl (fun st (pid, rule) => st.send (.updateRule pid (runtimeRule rule))) st
  else st

def refreshRowSpeeds (st : AppState) : AppState :=
  match st.rows with
  | [] => st
  | global :: rest =>
    let refresh (row : ProcessRow) : ProcessRow := match row.kind with
      | .group _ _ _ pids _ =>
        { row with
          dlBps := sumSpeed pids st.speeds .download
          ulBps := sumSpeed pids st.speeds .upload }
      | .child _ _ _ pid =>
        { row with dlBps := (speedOf st.speeds pid).1, ulBps := (speedOf st.speeds pid).2 }
      | .global => row
    { st with rows :=
        { global with dlBps := st.globalDlBps, ulBps := st.globalUlBps } :: rest.map refresh }

def rebuildRowsFrom (st : AppState) (processes : List ProcessInfo) : AppState :=
  refreshRowSpeeds { st with
    rows := buildProcessRows lower processes st.expanded st.rules st.speeds st.globalRule
      .process .ascending }

def rebuildRows (st : AppState) (processes : List ProcessInfo) : AppState :=
  let st := (st.applyNameRulesFrom lower processes).rebuildRowsFrom lower processes
  { st with tableFingerprint := .fromProcesses processes st.expanded }

def refreshTableOnTick (st : AppState) (processes : List ProcessInfo) : AppState :=
  let st := st.applyNameRulesFrom lower processes
  let fingerprint := TableFingerprint.fromProcesses processes st.expanded
  if fingerprint ≠ st.tableFingerprint then
    { st with tableFingerprint := fingerprint }.rebuildRowsFrom lower processes
  else st.refreshRowSpeeds

end Table

section Selection

/-- A negative index is cast to one beyond every row. -/
def rowAt (st : AppState) (rowIndex : ℤ) : Option ProcessRow :=
  if rowIndex < 0 then none else st.rows[rowIndex.toNat]?

def selectRow (st : AppState) (rowIndex : ℤ) : AppState :=
  { st with selected := (st.rowAt rowIndex).map fun row => .ofKind lower row.kind }

def clearSelection (st : AppState) : AppState := { st with selected := none }

def selectedRow (st : AppState) : Option ProcessRow := do
  let selected ← st.selected
  st.rows.find? fun row => RowSelection.ofKind lower row.kind = selected

def toggleRowExpanded (st : AppState) (rowIndex : ℤ) : AppState :=
  match (st.rowAt rowIndex).map ProcessRow.kind with
  | some (.group processName _ _ pids expanded) =>
    if pids.length ≤ 1 then st
    else
      let key := lower processName
      if expanded then
        let selected := match st.selected with
          | some (.child pid) => if pid ∈ pids then some (.group key) else st.selected
          | _ => st.selected
        { st with expanded := st.expanded.erase key, selected }
      else { st with expanded := st.expanded.insert key }
  | _ => st

def setSpeedUnit (st : AppState) (unit : SpeedUnit) : AppState := { st with speedUnit := unit }

def setIpv6Enabled (st : AppState) (enabled : Bool) : AppState :=
  { st with ipv6Enabled := enabled }

def setLimitEditing (st : AppState) (editing : Bool) : AppState :=
  { st with
    limitEditing := editing
    suppressTableRefreshUntil := if editing then none else st.suppressTableRefreshUntil }

end Selection

section Edits

def updatePidRule (rules : RuleMap) (pid : UInt32) (rule : ProcessRule) : RuleMap :=
  if rule.hasAnyRule then rules.insert pid rule else rules.erase pid

def applyRuleToRow (st : AppState) (kind : RowKind) (rule : ProcessRule) : AppState :=
  match kind with
  | .global => { st with globalRule := rule }.send (.setGlobalRule (runtimeRule rule))
  | .group processName _ _ pids _ =>
    let key := lower processName
    { st with
      nameRules := if rule.hasAnyRule then st.nameRules.insert key rule else st.nameRules.erase key
      rules := pids.foldl (fun rules pid => updatePidRule rules pid rule) st.rules }.send
        (.updateRuleForPids pids (runtimeRule rule))
  | .child _ _ _ pid =>
    { st with rules := updatePidRule st.rules pid rule }.send (.updateRule pid (runtimeRule rule))

/-- A field of the rule that a row shows is changed, and the rule applied to the row. -/
def editRow (st : AppState) (row : ProcessRow) (edit : FieldEdit) : AppState :=
  st.applyRuleToRow lower row.kind (edit.apply row.rule)

def editBool (st : AppState) (rowIndex : ℤ) (field : Text) (value : Bool) : AppState :=
  match st.rowAt rowIndex with
  | none => st
  | some row =>
    let st := { st with selected := some (.ofKind lower row.kind) }
    match FieldEdit.ofBool field value with
    | none => st
    | some edit => st.editRow lower row edit

def editSelectedBool (st : AppState) (field : Text) (value : Bool) : AppState :=
  match st.selectedRow lower with
  | none => st
  | some row =>
    match FieldEdit.ofBool field value with
    | none => st
    | some edit => st.editRow lower row edit

/-- `Instant::now() + Duration::from_secs(2)` -/
def suppressDeadline (now : Instant) : Option Instant := some (now + 2 * 10 ^ 9)

def editSelectedLimit (st : AppState) (direction text : Text) (now : Instant) : AppState :=
  match st.selectedRow lower with
  | none => st
  | some row =>
    match parseLimitInput parseF64 text st.speedUnit with
    | none => st
    | some kibps =>
      let st := { st with suppressTableRefreshUntil := suppressDeadline now }
      match FieldEdit.direction direction with
      | none => st
      | some direction => st.editRow lower row (.limit kibps direction)

def editRowLimit (st : AppState) (rowIndex : ℤ) (direction text : Text) (now : Instant) :
    AppState :=
  match st.rowAt rowIndex with
  | none => st
  | some row =>
    match parseLimitInput parseF64 text st.speedUnit with
    | none => st
    | some kibps =>
      let st := { st with
        selected := some (.ofKind lower row.kind)
        suppressTableRefreshUntil := suppressDeadline now }
      match FieldEdit.direction direction with
      | none => st
      | some direction => st.editRow lower row (.limit kibps direction)

def setLossDraft (st : AppState) (draft : Option Text) : Direction → AppState
  | .download => { st with lossDownloadDraft := draft }
  | .upload => { st with lossUploadDraft := draft }

def setDelayDraft (st : AppState) (draft : Option Text) : Direction → AppState
  | .download => { st with delayDownloadDraft := draft }
  | .upload => { st with delayUploadDraft := draft }

/-- A text for a field of the selected row: one that the field does not allow is kept as a draft.
The flag tells whether the value was applied. -/
def editSelectedText {ε α : Type} (parse : Text → Except ε α)
    (setDraft : AppState → Option Text → Direction → AppState) (edit : α → Direction → FieldEdit)
    (st : AppState) (direction text : Text) : AppState × Bool :=
  match st.selectedRow lower with
  | none => (st, false)
  | some row =>
    match FieldEdit.direction direction with
    | none => (st, false)
    | some direction =>
      match parse text with
      | .error _ => (setDraft st (some text) direction, false)
      | .ok value => ((setDraft st none direction).editRow lower row (edit value direction), true)

def editSelectedLoss (st : AppState) (direction text : Text) : AppState × Bool :=
  st.editSelectedText lower parseLossPercent setLossDraft .loss direction text

def editSelectedDelay (st : AppState) (direction text : Text) : AppState × Bool :=
  st.editSelectedText lower parseDelayMs setDelayDraft .delay direction text

end Edits

section Engine

def pushAllRules (st : AppState) : AppState :=
  st.rules.toList.foldl (fun st (pid, rule) => st.send (.updateRule pid (runtimeRule rule)))
    (st.send (.setGlobalRule (runtimeRule st.globalRule)))

/-- `started` is the outcome of the engine's `start`. -/
def start (st : AppState) (started : Bool) : AppState :=
  let st := st.pushAllRules
  { st with engine := { st.engine with running := started || st.engine.running } }

def stop (st : AppState) : AppState :=
  { st with
    engine := { st.engine with running := false }
    rules := st.rules.map fun _ rule => rule.persisted
    globalRule := st.globalRule.persisted }

def restartEngine (st : AppState) (started : Bool) : AppState :=
  if st.engine.running then
    start { st with engine := { st.engine with running := false } } started
  else st

def fullExit (st : AppState) : AppState :=
  stop { st.send .clearRules with rules := ∅, globalRule := {} }

def adjusted (rule : ProcessRule) : Direction → ℚ
  | .download => rule.adjustedDlBps
  | .upload => rule.adjustedUlBps

def setAdjusted (rule : ProcessRule) (rate : ℚ) : Direction → ProcessRule
  | .download => { rule with adjustedDlBps := rate }
  | .upload => { rule with adjustedUlBps := rate }

/-- The rule after one step of the controller; `none` where it has no target. -/
def adjust (rule : ProcessRule) (direction : Direction) (measuredBps : ℚ) : Option ProcessRule :=
  (rule.targetBps direction).map fun target =>
    setAdjusted rule (computeAdaptiveRate (adjusted rule direction) measuredBps target) direction

def adjustGlobal (st : AppState) (direction : Direction) (measuredBps : ℚ) : AppState :=
  match adjust st.globalRule direction measuredBps with
  | none => st
  | some rule => { st with globalRule := rule }.send (.setGlobalRule rule)

def adjustPid (st : AppState) (pid : UInt32) (direction : Direction) (measuredBps : ℚ) :
    AppState :=
  match st.rules[pid]?.bind (adjust · direction measuredBps) with
  | none => st
  | some rule => { st with rules := st.rules.insert pid rule }.send (.updateRule pid rule)

def runAdaptiveFeedback (st : AppState) : AppState :=
  let st := if st.globalRule.adaptive then
      (st.adjustGlobal .download st.globalDlBps).adjustGlobal .upload st.globalUlBps
    else st
  st.rules.keys.foldl (fun st pid =>
    if st.rules[pid]?.any (·.adaptive) then
      let (dlBps, ulBps) := speedOf st.speeds pid
      (st.adjustPid pid .download dlBps).adjustPid pid .upload ulBps
    else st) st

/-- `entry(pid).or_insert_with(|| RollingAverage::new(5)).push(sample)` -/
def pushSample (history : Std.ExtTreeMap UInt32 RollingAverage) (pid : UInt32) (sample : ℚ) :
    Std.ExtTreeMap UInt32 RollingAverage :=
  history.insert pid ((history[pid]?.getD (.new 5)).push sample)

def averageOf (history : Std.ExtTreeMap UInt32 RollingAverage) (pid : UInt32) : ℚ :=
  (history[pid]?.getD (.new 5)).average

/-- The averages of `tick`, with the engine's counters of the last second. -/
def measure (st : AppState) (snapshot : EngineSnapshot) : AppState :=
  let seen := snapshot.perPid.toList
  let dlHistory := seen.foldl (fun history (pid, bytes) => pushSample history pid bytes.download)
    st.dlHistory
  let ulHistory := seen.foldl (fun history (pid, bytes) => pushSample history pid bytes.upload)
    st.ulHistory
  let knownPids : Std.ExtTreeSet UInt32 :=
    .ofList (dlHistory.keys ++ ulHistory.keys ++ st.rules.keys)
  -- The histories of the PIDs that the engine did not count get a sample of zero.
  let idle := knownPids.toList.filter (· ∉ snapshot.perPid)
  let dlHistory := idle.foldl (fun history pid => pushSample history pid 0) dlHistory
  let ulHistory := idle.foldl (fun history pid => pushSample history pid 0) ulHistory
  let globalDlHistory := st.globalDlHistory.push snapshot.globalDownloadBytes
  let globalUlHistory := st.globalUlHistory.push snapshot.globalUploadBytes
  { st with
    dlHistory
    ulHistory
    speeds := .ofList (knownPids.toList.map fun pid =>
      (pid, (averageOf dlHistory pid, averageOf ulHistory pid)))
    globalDlHistory
    globalUlHistory
    globalDlBps := globalDlHistory.average
    globalUlBps := globalUlHistory.average }

/-- `tick` without the status line. -/
def tick (st : AppState) (snapshot : EngineSnapshot) : AppState × Bool :=
  let st := st.measure snapshot
  (if snapshot.running then st.runAdaptiveFeedback else st, snapshot.running)

end Engine

end AppState

/-- What happens to the application, with the answers of the system: the processes that run, the
time, the engine's counters, and whether the engine started. -/
inductive Event
  | editBool (rowIndex : ℤ) (field : Text) (value : Bool)
  | editSelectedBool (field : Text) (value : Bool)
  | editRowLimit (rowIndex : ℤ) (direction text : Text) (now : Instant)
  | editSelectedLimit (direction text : Text) (now : Instant)
  | editSelectedLoss (direction text : Text)
  | editSelectedDelay (direction text : Text)
  | rebuildRows (processes : List ProcessInfo)
  | refreshTableOnTick (processes : List ProcessInfo)
  | selectRow (rowIndex : ℤ)
  | clearSelection
  | toggleRowExpanded (rowIndex : ℤ)
  | setLimitEditing (editing : Bool)
  | setSpeedUnit (unit : SpeedUnit)
  | setIpv6Enabled (enabled : Bool)
  | tick (snapshot : EngineSnapshot)
  | start (started : Bool)
  | stop
  | restartEngine (started : Bool)
  | engineExit

/-- The processes that a refresh of the table reads. -/
def Event.processes : Event → Option (List ProcessInfo)
  | rebuildRows processes => some processes
  | refreshTableOnTick processes => some processes
  | _ => none

namespace AppState
variable (lower : Text → Text) (parseF64 : Text → Option ℚ)

def step (st : AppState) : Event → AppState
  | .editBool rowIndex field value => st.editBool lower rowIndex field value
  | .editSelectedBool field value => st.editSelectedBool lower field value
  | .editRowLimit rowIndex direction text now =>
    st.editRowLimit lower parseF64 rowIndex direction text now
  | .editSelectedLimit direction text now =>
    st.editSelectedLimit lower parseF64 direction text now
  | .editSelectedLoss direction text => (st.editSelectedLoss lower direction text).1
  | .editSelectedDelay direction text => (st.editSelectedDelay lower direction text).1
  | .rebuildRows processes => st.rebuildRows lower processes
  | .refreshTableOnTick processes => st.refreshTableOnTick lower processes
  | .selectRow rowIndex => st.selectRow lower rowIndex
  | .clearSelection => st.clearSelection
  | .toggleRowExpanded rowIndex => st.toggleRowExpanded lower rowIndex
  | .setLimitEditing editing => st.setLimitEditing editing
  | .setSpeedUnit unit => st.setSpeedUnit unit
  | .setIpv6Enabled enabled => st.setIpv6Enabled enabled
  | .tick snapshot => (st.tick snapshot).1
  | .start started => st.start started
  | .stop => st.stop
  | .restartEngine started => st.restartEngine started
  | .engineExit => { st with engine := { st.engine with running := false } }

/-- The state after the events, in order. -/
def run (st : AppState) (events : List Event) : AppState :=
  events.foldl (step lower parseF64) st

/-- The row that an event edits, with the edit; `none` where it edits none. -/
def edited (st : AppState) : Event → Option (ProcessRow × FieldEdit)
  | .editBool rowIndex field value => do
    return (← st.rowAt rowIndex, ← FieldEdit.ofBool field value)
  | .editSelectedBool field value => do
    return (← st.selectedRow lower, ← FieldEdit.ofBool field value)
  | .editRowLimit rowIndex direction text _ => do
    let row ← st.rowAt rowIndex
    let kibps ← parseLimitInput parseF64 text st.speedUnit
    return (row, .limit kibps (← FieldEdit.direction direction))
  | .editSelectedLimit direction text _ => do
    let row ← st.selectedRow lower
    let kibps ← parseLimitInput parseF64 text st.speedUnit
    return (row, .limit kibps (← FieldEdit.direction direction))
  | .editSelectedLoss direction text => do
    let row ← st.selectedRow lower
    let direction ← FieldEdit.direction direction
    return (row, .loss (← (parseLossPercent text).toOption) direction)
  | .editSelectedDelay direction text => do
    let row ← st.selectedRow lower
    let direction ← FieldEdit.direction direction
    return (row, .delay (← (parseDelayMs text).toOption) direction)
  | _ => none

end AppState

end FlowBrake.Ui
