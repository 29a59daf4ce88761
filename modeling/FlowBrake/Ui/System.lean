import FlowBrake.Ui.AppState.Agreement
import FlowBrake.Windows.Engine.Config

/-! The application on its engine: the calls that each operation makes of the engine, while the
engine's threads run. -/
namespace FlowBrake.Ui
open FlowBrake.Core FlowBrake.Windows Text Transition

namespace AppState
variable (lower : Text → Text) (parseF64 : Text → Option ℚ)

section Commands

/-- The command of `apply_rule_to_row`. -/
def rowCommand (kind : RowKind) (rule : ProcessRule) : EngineCommand :=
  match kind with
  | .global => .setGlobalRule (runtimeRule rule)
  | .group _ _ _ pids _ => .updateRuleForPids pids (runtimeRule rule)
  | .child _ _ _ pid => .updateRule pid (runtimeRule rule)

/-- The commands of `apply_name_rules_from`. -/
def inheritCommands (st : AppState) (processes : List ProcessInfo) : List EngineCommand :=
  if st.engine.running then
    (inheritNameRules lower st.rules st.nameRules processes).2.map fun (pid, rule) =>
      .updateRule pid (runtimeRule rule)
  else []

/-- The commands of `push_all_rules`. -/
def ruleCommands (st : AppState) : List EngineCommand :=
  .setGlobalRule (runtimeRule st.globalRule) ::
    st.rules.toList.map fun (pid, rule) => .updateRule pid (runtimeRule rule)

def adjustGlobalCommands (st : AppState) (direction : Direction) (measuredBps : ℚ) :
    List EngineCommand :=
  ((adjust st.globalRule direction measuredBps).map .setGlobalRule).toList

def adjustPidCommands (st : AppState) (pid : UInt32) (direction : Direction) (measuredBps : ℚ) :
    List EngineCommand :=
  ((st.rules[pid]?.bind (adjust · direction measuredBps)).map (.updateRule pid)).toList

/-- The commands of `run_adaptive_feedback` for the PIDs. -/
def feedbackPidsCommands (st : AppState) : List UInt32 → List EngineCommand
  | [] => []
  | pid :: pids =>
    if st.rules[pid]?.any (·.adaptive) then
      let (dlBps, ulBps) := speedOf st.speeds pid
      let st' := st.adjustPid pid .download dlBps
      st.adjustPidCommands pid .download dlBps ++ st'.adjustPidCommands pid .upload ulBps
        ++ (st'.adjustPid pid .upload ulBps).feedbackPidsCommands pids
    else st.feedbackPidsCommands pids

def feedbackCommands (st : AppState) : List EngineCommand :=
  if st.globalRule.adaptive then
    let st' := st.adjustGlobal .download st.globalDlBps
    let st'' := st'.adjustGlobal .upload st.globalUlBps
    st.adjustGlobalCommands .download st.globalDlBps
      ++ st'.adjustGlobalCommands .upload st.globalUlBps
      ++ st''.feedbackPidsCommands st''.rules.keys
  else st.feedbackPidsCommands st.rules.keys

end Commands

def applyAll (commands : List EngineCommand) : List OwnerLabel :=
  commands.map fun command => .call (.apply command)

/-- The commands of an event that neither starts the engine nor stops it. -/
def commands (st : AppState) : Event → List EngineCommand
  | .rebuildRows processes | .refreshTableOnTick processes => st.inheritCommands lower processes
  | .tick snapshot => if snapshot.running then (st.measure snapshot).feedbackCommands else []
  | e =>
    match st.edited lower parseF64 e with
    | some (row, edit) => [rowCommand row.kind (edit.apply row.rule)]
    | none => []

/-- The calls of the engine that an operation makes, in order; of a tick those after its
snapshot. -/
def calls (st : AppState) : Operation → List OwnerLabel
  | .fullExit => [.call (.apply .clearRules), .call .stop]
  | .event (.start _) =>
    .call (.setIpv6Enabled st.ipv6Enabled) :: applyAll st.ruleCommands ++ [.start]
  | .event .stop => [.call .stop]
  | .event (.restartEngine _) =>
    if st.engine.running then .call .stop :: applyAll st.ruleCommands ++ [.start] else []
  | .event (.setIpv6Enabled enabled) =>
    if st.ipv6Enabled = enabled then [] else [.call (.setIpv6Enabled enabled)]
  | .event e => applyAll (st.commands lower parseF64 e)

/-- `is_running` as the engine tells it. -/
def observe (st : AppState) (running : Bool) : AppState :=
  { st with engine := { st.engine with running } }

end AppState

/-- What the user and the timers begin. A tick begins with a snapshot, and whether the engine
started or ended is for the engine to tell. -/
def AppState.Operation.begins : AppState.Operation → Bool
  | .event (.tick _) | .event .engineExit => false
  | .event (.start started) | .event (.restartEngine started) => started
  | _ => true

structure System where
  app : AppState
  owner : Owner := {}
  /-- The calls that the operation in progress has yet to make. -/
  agenda : List OwnerLabel := []
  /-- Whether the operation in progress is a tick that waits for its snapshot. -/
  ticking : Bool := false

inductive SystemLabel
  | engine (label : OwnerLabel)
  | next
  | operate (operation : AppState.Operation)
  | snapshot
  | tick

namespace System
variable (lower : Text → Text) (parseF64 : Text → Option ℚ)

def new {F : Type} [F32 F] (settings : AppSettings F) : System where
  app := .new settings
  agenda := [.call (.setIpv6Enabled settings.ipv6Enabled)]

/-- All calls have been made, and have returned. -/
def returned (sys : System) : Bool :=
  sys.agenda.isEmpty && sys.owner.phase = .idle && (sys.owner.engine.ops .ui).isEmpty

def step (sys : System) : SystemLabel → Option System
  | .engine label =>
    if label.internal then (sys.owner.step label).map fun owner => { sys with owner } else none
  | .next =>
    match sys.agenda with
    | [] => none
    | label :: agenda => (sys.owner.step label).map fun owner => { sys with owner, agenda }
  | .operate operation =>
    if sys.returned && !sys.ticking && operation.begins then
      let app := sys.app.observe sys.owner.engine.isRunning
      some { sys with
        app := app.operate lower parseF64 operation
        agenda := app.calls lower parseF64 operation }
    else none
  | .snapshot =>
    if sys.returned && !sys.ticking then
      some { sys with agenda := [.call .snapshotAndReset], ticking := true }
    else none
  | .tick =>
    if sys.returned && sys.ticking then do
      let snapshot ← sys.owner.engine.snapshots.getLast?
      return { sys with
        app := sys.app.operate lower parseF64 (.event (.tick snapshot))
        agenda := sys.app.calls lower parseF64 (.event (.tick snapshot))
        ticking := false }
    else none

/-- The states of the runs that begin with these settings. -/
def Reachable {F : Type} [F32 F] (settings : AppSettings F) : System → Prop :=
  Transition.Reachable (fun sys label sys' => sys.step lower parseF64 label = some sys')
    (· = .new settings)

end System

end FlowBrake.Ui
