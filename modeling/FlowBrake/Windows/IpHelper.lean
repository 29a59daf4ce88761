import Mathlib.Data.Char
import Mathlib.Data.List.Lex
import Mathlib.Data.List.Sort
import Std.Data.ExtTreeSet
import FlowBrake.Core.Rows

/-! The processes that the table shows. -/
namespace FlowBrake.Windows
open FlowBrake.Core

/-- What the system tells of a process, with the display name found for its executable. -/
structure ProcessDetails where
  name : Text
  displayName : Text
  exePath : Text
  deriving DecidableEq

/-- `details` is `process_details`: `none` where the process cannot be opened. The hash set's PIDs
are taken in ascending order; the sort is stable. -/
def getNetworkProcesses (lower : Text → Text) (selfPid : UInt32) (runningPids : List UInt32)
    (details : UInt32 → Option ProcessDetails) (activeRulePids : List UInt32) :
    List ProcessInfo :=
  let pids : Std.ExtTreeSet UInt32 := .ofList (runningPids ++ activeRulePids.filter (· > 0))
  let processes := (pids.erase selfPid).toList.filterMap fun pid =>
    (details pid).map fun d =>
      { pid, name := d.name, displayName := d.displayName, exePath := d.exePath : ProcessInfo }
  processes.insertionSort fun a b => lower a.name ≤ lower b.name

end FlowBrake.Windows
