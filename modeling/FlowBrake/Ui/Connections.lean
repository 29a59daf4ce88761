import FlowBrake.Windows.Tcp.Connections

/-! The connections that the sidebar shows of the selected row. -/
namespace FlowBrake.Ui
open FlowBrake.Windows

def maxVisibleConnections : ℕ := 200

/-- `all_connections` and `connections_by_pid` -/
structure Connections where
  all : List TcpConnection := []
  byPid : Std.ExtTreeMap UInt32 (List TcpConnection) := ∅

structure ConnectionRow where
  key : Text
  label : Text
  detail : Text
  disconnectable : Bool
  deriving DecidableEq

variable (display : IpAddr → Text)

def toUiConnectionRow (connection : TcpConnection) (showPid : Bool) : ConnectionRow where
  key := connection.key.encodeId display
  label := connection.displayRemote display
  detail :=
    if showPid then
      "PID ".toList ++ Nat.toDigits 10 connection.pid.toNat ++ " · ".toList ++
        connection.state.label
    else connection.state.label
  disconnectable := connection.state.isDisconnectable && !connection.key.ipv6

namespace Connections

/-- `refresh_connections`, with the connections that are listed. -/
def refresh (listed : List TcpConnection) : Connections where
  all := listed
  byPid := listed.foldl (fun byPid connection =>
    byPid.alter connection.pid fun connections => some (connections.getD [] ++ [connection])) ∅

def forPids (c : Connections) (pids : List UInt32) : List TcpConnection :=
  (pids.flatMap fun pid => c.byPid[pid]?.getD []).insertionSort fun left right =>
    (compare (left.displayRemote display) (right.displayRemote display)).then
      (compare left.pid right.pid) ≠ .gt

section Refreshed
variable {display} {listed : List TcpConnection}

end Refreshed

end Connections

end FlowBrake.Ui
