import Mathlib.Data.List.Sort
import FlowBrake.Lib.Comparison
import FlowBrake.Lib.KeyedOrder
import FlowBrake.Windows.IpHelper.Tables

/-! The TCP connections of the system: how they are listed, and how those of a process are
closed. -/
namespace FlowBrake.Windows

def SocketEndpoint.displayRemote (display : IpAddr → Text) (endpoint : SocketEndpoint) : Text :=
  match endpoint.addr with
  | .v4 addr => display (.v4 addr) ++ ":".toList ++ portText endpoint.port
  | .v6 addr => "[".toList ++ display (.v6 addr) ++ "]:".toList ++ portText endpoint.port

namespace TcpConnectionState

def label : TcpConnectionState → Text
  | closed => "CLOSED".toList
  | listen => "LISTEN".toList
  | synSent => "SYN_SENT".toList
  | synReceived => "SYN_RCVD".toList
  | established => "ESTABLISHED".toList
  | finWait1 => "FIN_WAIT1".toList
  | finWait2 => "FIN_WAIT2".toList
  | closeWait => "CLOSE_WAIT".toList
  | closing => "CLOSING".toList
  | lastAck => "LAST_ACK".toList
  | timeWait => "TIME_WAIT".toList
  | deleteTcb => "DELETE_TCB".toList
  | unknown _ => "UNKNOWN".toList

def isDisconnectable : TcpConnectionState → Bool
  | established | closeWait | finWait1 | finWait2 | lastAck | synReceived => true
  | _ => false

end TcpConnectionState

section Listing
variable (display : IpAddr → Text)

def TcpConnection.displayRemote (connection : TcpConnection) : Text :=
  connection.key.remoteEndpoint.displayRemote display

def fetchTcpConnections (tables : SystemTables) (af : UInt32) :
    Except OutOfRange (List TcpConnection) :=
  match readTcpTable tables af with
  | none => .ok []
  | some buffer => parseTcpConnections buffer af

def listTcpConnections (tables : SystemTables) (ipv6Enabled : Bool) :
    Except OutOfRange (List TcpConnection) := do
  let connections ← fetchTcpConnections tables afInet
  let connections6 ← (if ipv6Enabled then fetchTcpConnections tables afInet6 else .ok [])
  return (connections ++ connections6).insertionSort fun left right =>
    (compare left.pid right.pid).then
      (compare (left.displayRemote display) (right.displayRemote display)) ≠ .gt

end Listing

section Closing
variable (setTcpEntry : MibTcpRow → UInt32)

def closeTcpConnectionsForPid (pid : UInt32) (connections : List TcpConnection) : ℕ :=
  ((connections.filter fun connection =>
      connection.pid = pid && connection.state.isDisconnectable).filterMap fun connection =>
    (closeTcpConnection setTcpEntry connection.key).toOption).length

def closeTcpConnectionsForPids (pids : List UInt32) (connections : List TcpConnection) : ℕ :=
  (pids.map fun pid => closeTcpConnectionsForPid setTcpEntry pid connections).sum

end Closing

section Listed
variable {display : IpAddr → Text} {tables : SystemTables} {told : TablesTold}

def connectionLayout (isIpv6 : Bool) : TcpRowLayout :=
  if isIpv6 then ipv6RowLayout else ipv4RowLayout

/-- The connections of the rows of a table, in their order. -/
def OfRows (isIpv6 : Bool) (rows : List (List UInt8)) (connections : List TcpConnection) : Prop :=
  List.Forall₂ (OfRow (familyCode isIpv6) (connectionLayout isIpv6))
    (rows.filter ((connectionLayout isIpv6).Listed ·)) connections

theorem fetchTcpConnections_eq (h : tables.Lawful told) (isIpv6 : Bool) :
    ∃ connections, fetchTcpConnections tables (familyCode isIpv6) = .ok connections ∧
      OfRows isIpv6 (rowsRead (told .tcp isIpv6)) connections := by
  have hsize : 0 < (connectionLayout isIpv6).rowSize := by cases isIpv6 <;> decide
  have hrows : ((readTcpTable tables (familyCode isIpv6)).map
      (consideredRows · (connectionLayout isIpv6).rowSize)).getD [] =
        rowsRead (told .tcp isIpv6) := by
    cases isIpv6
    · exact consideredRows_readTable (h .tcp false) hsize
    · exact consideredRows_readTable (h .tcp true) hsize
  rw [fetchTcpConnections, ← hrows]
  cases readTcpTable tables (familyCode isIpv6) with
  | none => exact ⟨[], rfl, .nil⟩
  | some buffer =>
    cases isIpv6 with
    | false => exact parseTcpConnections_forall₂ rfl hsize (fun _ => reads_afInet) buffer
    | true => exact parseTcpConnections_forall₂ rfl hsize (fun _ => reads_afInet6) buffer

/-- The list has the connections of the two tables as they were read, by PID and remote endpoint. -/
theorem listTcpConnections_eq (h : tables.Lawful told) (ipv6Enabled : Bool) :
    ∃ listed connections connections6, listTcpConnections display tables ipv6Enabled = .ok listed ∧
      OfRows false (rowsRead (told .tcp false)) connections ∧
      (if ipv6Enabled then OfRows true (rowsRead (told .tcp true)) connections6
        else connections6 = []) ∧
      listed.Perm (connections ++ connections6) ∧
      listed.Pairwise fun left right => Comparison.lex (left.pid, left.displayRemote display)
        (right.pid, right.displayRemote display) ≠ .gt := by
  obtain ⟨connections, hfetch, hrows⟩ := fetchTcpConnections_eq h false
  obtain ⟨connections6, hfetch6, hrows6⟩ := fetchTcpConnections_eq h true
  rw [show familyCode false = afInet from rfl] at hfetch
  rw [show familyCode true = afInet6 from rfl] at hfetch6
  cases ipv6Enabled with
  | false =>
    refine ⟨_, connections, [], by rw [listTcpConnections, hfetch]; rfl, hrows, rfl,
      List.perm_insertionSort _ _, ?_⟩
    exact Comparison.pairwise_insertionSort _
  | true =>
    refine ⟨_, connections, connections6,
      by rw [listTcpConnections, hfetch, if_pos rfl, hfetch6]; rfl, hrows, hrows6,
      List.perm_insertionSort _ _, ?_⟩
    exact Comparison.pairwise_insertionSort _

/-- One connection of IPv4. -/
def establishedTcp : StoredTable 24 where
  rows := [(establishedTable.take 28).drop 4]
  needed := 28
  room := by decide
  bytes := establishedTable.take 28
  length_bytes := by decide
  count := by decide
  stored := by decide

def establishedTables : (protocol : Protocol) → (isIpv6 : Bool) → ℕ →
    Option (StoredTable (ownerLayout protocol isIpv6).rowSize)
  | .tcp, false, _ => some establishedTcp
  | .tcp, true, _ | .udp, _, _ => none

theorem listTcpConnections_eq_established : ∃ listed,
    listTcpConnections plainText (answerTables establishedTables) true = .ok listed ∧
      listed.length = 1 := by
  obtain ⟨listed, connections, connections6, hlisted, hrows, hrows6, hperm, -⟩ :=
    @listTcpConnections_eq plainText _ _ (lawful_answerTables establishedTables) true
  refine ⟨listed, hlisted, ?_⟩
  rw [hperm.length_eq, List.length_append, ← hrows.length_eq, ← hrows6.length_eq]
  decide

end Listed

section Closed
variable {setTcpEntry : MibTcpRow → UInt32}

/-- Whether a connection is one that can be closed. -/
def TcpConnection.closable (connection : TcpConnection) : Bool :=
  connection.state.isDisconnectable && !connection.key.ipv6

def closes (setTcpEntry : MibTcpRow → UInt32) (connection : TcpConnection) : Bool :=
  (closeTcpConnection setTcpEntry connection.key).toOption.isSome

end Closed

end FlowBrake.Windows
