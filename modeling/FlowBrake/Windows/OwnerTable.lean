import Std.Data.ExtTreeMap
import FlowBrake.Windows.Packet.Header
import FlowBrake.Windows.TcpTable

/-! The owners of ports in the tables of IP Helper, against the connections listed from the same
tables. -/
namespace FlowBrake.Windows

/-- Where a row keeps its local port and the PID of the owner. -/
structure OwnerRowLayout where
  rowSize : ℕ
  localPortOffset : ℕ
  owningPidOffset : ℕ

def tcpRowLayout (af : UInt32) : Option OwnerRowLayout :=
  if af = afInet then some ⟨24, 8, 20⟩
  else if af = afInet6 then some ⟨56, 20, 52⟩
  else none

def udpRowLayout (af : UInt32) : Option OwnerRowLayout :=
  if af = afInet then some ⟨12, 4, 8⟩
  else if af = afInet6 then some ⟨28, 20, 24⟩
  else none

/-- The owners of ports. -/
abbrev PortOwners := Std.ExtTreeMap UInt16 UInt32

/-- The loop over the `count` rows that the table says it has, from the row at `offset`. -/
def parseOwnerPidRowsFrom (layout : OwnerRowLayout) (buffer : List UInt8) :
    (count offset : ℕ) → PortOwners → Except OutOfRange PortOwners
  | 0, _, map => .ok map
  | count + 1, offset, map => do
    if offset + layout.rowSize > buffer.length then return map
    let localPort ← u32At buffer (offset + layout.localPortOffset)
    let owningPid ← u32At buffer (offset + layout.owningPidOffset)
    let port := parseMibPort localPort
    let map := if owningPid > 0 && port > 0 then map.insert port owningPid else map
    parseOwnerPidRowsFrom layout buffer count (offset + layout.rowSize) map

def parseOwnerPidRows (buffer : List UInt8) (layout : OwnerRowLayout) :
    Except OutOfRange PortOwners := do
  if buffer.length < 4 then return ∅
  parseOwnerPidRowsFrom layout buffer (← u32At buffer 0).toNat 4 ∅

section Rows
variable {buffer : List UInt8} {i n rowSize : ℕ}

/-- Four bytes as a little-endian word. -/
def wordAt (bytes : List UInt8) (i : ℕ) : UInt32 :=
  u32FromNeBytes (byte bytes i) (byte bytes (i + 1)) (byte bytes (i + 2)) (byte bytes (i + 3))

theorem u32At_eq (h : i + 4 ≤ buffer.length) : u32At buffer i = .ok (wordAt buffer i) := by
  rw [u32At, byteAt_eq (by omega), byteAt_eq (by omega), byteAt_eq (by omega),
    byteAt_eq (by omega)]
  rfl

/-- A word of a row is a word of the table. -/
theorem wordAt_row (h : i + 4 ≤ n) (offset : ℕ) :
    wordAt ((buffer.drop offset).take n) i = wordAt buffer (offset + i) := by
  have hbyte (j : ℕ) (hj : j < n) :
      byte ((buffer.drop offset).take n) j = byte buffer (offset + j) := by
    rw [byte, byte, List.getD_eq_getElem?_getD, List.getD_eq_getElem?_getD,
      List.getElem?_take_of_lt hj, List.getElem?_drop]
  rw [wordAt, wordAt, hbyte _ (by omega), hbyte _ (by omega), hbyte _ (by omega),
    hbyte _ (by omega)]
  rfl

/-- The number of rows that the table says it has, as far as there are bytes for them. -/
def rowCount (buffer : List UInt8) (rowSize : ℕ) : ℕ :=
  min (wordAt buffer 0).toNat ((buffer.length - 4) / rowSize)

def tableRow (buffer : List UInt8) (rowSize i : ℕ) : List UInt8 :=
  (buffer.drop (4 + rowSize * i)).take rowSize

/-- The rows that a table holds. -/
def consideredRows (buffer : List UInt8) (rowSize : ℕ) : List (List UInt8) :=
  (List.range (rowCount buffer rowSize)).map (tableRow buffer rowSize)

/-- The rows that a loop over the table comes to. -/
def rowsFrom (buffer : List UInt8) (rowSize : ℕ) : (count offset : ℕ) → List (List UInt8)
  | 0, _ => []
  | count + 1, offset =>
    if offset + rowSize > buffer.length then []
    else (buffer.drop offset).take rowSize :: rowsFrom buffer rowSize count (offset + rowSize)

theorem rowsFrom_eq (hsize : 0 < rowSize) (hlength : 4 ≤ buffer.length) (count k : ℕ) :
    rowsFrom buffer rowSize count (4 + rowSize * k) =
      (List.range' k (min count ((buffer.length - 4) / rowSize - k))).map
        (tableRow buffer rowSize) := by
  induction count generalizing k with
  | zero => simp [rowsFrom]
  | succ count ih =>
    have hle : k + 1 ≤ (buffer.length - 4) / rowSize ↔
        4 + rowSize * k + rowSize ≤ buffer.length := by
      rw [Nat.le_div_iff_mul_le hsize, Nat.add_mul, Nat.one_mul, Nat.mul_comm k]
      omega
    rw [rowsFrom]
    split
    · next hend =>
      have hnone : (buffer.length - 4) / rowSize - k = 0 := by omega
      rw [hnone, Nat.min_zero]
      rfl
    · next hmore =>
      have hcount : min (count + 1) ((buffer.length - 4) / rowSize - k) =
          min count ((buffer.length - 4) / rowSize - (k + 1)) + 1 := by omega
      rw [hcount, List.range'_succ, List.map_cons, ← ih (k + 1), Nat.mul_succ, ← Nat.add_assoc]
      rfl

/-- A loop comes to the rows that the table holds. -/
theorem rowsFrom_eq_consideredRows (hsize : 0 < rowSize) (hlength : 4 ≤ buffer.length) :
    rowsFrom buffer rowSize (wordAt buffer 0).toNat 4 = consideredRows buffer rowSize := by
  have hrows := rowsFrom_eq hsize hlength (wordAt buffer 0).toNat 0
  rw [Nat.mul_zero, Nat.sub_zero] at hrows
  rw [hrows, consideredRows, rowCount, List.range_eq_range']

theorem consideredRows_of_short (h : buffer.length < 4) : consideredRows buffer rowSize = [] := by
  have hnone : buffer.length - 4 = 0 := by omega
  rw [consideredRows, rowCount, hnone, Nat.zero_div, Nat.min_zero]
  rfl

end Rows

namespace OwnerRowLayout
variable (layout : OwnerRowLayout)

/-- The fields lie within a row. -/
structure Fits : Prop where
  localPort : layout.localPortOffset + 4 ≤ layout.rowSize
  owningPid : layout.owningPidOffset + 4 ≤ layout.rowSize

def port (row : List UInt8) : UInt16 := parseMibPort (wordAt row layout.localPortOffset)

def pid (row : List UInt8) : UInt32 := wordAt row layout.owningPidOffset

/-- The row tells the owner of a port. -/
def Owned (row : List UInt8) : Prop := layout.pid row ≠ 0 ∧ layout.port row ≠ 0

instance (row : List UInt8) : Decidable (layout.Owned row) :=
  inferInstanceAs (Decidable (_ ∧ _))

def record (map : PortOwners) (row : List UInt8) : PortOwners :=
  if layout.Owned row then map.insert (layout.port row) (layout.pid row) else map

variable {layout}

theorem parseOwnerPidRowsFrom_eq (h : layout.Fits) (buffer : List UInt8) (count offset : ℕ)
    (map : PortOwners) : parseOwnerPidRowsFrom layout buffer count offset map =
      .ok ((rowsFrom buffer layout.rowSize count offset).foldl layout.record map) := by
  induction count generalizing offset map with
  | zero => rfl
  | succ count ih =>
    obtain ⟨hport, hpid⟩ := h
    rw [parseOwnerPidRowsFrom, rowsFrom]
    by_cases hend : offset + layout.rowSize > buffer.length
    · rw [if_pos hend, if_pos hend]
      rfl
    · rw [if_neg hend, if_neg hend, List.foldl_cons, ← ih,
        u32At_eq (show offset + layout.localPortOffset + 4 ≤ buffer.length by omega),
        u32At_eq (show offset + layout.owningPidOffset + 4 ≤ buffer.length by omega),
        ← wordAt_row hport, ← wordAt_row hpid]
      have hrow (row : List UInt8) : layout.record map row =
          if layout.pid row > 0 && layout.port row > 0 then
            map.insert (layout.port row) (layout.pid row) else map := by
        have hpositive (pid : UInt32) (port : UInt16) :
            (pid > 0 && port > 0) = true ↔ pid ≠ 0 ∧ port ≠ 0 := by
          rw [Bool.and_eq_true, decide_eq_true_eq, decide_eq_true_eq, gt_iff_lt, gt_iff_lt,
            UInt32.pos_iff_ne_zero, UInt16.pos_iff_ne_zero]
        simp only [record, Owned, hpositive]
        rfl
      rw [hrow]
      rfl

/-- The owner of a port is told by the last row with the port. -/
theorem getElem?_foldl_record (rows : List (List UInt8)) (map : PortOwners) (port : UInt16) :
    (rows.foldl layout.record map)[port]? =
      ((rows.filter fun row => layout.Owned row ∧ layout.port row = port).getLast?.map
        layout.pid).or map[port]? := by
  induction rows generalizing map with
  | nil => rfl
  | cons row rows ih =>
    rw [List.foldl_cons, ih]
    by_cases howned : layout.Owned row ∧ layout.port row = port
    · have hrecord : (layout.record map row)[port]? = some (layout.pid row) := by
        simp [record, howned.1, howned.2]
      rw [List.filter_cons_of_pos (by simpa using howned), List.getLast?_cons, hrecord]
      cases (rows.filter fun row => layout.Owned row ∧ layout.port row = port).getLast? <;> rfl
    · have hrecord : (layout.record map row)[port]? = map[port]? := by
        unfold record
        split
        · next h =>
          have hne : layout.port row ≠ port := fun heq => howned ⟨h, heq⟩
          simp [Std.ExtTreeMap.getElem?_insert, hne]
        · rfl
      rw [List.filter_cons_of_neg (by simpa using howned), hrecord]

/-- The table is read in range, and tells each port's owner by the last row with the port. -/
theorem parseOwnerPidRows_eq (h : layout.Fits) (buffer : List UInt8) :
    ∃ map, parseOwnerPidRows buffer layout = .ok map ∧ ∀ port : UInt16, map[port]? =
      ((consideredRows buffer layout.rowSize).filter fun row =>
        layout.Owned row ∧ layout.port row = port).getLast?.map layout.pid := by
  have hsize : 0 < layout.rowSize := by
    have := h.localPort
    omega
  rw [parseOwnerPidRows]
  by_cases hlength : buffer.length < 4
  · rw [if_pos hlength, consideredRows_of_short hlength]
    exact ⟨∅, rfl, fun port => by simp⟩
  · refine ⟨(consideredRows buffer layout.rowSize).foldl layout.record ∅, ?_, fun port => ?_⟩
    · rw [if_neg hlength, u32At_eq (show 0 + 4 ≤ buffer.length by omega)]
      have hrows := parseOwnerPidRowsFrom_eq h buffer (wordAt buffer 0).toNat 4 ∅
      rw [rowsFrom_eq_consideredRows hsize (by omega)] at hrows
      exact hrows
    · rw [getElem?_foldl_record]
      simp

end OwnerRowLayout

section Connections
variable {af : UInt32} {layout : TcpRowLayout} {row : List UInt8}

/-- Where the list of connections finds a row's owner. -/
def TcpRowLayout.owner (layout : TcpRowLayout) : OwnerRowLayout :=
  ⟨layout.rowSize, layout.localPortOffset, layout.owningPidOffset⟩

def TcpRowLayout.state (layout : TcpRowLayout) (row : List UInt8) : TcpConnectionState :=
  .fromMibState (wordAt row layout.stateOffset)

/-- The row has a listable state, a PID and a local port. -/
def TcpRowLayout.Listed (layout : TcpRowLayout) (row : List UInt8) : Prop :=
  (layout.state row).isListVisible = true ∧ layout.owner.Owned row

instance (layout : TcpRowLayout) (row : List UInt8) : Decidable (layout.Listed row) :=
  inferInstanceAs (Decidable (_ ∧ _))

/-- The connection is that of the row. -/
structure OfRow (af : UInt32) (layout : TcpRowLayout) (row : List UInt8)
    (connection : TcpConnection) : Prop where
  parse : parseTcpRow af layout row = .ok (some connection)
  pid : connection.pid = layout.owner.pid row
  localPort : connection.key.localEndpoint.port = layout.owner.port row
  remotePort : connection.key.remoteEndpoint.port =
    parseMibPort (wordAt row layout.remotePortOffset)
  state : connection.state = layout.state row

/-- The row is read: as its connection where it is listed, else as none. -/
def Reads (af : UInt32) (layout : TcpRowLayout) (row : List UInt8) : Prop :=
  ∃ connection, parseTcpRow af layout row = .ok connection ∧
    (connection.isSome ↔ layout.Listed row) ∧ ∀ c ∈ connection, OfRow af layout row c

theorem reads_of_addr {localAddr remoteAddr : IpAddr} (hsize : layout.rowSize ≤ row.length)
    (hstate : layout.stateOffset + 4 ≤ layout.rowSize) (howner : layout.owner.Fits)
    (hremotePort : layout.remotePortOffset + 4 ≤ layout.rowSize)
    (hlocalAddr : addrAt af row layout.localAddrOffset = .ok localAddr)
    (hremoteAddr : addrAt af row layout.remoteAddrOffset = .ok remoteAddr) :
    Reads af layout row := by
  have hlocalPort : layout.localPortOffset + 4 ≤ layout.rowSize := howner.localPort
  have hpid : layout.owningPidOffset + 4 ≤ layout.rowSize := howner.owningPid
  have hparse := parseTcpRow_eq_ok (u32At_eq (hstate.trans hsize))
    (u32At_eq (hlocalPort.trans hsize)) (u32At_eq (hremotePort.trans hsize))
    (u32At_eq (hpid.trans hsize)) hlocalAddr hremoteAddr
  refine ⟨_, hparse, ?_, fun c hc => ?_⟩
  · rw [Option.isSome_ite]
    rfl
  · rw [Option.mem_def.mp hc] at hparse
    rw [Option.mem_def, Option.ite_none_right_eq_some] at hc
    obtain ⟨-, hc⟩ := hc
    cases hc
    exact ⟨hparse, rfl, rfl, rfl, rfl⟩

theorem reads_afInet (h : row.length = 24) : Reads afInet ipv4RowLayout row :=
  reads_of_addr h.ge (by decide) ⟨by decide, by decide⟩ (by decide)
    (addrAt_afInet (u32At_eq (show 4 + 4 ≤ row.length by omega)))
    (addrAt_afInet (u32At_eq (show 12 + 4 ≤ row.length by omega)))

theorem reads_afInet6 (h : row.length = 56) : Reads afInet6 ipv6RowLayout row := by
  obtain ⟨localAddr, hlocalAddr⟩ := addrAt_afInet6 (show 4 + 16 ≤ row.length by omega)
  obtain ⟨remoteAddr, hremoteAddr⟩ := addrAt_afInet6 (show 24 + 16 ≤ row.length by omega)
  exact reads_of_addr h.ge (by decide) ⟨by decide, by decide⟩ (by decide) hlocalAddr hremoteAddr

/-- The loop lists the connections of the listed rows, in their order. -/
theorem parseTcpRows_forall₂ (hreads : ∀ row : List UInt8, row.length = layout.rowSize →
    Reads af layout row) (buffer : List UInt8) (count offset : ℕ) :
    ∃ connections, parseTcpRows af layout buffer count offset = .ok connections ∧
      List.Forall₂ (OfRow af layout)
        ((rowsFrom buffer layout.rowSize count offset).filter (layout.Listed ·)) connections := by
  induction count generalizing offset with
  | zero => exact ⟨[], rfl, .nil⟩
  | succ count ih =>
    rw [parseTcpRows, rowsFrom]
    by_cases hend : offset + layout.rowSize > buffer.length
    · rw [if_pos hend, if_pos hend]
      exact ⟨[], rfl, .nil⟩
    · rw [if_neg hend, if_neg hend]
      obtain ⟨connection, hconnection, hlisted, hrow⟩ := hreads
        ((buffer.drop offset).take layout.rowSize)
        (by rw [List.length_take, List.length_drop]; omega)
      obtain ⟨connections, hrest, hconnections⟩ := ih (offset + layout.rowSize)
      rw [hconnection, hrest]
      refine ⟨connection.toList ++ connections, rfl, ?_⟩
      cases connection with
      | none =>
        rw [List.filter_cons_of_neg (by simpa using hlisted)]
        exact hconnections
      | some c =>
        rw [List.filter_cons_of_pos (by simpa using hlisted)]
        exact .cons (hrow c rfl) hconnections

/-- The list has the connections of the listed rows of the table, in their order. -/
theorem parseTcpConnections_forall₂ (hlayout : tcpConnectionRowLayout af = some layout)
    (hsize : 0 < layout.rowSize) (hreads : ∀ row : List UInt8, row.length = layout.rowSize →
      Reads af layout row) (buffer : List UInt8) :
    ∃ connections, parseTcpConnections buffer af = .ok connections ∧
      List.Forall₂ (OfRow af layout)
        ((consideredRows buffer layout.rowSize).filter (layout.Listed ·)) connections := by
  rw [parseTcpConnections, hlayout]
  by_cases hlength : buffer.length < 4
  · rw [consideredRows_of_short hlength]
    exact ⟨[], by simp only [if_pos hlength]; rfl, .nil⟩
  · obtain ⟨connections, hparse, hconnections⟩ :=
      parseTcpRows_forall₂ hreads buffer (wordAt buffer 0).toNat 4
    rw [rowsFrom_eq_consideredRows hsize (by omega)] at hconnections
    refine ⟨connections, ?_, hconnections⟩
    simp only [if_neg hlength, u32At_eq (show 0 + 4 ≤ buffer.length by omega)]
    exact hparse

end Connections

theorem exists_left_of_mem {α β : Type} {R : α → β → Prop} {as : List α} {bs : List β} {b : β}
    (h : List.Forall₂ R as bs) (hb : b ∈ bs) : ∃ a ∈ as, R a b := by
  induction h with
  | nil => cases hb
  | @cons a b' as bs hab _ ih =>
    rcases List.mem_cons.mp hb with rfl | hb
    · exact ⟨a, List.mem_cons_self, hab⟩
    · obtain ⟨a', ha', hab'⟩ := ih hb
      exact ⟨a', List.mem_cons_of_mem a ha', hab'⟩

/-- The map tells each port's owner by the last row with the port that tells one. -/
def Owners (buffer : List UInt8) (layout : OwnerRowLayout) (map : PortOwners) : Prop :=
  ∀ port : UInt16, map[port]? = ((consideredRows buffer layout.rowSize).filter fun row =>
    layout.Owned row ∧ layout.port row = port).getLast?.map layout.pid

/-- The address families that the tables are asked for. -/
inductive AddressFamily
  | ipv4
  | ipv6

def AddressFamily.code : AddressFamily → UInt32
  | ipv4 => afInet
  | ipv6 => afInet6

/-- The map of owners and the list of connections, read from one table. -/
structure TablesAgree (buffer : List UInt8) (layout : TcpRowLayout) (af : UInt32)
    (map : PortOwners) (connections : List TcpConnection) : Prop where
  owners : Owners buffer layout.owner map
  listed : List.Forall₂ (OfRow af layout)
    ((consideredRows buffer layout.rowSize).filter (layout.Listed ·)) connections
  mem : ∀ connection ∈ connections, connection.key.localEndpoint.port ∈ map

theorem tablesAgree_of_reads {af : UInt32} {layout : TcpRowLayout}
    (hlayout : tcpConnectionRowLayout af = some layout) (howner : layout.owner.Fits)
    (hreads : ∀ row : List UInt8, row.length = layout.rowSize → Reads af layout row)
    (buffer : List UInt8) :
    ∃ map connections, parseOwnerPidRows buffer layout.owner = .ok map ∧
      parseTcpConnections buffer af = .ok connections ∧
      TablesAgree buffer layout af map connections := by
  have hsize : 0 < layout.rowSize := by
    have : layout.localPortOffset + 4 ≤ layout.rowSize := howner.localPort
    omega
  obtain ⟨map, hmap, howners⟩ := OwnerRowLayout.parseOwnerPidRows_eq howner buffer
  obtain ⟨connections, hconnections, hlisted⟩ :=
    parseTcpConnections_forall₂ hlayout hsize hreads buffer
  refine ⟨map, connections, hmap, hconnections, howners, hlisted, fun c hc => ?_⟩
  obtain ⟨row, hrow, hof⟩ := exists_left_of_mem hlisted hc
  obtain ⟨hmem, hrow⟩ := List.mem_filter.mp hrow
  have hrow : layout.Listed row := by simpa using hrow
  have hfound : row ∈ (consideredRows buffer layout.rowSize).filter fun row =>
      layout.owner.Owned row ∧ layout.owner.port row = c.key.localEndpoint.port :=
    List.mem_filter.mpr ⟨hmem, by simpa using ⟨hrow.2, hof.localPort.symm⟩⟩
  rw [Std.ExtTreeMap.mem_iff_isSome_getElem?, howners, Option.isSome_map,
    List.getLast?_isSome]
  exact List.ne_nil_of_mem hfound

/-- From any bytes, both tables of either address family are read in range, and agree. -/
theorem tables_agree (buffer : List UInt8) (family : AddressFamily) :
    (∃ layout map connections, tcpConnectionRowLayout family.code = some layout ∧
      tcpRowLayout family.code = some layout.owner ∧
      parseOwnerPidRows buffer layout.owner = .ok map ∧
      parseTcpConnections buffer family.code = .ok connections ∧
      TablesAgree buffer layout family.code map connections) ∧
    ∃ layout map, udpRowLayout family.code = some layout ∧
      parseOwnerPidRows buffer layout = .ok map ∧ Owners buffer layout map := by
  cases family with
  | ipv4 =>
    have htcp : ipv4RowLayout.owner.Fits := ⟨by decide, by decide⟩
    have hudp : OwnerRowLayout.Fits ⟨12, 4, 8⟩ := ⟨by decide, by decide⟩
    obtain ⟨map, connections, htables⟩ :=
      tablesAgree_of_reads rfl htcp (fun _ => reads_afInet) buffer
    obtain ⟨udpMap, hudpMap⟩ := OwnerRowLayout.parseOwnerPidRows_eq hudp buffer
    exact ⟨⟨ipv4RowLayout, map, connections, rfl, rfl, htables⟩, _, udpMap, rfl, hudpMap⟩
  | ipv6 =>
    have htcp : ipv6RowLayout.owner.Fits := ⟨by decide, by decide⟩
    have hudp : OwnerRowLayout.Fits ⟨28, 20, 24⟩ := ⟨by decide, by decide⟩
    obtain ⟨map, connections, htables⟩ :=
      tablesAgree_of_reads rfl htcp (fun _ => reads_afInet6) buffer
    obtain ⟨udpMap, hudpMap⟩ := OwnerRowLayout.parseOwnerPidRows_eq hudp buffer
    exact ⟨⟨ipv6RowLayout, map, connections, rfl, rfl, htables⟩, _, udpMap, rfl, hudpMap⟩

end FlowBrake.Windows
