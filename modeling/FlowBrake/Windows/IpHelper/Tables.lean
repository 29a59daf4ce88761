import FlowBrake.Windows.Engine.State
import FlowBrake.Windows.OwnerTable

/-! How the tables of IP Helper are read from the system, and the map of ports built from them. -/
namespace FlowBrake.Windows

def errorInsufficientBuffer : UInt32 := 122

/-- The answer to a call for a table: the status, the size that is told back, and the buffer. -/
structure TableReply where
  status : UInt32
  size : UInt32
  buffer : List UInt8

/-- `GetExtendedTcpTable` or `GetExtendedUdpTable` for one address family, call after call: what it
answers to a buffer of so many zeros. -/
abbrev TableCalls := ℕ → UInt32 → TableReply

/-- The two functions. -/
abbrev SystemTables := Protocol → UInt32 → TableCalls

/-- The size is asked for first, then the table. -/
def readTable (getExtendedTable : TableCalls) : Option (List UInt8) :=
  let asked := getExtendedTable 0 0
  if asked.status ≠ errorInsufficientBuffer || asked.size = 0 then none
  else
    let reply := getExtendedTable 1 asked.size
    if reply.status ≠ 0 then none else some reply.buffer

def readTcpTable (tables : SystemTables) (af : UInt32) : Option (List UInt8) :=
  readTable (tables .tcp af)

def buildTcpPortPidMap (tables : SystemTables) (af : UInt32) : Except OutOfRange PortOwners :=
  match readTcpTable tables af with
  | none => .ok ∅
  | some buffer =>
    match tcpRowLayout af with
    | none => .ok ∅
    | some layout => parseOwnerPidRows buffer layout

def buildUdpPortPidMap (tables : SystemTables) (af : UInt32) : Except OutOfRange PortOwners :=
  match udpRowLayout af with
  | none => .ok ∅
  | some layout =>
    match readTable (tables .udp af) with
    | none => .ok ∅
    | some buffer => parseOwnerPidRows buffer layout

/-- `PortPidMap` -/
structure PortTables where
  tcpV4 : PortOwners := ∅
  tcpV6 : PortOwners := ∅
  udpV4 : PortOwners := ∅
  udpV6 : PortOwners := ∅

namespace PortTables

def refresh (tables : SystemTables) (ipv6Enabled : Bool) : Except OutOfRange PortTables := do
  let tcpV4 ← buildTcpPortPidMap tables afInet
  let tcpV6 ← (if ipv6Enabled then buildTcpPortPidMap tables afInet6 else .ok ∅)
  let udpV4 ← buildUdpPortPidMap tables afInet
  let udpV6 ← (if ipv6Enabled then buildUdpPortPidMap tables afInet6 else .ok ∅)
  return { tcpV4, tcpV6, udpV4, udpV6 }

def table (ports : PortTables) : Protocol → Bool → PortOwners
  | .tcp, false => ports.tcpV4
  | .tcp, true => ports.tcpV6
  | .udp, false => ports.udpV4
  | .udp, true => ports.udpV6

def pidFor (ports : PortTables) : PortPidMap := fun protocol port isIpv6 =>
  (ports.table protocol isIpv6)[port]?

def pids (ports : PortTables) : List UInt32 :=
  [ports.tcpV4, ports.tcpV6, ports.udpV4, ports.udpV6].flatMap fun owners =>
    owners.toList.map Prod.snd

end PortTables

/-- A table of the system: its rows, and the size of the buffer that it needs. -/
structure SystemTable (rowSize : ℕ) where
  rows : List (List UInt8)
  needed : UInt32
  room : 4 + rowSize * rows.length ≤ needed.toNat

/-- What is documented of the two functions. The system has the table `table call` at each call, and
it is `none` where there is none for the address family. -/
structure TableLaws {rowSize : ℕ} (getExtendedTable : TableCalls)
    (table : ℕ → Option (SystemTable rowSize)) : Prop where
  /-- A buffer keeps its length. -/
  length : ∀ call size, (getExtendedTable call size).buffer.length = size.toNat
  /-- A buffer that is large enough gets the number of rows and the rows. -/
  fills : ∀ call size, ∀ t ∈ table call, t.needed ≤ size →
    (getExtendedTable call size).status = 0 ∧
      (wordAt (getExtendedTable call size).buffer 0).toNat = t.rows.length ∧
      (List.range t.rows.length).map (tableRow (getExtendedTable call size).buffer rowSize) = t.rows
  /-- A smaller one is refused, and the size that is needed is told. -/
  refuses : ∀ call size, ∀ t ∈ table call, size < t.needed →
    (getExtendedTable call size).status = errorInsufficientBuffer ∧
      (getExtendedTable call size).size = t.needed
  /-- Without a table, a call fails for another reason. -/
  fails : ∀ call size, table call = none → (getExtendedTable call size).status ≠ 0 ∧
    (getExtendedTable call size).status ≠ errorInsufficientBuffer

section Reading
variable {getExtendedTable : TableCalls} {rowSize : ℕ} {table : ℕ → Option (SystemTable rowSize)}

/-- The rows that reading a table gives: those at the second call, if they need no more room than
was needed at the first. -/
def rowsRead (table : ℕ → Option (SystemTable rowSize)) : List (List UInt8) :=
  match table 0, table 1 with
  | some asked, some read => if read.needed ≤ asked.needed then read.rows else []
  | _, _ => []

/-- A table that is read from a buffer with room for it has the system's rows. -/
theorem consideredRows_of_fills (h : TableLaws getExtendedTable table) (hsize : 0 < rowSize)
    {call : ℕ} {size : UInt32} {t : SystemTable rowSize} (ht : table call = some t)
    (hroom : t.needed ≤ size) :
    consideredRows (getExtendedTable call size).buffer rowSize = t.rows := by
  obtain ⟨-, hcount, hrows⟩ := h.fills call size t ht hroom
  have hroom' : t.needed.toNat ≤ size.toNat := UInt32.le_iff_toNat_le.mp hroom
  have hlength := h.length call size
  have ht := t.room
  have hle : t.rows.length ≤ ((getExtendedTable call size).buffer.length - 4) / rowSize := by
    rw [Nat.le_div_iff_mul_le hsize, Nat.mul_comm]
    omega
  rw [consideredRows, rowCount, hcount, Nat.min_eq_left hle, hrows]

/-- What is read of the buffer is what the system's table has. -/
theorem consideredRows_readTable (h : TableLaws getExtendedTable table) (hsize : 0 < rowSize) :
    ((readTable getExtendedTable).map (consideredRows · rowSize)).getD [] = rowsRead table := by
  rw [readTable, rowsRead]
  cases hasked : table 0 with
  | none =>
    obtain ⟨-, hstatus⟩ := h.fails 0 0 hasked
    simp [hstatus]
  | some asked =>
    have hneeded : 0 < asked.needed := by
      have := asked.room
      rw [UInt32.lt_iff_toNat_lt]
      change 0 < asked.needed.toNat
      omega
    obtain ⟨hstatus, htold⟩ := h.refuses 0 0 asked hasked hneeded
    simp only [hstatus, htold, ne_eq, not_true_eq_false, decide_false, Bool.false_or,
      decide_eq_true_eq, if_neg (UInt32.ne_of_lt hneeded).symm]
    cases hread : table 1 with
    | none =>
      obtain ⟨hstatus, -⟩ := h.fails 1 asked.needed hread
      simp [hstatus]
    | some read =>
      by_cases hroom : read.needed ≤ asked.needed
      · obtain ⟨hstatus, -⟩ := h.fills 1 asked.needed read hread hroom
        simp only [hstatus, not_true_eq_false, if_false, if_pos hroom, Option.map_some,
          Option.getD_some]
        exact consideredRows_of_fills h hsize hread hroom
      · obtain ⟨hstatus, -⟩ := h.refuses 1 asked.needed read hread (UInt32.not_le.mp hroom)
        simp [hstatus, hroom, errorInsufficientBuffer]

end Reading

section Ports

def familyCode (isIpv6 : Bool) : UInt32 := if isIpv6 then afInet6 else afInet

def ownerLayout : Protocol → Bool → OwnerRowLayout
  | .tcp, false => ⟨24, 8, 20⟩
  | .tcp, true => ⟨56, 20, 52⟩
  | .udp, false => ⟨12, 4, 8⟩
  | .udp, true => ⟨28, 20, 24⟩

theorem fits_ownerLayout (protocol : Protocol) (isIpv6 : Bool) :
    (ownerLayout protocol isIpv6).Fits := by
  cases protocol <;> cases isIpv6 <;> exact ⟨by decide, by decide⟩

/-- The owner that the last row with the port tells. -/
def lastOwner (layout : OwnerRowLayout) (rows : List (List UInt8)) (port : UInt16) :
    Option UInt32 :=
  (rows.filter fun row => layout.Owned row ∧ layout.port row = port).getLast?.map layout.pid

/-- The tables of the system at each call. -/
abbrev TablesTold := (protocol : Protocol) → (isIpv6 : Bool) → ℕ →
  Option (SystemTable (ownerLayout protocol isIpv6).rowSize)

/-- The two functions tell of the system's tables as it is documented. -/
def SystemTables.Lawful (tables : SystemTables) (told : TablesTold) : Prop :=
  ∀ protocol isIpv6, TableLaws (tables protocol (familyCode isIpv6)) (told protocol isIpv6)

def TablesTold.lastOwner (told : TablesTold) (protocol : Protocol) (port : UInt16)
    (isIpv6 : Bool) : Option UInt32 :=
  Windows.lastOwner (ownerLayout protocol isIpv6) (rowsRead (told protocol isIpv6)) port

theorem parse_readTable {layout : OwnerRowLayout} (hfits : layout.Fits)
    {getExtendedTable : TableCalls} {table : ℕ → Option (SystemTable layout.rowSize)}
    (h : TableLaws getExtendedTable table) :
    ∃ map, (match readTable getExtendedTable with
        | none => Except.ok (∅ : PortOwners)
        | some buffer => parseOwnerPidRows buffer layout) = .ok map ∧
      ∀ port : UInt16, map[port]? = lastOwner layout (rowsRead table) port := by
  have hsize : 0 < layout.rowSize := by
    have := hfits.localPort
    omega
  rw [← consideredRows_readTable h hsize]
  cases readTable getExtendedTable with
  | none => exact ⟨∅, rfl, fun port => by simp [lastOwner]⟩
  | some buffer => exact OwnerRowLayout.parseOwnerPidRows_eq hfits buffer

theorem buildPortPidMap_eq {tables : SystemTables} {told : TablesTold} (h : tables.Lawful told)
    (isIpv6 : Bool) :
    (∃ map, buildTcpPortPidMap tables (familyCode isIpv6) = .ok map ∧
      ∀ port : UInt16, map[port]? = told.lastOwner .tcp port isIpv6) ∧
    ∃ map, buildUdpPortPidMap tables (familyCode isIpv6) = .ok map ∧
      ∀ port : UInt16, map[port]? = told.lastOwner .udp port isIpv6 := by
  have htcp := parse_readTable (fits_ownerLayout .tcp isIpv6) (h .tcp isIpv6)
  have hudp := parse_readTable (fits_ownerLayout .udp isIpv6) (h .udp isIpv6)
  cases isIpv6 <;> exact ⟨htcp, hudp⟩

namespace PortTables

theorem mem_pids {ports : PortTables} {pid : UInt32} :
    pid ∈ ports.pids ↔ ∃ protocol port isIpv6, ports.pidFor protocol port isIpv6 = some pid := by
  have hvalues (owners : PortOwners) : pid ∈ owners.toList.map Prod.snd ↔
      ∃ port : UInt16, owners[port]? = some pid := by
    simp [List.mem_map, Std.ExtTreeMap.mem_toList_iff_getElem?_eq_some]
  simp only [pids, List.mem_flatMap, hvalues]
  constructor
  · rintro ⟨owners, howners, port, h⟩
    simp only [List.mem_cons, List.not_mem_nil, or_false] at howners
    obtain rfl | rfl | rfl | rfl := howners
    · exact ⟨.tcp, port, false, h⟩
    · exact ⟨.tcp, port, true, h⟩
    · exact ⟨.udp, port, false, h⟩
    · exact ⟨.udp, port, true, h⟩
  · rintro ⟨protocol, port, isIpv6, h⟩
    refine ⟨ports.table protocol isIpv6, ?_, port, h⟩
    cases protocol <;> cases isIpv6 <;> simp [table]

/-- The map of ports tells what the system's tables tell at the second of two calls: a table that
needs more room by then tells nothing, and nothing is told of IPv6 while it is off. -/
theorem refresh_tells {tables : SystemTables} {told : TablesTold} (h : tables.Lawful told)
    (ipv6Enabled : Bool) :
    ∃ ports, refresh tables ipv6Enabled = .ok ports ∧
      (∀ protocol port isIpv6, ports.pidFor protocol port isIpv6 =
        if isIpv6 && !ipv6Enabled then none else told.lastOwner protocol port isIpv6) ∧
      ∀ pid, pid ∈ ports.pids ↔ ∃ protocol port isIpv6, (isIpv6 = true → ipv6Enabled = true) ∧
        told.lastOwner protocol port isIpv6 = some pid := by
  obtain ⟨⟨tcpV4, htcpV4, htcpV4Tells⟩, ⟨udpV4, hudpV4, hudpV4Tells⟩⟩ :=
    buildPortPidMap_eq h false
  obtain ⟨⟨tcpV6, htcpV6, htcpV6Tells⟩, ⟨udpV6, hudpV6, hudpV6Tells⟩⟩ := buildPortPidMap_eq h true
  obtain ⟨ports, hports, htells⟩ : ∃ ports, refresh tables ipv6Enabled = .ok ports ∧
      ∀ protocol port isIpv6, ports.pidFor protocol port isIpv6 =
        if isIpv6 && !ipv6Enabled then none else told.lastOwner protocol port isIpv6 := by
    rw [show familyCode false = afInet from rfl] at htcpV4 hudpV4
    rw [show familyCode true = afInet6 from rfl] at htcpV6 hudpV6
    cases ipv6Enabled with
    | true =>
      refine ⟨⟨tcpV4, tcpV6, udpV4, udpV6⟩, ?_, fun protocol port isIpv6 => ?_⟩
      · rw [refresh, htcpV4, hudpV4, if_pos rfl, if_pos rfl, htcpV6, hudpV6]
        rfl
      · cases protocol <;> cases isIpv6
        · exact htcpV4Tells port
        · exact htcpV6Tells port
        · exact hudpV4Tells port
        · exact hudpV6Tells port
    | false =>
      refine ⟨⟨tcpV4, ∅, udpV4, ∅⟩, ?_, fun protocol port isIpv6 => ?_⟩
      · rw [refresh, htcpV4, hudpV4]
        rfl
      · cases protocol <;> cases isIpv6
        · exact htcpV4Tells port
        · exact Std.ExtTreeMap.getElem?_empty
        · exact hudpV4Tells port
        · exact Std.ExtTreeMap.getElem?_empty
  refine ⟨ports, hports, htells, fun pid => ?_⟩
  rw [mem_pids]
  refine exists_congr fun protocol => exists_congr fun port => exists_congr fun isIpv6 => ?_
  rw [htells]
  cases isIpv6 <;> cases ipv6Enabled <;> simp

end PortTables

end Ports

section Answers
variable {rowSize : ℕ}

/-- A table as a buffer has it. -/
structure StoredTable (rowSize : ℕ) extends SystemTable rowSize where
  bytes : List UInt8
  length_bytes : bytes.length = needed.toNat
  count : (wordAt bytes 0).toNat = rows.length
  stored : (List.range rows.length).map (tableRow bytes rowSize) = rows

/-- A system that answers as it is documented. -/
def answerTable (table : ℕ → Option (StoredTable rowSize)) : TableCalls := fun call size =>
  match table call with
  | none => ⟨87, size, .replicate size.toNat 0⟩
  | some t =>
    if t.needed ≤ size then
      ⟨0, t.needed, t.bytes ++ .replicate (size.toNat - t.needed.toNat) 0⟩
    else ⟨errorInsufficientBuffer, t.needed, .replicate size.toNat 0⟩

theorem wordAt_append {bytes : List UInt8} {i : ℕ} (h : i + 4 ≤ bytes.length)
    (padding : List UInt8) : wordAt (bytes ++ padding) i = wordAt bytes i := by
  have hbyte (j : ℕ) (hj : j < bytes.length) : byte (bytes ++ padding) j = byte bytes j := by
    rw [byte, byte, List.getD_eq_getElem?_getD, List.getD_eq_getElem?_getD,
      List.getElem?_append_left hj]
  rw [wordAt, wordAt, hbyte _ (by omega), hbyte _ (by omega), hbyte _ (by omega),
    hbyte _ (by omega)]

theorem tableRow_append {bytes : List UInt8} {i : ℕ} (h : 4 + rowSize * (i + 1) ≤ bytes.length)
    (padding : List UInt8) : tableRow (bytes ++ padding) rowSize i = tableRow bytes rowSize i := by
  rw [Nat.mul_succ] at h
  rw [tableRow, tableRow, List.drop_append_of_le_length (by omega), List.take_append_of_le_length]
  rw [List.length_drop]
  omega

theorem tableLaws_answerTable (table : ℕ → Option (StoredTable rowSize)) :
    TableLaws (answerTable table) fun call => (table call).map StoredTable.toSystemTable where
  length call size := by
    unfold answerTable
    split
    · exact List.length_replicate
    · next t _ =>
      split
      · next hroom =>
        have hle := UInt32.le_iff_toNat_le.mp hroom
        rw [List.length_append, List.length_replicate, t.length_bytes]
        omega
      · exact List.length_replicate
  fills call size told htold hroom := by
    obtain ⟨t, ht, rfl⟩ := Option.map_eq_some_iff.mp htold
    have hfits : 4 + rowSize * t.rows.length ≤ t.bytes.length := t.length_bytes ▸ t.room
    rw [answerTable, ht]
    simp only [if_pos hroom, true_and]
    constructor
    · rw [wordAt_append (by omega), t.count]
    · refine Eq.trans (List.map_congr_left fun i hi => ?_) t.stored
      have hrow := Nat.mul_le_mul_left rowSize (show i + 1 ≤ _ from List.mem_range.mp hi)
      exact tableRow_append (by omega) _
  refuses call size told htold hsmall := by
    obtain ⟨t, ht, rfl⟩ := Option.map_eq_some_iff.mp htold
    rw [answerTable, ht]
    simp only [if_neg (UInt32.not_le.mpr hsmall), and_self]
  fails call size hnone := by
    rw [answerTable, Option.map_eq_none_iff.mp hnone]
    exact ⟨show (87 : UInt32) ≠ 0 by decide, show (87 : UInt32) ≠ 122 by decide⟩

/-- One row: process 123 owns port 8080. -/
def ownedTable : StoredTable 24 where
  rows := [[0, 0, 0, 0, 0, 0, 0, 0, 31, 144, 0, 0, 0, 0, 0, 0, 0, 0, 0, 0, 123, 0, 0, 0]]
  needed := 28
  room := by decide
  bytes := [1, 0, 0, 0, 0, 0, 0, 0, 0, 0, 0, 0, 31, 144, 0, 0, 0, 0, 0, 0, 0, 0, 0, 0, 123, 0, 0, 0]
  length_bytes := by decide
  count := by decide
  stored := by decide

def emptyTable : StoredTable 12 where
  rows := []
  needed := 4
  room := by decide
  bytes := [0, 0, 0, 0]
  length_bytes := by decide
  count := by decide
  stored := by decide

/-- One row: process 9 owns port 8080. -/
def grownTable : StoredTable 12 where
  rows := [[0, 0, 0, 0, 31, 144, 0, 0, 9, 0, 0, 0]]
  needed := 16
  room := by decide
  bytes := [1, 0, 0, 0, 0, 0, 0, 0, 31, 144, 0, 0, 9, 0, 0, 0]
  length_bytes := by decide
  count := by decide
  stored := by decide

/-- A TCP table that stays as it is, and a UDP table that grows between the two calls. -/
def busyTables : (protocol : Protocol) → (isIpv6 : Bool) → ℕ →
    Option (StoredTable (ownerLayout protocol isIpv6).rowSize)
  | .tcp, false, _ => some ownedTable
  | .udp, false, call => some (if call = 0 then emptyTable else grownTable)
  | .tcp, true, _ | .udp, true, _ => none

/-- The functions of a system with the given tables. -/
def answerTables (tables : (protocol : Protocol) → (isIpv6 : Bool) → ℕ →
    Option (StoredTable (ownerLayout protocol isIpv6).rowSize)) : SystemTables :=
  fun protocol af => answerTable (tables protocol (af = afInet6))

theorem lawful_answerTables (tables : (protocol : Protocol) → (isIpv6 : Bool) → ℕ →
      Option (StoredTable (ownerLayout protocol isIpv6).rowSize)) :
    (answerTables tables).Lawful fun protocol isIpv6 call =>
      (tables protocol isIpv6 call).map StoredTable.toSystemTable := by
  intro protocol isIpv6
  cases isIpv6 <;> exact tableLaws_answerTable _

theorem refresh_tells_busy : ∃ ports,
    PortTables.refresh (answerTables busyTables) false = .ok ports ∧
      ports.pidFor .tcp 8080 false = some 123 ∧ ports.pidFor .tcp 8080 true = none ∧
      ports.pidFor .udp 8080 false = none ∧ 123 ∈ ports.pids := by
  obtain ⟨ports, hports, htells, hpids⟩ :=
    PortTables.refresh_tells (lawful_answerTables busyTables) false
  have howner : TablesTold.lastOwner (fun protocol isIpv6 call =>
      (busyTables protocol isIpv6 call).map StoredTable.toSystemTable) .tcp 8080 false =
        some 123 := by
    decide
  exact ⟨ports, hports, (htells .tcp 8080 false).trans howner, htells .tcp 8080 true,
    (htells .udp 8080 false).trans (by decide),
    (hpids 123).mpr ⟨.tcp, 8080, false, by simp, howner⟩⟩

end Answers

end FlowBrake.Windows
