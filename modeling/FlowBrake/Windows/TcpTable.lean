import FlowBrake.Windows.Tcp

/-! The TCP tables of IP Helper, as raw bytes, and the connections listed from them. -/
namespace FlowBrake.Windows

def afInet : UInt32 := 2

def afInet6 : UInt32 := 23

/-- `from_ne_bytes` on a little-endian target. -/
def u32FromNeBytes (b0 b1 b2 b3 : UInt8) : UInt32 :=
  b0.toUInt32 ||| b1.toUInt32 <<< 8 ||| b2.toUInt32 <<< 16 ||| b3.toUInt32 <<< 24

/-- The word `bytes[i..i + 4]`. -/
def u32At (bytes : List UInt8) (i : ℕ) : Except OutOfRange UInt32 := do
  return u32FromNeBytes (← byteAt bytes i) (← byteAt bytes (i + 1)) (← byteAt bytes (i + 2))
    (← byteAt bytes (i + 3))

/-- `bytes[i..i + n]` -/
def slice (bytes : List UInt8) (i n : ℕ) : Except OutOfRange (List UInt8) :=
  if i + n ≤ bytes.length then .ok ((bytes.drop i).take n) else .error ⟨i + n⟩

/-- The eight segments are big-endian words. -/
def ipv6FromMibAddr (bytes : List UInt8) : Except OutOfRange Ipv6Addr := do
  let segments ← (List.range 8).mapM fun index => u16At bytes (index * 2)
  return .ofNat 128 (segments.foldl (fun n segment => n * 2 ^ 16 + segment.toNat) 0)

def parseMibPort (raw : UInt32) : UInt16 := swapBytes (raw &&& 0xffff).toUInt16

/-- Where a row keeps its fields. -/
structure TcpRowLayout where
  rowSize : ℕ
  stateOffset : ℕ
  localAddrOffset : ℕ
  localPortOffset : ℕ
  remoteAddrOffset : ℕ
  remotePortOffset : ℕ
  owningPidOffset : ℕ

def ipv4RowLayout : TcpRowLayout where
  rowSize := 24
  stateOffset := 0
  localAddrOffset := 4
  localPortOffset := 8
  remoteAddrOffset := 12
  remotePortOffset := 16
  owningPidOffset := 20

def ipv6RowLayout : TcpRowLayout where
  rowSize := 56
  stateOffset := 0
  localAddrOffset := 4
  localPortOffset := 20
  remoteAddrOffset := 24
  remotePortOffset := 40
  owningPidOffset := 52

def tcpConnectionRowLayout (af : UInt32) : Option TcpRowLayout :=
  if af = afInet then some ipv4RowLayout
  else if af = afInet6 then some ipv6RowLayout
  else none

def addrAt (af : UInt32) (row : List UInt8) (offset : ℕ) : Except OutOfRange IpAddr := do
  if af = afInet6 then return .v6 (← ipv6FromMibAddr (← slice row offset 16))
  else return .v4 (ipv4FromMibAddr (← u32At row offset))

/-- The connection of a row, unless the row is one that the list leaves out. -/
def parseTcpRow (af : UInt32) (layout : TcpRowLayout) (row : List UInt8) :
    Except OutOfRange (Option TcpConnection) := do
  let state := TcpConnectionState.fromMibState (← u32At row layout.stateOffset)
  if !state.isListVisible then return none
  let localPort := parseMibPort (← u32At row layout.localPortOffset)
  let remotePort := parseMibPort (← u32At row layout.remotePortOffset)
  let pid ← u32At row layout.owningPidOffset
  if pid = 0 || localPort = 0 then return none
  let localAddr ← addrAt af row layout.localAddrOffset
  let remoteAddr ← addrAt af row layout.remoteAddrOffset
  let key : TcpConnectionKey := {
    localEndpoint := ⟨localAddr, localPort⟩, remoteEndpoint := ⟨remoteAddr, remotePort⟩
    ipv6 := af = afInet6 }
  return some { key, pid, state }

/-- The loop over the `count` rows that the table says it has, from the row at `offset`. -/
def parseTcpRows (af : UInt32) (layout : TcpRowLayout) (buffer : List UInt8) :
    (count offset : ℕ) → Except OutOfRange (List TcpConnection)
  | 0, _ => .ok []
  | count + 1, offset => do
    if offset + layout.rowSize > buffer.length then return []
    let connection ← parseTcpRow af layout ((buffer.drop offset).take layout.rowSize)
    return connection.toList ++ (← parseTcpRows af layout buffer count (offset + layout.rowSize))

def parseTcpConnections (buffer : List UInt8) (af : UInt32) :
    Except OutOfRange (List TcpConnection) := do
  match tcpConnectionRowLayout af with
  | none => return []
  | some layout =>
    if buffer.length < 4 then return []
    parseTcpRows af layout buffer (← u32At buffer 0).toNat 4

section
variable {bytes row buffer : List UInt8} {i n : ℕ}

theorem byteAt_of_lt (h : i < bytes.length) : ∃ byte, byteAt bytes i = .ok byte :=
  ⟨bytes[i], by rw [byteAt, List.getElem?_eq_getElem h]⟩

theorem u16At_of_le (h : i + 2 ≤ bytes.length) : ∃ word, u16At bytes i = .ok word := by
  obtain ⟨hi, hhi⟩ := byteAt_of_lt (show i < bytes.length by omega)
  obtain ⟨lo, hlo⟩ := byteAt_of_lt (show i + 1 < bytes.length by omega)
  rw [u16At, hhi, hlo]
  exact ⟨_, rfl⟩

theorem u32At_of_le (h : i + 4 ≤ bytes.length) : ∃ word, u32At bytes i = .ok word := by
  obtain ⟨b0, h0⟩ := byteAt_of_lt (show i < bytes.length by omega)
  obtain ⟨b1, h1⟩ := byteAt_of_lt (show i + 1 < bytes.length by omega)
  obtain ⟨b2, h2⟩ := byteAt_of_lt (show i + 2 < bytes.length by omega)
  obtain ⟨b3, h3⟩ := byteAt_of_lt (show i + 3 < bytes.length by omega)
  rw [u32At, h0, h1, h2, h3]
  exact ⟨_, rfl⟩

theorem slice_of_le (h : i + n ≤ bytes.length) :
    ∃ part, slice bytes i n = .ok part ∧ part.length = n := by
  rw [slice, if_pos h]
  exact ⟨_, rfl, by rw [List.length_take, List.length_drop]; omega⟩

theorem ipv6FromMibAddr_of_length (h : bytes.length = 16) :
    ∃ addr, ipv6FromMibAddr bytes = .ok addr := by
  have hmap : ∀ indexes : List ℕ, (∀ index ∈ indexes, index < 8) →
      ∃ segments, indexes.mapM (fun index => u16At bytes (index * 2)) = .ok segments := by
    intro indexes hindexes
    induction indexes with
    | nil => exact ⟨[], rfl⟩
    | cons index indexes ih =>
      have hindex := hindexes index List.mem_cons_self
      obtain ⟨word, hword⟩ := u16At_of_le (show index * 2 + 2 ≤ bytes.length by omega)
      obtain ⟨words, hwords⟩ := ih fun j hj => hindexes j (List.mem_cons_of_mem _ hj)
      rw [List.mapM_cons, hword, hwords]
      exact ⟨word :: words, rfl⟩
  obtain ⟨segments, hsegments⟩ := hmap (List.range 8) fun index => List.mem_range.mp
  rw [ipv6FromMibAddr, hsegments]
  exact ⟨_, rfl⟩

theorem addrAt_afInet {word : UInt32} (h : u32At row i = .ok word) :
    addrAt afInet row i = .ok (.v4 (ipv4FromMibAddr word)) := by
  rw [addrAt, if_neg (by decide), h]
  rfl

theorem addrAt_afInet6 (h : i + 16 ≤ row.length) :
    ∃ addr, addrAt afInet6 row i = .ok (.v6 addr) := by
  obtain ⟨part, hpart, hlength⟩ := slice_of_le h
  obtain ⟨addr, haddr⟩ := ipv6FromMibAddr_of_length hlength
  rw [addrAt, if_pos rfl, hpart]
  exact ⟨addr, by simp only [Except.bind, bind, haddr]; rfl⟩

theorem tcpConnectionRowLayout_afInet : tcpConnectionRowLayout afInet = some ipv4RowLayout := rfl

theorem tcpConnectionRowLayout_afInet6 : tcpConnectionRowLayout afInet6 = some ipv6RowLayout := rfl

/-- A row that ends within the table is a whole row. -/
theorem length_row (h : 4 + n * (i + 1) ≤ buffer.length) :
    ((buffer.drop (4 + n * i)).take n).length = n := by
  rw [Nat.mul_succ] at h
  rw [List.length_take, List.length_drop]
  omega

/-- What a row becomes, by the words and addresses it holds. -/
theorem parseTcpRow_eq_ok {af state localPort remotePort pid : UInt32} {layout : TcpRowLayout}
    {localAddr remoteAddr : IpAddr} (hstate : u32At row layout.stateOffset = .ok state)
    (hlocal : u32At row layout.localPortOffset = .ok localPort)
    (hremote : u32At row layout.remotePortOffset = .ok remotePort)
    (hpid : u32At row layout.owningPidOffset = .ok pid)
    (hlocalAddr : addrAt af row layout.localAddrOffset = .ok localAddr)
    (hremoteAddr : addrAt af row layout.remoteAddrOffset = .ok remoteAddr) :
    parseTcpRow af layout row = .ok (
      if (TcpConnectionState.fromMibState state).isListVisible = true ∧ pid ≠ 0 ∧
          parseMibPort localPort ≠ 0 then
        some ⟨⟨⟨localAddr, parseMibPort localPort⟩, ⟨remoteAddr, parseMibPort remotePort⟩,
          af = afInet6⟩, pid, .fromMibState state⟩
      else none) := by
  simp only [parseTcpRow, hstate, hlocal, hremote, hpid, hlocalAddr, hremoteAddr, bind,
    Except.bind, pure, Except.pure]
  cases (TcpConnectionState.fromMibState state).isListVisible <;> by_cases hp : pid = 0 <;>
    by_cases hl : parseMibPort localPort = 0 <;> simp [hp, hl]

/-- A connection that the loop lists is that of one of the table's rows. -/
theorem parseTcpRows_eq_ok {af : UInt32} {layout : TcpRowLayout}
    (hrow : ∀ row : List UInt8, row.length = layout.rowSize →
      ∃ connection, parseTcpRow af layout row = .ok connection) (buffer : List UInt8)
    (count offset : ℕ) :
    ∃ connections, parseTcpRows af layout buffer count offset = .ok connections ∧
      ∀ connection ∈ connections, ∃ i < count,
        offset + layout.rowSize * (i + 1) ≤ buffer.length ∧
        parseTcpRow af layout ((buffer.drop (offset + layout.rowSize * i)).take layout.rowSize) =
          .ok (some connection) := by
  induction count generalizing offset with
  | zero => exact ⟨[], rfl, by simp⟩
  | succ count ih =>
    rw [parseTcpRows]
    by_cases hend : offset + layout.rowSize > buffer.length
    · rw [if_pos hend]
      exact ⟨[], rfl, by simp⟩
    · rw [if_neg hend]
      obtain ⟨connection, hconnection⟩ := hrow ((buffer.drop offset).take layout.rowSize)
        (by rw [List.length_take, List.length_drop]; omega)
      obtain ⟨rest, hrest, hmem⟩ := ih (offset + layout.rowSize)
      rw [hconnection, hrest]
      refine ⟨connection.toList ++ rest, rfl, fun c hc => ?_⟩
      obtain hc | hc := List.mem_append.mp hc
      · rw [Option.mem_toList] at hc
        exact ⟨0, by omega, by omega, by simpa [hc] using hconnection⟩
      · obtain ⟨i, hi, hlength, hparse⟩ := hmem c hc
        have hoffset (j : ℕ) : offset + layout.rowSize + layout.rowSize * j =
            offset + layout.rowSize * (j + 1) := by rw [Nat.mul_succ]; omega
        rw [hoffset] at hlength hparse
        exact ⟨i + 1, by omega, hlength, hparse⟩

theorem mibPort_parseMibPort (raw : UInt32) : mibPort (parseMibPort raw) = raw &&& 0xffff := by
  rw [mibPort, parseMibPort, swapBytes_swapBytes, ← UInt32.toNat_inj, UInt16.toNat_toUInt32,
    UInt32.toNat_toUInt16]
  have h : (raw &&& 0xffff).toNat = raw.toNat % 2 ^ 16 := by
    rw [UInt32.toNat_and]
    exact Nat.and_two_pow_sub_one_eq_mod _ 16
  rw [h]
  exact Nat.mod_mod _ _

/-- The words of an IPv4 row that tell its connection from the others. -/
structure RowWords (row : List UInt8) (localAddr localPort remoteAddr remotePort : UInt32) :
    Prop where
  localAddr : u32At row 4 = .ok localAddr
  localPort : u32At row 8 = .ok localPort
  remoteAddr : u32At row 12 = .ok remoteAddr
  remotePort : u32At row 16 = .ok remotePort

theorem parseTcpRow_afInet (h : row.length = 24) :
    ∃ connection, parseTcpRow afInet ipv4RowLayout row = .ok connection ∧
      ∀ c ∈ connection, ∃ localAddr localPort remoteAddr remotePort,
        RowWords row localAddr localPort remoteAddr remotePort ∧
        c.key = ⟨⟨.v4 (ipv4FromMibAddr localAddr), parseMibPort localPort⟩,
          ⟨.v4 (ipv4FromMibAddr remoteAddr), parseMibPort remotePort⟩, false⟩ := by
  obtain ⟨state, hstate⟩ := u32At_of_le (show 0 + 4 ≤ row.length by omega)
  obtain ⟨localAddr, hlocalAddr⟩ := u32At_of_le (show 4 + 4 ≤ row.length by omega)
  obtain ⟨localPort, hlocalPort⟩ := u32At_of_le (show 8 + 4 ≤ row.length by omega)
  obtain ⟨remoteAddr, hremoteAddr⟩ := u32At_of_le (show 12 + 4 ≤ row.length by omega)
  obtain ⟨remotePort, hremotePort⟩ := u32At_of_le (show 16 + 4 ≤ row.length by omega)
  obtain ⟨pid, hpid⟩ := u32At_of_le (show 20 + 4 ≤ row.length by omega)
  refine ⟨_, @parseTcpRow_eq_ok _ _ _ _ _ _ ipv4RowLayout _ _ hstate hlocalPort hremotePort hpid
    (addrAt_afInet hlocalAddr) (addrAt_afInet hremoteAddr), fun c hc => ?_⟩
  refine ⟨localAddr, localPort, remoteAddr, remotePort,
    ⟨hlocalAddr, hlocalPort, hremoteAddr, hremotePort⟩, ?_⟩
  rw [Option.mem_def, Option.ite_none_right_eq_some] at hc
  rw [← Option.some.inj hc.2]
  rfl

theorem parseTcpRow_afInet6 (h : row.length = 56) :
    ∃ connection, parseTcpRow afInet6 ipv6RowLayout row = .ok connection ∧
      ∀ c ∈ connection, c.key.ipv6 = true := by
  obtain ⟨state, hstate⟩ := u32At_of_le (show 0 + 4 ≤ row.length by omega)
  obtain ⟨localAddr, hlocalAddr⟩ := addrAt_afInet6 (show 4 + 16 ≤ row.length by omega)
  obtain ⟨localPort, hlocalPort⟩ := u32At_of_le (show 20 + 4 ≤ row.length by omega)
  obtain ⟨remoteAddr, hremoteAddr⟩ := addrAt_afInet6 (show 24 + 16 ≤ row.length by omega)
  obtain ⟨remotePort, hremotePort⟩ := u32At_of_le (show 40 + 4 ≤ row.length by omega)
  obtain ⟨pid, hpid⟩ := u32At_of_le (show 52 + 4 ≤ row.length by omega)
  refine ⟨_, @parseTcpRow_eq_ok _ _ _ _ _ _ ipv6RowLayout _ _ hstate hlocalPort hremotePort hpid
    hlocalAddr hremoteAddr, fun c hc => ?_⟩
  rw [Option.mem_def, Option.ite_none_right_eq_some] at hc
  rw [← Option.some.inj hc.2]
  rfl

/-- The table is read without a panic, and what is listed is listed from one of its rows. -/
theorem parseTcpConnections_eq_ok {af : UInt32} {layout : TcpRowLayout}
    (hlayout : tcpConnectionRowLayout af = some layout)
    (hrow : ∀ row : List UInt8, row.length = layout.rowSize →
      ∃ connection, parseTcpRow af layout row = .ok connection) (buffer : List UInt8) :
    ∃ connections, parseTcpConnections buffer af = .ok connections ∧
      ∀ connection ∈ connections, ∃ i, 4 + layout.rowSize * (i + 1) ≤ buffer.length ∧
        parseTcpRow af layout ((buffer.drop (4 + layout.rowSize * i)).take layout.rowSize) =
          .ok (some connection) := by
  rw [parseTcpConnections, hlayout]
  by_cases hlength : buffer.length < 4
  · exact ⟨[], by simp only [if_pos hlength]; rfl, by simp⟩
  · obtain ⟨count, hcount⟩ := u32At_of_le (show 0 + 4 ≤ buffer.length by omega)
    obtain ⟨connections, hparse, hmem⟩ := parseTcpRows_eq_ok hrow buffer count.toNat 4
    refine ⟨connections, ?_, fun c hc => ?_⟩
    · simp only [if_neg hlength, hcount]
      exact hparse
    · obtain ⟨i, -, h⟩ := hmem c hc
      exact ⟨i, h⟩

/-- Disconnect hits the listed connection: closing a listed IPv4 connection by its id sets the
addresses and ports of its own row of the table, and a listed IPv6 connection is refused. -/
theorem closeTcpConnection_of_listed {display : IpAddr → Text} {parse : Text → Option IpAddr}
    (h : AddrText display parse) (buffer : List UInt8) :
    (∃ connections, parseTcpConnections buffer afInet = .ok connections ∧
      ∀ connection ∈ connections,
        ∃ key, TcpConnectionKey.decodeId parse (connection.key.encodeId display) = some key ∧
          key = connection.key ∧
          ∃ i row, 4 + 24 * (i + 1) ≤ buffer.length ∧ row = (buffer.drop (4 + 24 * i)).take 24 ∧
            parseTcpRow afInet ipv4RowLayout row = .ok (some connection) ∧
            ∃ localAddr localPort remoteAddr remotePort,
              RowWords row localAddr localPort remoteAddr remotePort ∧
              ∀ setTcpEntry, closeTcpConnection setTcpEntry key = closeResult (setTcpEntry
                ⟨mibTcpStateDeleteTcb, localAddr, localPort &&& 0xffff, remoteAddr,
                  remotePort &&& 0xffff⟩)) ∧
    ∃ connections, parseTcpConnections buffer afInet6 = .ok connections ∧
      ∀ connection ∈ connections,
        ∃ key, TcpConnectionKey.decodeId parse (connection.key.encodeId display) = some key ∧
          key = connection.key ∧
          ∀ setTcpEntry, closeTcpConnection setTcpEntry key = .error .unsupportedIpv6 := by
  constructor
  · obtain ⟨connections, hparse, hmem⟩ := parseTcpConnections_eq_ok tcpConnectionRowLayout_afInet
      (fun row hrow => (parseTcpRow_afInet hrow).imp fun _ h => h.1) buffer
    refine ⟨connections, hparse, fun c hc => ⟨c.key, c.key.decodeId_encodeId h, rfl, ?_⟩⟩
    obtain ⟨i, hlength, hrow⟩ := hmem c hc
    obtain ⟨connection, hconnection, hwords⟩ := parseTcpRow_afInet (length_row hlength)
    have hc : connection = some c := Except.ok.inj (hconnection.symm.trans hrow)
    obtain ⟨localAddr, localPort, remoteAddr, remotePort, hw, hkey⟩ := hwords c hc
    refine ⟨i, _, hlength, rfl, hrow, localAddr, localPort, remoteAddr, remotePort, hw, ?_⟩
    intro setTcpEntry
    rw [hkey, closeTcpConnection_v4, mibIpv4Addr_ipv4FromMibAddr, mibIpv4Addr_ipv4FromMibAddr,
      mibPort_parseMibPort, mibPort_parseMibPort]
  · obtain ⟨connections, hparse, hmem⟩ := parseTcpConnections_eq_ok tcpConnectionRowLayout_afInet6
      (fun row hrow => (parseTcpRow_afInet6 hrow).imp fun _ h => h.1) buffer
    refine ⟨connections, hparse, fun c hc => ⟨c.key, c.key.decodeId_encodeId h, rfl, ?_⟩⟩
    obtain ⟨i, hlength, hrow⟩ := hmem c hc
    obtain ⟨connection, hconnection, hipv6⟩ := parseTcpRow_afInet6 (length_row hlength)
    have hc : connection = some c := Except.ok.inj (hconnection.symm.trans hrow)
    exact fun setTcpEntry => closeTcpConnection_ipv6 setTcpEntry (hipv6 c hc)

end

/-- The `n` lowest digits of `value`, the highest of them first. -/
def beDigits (base : ℕ) : (n value : ℕ) → List ℕ
  | 0, _ => []
  | n + 1, value => beDigits base n (value / base) ++ [value % base]

def ofBeDigits (base : ℕ) (digits : List ℕ) : ℕ :=
  digits.foldl (fun value digit => value * base + digit) 0

theorem ofBeDigits_beDigits {base n value : ℕ} (h : value < base ^ n) :
    ofBeDigits base (beDigits base n value) = value := by
  induction n generalizing value with
  | zero =>
    rw [pow_zero] at h
    rw [beDigits, ofBeDigits, List.foldl_nil]
    omega
  | succ n ih =>
    have hdiv : value / base < base ^ n := Nat.div_lt_of_lt_mul (by rwa [pow_succ'] at h)
    have hhigh := ih hdiv
    rw [ofBeDigits] at hhigh
    rw [beDigits, ofBeDigits, List.foldl_append, hhigh, List.foldl_cons, List.foldl_nil]
    exact Nat.div_add_mod' value base

theorem lt_of_mem_beDigits {base n value digit : ℕ} (hbase : 0 < base)
    (h : digit ∈ beDigits base n value) : digit < base := by
  induction n generalizing value with
  | zero => simp [beDigits] at h
  | succ n ih =>
    obtain h | h := List.mem_append.mp h
    · exact ih h
    · rw [List.mem_singleton.mp h]
      exact Nat.mod_lt _ hbase

theorem mapM_map_eq_some {α β : Type*} {f : α → β} {g : β → Option α} {xs : List α}
    (h : ∀ x ∈ xs, g (f x) = some x) : (xs.map f).mapM g = some xs := by
  induction xs with
  | nil => rfl
  | cons x xs ih =>
    rw [List.map_cons, List.mapM_cons, h x List.mem_cons_self,
      ih fun y hy => h y (List.mem_cons_of_mem _ hy)]
    rfl

def hexText (word : ℕ) : Text := (beDigits 16 4 word).map Nat.digitChar

def parseHex (text : Text) : Option ℕ :=
  (text.mapM fun c => (List.range 16).find? (Nat.digitChar · = c)).map (ofBeDigits 16)

/-- IPv4 addresses as std writes them; every word of an IPv6 address in four digits. -/
def plainText : IpAddr → Text
  | .v4 addr => ['.'].intercalate ((beDigits 256 4 addr.toNat).map (Nat.toDigits 10))
  | .v6 addr => [':'].intercalate ((beDigits (2 ^ 16) 8 addr.toNat).map hexText)

def parsePlain (text : Text) : Option IpAddr :=
  if '.' ∈ text then
    ((text.splitOn '.').mapM (Text.parseUnsigned 256)).map fun octets =>
      .v4 (.ofNat 32 (ofBeDigits 256 octets))
  else
    ((text.splitOn ':').mapM parseHex).map fun words =>
      .v6 (.ofNat 128 (ofBeDigits (2 ^ 16) words))

/-- No digit is one of the marks that stand between the parts of an address or of an id. -/
theorem not_mem_hexText {word : ℕ} {c : Char} (hc : c = '.' ∨ c = ':' ∨ c = '|') :
    c ∉ hexText word := by
  have hchar : ∀ digit < 16, Nat.digitChar digit ≠ '.' ∧ Nat.digitChar digit ≠ ':' ∧
      Nat.digitChar digit ≠ '|' := by decide
  intro h
  obtain ⟨digit, hdigit, rfl⟩ := List.mem_map.mp h
  have hne := hchar digit (lt_of_mem_beDigits (by decide) hdigit)
  obtain hc | hc | hc := hc
  · exact hne.1 hc
  · exact hne.2.1 hc
  · exact hne.2.2 hc

theorem parseHex_hexText {word : ℕ} (h : word < 2 ^ 16) : parseHex (hexText word) = some word := by
  have hdigit : ∀ digit < 16,
      (List.range 16).find? (Nat.digitChar · = Nat.digitChar digit) = some digit := by decide
  have hword : ofBeDigits 16 (beDigits 16 4 word) = word := ofBeDigits_beDigits (by omega)
  rw [parseHex, hexText, mapM_map_eq_some fun digit hmem =>
    hdigit digit (lt_of_mem_beDigits (by decide) hmem), Option.map_some, hword]

theorem dot_mem_plainText (addr : Ipv4Addr) : '.' ∈ plainText (.v4 addr) := by
  simp [plainText, beDigits, List.intercalate, List.intersperse]

theorem dot_not_mem_plainText (addr : Ipv6Addr) : '.' ∉ plainText (.v6 addr) := by
  intro h
  obtain h | ⟨piece, hpiece, hmem⟩ := Text.mem_intercalate h
  · exact absurd h (by decide)
  · obtain ⟨word, -, rfl⟩ := List.mem_map.mp hpiece
    exact not_mem_hexText (.inl rfl) hmem

theorem parsePlain_plainText (addr : IpAddr) : parsePlain (plainText addr) = some addr := by
  cases addr with
  | v4 addr =>
    have hsplit : (plainText (.v4 addr)).splitOn '.' =
        (beDigits 256 4 addr.toNat).map (Nat.toDigits 10) := by
      refine List.splitOn_intercalate '.' (fun piece hpiece hdot => ?_) (by simp [beDigits])
      obtain ⟨octet, -, rfl⟩ := List.mem_map.mp hpiece
      exact absurd (Text.isDigit_of_mem_toDigits hdot) (by decide)
    have hvalue : ofBeDigits 256 (beDigits 256 4 addr.toNat) = addr.toNat :=
      ofBeDigits_beDigits (by omega)
    rw [parsePlain, if_pos (dot_mem_plainText addr), hsplit, mapM_map_eq_some fun octet hmem =>
      Text.parseUnsigned_toDigits (lt_of_mem_beDigits (by decide) hmem), Option.map_some, hvalue]
    simp
  | v6 addr =>
    have hsplit : (plainText (.v6 addr)).splitOn ':' =
        (beDigits (2 ^ 16) 8 addr.toNat).map hexText := by
      refine List.splitOn_intercalate ':' (fun piece hpiece hcolon => ?_) (by simp [beDigits])
      obtain ⟨word, -, rfl⟩ := List.mem_map.mp hpiece
      exact not_mem_hexText (.inr (.inl rfl)) hcolon
    have hvalue : ofBeDigits (2 ^ 16) (beDigits (2 ^ 16) 8 addr.toNat) = addr.toNat :=
      ofBeDigits_beDigits (by omega)
    rw [parsePlain, if_neg (dot_not_mem_plainText addr), hsplit, mapM_map_eq_some fun word hmem =>
      parseHex_hexText (lt_of_mem_beDigits (by decide) hmem), Option.map_some, hvalue]
    simp

theorem bar_not_mem_plainText (addr : IpAddr) : '|' ∉ plainText addr := by
  intro h
  cases addr with
  | v4 addr =>
    obtain h | ⟨piece, hpiece, hmem⟩ := Text.mem_intercalate h
    · exact absurd h (by decide)
    · obtain ⟨octet, -, rfl⟩ := List.mem_map.mp hpiece
      exact absurd (Text.isDigit_of_mem_toDigits hmem) (by decide)
  | v6 addr =>
    obtain h | ⟨piece, hpiece, hmem⟩ := Text.mem_intercalate h
    · exact absurd h (by decide)
    · obtain ⟨word, -, rfl⟩ := List.mem_map.mp hpiece
      exact not_mem_hexText (.inr (.inr rfl)) hmem

theorem addrText_plainText : AddrText plainText parsePlain :=
  ⟨parsePlain_plainText, bar_not_mem_plainText⟩

/-- One established connection, whichever family the bytes are read as. The port words have bits
set above their low halves. -/
def establishedTable : List UInt8 := [
  1, 0, 0, 0,
  5, 0, 0, 0,
  192, 168, 17, 5, 0xd4, 0x31, 0xab, 0xcd,
  93, 184, 216, 34, 0x20, 0xfb, 0x11, 0x22,
  0x1f, 0x90, 0, 0,
  0x20, 0x01, 0x1d, 0xb8, 0x11, 0x11, 0x22, 0x22, 0x33, 0x33, 0x44, 0x44, 0x55, 0x55, 0x66, 0x66,
  0x20, 0xfb, 0, 0,
  0, 0, 0, 0, 0, 0, 0, 0,
  123, 0, 0, 0]

theorem closeTcpConnection_of_listed_established :
    (∃ connection key, parseTcpConnections establishedTable afInet = .ok [connection] ∧
      TcpConnectionKey.decodeId parsePlain (connection.key.encodeId plainText) = some key ∧
      ∀ setTcpEntry, closeTcpConnection setTcpEntry key =
        closeResult (setTcpEntry ⟨12, 0x0511a8c0, 0x31d4, 0x22d8b85d, 0xfb20⟩)) ∧
    ∃ connection key, parseTcpConnections establishedTable afInet6 = .ok [connection] ∧
      TcpConnectionKey.decodeId parsePlain (connection.key.encodeId plainText) = some key ∧
      ∀ setTcpEntry, closeTcpConnection setTcpEntry key = .error .unsupportedIpv6 := by
  obtain ⟨⟨connections, hparse, hlisted⟩, connections6, hparse6, hlisted6⟩ :=
    closeTcpConnection_of_listed addrText_plainText establishedTable
  constructor
  · obtain rfl := Except.ok.inj (hparse.symm.trans
      (show parseTcpConnections establishedTable afInet = .ok
        [⟨⟨⟨.v4 0xc0a81105, 0xd431⟩, ⟨.v4 0x5db8d822, 0x20fb⟩, false⟩, 0x901f, .established⟩] by
          decide))
    obtain ⟨key, hdecode, -, i, row, hlength, rfl, hrow, localAddr, localPort, remoteAddr,
      remotePort, hwords, hclose⟩ := hlisted _ List.mem_cons_self
    have hbytes : establishedTable.length = 60 := rfl
    obtain rfl | rfl : i = 0 ∨ i = 1 := by omega
    · have hfirst := hwords.localAddr.symm.trans (show _ = .ok 0x0511a8c0 by decide)
      have hsecond := hwords.localPort.symm.trans (show _ = .ok 0xcdab31d4 by decide)
      have hthird := hwords.remoteAddr.symm.trans (show _ = .ok 0x22d8b85d by decide)
      have hfourth := hwords.remotePort.symm.trans (show _ = .ok 0x2211fb20 by decide)
      rw [Except.ok.inj hfirst, Except.ok.inj hsecond, Except.ok.inj hthird,
        Except.ok.inj hfourth] at hclose
      exact ⟨_, key, hparse, hdecode, hclose⟩
    · exact absurd hrow (by decide)
  · obtain rfl := Except.ok.inj (hparse6.symm.trans
      (show parseTcpConnections establishedTable afInet6 = .ok
        [⟨⟨⟨.v6 0xc0a81105d431abcd5db8d82220fb1122, 0x1f90⟩,
          ⟨.v6 0x20011db8111122223333444455556666, 0x20fb⟩, true⟩, 123, .established⟩] by decide))
    obtain ⟨key, hdecode, -, hclose⟩ := hlisted6 _ List.mem_cons_self
    exact ⟨_, key, hparse6, hdecode, hclose⟩

end FlowBrake.Windows
