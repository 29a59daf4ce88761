import FlowBrake.Lib.Text
import FlowBrake.Windows.Packet

/-! TCP connections: the text id of a connection and the MIB row that closes it. -/
namespace FlowBrake.Windows

abbrev Ipv4Addr := BitVec 32

abbrev Ipv6Addr := BitVec 128

namespace Ipv4Addr

def new (a b c d : UInt8) : Ipv4Addr :=
  a.toBitVec ++ b.toBitVec ++ c.toBitVec ++ d.toBitVec

/-- `addr.octets()[i]` -/
def octet (addr : Ipv4Addr) (i : ℕ) : UInt8 := .ofBitVec (addr.extractLsb' (8 * (3 - i)) 8)

end Ipv4Addr

structure SocketEndpoint where
  addr : IpAddr
  port : UInt16
  deriving DecidableEq

structure TcpConnectionKey where
  localEndpoint : SocketEndpoint
  remoteEndpoint : SocketEndpoint
  ipv6 : Bool
  deriving DecidableEq

/-- What an id relies on in `Display` and `FromStr` of `IpAddr`. -/
structure AddrText (display : IpAddr → Text) (parse : Text → Option IpAddr) : Prop where
  parse_display (addr : IpAddr) : parse (display addr) = some addr
  bar_not_mem (addr : IpAddr) : '|' ∉ display addr

def portText (port : UInt16) : Text := Nat.toDigits 10 port.toNat

def parsePort (text : Text) : Option UInt16 :=
  (Text.parseUnsigned (2 ^ 16) text).map UInt16.ofNat

namespace TcpConnectionKey

def encodeId (display : IpAddr → Text) (key : TcpConnectionKey) : Text :=
  let version := if key.ipv6 then ['6'] else ['4']
  ['|'].intercalate [version, display key.localEndpoint.addr, portText key.localEndpoint.port,
    display key.remoteEndpoint.addr, portText key.remoteEndpoint.port]

def decodeId (parse : Text → Option IpAddr) (value : Text) : Option TcpConnectionKey :=
  match value.splitOn '|' with
  | version :: localAddr :: localPort :: remoteAddr :: remotePort :: _ => do
    let localAddr ← parse localAddr
    let localPort ← parsePort localPort
    let remoteAddr ← parse remoteAddr
    let remotePort ← parsePort remotePort
    let ipv6 ← if version = ['4'] then some false else if version = ['6'] then some true else none
    return ⟨⟨localAddr, localPort⟩, ⟨remoteAddr, remotePort⟩, ipv6⟩
  | _ => none

end TcpConnectionKey

inductive TcpConnectionState
  | closed
  | listen
  | synSent
  | synReceived
  | established
  | finWait1
  | finWait2
  | closeWait
  | closing
  | lastAck
  | timeWait
  | deleteTcb
  | unknown (value : UInt8)
  deriving DecidableEq

namespace TcpConnectionState

def fromMibState (state : UInt32) : TcpConnectionState :=
  match state.toNat with
  | 1 => closed
  | 2 => listen
  | 3 => synSent
  | 4 => synReceived
  | 5 => established
  | 6 => finWait1
  | 7 => finWait2
  | 8 => closeWait
  | 9 => closing
  | 10 => lastAck
  | 11 => timeWait
  | 12 => deleteTcb
  | _ => unknown state.toUInt8

def isListVisible : TcpConnectionState → Bool
  | closed | listen | timeWait | deleteTcb => false
  | _ => true

end TcpConnectionState

structure TcpConnection where
  key : TcpConnectionKey
  pid : UInt32
  state : TcpConnectionState
  deriving DecidableEq

/-- The lowest byte of the word is the first octet. -/
def ipv4FromMibAddr (value : UInt32) : Ipv4Addr :=
  .new (value &&& 0xff).toUInt8 ((value >>> 8) &&& 0xff).toUInt8
    ((value >>> 16) &&& 0xff).toUInt8 ((value >>> 24) &&& 0xff).toUInt8

def mibIpv4Addr (addr : Ipv4Addr) : UInt32 :=
  (addr.octet 0).toUInt32 ||| ((addr.octet 1).toUInt32 <<< 8) |||
    ((addr.octet 2).toUInt32 <<< 16) ||| ((addr.octet 3).toUInt32 <<< 24)

/-- `to_be` and `from_be` on a little-endian target: the two bytes change places. -/
def swapBytes (port : UInt16) : UInt16 := port <<< 8 ||| port >>> 8

def mibPort (port : UInt16) : UInt32 := (swapBytes port).toUInt32

structure MibTcpRow where
  state : UInt32
  localAddr : UInt32
  localPort : UInt32
  remoteAddr : UInt32
  remotePort : UInt32
  deriving DecidableEq

inductive CloseTcpError
  | accessDenied
  | unsupportedIpv6
  | osError (status : UInt32)
  deriving DecidableEq

def mibTcpStateDeleteTcb : UInt32 := 12

def errorAccessDenied : UInt32 := 5

/-- How `close_tcp_connection` reports the status of `SetTcpEntry`. -/
def closeResult (status : UInt32) : Except CloseTcpError Unit :=
  if status = 0 then .ok ()
  else if status = errorAccessDenied then .error .accessDenied
  else .error (.osError status)

/-- The address word of the row, for the one family that `SetTcpEntry` knows. -/
def closeAddr : IpAddr → Except CloseTcpError UInt32
  | .v4 addr => .ok (mibIpv4Addr addr)
  | .v6 _ => .error .unsupportedIpv6

def closeTcpConnection (setTcpEntry : MibTcpRow → UInt32) (key : TcpConnectionKey) :
    Except CloseTcpError Unit := do
  if key.ipv6 then throw .unsupportedIpv6
  let localAddr ← closeAddr key.localEndpoint.addr
  let remoteAddr ← closeAddr key.remoteEndpoint.addr
  let row : MibTcpRow := {
    state := mibTcpStateDeleteTcb, localAddr, localPort := mibPort key.localEndpoint.port
    remoteAddr, remotePort := mibPort key.remoteEndpoint.port }
  closeResult (setTcpEntry row)

theorem bar_not_mem_portText (port : UInt16) : '|' ∉ portText port := fun h =>
  absurd (Text.isDigit_of_mem_toDigits h) (by decide)

@[simp] theorem parsePort_portText (port : UInt16) : parsePort (portText port) = some port := by
  rw [parsePort, portText, Text.parseUnsigned_toDigits port.toNat_lt]
  simp

theorem TcpConnectionKey.decodeId_encodeId {display : IpAddr → Text}
    {parse : Text → Option IpAddr} (h : AddrText display parse) (key : TcpConnectionKey) :
    decodeId parse (key.encodeId display) = some key := by
  obtain ⟨⟨localAddr, localPort⟩, ⟨remoteAddr, remotePort⟩, ipv6⟩ := key
  have hsplit : (encodeId display
      ⟨⟨localAddr, localPort⟩, ⟨remoteAddr, remotePort⟩, ipv6⟩).splitOn '|' =
        [if ipv6 then ['6'] else ['4'], display localAddr, portText localPort,
          display remoteAddr, portText remotePort] := by
    refine List.splitOn_intercalate '|' (fun part hpart => ?_) (by simp)
    simp only [List.mem_cons, List.not_mem_nil, or_false] at hpart
    obtain rfl | rfl | rfl | rfl | rfl := hpart
    · cases ipv6 <;> simp
    · exact h.bar_not_mem _
    · exact bar_not_mem_portText _
    · exact h.bar_not_mem _
    · exact bar_not_mem_portText _
  rw [decodeId, hsplit]
  cases ipv6 <;> simp [h.parse_display]

namespace Ipv4Addr

theorem octet_new (a b c d : UInt8) :
    (new a b c d).octet 0 = a ∧ (new a b c d).octet 1 = b ∧
      (new a b c d).octet 2 = c ∧ (new a b c d).octet 3 = d := by
  simp only [octet, new, ← UInt8.toBitVec_inj]
  refine ⟨?_, ?_, ?_, ?_⟩ <;> ext i hi <;> simp <;> grind

end Ipv4Addr

/-- The mask before a narrowing cast to a byte drops nothing more than the cast. -/
theorem toUInt8_and_mask (x : UInt32) : (x &&& 0xff).toUInt8 = x.toUInt8 := by
  rw [← UInt8.toNat_inj, UInt32.toNat_toUInt8, UInt32.toNat_and]
  simp [Nat.and_two_pow_sub_one_eq_mod _ 8]

/-- The byte of `x` at bit `shift`, put back in its place. -/
theorem getLsbD_byte (x shift : UInt32) (h : shift.toNat ≤ 24) (i : ℕ) :
    ((x >>> shift).toUInt8.toUInt32 <<< shift).toBitVec.getLsbD i =
      (decide (shift.toNat ≤ i ∧ i < shift.toNat + 8) && x.toBitVec.getLsbD i) := by
  have hmod : (shift.toBitVec % 32).toNat = shift.toNat := by
    rw [BitVec.toNat_umod]
    exact Nat.mod_eq_of_lt (by simp; omega)
  simp only [UInt32.toBitVec_shiftLeft, UInt8.toBitVec_toUInt32, UInt32.toBitVec_toUInt8,
    UInt32.toBitVec_shiftRight, BitVec.shiftLeft_eq', BitVec.ushiftRight_eq', hmod,
    BitVec.getLsbD_shiftLeft, BitVec.getLsbD_setWidth, BitVec.getLsbD_ushiftRight]
  grind

theorem mibIpv4Addr_ipv4FromMibAddr (value : UInt32) :
    mibIpv4Addr (ipv4FromMibAddr value) = value := by
  simp only [mibIpv4Addr, ipv4FromMibAddr, Ipv4Addr.octet_new, toUInt8_and_mask,
    ← UInt32.toBitVec_inj]
  apply BitVec.eq_of_getLsbD_eq
  intro i hi
  have h0 := getLsbD_byte value 0 (by decide) i
  have h1 := getLsbD_byte value 8 (by decide) i
  have h2 := getLsbD_byte value 16 (by decide) i
  have h3 := getLsbD_byte value 24 (by decide) i
  simp only [UInt32.shiftLeft_zero, UInt32.shiftRight_zero] at h0
  simp only [UInt32.toBitVec_or, BitVec.getLsbD_or, h0, h1, h2, h3]
  grind

theorem swapBytes_swapBytes (port : UInt16) : swapBytes (swapBytes port) = port := by
  rw [← UInt16.toBitVec_inj]
  simp only [swapBytes, UInt16.toBitVec_or, UInt16.toBitVec_shiftLeft, UInt16.toBitVec_shiftRight]
  ext i hi
  simp
  grind

/-- An IPv4 key closes the row with its own address and port words. -/
theorem closeTcpConnection_v4 (setTcpEntry : MibTcpRow → UInt32) (localAddr remoteAddr : Ipv4Addr)
    (localPort remotePort : UInt16) :
    closeTcpConnection setTcpEntry
        ⟨⟨.v4 localAddr, localPort⟩, ⟨.v4 remoteAddr, remotePort⟩, false⟩ =
      closeResult (setTcpEntry ⟨mibTcpStateDeleteTcb, mibIpv4Addr localAddr, mibPort localPort,
        mibIpv4Addr remoteAddr, mibPort remotePort⟩) := rfl

theorem closeTcpConnection_ipv6 (setTcpEntry : MibTcpRow → UInt32) {key : TcpConnectionKey}
    (h : key.ipv6 = true) : closeTcpConnection setTcpEntry key = .error .unsupportedIpv6 := by
  simp only [closeTcpConnection, h]
  rfl

end FlowBrake.Windows
