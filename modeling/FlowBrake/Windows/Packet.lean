import FlowBrake.Core.Rule

/-! Captured packets: driver addresses, transport flows and the IP header parser. -/
namespace FlowBrake.Windows
open FlowBrake.Core

structure WinDivertAddress where
  flags : UInt32 := 0
  deriving DecidableEq

namespace WinDivertAddress

def isLoopback (address : WinDivertAddress) : Bool := address.flags &&& 0x00040000 != 0

def isIpv6 (address : WinDivertAddress) : Bool := address.flags &&& 0x00100000 != 0

def isOutbound (address : WinDivertAddress) : Bool := address.flags &&& 0x00020000 != 0

end WinDivertAddress

inductive IpAddr
  | v4 (bits : BitVec 32)
  | v6 (bits : BitVec 128)
  deriving DecidableEq

inductive Protocol
  | tcp
  | udp
  deriving DecidableEq

structure FlowKey where
  source : IpAddr
  destination : IpAddr
  protocol : Protocol
  sourcePort : UInt16
  destinationPort : UInt16
  deriving DecidableEq

structure IpPacket where
  source : IpAddr
  destination : IpAddr
  protocol : Protocol
  sourcePort : UInt16
  destinationPort : UInt16
  totalLen : ℕ
  payloadLen : ℕ
  deriving DecidableEq

/-- An index at or past the end of the buffer, where the source would panic. -/
structure OutOfRange where
  index : ℕ
  deriving DecidableEq

def byteAt (packet : List UInt8) (i : ℕ) : Except OutOfRange UInt8 :=
  match packet[i]? with
  | some byte => .ok byte
  | none => .error ⟨i⟩

def u16FromBeBytes (hi lo : UInt8) : UInt16 := hi.toUInt16 <<< 8 ||| lo.toUInt16

/-- `packet[i]` and `packet[i + 1]` as a big-endian word. -/
def u16At (packet : List UInt8) (i : ℕ) : Except OutOfRange UInt16 := do
  return u16FromBeBytes (← byteAt packet i) (← byteAt packet (i + 1))

/-- The bytes `packet[i..i + n]` as one big-endian number. -/
def bitsAt (packet : List UInt8) (i : ℕ) : (n : ℕ) → Except OutOfRange ℕ
  | 0 => .ok 0
  | n + 1 => do return (← bitsAt packet i n) * 256 + (← byteAt packet (i + n)).toNat

def Protocol.ofNumber : UInt8 → Option Protocol
  | 6 => some .tcp
  | 17 => some .udp
  | _ => none

def transportHeaderLen (protocol : Protocol) (packet : List UInt8) (transportOffset totalLen : ℕ) :
    Except OutOfRange (Option ℕ) := do
  match protocol with
  | .tcp =>
    if transportOffset + 20 > totalLen then return none
    let tcpHeaderLen := ((← byteAt packet (transportOffset + 12)) >>> 4).toNat * 4
    if tcpHeaderLen < 20 || transportOffset + tcpHeaderLen > totalLen then return none
    return some tcpHeaderLen
  | .udp =>
    if transportOffset + 8 > totalLen then return none
    return some 8

def parseIpv4 (packet : List UInt8) : Except OutOfRange (Option IpPacket) := do
  if packet.length < 24 then return none
  let version := (← byteAt packet 0) >>> 4
  if version != 4 then return none
  let ihl := ((← byteAt packet 0) &&& 0x0f).toNat * 4
  if ihl + 4 > packet.length then return none
  let totalLen := (← u16At packet 2).toNat
  if totalLen < ihl || totalLen > packet.length then return none
  let some protocol := Protocol.ofNumber (← byteAt packet 9) | return none
  let sourcePort ← u16At packet ihl
  let destinationPort ← u16At packet (ihl + 2)
  let some headerLen ← transportHeaderLen protocol packet ihl totalLen | return none
  return some {
    source := .v4 (.ofNat 32 (← bitsAt packet 12 4))
    destination := .v4 (.ofNat 32 (← bitsAt packet 16 4))
    protocol, sourcePort, destinationPort, totalLen
    payloadLen := totalLen - (ihl + headerLen) }

/-- Follows the extension headers from `offset` to the transport header. -/
def ipv6TransportOffsetFrom (packet : List UInt8) (totalLen offset : ℕ) (nextHeader : UInt8) :
    Except OutOfRange (Option (ℕ × UInt8)) :=
  if nextHeader = 6 ∨ nextHeader = 17 then .ok (some (offset, nextHeader))
  else if nextHeader = 0 ∨ nextHeader = 43 ∨ nextHeader = 44 ∨ nextHeader = 60 then
    if offset + 8 > totalLen then .ok none
    else
      match byteAt packet offset, byteAt packet (offset + 1) with
      | .ok next, .ok len =>
        ipv6TransportOffsetFrom packet totalLen (offset + (len.toNat + 1) * 8) next
      | .error e, _ | _, .error e => .error e
  else if nextHeader = 51 then
    if offset + 8 > totalLen then .ok none
    else
      match byteAt packet offset, byteAt packet (offset + 1) with
      | .ok next, .ok len =>
        ipv6TransportOffsetFrom packet totalLen (offset + (len.toNat + 2) * 4) next
      | .error e, _ | _, .error e => .error e
  else .ok none
termination_by totalLen - offset

def ipv6TransportOffset (packet : List UInt8) (totalLen : ℕ) :
    Except OutOfRange (Option (ℕ × UInt8)) := do
  ipv6TransportOffsetFrom packet totalLen 40 (← byteAt packet 6)

def parseIpv6 (packet : List UInt8) : Except OutOfRange (Option IpPacket) := do
  if packet.length < 40 then return none
  if (← byteAt packet 0) >>> 4 != 6 then return none
  let payloadLen := (← u16At packet 4).toNat
  let totalLen := 40 + payloadLen
  if totalLen > packet.length then return none
  let some (transportOffset, nextHeader) ← ipv6TransportOffset packet totalLen | return none
  let some protocol := Protocol.ofNumber nextHeader | return none
  if transportOffset + 4 > totalLen then return none
  let sourcePort ← u16At packet transportOffset
  let destinationPort ← u16At packet (transportOffset + 2)
  let some headerLen ← transportHeaderLen protocol packet transportOffset totalLen | return none
  return some {
    source := .v6 (.ofNat 128 (← bitsAt packet 8 16))
    destination := .v6 (.ofNat 128 (← bitsAt packet 24 16))
    protocol, sourcePort, destinationPort, totalLen
    payloadLen := totalLen - (transportOffset + headerLen) }

namespace IpPacket

def flowKey (packet : IpPacket) : FlowKey where
  source := packet.source
  destination := packet.destination
  protocol := packet.protocol
  sourcePort := packet.sourcePort
  destinationPort := packet.destinationPort

def parse (packet : List UInt8) (isIpv6 : Bool) : Except OutOfRange (Option IpPacket) :=
  if isIpv6 then parseIpv6 packet else parseIpv4 packet

def localPort (packet : IpPacket) : Direction → UInt16
  | .upload => packet.sourcePort
  | .download => packet.destinationPort

end IpPacket

end FlowBrake.Windows
