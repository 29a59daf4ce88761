import FlowBrake.Windows.Packet.ExtensionHeaders
import FlowBrake.Windows.Packet.Ipv4

/-! Which IPv6 packets the parser accepts, and what becomes of the fragments of a packet. -/
namespace FlowBrake.Windows

namespace Ipv6
open TransportHeader
variable (packet : List UInt8)

def version : ℕ := (byte packet 0).toNat / 16

def totalLen : ℕ := 40 + field packet 4 2

/-- The parser's chain of headers leads to the complete header at `offset` of a known protocol. -/
def HasTransport (offset : ℕ) (protocol : Protocol) : Prop :=
  ∃ type, Leads codeLen packet (totalLen packet) (40, byte packet 6) (offset, type) ∧
    Protocol.ofNumber type = some protocol ∧ Fits packet offset (totalLen packet) protocol

/-- The checks of the parser. -/
structure Accepted : Prop where
  length : 40 ≤ packet.length
  version : version packet = 6
  totalLen_le : totalLen packet ≤ packet.length
  transport : ∃ offset protocol, HasTransport packet offset protocol

/-- The fields of the packet's headers, with the transport header at `offset`. -/
structure Fields (offset : ℕ) (parsed : IpPacket) : Prop where
  source : parsed.source = .v6 (.ofNat 128 (field packet 8 16))
  destination : parsed.destination = .v6 (.ofNat 128 (field packet 24 16))
  transport : HasTransport packet offset parsed.protocol
  sourcePort : parsed.sourcePort.toNat = field packet offset 2
  destinationPort : parsed.destinationPort.toNat = field packet (offset + 2) 2
  totalLen : parsed.totalLen = totalLen packet
  payloadLen : parsed.payloadLen =
    Ipv6.totalLen packet - (offset + TransportHeader.length packet offset parsed.protocol)

variable {packet}

theorem version_eq : ((byte packet 0) >>> 4 != 6) = false ↔ version packet = 6 := by
  rw [bne_eq_false_iff_eq, ← UInt8.toNat_inj, version, UInt8.toNat_shiftRight,
    Nat.shiftRight_eq_div_pow]
  rfl

/-- The parser returns the fields of the packets that pass its checks, and nothing else. -/
theorem parseIpv6_cases (packet : List UInt8) :
    Accepted packet ∧ (∃ offset parsed, parseIpv6 packet = .ok (some parsed) ∧
        Fields packet offset parsed) ∨
      ¬ Accepted packet ∧ parseIpv6 packet = .ok none := by
  by_cases hlen : packet.length < 40
  · refine .inr ⟨fun h => absurd h.length (not_le.mpr hlen), ?_⟩
    simp only [parseIpv6, if_pos hlen, pure, Except.pure]
  obtain ⟨payload, hpayload, hvalue⟩ := u16At_eq (show 4 + 2 ≤ packet.length by omega)
  obtain ⟨result, hresult⟩ : ∃ result, parseIpv6 packet = result := ⟨_, rfl⟩
  rw [hresult]
  simp only [parseIpv6, if_neg hlen, byteAt_eq (show 0 < packet.length by omega), hpayload,
    hvalue, bind, Except.bind, pure, Except.pure] at hresult
  split at hresult
  · next hversion =>
    refine .inr ⟨fun h => ?_, hresult.symm⟩
    rw [version_eq.mpr h.version] at hversion
    cases hversion
  next hversion =>
  have hversion := version_eq.mp (by simpa using hversion)
  split at hresult
  · next htotal => exact .inr ⟨fun h => absurd h.totalLen_le (not_le.mpr htotal), hresult.symm⟩
  next htotal =>
  have htotal : totalLen packet ≤ packet.length := not_lt.mp htotal
  obtain ⟨walk, hwalk, hleads⟩ := transportOffset_spec
    (show 6 < totalLen packet by unfold totalLen; omega) htotal
  rw [show 40 + field packet 4 2 = totalLen packet from rfl, hwalk] at hresult
  have haccepted (h : Accepted packet) : ∃ offset type protocol, walk = some (offset, type) ∧
      Protocol.ofNumber type = some protocol ∧ Fits packet offset (totalLen packet) protocol := by
    obtain ⟨offset, protocol, type, hchain, hrest⟩ := h.transport
    exact ⟨offset, type, protocol, (hleads _).mpr hchain, hrest⟩
  cases walk with
  | none =>
    refine .inr ⟨fun h => ?_, hresult.symm⟩
    obtain ⟨offset, type, protocol, hsome, -⟩ := haccepted h
    cases hsome
  | some transport =>
    obtain ⟨offset, type⟩ := transport
    dsimp only at hresult
    cases hprotocol : Protocol.ofNumber type with
    | none =>
      rw [hprotocol] at hresult
      refine .inr ⟨fun h => ?_, hresult.symm⟩
      obtain ⟨_, _, protocol, hsome, hother, -⟩ := haccepted h
      cases hsome
      cases hprotocol.symm.trans hother
    | some protocol =>
      rw [hprotocol] at hresult
      by_cases hfits : Fits packet offset (totalLen packet) protocol
      · have hle := hfits.le
        obtain ⟨sourcePort, hsource, hsourceValue⟩ :=
          u16At_eq (show offset + 2 ≤ packet.length by omega)
        obtain ⟨destinationPort, hdestination, hdestinationValue⟩ :=
          u16At_eq (show offset + 2 + 2 ≤ packet.length by omega)
        simp only [if_neg (show ¬ offset + 4 > totalLen packet by omega), hsource, hdestination,
          transportHeaderLen_eq protocol htotal, if_pos hfits,
          bitsAt_eq (show 8 + 16 ≤ packet.length by omega),
          bitsAt_eq (show 24 + 16 ≤ packet.length by omega)] at hresult
        have htransport : HasTransport packet offset protocol :=
          ⟨type, (hleads _).mp rfl, hprotocol, hfits⟩
        left
        refine ⟨⟨not_lt.mp hlen, hversion, htotal, offset, protocol, htransport⟩, offset, _,
          hresult.symm, ?_⟩
        exact ⟨rfl, rfl, htransport, hsourceValue, hdestinationValue, rfl, rfl⟩
      · right
        refine ⟨fun h => ?_, ?_⟩
        · obtain ⟨_, _, other, hsome, hother, hfits'⟩ := haccepted h
          cases hsome
          cases hprotocol.symm.trans hother
          exact hfits hfits'
        · by_cases hshort : offset + 4 > totalLen packet
          · rw [← hresult]
            simp only [if_pos hshort]
          · obtain ⟨sourcePort, hsource, -⟩ :=
              u16At_eq (show offset + 2 ≤ packet.length by omega)
            obtain ⟨destinationPort, hdestination, -⟩ :=
              u16At_eq (show offset + 2 + 2 ≤ packet.length by omega)
            rw [← hresult]
            simp only [if_neg hshort, hsource, hdestination,
              transportHeaderLen_eq protocol htotal, if_neg hfits]

/-- The packet is a fragment other than the first: its chain of headers has a Fragment header
with an offset. -/
def LaterFragment (packet : List UInt8) : Prop :=
  ∃ fragment, Chain rfcLen packet (totalLen packet) (40, byte packet 6) (fragment, 44) ∧
    fragment + 8 ≤ totalLen packet ∧ field packet (fragment + 2) 2 / 8 ≠ 0

end Ipv6

/-- The packet is a fragment other than the first. -/
def LaterFragment (packet : List UInt8) (isIpv6 : Bool) : Prop :=
  if isIpv6 then Ipv6.LaterFragment packet else Ipv4.fragmentOffset packet ≠ 0

/-- The packet passes the parser's checks of version, lengths, protocol and transport header. -/
def Accepted (packet : List UInt8) (isIpv6 : Bool) : Prop :=
  if isIpv6 then Ipv6.Accepted packet else Ipv4.Accepted packet

/-- The parser returns nothing exactly for the packets that fail one of its checks. -/
theorem parse_eq_none_iff (packet : List UInt8) (isIpv6 : Bool) :
    IpPacket.parse packet isIpv6 = .ok none ↔ ¬ Accepted packet isIpv6 := by
  cases isIpv6 with
  | true =>
    rcases Ipv6.parseIpv6_cases packet with ⟨haccepted, offset, parsed, hparse, -⟩ | ⟨hnot, hparse⟩
    · refine iff_of_false (fun hnone => ?_) (not_not_intro haccepted)
      cases hparse.symm.trans hnone
    · exact iff_of_true hparse hnot
  | false =>
    rcases Ipv4.parseIpv4_cases packet with ⟨haccepted, parsed, hparse, -⟩ | ⟨hnot, hparse⟩
    · refine iff_of_false (fun hnone => ?_) (not_not_intro haccepted)
      cases hparse.symm.trans hnone
    · exact iff_of_true hparse hnot

/-- A later fragment is left alone exactly where its bytes fail one of the parser's checks. -/
theorem laterFragment_unparsed_iff (packet : List UInt8) (isIpv6 : Bool) :
    (LaterFragment packet isIpv6 → IpPacket.parse packet isIpv6 = .ok none) ↔
      (LaterFragment packet isIpv6 → ¬ Accepted packet isIpv6) :=
  imp_congr_right fun _ => parse_eq_none_iff packet isIpv6

/-- The second fragment of a UDP packet; its payload begins with the bytes 0, 80. -/
def secondFragment : List UInt8 :=
  [0x45, 0, 0, 28, 0, 1, 0, 185, 64, 17, 0, 0, 10, 0, 0, 1, 10, 0, 0, 2]
    ++ [0, 80, 0, 53, 0, 0, 0, 0]

/-- Its payload is taken for ports. -/
theorem secondFragment_parsed :
    ¬ (LaterFragment secondFragment false → IpPacket.parse secondFragment false = .ok none) := by
  intro h
  have hparse : ∃ parsed, IpPacket.parse secondFragment false = .ok (some parsed) := ⟨_, rfl⟩
  obtain ⟨parsed, hparse⟩ := hparse
  cases hparse.symm.trans (h (show Ipv4.fragmentOffset secondFragment ≠ 0 by decide))

end FlowBrake.Windows
