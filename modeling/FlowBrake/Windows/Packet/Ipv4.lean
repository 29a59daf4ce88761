import FlowBrake.Windows.Packet.Header

/-! Which IPv4 packets the parser accepts, and what it reads from them. -/
namespace FlowBrake.Windows

namespace Ipv4
open TransportHeader
variable (packet : List UInt8)

def version : ℕ := (byte packet 0).toNat / 16

def headerLen : ℕ := (byte packet 0).toNat % 16 * 4

def totalLen : ℕ := field packet 2 2

def fragmentOffset : ℕ := field packet 6 2 % 2 ^ 13

def protocol : Option Protocol := Protocol.ofNumber (byte packet 9)

/-- A complete TCP or UDP header inside the packet. -/
def HasTransport : Prop :=
  ∃ p, protocol packet = some p ∧ Fits packet (headerLen packet) (totalLen packet) p

/-- A complete IPv4 header with a complete TCP or UDP header behind it. -/
structure WellFormed : Prop where
  version : version packet = 4
  headerLen : 20 ≤ headerLen packet
  headerLen_le : Ipv4.headerLen packet ≤ totalLen packet
  totalLen_le : totalLen packet ≤ packet.length
  transport : HasTransport packet

/-- The checks of the parser. -/
structure Accepted : Prop where
  length : 24 ≤ packet.length
  version : version packet = 4
  headerLen_le : headerLen packet ≤ totalLen packet
  totalLen_le : totalLen packet ≤ packet.length
  transport : HasTransport packet

/-- The fields of the packet's headers. -/
structure Fields (parsed : IpPacket) : Prop where
  source : parsed.source = .v4 (.ofNat 32 (field packet 12 4))
  destination : parsed.destination = .v4 (.ofNat 32 (field packet 16 4))
  protocol : protocol packet = some parsed.protocol
  sourcePort : parsed.sourcePort.toNat = field packet (headerLen packet) 2
  destinationPort : parsed.destinationPort.toNat = field packet (headerLen packet + 2) 2
  totalLen : parsed.totalLen = totalLen packet
  payloadLen : parsed.payloadLen =
    Ipv4.totalLen packet - (headerLen packet + length packet (headerLen packet) parsed.protocol)

variable {packet}

theorem accepted_of_wellFormed (h : WellFormed packet) : Accepted packet where
  length := by
    obtain ⟨protocol, -, hfits⟩ := h.transport
    have := hfits.le
    have := h.headerLen
    have := h.totalLen_le
    omega
  version := h.version
  headerLen_le := h.headerLen_le
  totalLen_le := h.totalLen_le
  transport := h.transport

theorem version_eq : ((byte packet 0) >>> 4 != 4) = false ↔ version packet = 4 := by
  rw [bne_eq_false_iff_eq, ← UInt8.toNat_inj, version, UInt8.toNat_shiftRight,
    Nat.shiftRight_eq_div_pow]
  rfl

theorem headerLen_eq : ((byte packet 0) &&& 0x0f).toNat * 4 = headerLen packet := by
  have hmask := Nat.and_two_pow_sub_one_eq_mod (byte packet 0).toNat 4
  rw [headerLen, UInt8.toNat_and]
  exact congrArg (· * 4) hmask

theorem totalLen_eq (h : 24 ≤ packet.length) :
    ∃ word, u16At packet 2 = .ok word ∧ word.toNat = totalLen packet :=
  u16At_eq (by omega)

/-- The parser returns the fields of the packets that pass its checks, and nothing else. -/
theorem parseIpv4_cases (packet : List UInt8) :
    Accepted packet ∧ (∃ parsed, parseIpv4 packet = .ok (some parsed) ∧ Fields packet parsed) ∨
      ¬ Accepted packet ∧ parseIpv4 packet = .ok none := by
  by_cases hlen : packet.length < 24
  · refine .inr ⟨fun h => absurd h.length (not_le.mpr hlen), ?_⟩
    simp only [parseIpv4, if_pos hlen, pure, Except.pure]
  have hbyte (i : ℕ) (hi : i < 24) : byteAt packet i = .ok (byte packet i) :=
    byteAt_eq (by omega)
  obtain ⟨total, htotal, hvalue⟩ := totalLen_eq (not_lt.mp hlen)
  obtain ⟨result, hresult⟩ : ∃ result, parseIpv4 packet = result := ⟨_, rfl⟩
  rw [hresult]
  simp only [parseIpv4, if_neg hlen, hbyte 0 (by omega), hbyte 9 (by omega), htotal, hvalue,
    headerLen_eq, bind, Except.bind, pure, Except.pure] at hresult
  split at hresult
  · next hversion =>
    refine .inr ⟨fun h => ?_, hresult.symm⟩
    rw [version_eq.mpr h.version] at hversion
    cases hversion
  next hversion =>
  have hversion := version_eq.mp (by simpa using hversion)
  split at hresult
  · next hshort =>
    refine .inr ⟨fun h => ?_, hresult.symm⟩
    obtain ⟨protocol, -, hfits⟩ := h.transport
    have := hfits.le
    have := h.totalLen_le
    omega
  next hports =>
  split at hresult
  · next hbounds =>
    refine .inr ⟨fun h => ?_, hresult.symm⟩
    have := h.headerLen_le
    have := h.totalLen_le
    simp at hbounds
    omega
  next hbounds =>
  simp only [Bool.or_eq_true, decide_eq_true_eq, not_or, not_lt] at hbounds
  cases hprotocol : Protocol.ofNumber (byte packet 9) with
  | none =>
    rw [hprotocol] at hresult
    refine .inr ⟨fun h => ?_, hresult.symm⟩
    obtain ⟨protocol, hsome, -⟩ := h.transport
    cases hprotocol.symm.trans hsome
  | some protocol =>
    obtain ⟨sourcePort, hsource, hsourceValue⟩ :=
      u16At_eq (show headerLen packet + 2 ≤ packet.length by omega)
    obtain ⟨destinationPort, hdestination, hdestinationValue⟩ :=
      u16At_eq (show headerLen packet + 2 + 2 ≤ packet.length by omega)
    simp only [hprotocol, hsource, hdestination, transportHeaderLen_eq protocol hbounds.2,
      bitsAt_eq (show 12 + 4 ≤ packet.length by omega),
      bitsAt_eq (show 16 + 4 ≤ packet.length by omega)] at hresult
    by_cases hfits : Fits packet (headerLen packet) (totalLen packet) protocol
    · rw [if_pos hfits] at hresult
      left
      refine ⟨⟨not_lt.mp hlen, hversion, hbounds.1, hbounds.2, protocol, hprotocol, hfits⟩, _,
        hresult.symm, ?_⟩
      exact ⟨rfl, rfl, hprotocol, hsourceValue, hdestinationValue, rfl, rfl⟩
    · rw [if_neg hfits] at hresult
      refine .inr ⟨fun h => ?_, hresult.symm⟩
      obtain ⟨other, hother, hfits'⟩ := h.transport
      cases hprotocol.symm.trans hother
      exact hfits hfits'

/-- The parser accepts exactly a well-formed packet, returns its fields, and takes no ports from
the fixed part of the IP header. -/
structure Exact (packet : List UInt8) : Prop where
  accepts : (∃ parsed, parseIpv4 packet = .ok (some parsed)) ↔ WellFormed packet
  fields : ∀ parsed, parseIpv4 packet = .ok (some parsed) →
    Fields packet parsed ∧ 20 ≤ headerLen packet

/-- The parser errs exactly on the packets with a short IP header that pass its other checks. -/
theorem exact_iff (packet : List UInt8) :
    Exact packet ↔ 20 ≤ headerLen packet ∨ ¬ Accepted packet := by
  rcases parseIpv4_cases packet with ⟨haccepted, parsed, hparse, hfields⟩ | ⟨hnot, hparse⟩
  · constructor
    · intro h
      exact .inl (h.fields parsed hparse).2
    · intro h
      have hlen := h.resolve_right (not_not_intro haccepted)
      refine ⟨⟨fun _ => ?_, fun _ => ⟨parsed, hparse⟩⟩, fun other hother => ?_⟩
      · exact ⟨haccepted.version, hlen, haccepted.headerLen_le, haccepted.totalLen_le,
          haccepted.transport⟩
      · cases hparse.symm.trans hother
        exact ⟨hfields, hlen⟩
  · refine ⟨fun _ => .inr hnot, fun _ => ⟨⟨?_, ?_⟩, ?_⟩⟩
    · rintro ⟨parsed, hsome⟩
      cases hparse.symm.trans hsome
    · exact fun h => absurd (accepted_of_wellFormed h) hnot
    · intro parsed hsome
      cases hparse.symm.trans hsome

/-- A UDP packet from 10.0.0.1 to 10.0.0.2 that states an IP header of 16 bytes. -/
def shortHeaderPacket : List UInt8 :=
  [0x44, 0, 0, 24, 0, 0, 0, 0, 64, 17, 0, 0, 10, 0, 0, 1, 10, 0, 0, 2, 0, 8, 0, 0]

/-- Its destination address is taken for the ports. -/
theorem not_exact_shortHeaderPacket :
    fragmentOffset shortHeaderPacket = 0 ∧ ¬ Exact shortHeaderPacket := by
  refine ⟨by decide, fun h => ?_⟩
  have hparse : ∃ parsed, parseIpv4 shortHeaderPacket = .ok (some parsed) := ⟨_, rfl⟩
  exact absurd (h.accepts.mp hparse).headerLen (by decide)

end Ipv4

end FlowBrake.Windows
