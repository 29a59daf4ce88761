import FlowBrake.Windows.Packet.Fragments

/-! How far into a buffer the parser reads: what stands behind the packet does not matter, and a
part of the packet is none. -/
namespace FlowBrake.Windows
open TransportHeader

section Append
variable {packet rest : List UInt8} {i n offset totalLen : ℕ}

theorem byte_append (h : i < packet.length) : byte (packet ++ rest) i = byte packet i := by
  rw [byte, byte, List.getD_eq_getElem?_getD, List.getD_eq_getElem?_getD,
    List.getElem?_append_left h]

theorem field_append (h : i + n ≤ packet.length) :
    field (packet ++ rest) i n = field packet i n := by
  induction n with
  | zero => rfl
  | succ n ih => rw [field, field, ih (by omega), byte_append (by omega)]

theorem length_append (protocol : Protocol) (h : offset + 20 ≤ packet.length) :
    length (packet ++ rest) offset protocol = length packet offset protocol := by
  cases protocol with
  | tcp => rw [length, length, byte_append (by omega)]
  | udp => rfl

/-- Whether a transport header fits is seen before `totalLen`. -/
theorem fits_append (protocol : Protocol) (h : totalLen ≤ packet.length) :
    Fits (packet ++ rest) offset totalLen protocol ↔ Fits packet offset totalLen protocol := by
  cases protocol with
  | tcp =>
    by_cases hle : offset + 20 ≤ totalLen
    · rw [Fits, Fits, length_append .tcp (by omega)]
    · have hshort (bytes : List UInt8) : ¬ Fits bytes offset totalLen .tcp := by
        rintro ⟨htcp, hfits⟩
        have := htcp rfl
        omega
      exact iff_of_false (hshort _) (hshort _)
  | udp => exact Iff.rfl

/-- A header that fits has the same length in every buffer that goes on. -/
theorem TransportHeader.Fits.length_append {protocol : Protocol}
    (hfits : Fits packet offset totalLen protocol) (h : totalLen ≤ packet.length) :
    length (packet ++ rest) offset protocol = length packet offset protocol := by
  cases protocol with
  | tcp =>
    have := hfits.1 rfl
    have := hfits.2
    exact Windows.length_append .tcp (by omega)
  | udp => rfl

/-- Two parsers' results are the same if the same packets are accepted, with the same fields. -/
theorem parse_eq_of_cases {result result' : Except OutOfRange (Option IpPacket)} {A A' : Prop}
    {F F' : IpPacket → Prop} (h : A ∧ (∃ r, result = .ok (some r) ∧ F r) ∨ ¬ A ∧ result = .ok none)
    (h' : A' ∧ (∃ r, result' = .ok (some r) ∧ F' r) ∨ ¬ A' ∧ result' = .ok none)
    (haccepted : A' ↔ A) (hfields : ∀ r, A → F' r → F r)
    (hunique : ∀ r r', F r → F r' → r = r') : result' = result := by
  rcases h with ⟨ha, r, rfl, hr⟩ | ⟨hna, rfl⟩
  · rcases h' with ⟨-, r', rfl, hr'⟩ | ⟨hna', -⟩
    · rw [hunique r' r (hfields r' ha hr') hr]
    · exact absurd (haccepted.mpr ha) hna'
  · rcases h' with ⟨ha', -⟩ | ⟨-, rfl⟩
    · exact absurd (haccepted.mp ha') hna
    · rfl

end Append

namespace Ipv4
variable {packet : List UInt8} (rest : List UInt8)

/-- The buffer holds all of the packet, and no less than the parser looks at. -/
structure Complete (packet : List UInt8) : Prop where
  length : 24 ≤ packet.length
  totalLen_le : totalLen packet ≤ packet.length

theorem Accepted.complete (h : Accepted packet) : Complete packet := ⟨h.length, h.totalLen_le⟩

/-- The bytes of the fixed header. -/
theorem header_append (h : Complete packet) : version (packet ++ rest) = version packet ∧
    headerLen (packet ++ rest) = headerLen packet ∧ totalLen (packet ++ rest) = totalLen packet ∧
      protocol (packet ++ rest) = protocol packet := by
  have hlength := h.length
  refine ⟨?_, ?_, field_append (by omega), ?_⟩
  · rw [version, version, byte_append (by omega)]
  · rw [headerLen, headerLen, byte_append (by omega)]
  · rw [protocol, protocol, byte_append (by omega)]

theorem accepted_append (h : Complete packet) : Accepted (packet ++ rest) ↔ Accepted packet := by
  obtain ⟨hversion, hheader, htotal, hprotocol⟩ := header_append rest h
  have htransport : HasTransport (packet ++ rest) ↔ HasTransport packet := by
    simp only [HasTransport, hheader, htotal, hprotocol, fits_append _ h.totalLen_le]
  have hlength : (packet ++ rest).length = packet.length + rest.length := List.length_append
  constructor
  · intro ha
    refine ⟨h.length, hversion ▸ ha.version, ?_, h.totalLen_le, htransport.mp ha.transport⟩
    have hle := ha.headerLen_le
    rwa [hheader, htotal] at hle
  · intro ha
    refine ⟨?_, hversion.trans ha.version, ?_, ?_, htransport.mpr ha.transport⟩
    · have := h.length
      omega
    · rw [hheader, htotal]
      exact ha.headerLen_le
    · have := ha.totalLen_le
      omega

theorem fields_of_append (h : Accepted packet) {parsed : IpPacket}
    (hfields : Fields (packet ++ rest) parsed) : Fields packet parsed := by
  obtain ⟨-, hheader, htotal, hprotocol⟩ := header_append rest h.complete
  obtain ⟨p, hp, hfits⟩ := h.transport
  have hsome := hprotocol ▸ hfields.protocol
  obtain rfl : p = parsed.protocol := Option.some.inj (hp.symm.trans hsome)
  have hle := hfits.le
  have htotalLen := h.totalLen_le
  have hlength := h.length
  have hsourcePort := hfields.sourcePort
  have hdestinationPort := hfields.destinationPort
  have hpayload := hfields.payloadLen
  rw [hheader, field_append (by omega)] at hsourcePort hdestinationPort
  rw [hheader, htotal, hfits.length_append htotalLen] at hpayload
  refine ⟨?_, ?_, hsome, hsourcePort, hdestinationPort, htotal ▸ hfields.totalLen, hpayload⟩
  · rw [hfields.source, field_append (by omega)]
  · rw [hfields.destination, field_append (by omega)]

theorem Fields.unique {parsed parsed' : IpPacket} (h : Fields packet parsed)
    (h' : Fields packet parsed') : parsed = parsed' := by
  have hprotocol := Option.some.inj (h.protocol.symm.trans h'.protocol)
  have hsourcePort := UInt16.toNat_inj.mp (h.sourcePort.trans h'.sourcePort.symm)
  have hdestinationPort := UInt16.toNat_inj.mp (h.destinationPort.trans h'.destinationPort.symm)
  have hsource := h.source.trans h'.source.symm
  have hdestination := h.destination.trans h'.destination.symm
  have htotal := h.totalLen.trans h'.totalLen.symm
  have hpayload := h.payloadLen.trans (hprotocol ▸ h'.payloadLen.symm)
  cases parsed
  cases parsed'
  simp_all

/-- What stands behind a complete packet changes nothing. -/
theorem parseIpv4_append (h : Complete packet) : parseIpv4 (packet ++ rest) = parseIpv4 packet :=
  parse_eq_of_cases (parseIpv4_cases packet) (parseIpv4_cases (packet ++ rest))
    (accepted_append rest h) (fun _ ha => fields_of_append rest ha) fun _ _ => Fields.unique

theorem not_accepted_take {n : ℕ} (hn : n < totalLen packet) :
    ¬ Accepted (packet.take n) := by
  intro ha
  have htotal := (header_append (packet.drop n) ha.complete).2.2.1
  rw [List.take_append_drop] at htotal
  have hle := ha.totalLen_le
  rw [List.length_take, ← htotal] at hle
  omega

/-- The IP header, the transport header and the payload fill the packet. -/
theorem Fields.layout {parsed : IpPacket} (h : Fields packet parsed) (ha : Accepted packet) :
    Fits packet (headerLen packet) parsed.totalLen parsed.protocol ∧
      headerLen packet + TransportHeader.length packet (headerLen packet) parsed.protocol +
        parsed.payloadLen = parsed.totalLen := by
  obtain ⟨p, hp, hfits⟩ := ha.transport
  obtain rfl : p = parsed.protocol := Option.some.inj (hp.symm.trans h.protocol)
  rw [h.totalLen, h.payloadLen]
  have := hfits.2
  exact ⟨hfits, by omega⟩

end Ipv4

namespace Ipv6
variable {packet : List UInt8} (rest : List UInt8)

/-- The buffer holds all of the packet. -/
structure Complete (packet : List UInt8) : Prop where
  length : 40 ≤ packet.length
  totalLen_le : totalLen packet ≤ packet.length

theorem Accepted.complete (h : Accepted packet) : Complete packet := ⟨h.length, h.totalLen_le⟩

theorem header_append (h : Complete packet) : version (packet ++ rest) = version packet ∧
    totalLen (packet ++ rest) = totalLen packet ∧ byte (packet ++ rest) 6 = byte packet 6 := by
  have hlength := h.length
  refine ⟨?_, ?_, byte_append (by omega)⟩
  · rw [version, version, byte_append (by omega)]
  · rw [totalLen, totalLen, field_append (by omega)]

/-- The chain of headers ends before `totalLen`. -/
theorem next_append {len : UInt8 → UInt8 → Option ℕ} {totalLen : ℕ}
    (h : totalLen ≤ packet.length) :
    next len (packet ++ rest) totalLen = next len packet totalLen := by
  rw [← next_take, List.take_append_of_le_length h, next_take]

theorem hasTransport_append (h : Complete packet) (offset : ℕ) (protocol : Protocol) :
    HasTransport (packet ++ rest) offset protocol ↔ HasTransport packet offset protocol := by
  obtain ⟨-, htotal, hfirst⟩ := header_append rest h
  simp only [HasTransport, Leads, Chain, htotal, hfirst, next_append rest h.totalLen_le,
    fits_append _ h.totalLen_le]

theorem accepted_append (h : Complete packet) : Accepted (packet ++ rest) ↔ Accepted packet := by
  obtain ⟨hversion, htotal, -⟩ := header_append rest h
  have hlength : (packet ++ rest).length = packet.length + rest.length := List.length_append
  have htransport : (∃ offset protocol, HasTransport (packet ++ rest) offset protocol) ↔
      ∃ offset protocol, HasTransport packet offset protocol := by
    simp only [hasTransport_append rest h]
  constructor
  · intro ha
    exact ⟨h.length, hversion ▸ ha.version, h.totalLen_le, htransport.mp ha.transport⟩
  · intro ha
    refine ⟨?_, hversion.trans ha.version, ?_, htransport.mpr ha.transport⟩
    · have := h.length
      omega
    · have := ha.totalLen_le
      omega

/-- The chain leads to one transport header. -/
theorem HasTransport.unique (h : Complete packet) {offset offset' : ℕ}
    {protocol protocol' : Protocol} (ht : HasTransport packet offset protocol)
    (ht' : HasTransport packet offset' protocol') : offset = offset' ∧ protocol = protocol' := by
  obtain ⟨result, -, hleads⟩ := transportOffset_spec
    (show 6 < totalLen packet by unfold totalLen; omega) h.totalLen_le
  obtain ⟨type, hchain, hprotocol, -⟩ := ht
  obtain ⟨type', hchain', hprotocol', -⟩ := ht'
  have hsame := ((hleads _).mpr hchain).symm.trans ((hleads _).mpr hchain')
  rw [Option.some_inj, Prod.mk.injEq] at hsame
  obtain ⟨rfl, rfl⟩ := hsame
  exact ⟨rfl, Option.some.inj (hprotocol.symm.trans hprotocol')⟩

theorem fields_of_append (h : Complete packet) {offset : ℕ} {parsed : IpPacket}
    (hfields : Fields (packet ++ rest) offset parsed) : Fields packet offset parsed := by
  obtain ⟨-, htotal, -⟩ := header_append rest h
  have htransport := (hasTransport_append rest h _ _).mp hfields.transport
  have ⟨_, _, _, hfits⟩ := htransport
  have hle := hfits.le
  have htotalLen := h.totalLen_le
  have hlength := h.length
  have hsourcePort := hfields.sourcePort
  have hdestinationPort := hfields.destinationPort
  have hpayload := hfields.payloadLen
  rw [field_append (by omega)] at hsourcePort hdestinationPort
  rw [htotal, hfits.length_append htotalLen] at hpayload
  refine ⟨?_, ?_, htransport, hsourcePort, hdestinationPort, htotal ▸ hfields.totalLen, hpayload⟩
  · rw [hfields.source, field_append (by omega)]
  · rw [hfields.destination, field_append (by omega)]

theorem Fields.unique (hc : Complete packet) {offset offset' : ℕ} {parsed parsed' : IpPacket}
    (h : Fields packet offset parsed) (h' : Fields packet offset' parsed') : parsed = parsed' := by
  obtain ⟨rfl, hprotocol⟩ := h.transport.unique hc h'.transport
  have hsourcePort := UInt16.toNat_inj.mp (h.sourcePort.trans h'.sourcePort.symm)
  have hdestinationPort := UInt16.toNat_inj.mp (h.destinationPort.trans h'.destinationPort.symm)
  have hsource := h.source.trans h'.source.symm
  have hdestination := h.destination.trans h'.destination.symm
  have htotal := h.totalLen.trans h'.totalLen.symm
  have hpayload := h.payloadLen.trans (hprotocol ▸ h'.payloadLen.symm)
  cases parsed
  cases parsed'
  simp_all

/-- What stands behind a complete packet changes nothing. -/
theorem parseIpv6_append (h : Complete packet) : parseIpv6 (packet ++ rest) = parseIpv6 packet := by
  have hcases (bytes : List UInt8) : Accepted bytes ∧ (∃ r, parseIpv6 bytes = .ok (some r) ∧
      ∃ offset, Fields bytes offset r) ∨ ¬ Accepted bytes ∧ parseIpv6 bytes = .ok none := by
    refine (parseIpv6_cases bytes).imp_left fun ⟨ha, offset, r, hr, hfields⟩ => ?_
    exact ⟨ha, r, hr, offset, hfields⟩
  refine parse_eq_of_cases (hcases packet) (hcases (packet ++ rest)) (accepted_append rest h)
    (fun r _ => ?_) fun r r' => ?_
  · rintro ⟨offset, hfields⟩
    exact ⟨offset, fields_of_append rest h hfields⟩
  · rintro ⟨offset, hfields⟩ ⟨offset', hfields'⟩
    exact hfields.unique h hfields'

theorem not_accepted_take {n : ℕ} (hn : n < totalLen packet) :
    ¬ Accepted (packet.take n) := by
  intro ha
  have htotal := (header_append (packet.drop n) ha.complete).2.1
  rw [List.take_append_drop] at htotal
  have hle := ha.totalLen_le
  rw [List.length_take, ← htotal] at hle
  omega

/-- The walk ends at the transport header, which the payload fills up to the packet's end. -/
theorem Fields.layout {offset : ℕ} {parsed : IpPacket} (h : Fields packet offset parsed)
    (ha : Accepted packet) :
    (∃ type, ipv6TransportOffset packet parsed.totalLen = .ok (some (offset, type))) ∧
      Fits packet offset parsed.totalLen parsed.protocol ∧
        offset + TransportHeader.length packet offset parsed.protocol + parsed.payloadLen =
          parsed.totalLen := by
  obtain ⟨type, hleads, -, hfits⟩ := h.transport
  obtain ⟨result, hresult, hspec⟩ := transportOffset_spec
    (show 6 < Ipv6.totalLen packet by unfold Ipv6.totalLen; omega) ha.totalLen_le
  rw [(hspec _).mpr hleads] at hresult
  rw [h.totalLen, h.payloadLen]
  have := hfits.2
  exact ⟨⟨type, hresult⟩, hfits, by omega⟩

end Ipv6

/-- Where the parser looks for the transport header. -/
def TransportAt (packet : List UInt8) (isIpv6 : Bool) (totalLen offset : ℕ) : Prop :=
  if isIpv6 then ∃ type, ipv6TransportOffset packet totalLen = .ok (some (offset, type))
  else offset = Ipv4.headerLen packet

/-- The buffer holds all of the packet that its header announces. -/
def Complete (packet : List UInt8) (isIpv6 : Bool) : Prop :=
  if isIpv6 then Ipv6.Complete packet else Ipv4.Complete packet

/-- The parsed packet is a stretch of the buffer from its start, filled by the headers and the
payload; the parser finds it in every longer buffer and in no part of it. -/
structure Extent (packet : List UInt8) (isIpv6 : Bool) (parsed : IpPacket) : Prop where
  totalLen_le : parsed.totalLen ≤ packet.length
  layout : ∃ offset headerLen, TransportAt packet isIpv6 parsed.totalLen offset ∧
    transportHeaderLen parsed.protocol packet offset parsed.totalLen = .ok (some headerLen) ∧
      offset + headerLen + parsed.payloadLen = parsed.totalLen
  append : ∀ rest, IpPacket.parse (packet ++ rest) isIpv6 = .ok (some parsed)
  take : ∀ n < parsed.totalLen, IpPacket.parse (packet.take n) isIpv6 = .ok none

theorem parse_append {packet : List UInt8} {isIpv6 : Bool} (h : Complete packet isIpv6)
    (rest : List UInt8) :
    IpPacket.parse (packet ++ rest) isIpv6 = IpPacket.parse packet isIpv6 := by
  cases isIpv6 with
  | true => exact Ipv6.parseIpv6_append rest h
  | false => exact Ipv4.parseIpv4_append rest h

theorem Ipv4.extent {packet : List UInt8} {parsed : IpPacket} (ha : Accepted packet)
    (hparse : parseIpv4 packet = .ok (some parsed)) (h : Fields packet parsed) :
    Extent packet false parsed := by
  obtain ⟨hfits, hlayout⟩ := h.layout ha
  have hle : parsed.totalLen ≤ packet.length := h.totalLen ▸ ha.totalLen_le
  refine ⟨hle, ⟨_, _, rfl, ?_, hlayout⟩, fun rest => ?_, fun n hn => ?_⟩
  · rw [transportHeaderLen_eq _ hle, if_pos hfits]
  · exact (parseIpv4_append rest ha.complete).trans hparse
  · exact (parse_eq_none_iff _ false).mpr (not_accepted_take (h.totalLen ▸ hn))

theorem Ipv6.extent {packet : List UInt8} {offset : ℕ} {parsed : IpPacket} (ha : Accepted packet)
    (hparse : parseIpv6 packet = .ok (some parsed)) (h : Fields packet offset parsed) :
    Extent packet true parsed := by
  obtain ⟨hwalk, hfits, hlayout⟩ := h.layout ha
  have hle : parsed.totalLen ≤ packet.length := h.totalLen ▸ ha.totalLen_le
  refine ⟨hle, ⟨_, _, hwalk, ?_, hlayout⟩, fun rest => ?_, fun n hn => ?_⟩
  · rw [transportHeaderLen_eq _ hle, if_pos hfits]
  · exact (parseIpv6_append rest ha.complete).trans hparse
  · exact (parse_eq_none_iff _ true).mpr (not_accepted_take (h.totalLen ▸ hn))

/-- On every buffer the parser stays in range; a packet that it returns has its extent, and what
is appended to a complete packet, well-formed or not, changes nothing. -/
theorem parse_extent (packet : List UInt8) (isIpv6 : Bool) :
    ∃ result, IpPacket.parse packet isIpv6 = .ok result ∧
      (∀ parsed, result = some parsed → Extent packet isIpv6 parsed) ∧
      (Complete packet isIpv6 →
        ∀ rest, IpPacket.parse (packet ++ rest) isIpv6 = .ok result) := by
  obtain ⟨result, hresult, hextent⟩ : ∃ result, IpPacket.parse packet isIpv6 = .ok result ∧
      ∀ parsed, result = some parsed → Extent packet isIpv6 parsed := by
    cases isIpv6 with
    | true =>
      rcases Ipv6.parseIpv6_cases packet with ⟨ha, offset, parsed, hparse, hfields⟩ | ⟨-, hparse⟩
      · refine ⟨_, hparse, fun other hother => ?_⟩
        cases hother
        exact Ipv6.extent ha hparse hfields
      · exact ⟨_, hparse, by simp⟩
    | false =>
      rcases Ipv4.parseIpv4_cases packet with ⟨ha, parsed, hparse, hfields⟩ | ⟨-, hparse⟩
      · refine ⟨_, hparse, fun other hother => ?_⟩
        cases hother
        exact Ipv4.extent ha hparse hfields
      · exact ⟨_, hparse, by simp⟩
  exact ⟨result, hresult, hextent,
    fun hcomplete rest => (parse_append hcomplete rest).trans hresult⟩

section PayloadLen
variable {packet : List UInt8}

theorem field_lt (packet : List UInt8) (i n : ℕ) : field packet i n < 256 ^ n := by
  induction n with
  | zero => exact Nat.zero_lt_one
  | succ n ih =>
    have hbyte := (byte packet (i + n)).toNat_lt
    rw [field, pow_succ]
    omega

/-- The chain of headers goes on towards the end of the packet. -/
theorem Ipv6.Chain.le {len : UInt8 → UInt8 → Option ℕ} {totalLen : ℕ}
    {header header' : ℕ × UInt8} (h : Chain len packet totalLen header header') :
    header.1 ≤ header'.1 := by
  induction h with
  | refl => exact le_refl _
  | tail _ hnext ih =>
    obtain ⟨-, n, -, rfl⟩ := next_eq_some.mp hnext
    exact ih.trans (Nat.le_add_right _ _)

/-- The payload of a packet is shorter than 64 KiB. -/
theorem payloadLen_lt {isIpv6 : Bool} {parsed : IpPacket}
    (h : IpPacket.parse packet isIpv6 = .ok (some parsed)) : parsed.payloadLen < 2 ^ 16 := by
  cases isIpv6 with
  | true =>
    rcases Ipv6.parseIpv6_cases packet with ⟨-, offset, _, hparse, hfields⟩ | ⟨-, hparse⟩
    · cases hparse.symm.trans h
      obtain ⟨type, hleads, -⟩ := hfields.transport
      have hoffset : 40 ≤ offset := hleads.1.le
      have hfield := field_lt packet 4 2
      rw [hfields.payloadLen, Ipv6.totalLen]
      omega
    · cases hparse.symm.trans h
  | false =>
    rcases Ipv4.parseIpv4_cases packet with ⟨-, _, hparse, hfields⟩ | ⟨-, hparse⟩
    · cases hparse.symm.trans h
      have hfield := field_lt packet 2 2
      rw [hfields.payloadLen, Ipv4.totalLen]
      omega
    · cases hparse.symm.trans h

end PayloadLen

end FlowBrake.Windows
