import Mathlib.Logic.Relation
import FlowBrake.Windows.Packet.Header

/-! The walk over the IPv6 extension headers and the chain of headers that it is to follow. -/
namespace FlowBrake.Windows

namespace Ipv6
open Relation

/-- The length of an extension header of the given type, from its length byte. -/
def rfcLen (type len : UInt8) : Option ℕ :=
  if type = 0 ∨ type = 43 ∨ type = 60 then some ((len.toNat + 1) * 8)
  else if type = 51 then some ((len.toNat + 2) * 4)
  else if type = 44 then some 8
  else none

/-- The length for which the parser takes it. -/
def codeLen (type len : UInt8) : Option ℕ :=
  if type = 0 ∨ type = 43 ∨ type = 44 ∨ type = 60 then some ((len.toNat + 1) * 8)
  else if type = 51 then some ((len.toNat + 2) * 4)
  else none

variable (len : UInt8 → UInt8 → Option ℕ) (packet : List UInt8) (totalLen : ℕ)

/-- The header behind the extension header `at`, given as its offset and type. -/
def next (header : ℕ × UInt8) : Option (ℕ × UInt8) :=
  if header.1 + 8 ≤ totalLen then
    (len header.2 (byte packet (header.1 + 1))).map fun n => (header.1 + n, byte packet header.1)
  else none

/-- The headers from one on. -/
def Chain : ℕ × UInt8 → ℕ × UInt8 → Prop :=
  ReflTransGen fun header header' => header' ∈ next len packet totalLen header

/-- The chain of headers from one on leads to a TCP or UDP header. -/
def Leads (header transport : ℕ × UInt8) : Prop :=
  Chain len packet totalLen header transport ∧ (transport.2 = 6 ∨ transport.2 = 17)

variable {len packet totalLen}

theorem next_eq_some {header header' : ℕ × UInt8} :
    next len packet totalLen header = some header' ↔ header.1 + 8 ≤ totalLen ∧
      ∃ n, len header.2 (byte packet (header.1 + 1)) = some n ∧
        header' = (header.1 + n, byte packet header.1) := by
  unfold next
  split
  · next hle => simp [hle, eq_comm]
  · next hle => simp [hle]

/-- No header follows a transport header. -/
theorem next_transport {offset : ℕ} {type : UInt8} (hlen : ∀ b, len 6 b = none ∧ len 17 b = none)
    (h : type = 6 ∨ type = 17) : next len packet totalLen (offset, type) = none := by
  unfold next
  rcases h with rfl | rfl <;> simp [hlen]

theorem codeLen_transport (b : UInt8) : codeLen 6 b = none ∧ codeLen 17 b = none := ⟨rfl, rfl⟩

theorem rfcLen_transport (b : UInt8) : rfcLen 6 b = none ∧ rfcLen 17 b = none := ⟨rfl, rfl⟩

/-- A header leads to what the next one leads to. -/
theorem leads_of_next {header header' transport : ℕ × UInt8}
    (hlen : ∀ b, len 6 b = none ∧ len 17 b = none)
    (h : next len packet totalLen header = some header') :
    Leads len packet totalLen header transport ↔ Leads len packet totalLen header' transport := by
  constructor
  · rintro ⟨hchain, htype⟩
    refine ⟨?_, htype⟩
    rcases hchain.cases_head with rfl | ⟨other, hother, hrest⟩
    · obtain ⟨offset, type⟩ := header
      rw [next_transport hlen htype] at h
      cases h
    · cases h.symm.trans hother
      exact hrest
  · rintro ⟨hchain, htype⟩
    exact ⟨.head h hchain, htype⟩

/-- Where no header follows, only a transport header leads to one, to itself. -/
theorem leads_of_end {header transport : ℕ × UInt8} (h : next len packet totalLen header = none) :
    Leads len packet totalLen header transport ↔
      transport = header ∧ (header.2 = 6 ∨ header.2 = 17) := by
  constructor
  · rintro ⟨hchain, htype⟩
    rcases hchain.cases_head with rfl | ⟨other, hother, -⟩
    · exact ⟨rfl, htype⟩
    · cases h.symm.trans hother
  · rintro ⟨rfl, htype⟩
    exact ⟨.refl, htype⟩

variable (packet totalLen) in
/-- What holds of a header whenever it holds of the next one holds of every header. -/
theorem next_induction {motive : ℕ × UInt8 → Prop}
    (hpos : ∀ type b n, len type b = some n → 0 < n)
    (h : ∀ header, (∀ header' ∈ next len packet totalLen header, motive header') → motive header)
    (header : ℕ × UInt8) : motive header := by
  induction hleft : totalLen - header.1 using Nat.strong_induction_on generalizing header with
  | _ left ih =>
    refine h header fun header' hnext => ?_
    obtain ⟨hle, n, hn, rfl⟩ := next_eq_some.mp hnext
    have := hpos _ _ _ hn
    exact ih _ (by dsimp only; omega) _ rfl

theorem codeLen_pos (type b : UInt8) (n : ℕ) (h : codeLen type b = some n) : 0 < n := by
  unfold codeLen at h
  split_ifs at h <;> cases h <;> omega

theorem rfcLen_pos (type b : UInt8) (n : ℕ) (h : rfcLen type b = some n) : 0 < n := by
  unfold rfcLen at h
  split_ifs at h <;> cases h <;> omega

/-- A step of the walk goes to the next header. -/
theorem transportOffsetFrom_eq (h : totalLen ≤ packet.length) (offset : ℕ) (type : UInt8) :
    ipv6TransportOffsetFrom packet totalLen offset type =
      if type = 6 ∨ type = 17 then .ok (some (offset, type))
      else
        match next codeLen packet totalLen (offset, type) with
        | some (offset', type') => ipv6TransportOffsetFrom packet totalLen offset' type'
        | none => .ok none := by
  rw [ipv6TransportOffsetFrom]
  by_cases hle : offset + 8 ≤ totalLen
  · simp only [next, codeLen, if_pos hle, if_neg (not_lt.mpr hle),
      byteAt_eq (show offset < packet.length by omega),
      byteAt_eq (show offset + 1 < packet.length by omega)]
    split_ifs <;> rfl
  · simp only [next, if_neg hle, if_pos (not_le.mp hle)]
    split_ifs <;> rfl

/-- The walk ends, and ends where the chain of headers, as the parser measures them, leads. -/
theorem transportOffsetFrom_spec (h : totalLen ≤ packet.length) (header : ℕ × UInt8) :
    ∃ result, ipv6TransportOffsetFrom packet totalLen header.1 header.2 = .ok result ∧
      ∀ transport, result = some transport ↔ Leads codeLen packet totalLen header transport := by
  induction header using next_induction packet totalLen codeLen_pos with
  | _ header ih =>
    rw [transportOffsetFrom_eq h]
    by_cases htype : header.2 = 6 ∨ header.2 = 17
    · rw [if_pos htype]
      refine ⟨_, rfl, fun transport => ?_⟩
      rw [leads_of_end (next_transport codeLen_transport htype), Option.some_inj]
      exact ⟨fun he => ⟨he.symm, htype⟩, fun he => he.1.symm⟩
    · rw [if_neg htype]
      cases hnext : next codeLen packet totalLen header with
      | none =>
        refine ⟨_, rfl, fun transport => ?_⟩
        rw [leads_of_end hnext]
        simp [htype]
      | some header' =>
        obtain ⟨result, hresult, hleads⟩ := ih header' hnext
        refine ⟨result, hresult, fun transport => ?_⟩
        rw [hleads, leads_of_next codeLen_transport hnext]

/-- The walk from the first header behind the fixed one. -/
theorem transportOffset_spec (hmin : 6 < totalLen) (hmax : totalLen ≤ packet.length) :
    ∃ result, ipv6TransportOffset packet totalLen = .ok result ∧ ∀ transport,
      result = some transport ↔ Leads codeLen packet totalLen (40, byte packet 6) transport := by
  obtain ⟨result, hresult, hleads⟩ := transportOffsetFrom_spec hmax (40, byte packet 6)
  refine ⟨result, ?_, hleads⟩
  rw [ipv6TransportOffset, byteAt_eq (by omega)]
  exact hresult

theorem byte_take {i : ℕ} (h : i < totalLen) : byte (packet.take totalLen) i = byte packet i := by
  rw [byte, byte, List.getD_eq_getElem?_getD, List.getD_eq_getElem?_getD,
    List.getElem?_take_of_lt h]

/-- The chain of headers does not depend on what comes behind `totalLen`. -/
theorem next_take : next len (packet.take totalLen) totalLen = next len packet totalLen := by
  funext header
  unfold next
  split
  · next hle => rw [byte_take (by omega), byte_take (by omega)]
  · rfl

/-- The walk reads nothing at or behind `totalLen`. -/
theorem transportOffset_take (hmin : 6 < totalLen) (hmax : totalLen ≤ packet.length) :
    ipv6TransportOffset (packet.take totalLen) totalLen = ipv6TransportOffset packet totalLen := by
  obtain ⟨result, hresult, hleads⟩ := transportOffset_spec hmin hmax
  obtain ⟨result', hresult', hleads'⟩ := transportOffset_spec hmin
    (show totalLen ≤ (packet.take totalLen).length by rw [List.length_take]; omega)
  rw [hresult, hresult']
  have hsame (transport : ℕ × UInt8) : result' = some transport ↔ result = some transport := by
    rw [hleads, hleads', Leads, Leads, Chain, Chain, next_take, byte_take hmin]
  congr 1
  exact Option.ext hsame

/-- The lengths on which the parser and the header layouts agree: the reserved byte of a Fragment
header is zero. -/
def plainLen (type len : UInt8) : Option ℕ := if type = 44 ∧ len ≠ 0 then none else rfcLen type len

theorem plainLen_eq {type b : UInt8} (h : ¬ (type = 44 ∧ b ≠ 0)) :
    plainLen type b = rfcLen type b ∧ codeLen type b = rfcLen type b := by
  refine ⟨if_neg h, ?_⟩
  unfold codeLen rfcLen
  by_cases htype : type = 44
  · subst htype
    have hb : b = 0 := by simpa using h
    subst hb
    rfl
  · simp [htype]

variable (packet totalLen) in
/-- The first Fragment header from `header` on whose reserved byte is not zero is at `fragment`. -/
def FirstReserved (header : ℕ × UInt8) (fragment : ℕ) : Prop :=
  Chain plainLen packet totalLen header (fragment, 44) ∧ fragment + 8 ≤ totalLen ∧
    byte packet (fragment + 1) ≠ 0

variable (packet totalLen) in
/-- From a Fragment header at `fragment` on, the parser's length and the right one lead to the same
transport header, or both to none. -/
def SameEnd (fragment : ℕ) : Prop :=
  ∀ transport,
    Leads codeLen packet totalLen
        (fragment + ((byte packet (fragment + 1)).toNat + 1) * 8, byte packet fragment) transport ↔
      Leads rfcLen packet totalLen (fragment + 8, byte packet fragment) transport

theorem firstReserved_of_next {header header' : ℕ × UInt8} {fragment : ℕ}
    (hplain : ¬ (header.2 = 44 ∧ byte packet (header.1 + 1) ≠ 0))
    (h : next plainLen packet totalLen header = some header') :
    FirstReserved packet totalLen header fragment ↔
      FirstReserved packet totalLen header' fragment := by
  constructor
  · rintro ⟨hchain, hle, hreserved⟩
    rcases hchain.cases_head with rfl | ⟨other, hother, hrest⟩
    · exact absurd ⟨rfl, hreserved⟩ hplain
    · cases h.symm.trans hother
      exact ⟨hrest, hle, hreserved⟩
  · rintro ⟨hchain, hrest⟩
    exact ⟨.head h hchain, hrest⟩

/-- Where the lengths agree on no further header, no other Fragment header comes first. -/
theorem firstReserved_of_end {header : ℕ × UInt8} {fragment : ℕ}
    (h : next plainLen packet totalLen header = none) :
    FirstReserved packet totalLen header fragment ↔
      header = (fragment, 44) ∧ fragment + 8 ≤ totalLen ∧ byte packet (fragment + 1) ≠ 0 := by
  refine ⟨fun hfirst => ⟨?_, hfirst.2⟩, fun hfirst => ⟨hfirst.1 ▸ .refl, hfirst.2⟩⟩
  rcases hfirst.1.cases_head with heq | ⟨other, hother, -⟩
  · exact heq
  · cases h.symm.trans hother

/-- The two ways to measure Fragment headers differ only from the first reserved byte on. -/
theorem leads_iff_leads_iff (header : ℕ × UInt8) :
    (∀ transport, Leads codeLen packet totalLen header transport ↔
        Leads rfcLen packet totalLen header transport) ↔
      ∀ fragment, FirstReserved packet totalLen header fragment →
        SameEnd packet totalLen fragment := by
  induction header using next_induction packet totalLen rfcLen_pos with
  | _ header ih =>
    by_cases hplain : header.2 = 44 ∧ byte packet (header.1 + 1) ≠ 0
    · obtain ⟨offset, type⟩ := header
      obtain ⟨rfl, hreserved⟩ := hplain
      have hend : next plainLen packet totalLen (offset, 44) = none := by
        simp [next, plainLen, hreserved]
      simp only [firstReserved_of_end hend, Prod.mk.injEq, and_true]
      by_cases hle : offset + 8 ≤ totalLen
      · have hcode : next codeLen packet totalLen (offset, 44) =
            some (offset + ((byte packet (offset + 1)).toNat + 1) * 8, byte packet offset) := by
          simp [next, hle, codeLen]
        have hrfc : next rfcLen packet totalLen (offset, 44) =
            some (offset + 8, byte packet offset) := by
          simp [next, hle, rfcLen]
        simp only [leads_of_next codeLen_transport hcode, leads_of_next rfcLen_transport hrfc]
        constructor
        · rintro h fragment ⟨rfl, -⟩
          exact h
        · intro h
          exact h offset ⟨rfl, hle, hreserved⟩
      · have hcode : next codeLen packet totalLen (offset, 44) = none := if_neg hle
        have hrfc : next rfcLen packet totalLen (offset, 44) = none := if_neg hle
        simp only [leads_of_end hcode, leads_of_end hrfc, implies_true, true_iff]
        rintro fragment ⟨rfl, hle', -⟩
        exact absurd hle' hle
    · obtain ⟨hplainLen, hcodeLen⟩ := plainLen_eq hplain
      have hnext : next codeLen packet totalLen header = next rfcLen packet totalLen header ∧
          next plainLen packet totalLen header = next rfcLen packet totalLen header := by
        simp only [next, hplainLen, hcodeLen, and_self]
      cases hrfc : next rfcLen packet totalLen header with
      | none =>
        rw [hrfc] at hnext
        simp only [leads_of_end hnext.1, leads_of_end hrfc, firstReserved_of_end hnext.2,
          implies_true, true_iff]
        rintro fragment ⟨rfl, -, hreserved⟩
        exact absurd ⟨rfl, hreserved⟩ hplain
      | some header' =>
        rw [hrfc] at hnext
        simp only [leads_of_next codeLen_transport hnext.1, leads_of_next rfcLen_transport hrfc,
          firstReserved_of_next hplain hnext.2]
        exact ih header' hrfc

/-- The walk ends, reads nothing at or behind `totalLen`, and returns exactly the transport header
to which the chain of headers leads. -/
structure WalkExact (packet : List UInt8) (totalLen : ℕ) : Prop where
  bounded : ∃ result, ipv6TransportOffset packet totalLen = .ok result ∧
    ipv6TransportOffset (packet.take totalLen) totalLen = .ok result
  leads : ∀ transport, ipv6TransportOffset packet totalLen = .ok (some transport) ↔
    Leads rfcLen packet totalLen (40, byte packet 6) transport

/-- The walk begins with a read of byte 6. -/
theorem not_walkExact_of_short (h : totalLen ≤ 6) : ¬ WalkExact packet totalLen := by
  intro hexact
  obtain ⟨result, -, htake⟩ := hexact.bounded
  have hlength : (packet.take totalLen).length ≤ 6 := by
    rw [List.length_take]
    exact (Nat.min_le_left _ _).trans h
  rw [ipv6TransportOffset, byteAt_eq_error hlength] at htake
  cases htake

/-- The walk is right of a packet with byte 6, unless the first reserved byte of a Fragment header
leads it astray. -/
theorem walkExact_iff (hmax : totalLen ≤ packet.length) :
    WalkExact packet totalLen ↔ 6 < totalLen ∧
      ∀ fragment, FirstReserved packet totalLen (40, byte packet 6) fragment →
        SameEnd packet totalLen fragment := by
  by_cases hmin : 6 < totalLen
  · obtain ⟨result, hresult, hleads⟩ := transportOffset_spec hmin hmax
    have htake := (transportOffset_take hmin hmax).trans hresult
    rw [← leads_iff_leads_iff, and_iff_right hmin]
    constructor
    · intro h transport
      rw [← hleads, ← h.leads, hresult]
      simp
    · intro h
      refine ⟨⟨result, hresult, htake⟩, fun transport => ?_⟩
      rw [← h, ← hleads, hresult]
      simp
  · exact iff_of_false (not_walkExact_of_short (not_lt.mp hmin)) fun h => hmin h.1

/-- A UDP packet with a Hop-by-Hop Options header. -/
def extensionPacket : List UInt8 :=
  [0x60, 0, 0, 0, 0, 16, 0, 64] ++ List.replicate 32 0 ++ [17, 0, 0, 0, 0, 0, 0, 0]
    ++ [8, 174, 0, 53, 0, 8, 0, 0]

theorem walkExact_extensionPacket : WalkExact extensionPacket 56 := by
  refine (walkExact_iff (by decide)).mpr ⟨by decide, fun fragment h => ?_⟩
  have hnext : next plainLen extensionPacket 56 (40, 0) = some (48, 17) := by decide
  have hend : next plainLen extensionPacket 56 (48, 17) = none := by decide
  obtain ⟨heq, -⟩ :=
    (firstReserved_of_end hend).mp ((firstReserved_of_next (by decide) hnext).mp h)
  cases heq

/-- A UDP packet behind a Fragment header with the reserved byte 1. -/
def reservedPacket : List UInt8 :=
  [0x60, 0, 0, 0, 0, 16, 44, 64] ++ List.replicate 32 0 ++ [17, 1, 0, 0, 0, 0, 0, 0]
    ++ [8, 174, 0, 53, 0, 8, 0, 0]

/-- The walk ends at offset 56, eight bytes behind the UDP header. -/
theorem not_walkExact_reservedPacket : ¬ WalkExact reservedPacket 56 := by
  intro h
  obtain ⟨result, hresult, hleads⟩ :=
    transportOffset_spec (show 6 < 56 by decide) (show 56 ≤ reservedPacket.length by decide)
  have hcode : next codeLen reservedPacket 56 (40, 44) = some (56, 17) := by decide
  have hrfc : next rfcLen reservedPacket 56 (40, 44) = some (48, 17) := by decide
  obtain rfl := (hleads (56, 17)).mpr ⟨.single hcode, .inr rfl⟩
  have hastray := (leads_of_next rfcLen_transport hrfc).mp ((h.leads (56, 17)).mp hresult)
  obtain ⟨heq, -⟩ := (leads_of_end (by decide)).mp hastray
  cases heq

end Ipv6

end FlowBrake.Windows
