import FlowBrake.Windows.Packet

/-! The header fields of a packet, and the parser's accesses as reads of such fields. -/
namespace FlowBrake.Windows

/-- Byte `i` of a packet, zero behind its end. -/
def byte (packet : List UInt8) (i : ℕ) : UInt8 := packet.getD i 0

/-- The `n` bytes from byte `i` on as a big-endian number. -/
def field (packet : List UInt8) (i : ℕ) : ℕ → ℕ
  | 0 => 0
  | n + 1 => field packet i n * 256 + (byte packet (i + n)).toNat

namespace TransportHeader

/-- The length that a transport header states, or always has. -/
def length (packet : List UInt8) (offset : ℕ) : Protocol → ℕ
  | .tcp => ((byte packet (offset + 12)) >>> 4).toNat * 4
  | .udp => 8

/-- The transport header at `offset` is complete before `totalLen`. -/
def Fits (packet : List UInt8) (offset totalLen : ℕ) (protocol : Protocol) : Prop :=
  (protocol = .tcp → 20 ≤ length packet offset protocol) ∧
    offset + length packet offset protocol ≤ totalLen

instance (packet : List UInt8) (offset totalLen : ℕ) (protocol : Protocol) :
    Decidable (Fits packet offset totalLen protocol) :=
  inferInstanceAs (Decidable (_ ∧ _))

theorem Fits.le {packet : List UInt8} {offset totalLen : ℕ} {protocol : Protocol}
    (h : Fits packet offset totalLen protocol) : offset + 8 ≤ totalLen := by
  obtain ⟨htcp, hle⟩ := h
  cases protocol with
  | tcp => have := htcp rfl; omega
  | udp => exact hle

end TransportHeader

section Accesses
variable {packet : List UInt8} {i : ℕ}

theorem byteAt_eq (h : i < packet.length) : byteAt packet i = .ok (byte packet i) := by
  rw [byteAt, byte, List.getD_eq_getElem?_getD, List.getElem?_eq_getElem h]
  rfl

theorem byteAt_eq_error (h : packet.length ≤ i) : byteAt packet i = .error ⟨i⟩ := by
  rw [byteAt, List.getElem?_eq_none h]

theorem toNat_u16FromBeBytes (hi lo : UInt8) :
    (u16FromBeBytes hi lo).toNat = hi.toNat * 256 + lo.toNat := by
  have hlo := lo.toNat_lt
  have hhi := hi.toNat_lt
  simp only [u16FromBeBytes, UInt16.toNat_or, UInt16.toNat_shiftLeft, UInt8.toNat_toUInt16,
    UInt16.reduceToNat, Nat.reduceMod]
  rw [Nat.mod_eq_of_lt (by rw [Nat.shiftLeft_eq]; omega), ← Nat.shiftLeft_add_eq_or_of_lt hlo,
    Nat.shiftLeft_eq]

theorem u16At_eq (h : i + 2 ≤ packet.length) :
    ∃ word, u16At packet i = .ok word ∧ word.toNat = field packet i 2 := by
  refine ⟨u16FromBeBytes (byte packet i) (byte packet (i + 1)), ?_, ?_⟩
  · rw [u16At, byteAt_eq (by omega), byteAt_eq (by omega)]
    rfl
  · rw [toNat_u16FromBeBytes]
    simp [field]

theorem bitsAt_eq {n : ℕ} (h : i + n ≤ packet.length) :
    bitsAt packet i n = .ok (field packet i n) := by
  induction n with
  | zero => rfl
  | succ n ih =>
    rw [bitsAt, ih (by omega), byteAt_eq (by omega)]
    rfl

open TransportHeader in
/-- `transportHeaderLen` finds the length of a header that fits. -/
theorem transportHeaderLen_eq {offset totalLen : ℕ} (protocol : Protocol)
    (h : totalLen ≤ packet.length) :
    transportHeaderLen protocol packet offset totalLen =
      .ok (if Fits packet offset totalLen protocol then some (length packet offset protocol)
        else none) := by
  cases protocol with
  | tcp =>
    by_cases hle : offset + 20 ≤ totalLen
    · have hbyte := byteAt_eq (show offset + 12 < packet.length by omega)
      simp only [transportHeaderLen, hbyte, bind, Except.bind, pure, Except.pure,
        if_neg (not_lt.mpr hle), Fits, length, forall_const]
      split_ifs <;> simp_all
      omega
    · have hfits : ¬ Fits packet offset totalLen .tcp := by
        rintro ⟨htcp, hfits⟩
        have := htcp rfl
        omega
      simp only [transportHeaderLen, if_pos (not_le.mp hle), if_neg hfits, pure, Except.pure]
  | udp =>
    simp only [transportHeaderLen, pure, Except.pure, Fits, length]
    split_ifs <;> simp_all
    omega

end Accesses

end FlowBrake.Windows
