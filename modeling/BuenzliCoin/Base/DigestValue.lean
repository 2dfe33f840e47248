-- SUMMARY: The count of leading zero bits of a digest, related to the number that its bytes write.
import BuenzliCoin.Base.Digest
import BuenzliCoin.Lib.LeadingZeros

namespace BuenzliCoin

namespace Digest

/-- The number that bytes write, the first of them being the highest. -/
def bigEndian (bytes : List UInt8) : Nat := Nat.ofDigits 256 (bytes.reverse.map UInt8.toNat)

def value (d : Digest) : Nat := bigEndian d.vec

@[simp] theorem bigEndian_nil : bigEndian [] = 0 := rfl

theorem bigEndian_cons (byte : UInt8) (bytes : List UInt8) :
    bigEndian (byte :: bytes) = byte.toNat * 2 ^ (8 * bytes.length) + bigEndian bytes := by
  have hbase : (2 : Nat) ^ (8 * bytes.length) = 256 ^ bytes.length := by
    rw [Nat.pow_mul]
  rw [bigEndian, List.reverse_cons, List.map_append, Nat.ofDigits_append, hbase]
  simp only [List.map_cons, List.map_nil, Nat.ofDigits_singleton, List.length_map,
    List.length_reverse, bigEndian]
  ring

theorem bigEndian_lt (bytes : List UInt8) : bigEndian bytes < 2 ^ (8 * bytes.length) := by
  induction bytes with
  | nil => exact Nat.one_pos
  | cons byte bytes ih =>
    have hbyte : byte.toNat + 1 ≤ 2 ^ 8 := byte.toNat_lt
    have hwidth : 8 * (byte :: bytes).length = 8 + 8 * bytes.length := by
      rw [List.length_cons]
      omega
    calc bigEndian (byte :: bytes)
        = byte.toNat * 2 ^ (8 * bytes.length) + bigEndian bytes := bigEndian_cons byte bytes
      _ < byte.toNat * 2 ^ (8 * bytes.length) + 2 ^ (8 * bytes.length) :=
        Nat.add_lt_add_left ih _
      _ = (byte.toNat + 1) * 2 ^ (8 * bytes.length) := (Nat.succ_mul _ _).symm
      _ ≤ 2 ^ 8 * 2 ^ (8 * bytes.length) := Nat.mul_le_mul_right _ hbyte
      _ = 2 ^ (8 * (byte :: bytes).length) := by rw [hwidth, Nat.pow_add]

theorem bigEndian_eq_zero_iff {bytes : List UInt8} :
    bigEndian bytes = 0 ↔ ∀ byte ∈ bytes, byte = 0x00 := by
  induction bytes with
  | nil => simp
  | cons byte bytes ih =>
    have hpos : 2 ^ (8 * bytes.length) ≠ 0 := (Nat.two_pow_pos _).ne'
    rw [bigEndian_cons, Nat.add_eq_zero_iff, Nat.mul_eq_zero, ih, List.forall_mem_cons]
    simp only [hpos, or_false]
    exact and_congr_left fun _ => ⟨fun h => UInt8.toNat_inj.mp h, fun h => h ▸ rfl⟩

/-- The inner loop adds to the count that it starts with. -/
theorem scanByte_eq (byte : UInt8) (masks : List UInt8) (count : Nat) :
    scanByte byte masks count =
      (count + (scanByte byte masks 0).1, (scanByte byte masks 0).2) := by
  induction masks generalizing count with
  | nil => rfl
  | cons mask masks ih =>
    simp only [scanByte]
    split_ifs
    · rw [ih (count + 1), ih (0 + 1), Nat.zero_add, Nat.add_assoc]
    · rfl

/-- It finds the leading zeros of the byte, and has returned unless that is all
    of it. -/
theorem scanByte_spec (byte : UInt8) :
    LeadingZeros 8 (scanByte byte masks 0).1 byte.toNat ∧
      ((scanByte byte masks 0).2 = false ↔ (scanByte byte masks 0).1 = 8) := by
  have hall : ∀ n : Fin 256,
      LeadingZeros 8 (scanByte (UInt8.ofFin n) masks 0).1 (UInt8.ofFin n).toNat ∧
        ((scanByte (UInt8.ofFin n) masks 0).2 = false ↔
          (scanByte (UInt8.ofFin n) masks 0).1 = 8) := by decide +kernel
  exact hall byte.toFin

/-- The outer loop adds the leading zeros of the bytes that are left. -/
theorem zeroPrefixLoop_spec (bytes : List UInt8) (count : Nat) :
    ∃ z, zeroPrefixLoop bytes count = count + z ∧
      LeadingZeros (8 * bytes.length) z (bigEndian bytes) := by
  induction bytes generalizing count with
  | nil => exact ⟨0, rfl, .empty⟩
  | cons byte bytes ih =>
    obtain ⟨hzeros, hfull⟩ := scanByte_spec byte
    have hwidth : 8 * (byte :: bytes).length = 8 + 8 * bytes.length := by
      rw [List.length_cons]
      omega
    rw [zeroPrefixLoop, scanByte_eq, bigEndian_cons, hwidth]
    cases hreturned : (scanByte byte masks 0).2 with
    | true =>
      have hne : (scanByte byte masks 0).1 ≠ 8 := by
        intro height
        rw [hfull.mpr height] at hreturned
        cases hreturned
      exact ⟨_, rfl, hzeros.cons hne (bigEndian_lt bytes)⟩
    | false =>
      -- all of this byte is zero, and the loop goes on
      have height := hfull.mp hreturned
      have hzero := hzeros.eq_width_iff.mp height
      obtain ⟨z, hloop, hrest⟩ := ih (count + 8)
      refine ⟨8 + z, ?_, ?_⟩
      · simp only [height, hloop, Nat.add_assoc]
      · rw [hzero, Nat.zero_mul, Nat.zero_add]
        exact hrest.zero_cons 8

theorem leadingZeros_zeroPrefixLength (d : Digest) :
    LeadingZeros (8 * d.vec.length) d.zeroPrefixLength d.value := by
  obtain ⟨z, hloop, hzeros⟩ := zeroPrefixLoop_spec d.vec 0
  rw [zeroPrefixLength, hloop, Nat.zero_add]
  exact hzeros

/-- The count is at most the number of bits, and it says between which powers of
    two the digest lies as a number. -/
theorem zeroPrefixLength_bounds (d : Digest) :
    d.zeroPrefixLength ≤ 8 * d.vec.length ∧
    d.value < 2 ^ (8 * d.vec.length - d.zeroPrefixLength) ∧
    (d.zeroPrefixLength < 8 * d.vec.length →
      2 ^ (8 * d.vec.length - d.zeroPrefixLength - 1) ≤ d.value) ∧
    (d.zeroPrefixLength = 8 * d.vec.length ↔ ∀ byte ∈ d.vec, byte = 0x00) := by
  have h := d.leadingZeros_zeroPrefixLength
  exact ⟨h.le, h.lt, h.ge, h.eq_width_iff.trans bigEndian_eq_zero_iff⟩

/-- The bytes 0x00 and 0x05. -/
example : zeroPrefixLength ⟨[0x00, 0x05]⟩ = 13 ∧ value ⟨[0x00, 0x05]⟩ = 5 := by decide

end Digest

end BuenzliCoin
