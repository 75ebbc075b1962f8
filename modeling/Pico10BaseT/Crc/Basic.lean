import Pico10BaseT.Bits.Pack
import Pico10BaseT.Frame
import Pico10BaseT.Gf2.Register

/-!
# The CRC as a shift register

The byte loops of `crc.rs` clock the wire bits of the bytes into a shift register over GF(2).

* `toBitVec_crcUpdate` : `update` is the register over the wire bits.
* `verifyFcs_iff_register` : a receiver accepts the frames that leave one fixed word in the register.
-/

namespace Pico10BaseT

open ShiftRegister

/-- The taps of the register. -/
def crcTaps : BitVec 32 := 0xEDB88320#32

theorem crcTaps_top : crcTaps.getLsbD (32 - 1) = true := by decide

/-- The register before the first bit. -/
def crcInit : BitVec 32 := 0xFFFFFFFF#32

theorem and_one_ne_zero_iff (c : UInt32) : c &&& 1 ≠ 0 ↔ c.toBitVec.getLsbD 0 = true := by
  have hbit : c.toBitVec.getLsbD 0 = decide (c.toNat % 2 = 1) := by
    rw [BitVec.getLsbD, Nat.testBit_zero]
    rfl
  have hand : (c &&& 1).toNat = c.toNat % 2 := by
    rw [UInt32.toNat_and]
    exact Nat.and_two_pow_sub_one_eq_mod _ 1
  rw [Ne, ← UInt32.toNat_inj, hand, UInt32.toNat_zero, hbit, decide_eq_true_iff]
  omega

theorem toBitVec_crcBit (crc : UInt32) : (crcBit crc).toBitVec = shift crcTaps crc.toBitVec := by
  rw [crcBit, shift]
  by_cases h : crc &&& 1 ≠ 0
  · rw [if_pos h, if_pos ((and_one_ne_zero_iff crc).1 h)]
    rfl
  · rw [if_neg h, if_neg (mt (and_one_ne_zero_iff crc).2 h)]
    rfl

theorem toBitVec_iterate_crcBit (n : ℕ) (crc : UInt32) :
    (crcBit^[n] crc).toBitVec = (shift crcTaps)^[n] crc.toBitVec := by
  induction n generalizing crc with
  | zero => rfl
  | succ n ih => rw [Function.iterate_succ_apply, ih, toBitVec_crcBit]; rfl

theorem toBitVec_toUInt32 (b : UInt8) : b.toUInt32.toBitVec = word 32 (bitsOfByte b) := by
  refine BitVec.eq_of_getLsbD_eq fun i hi => ?_
  have hb := b.toNat_lt
  rw [getLsbD_word, decide_eq_true hi, Bool.true_and, BitVec.getLsbD]
  by_cases hi8 : i < 8
  · simp [bitsOfByte, List.getD_eq_getElem?_getD, hi8]
  · have hhigh : b.toNat.testBit i = false := Nat.testBit_lt_two_pow (by
      calc b.toNat < 2 ^ 8 := hb
        _ ≤ 2 ^ i := Nat.pow_le_pow_right (by omega) (by omega))
    simp [bitsOfByte, List.getD_eq_getElem?_getD, hi8, hhigh]

/-- `step_byte` clocks in the bits of the byte, the least significant first. -/
theorem toBitVec_stepByte (crc : UInt32) (b : UInt8) :
    (stepByte crc b).toBitVec = feedAll crcTaps crc.toBitVec (bitsOfByte b) := by
  rw [stepByte, toBitVec_iterate_crcBit, feedAll_eq_iterate _ _ (by simp), length_bitsOfByte,
    UInt32.toBitVec_xor, toBitVec_toUInt32]

/-- **`update` is the register over the wire bits.** -/
theorem toBitVec_crcUpdate (crc : UInt32) (data : List UInt8) :
    (crcUpdate crc data).toBitVec = feedAll crcTaps crc.toBitVec (bitsOf data) := by
  induction data generalizing crc with
  | nil => rfl
  | cons b data ih =>
    have hcons : bitsOf (b :: data) = bitsOfByte b ++ bitsOf data := rfl
    rw [hcons, feedAll_append, ← toBitVec_stepByte, ← ih]
    rfl

/-! ### The check sequence -/

theorem crcFinalize_eq_iff {crc fcs : UInt32} :
    crcFinalize crc = fcs ↔ crc.toBitVec ^^^ fcs.toBitVec = crcInit := by
  rw [crcFinalize, ← UInt32.toBitVec_inj, UInt32.toBitVec_xor]
  constructor
  · intro h
    rw [← h, ← BitVec.xor_assoc, BitVec.xor_self, BitVec.zero_xor]
    rfl
  · intro h
    rw [show (0xFFFFFFFF : UInt32).toBitVec = crcInit from rfl, ← h, ← BitVec.xor_assoc,
      BitVec.xor_self, BitVec.zero_xor]

/-- The number of a byte list, the least significant byte first. -/
def leNat : List UInt8 → ℕ
  | [] => 0
  | b :: bytes => 2 ^ 8 * leNat bytes + b.toNat

theorem testBit_leNat (bytes : List UInt8) (i : ℕ) :
    (leNat bytes).testBit i = (bitsOf bytes).getD i false := by
  induction bytes generalizing i with
  | nil => simp [leNat, bitsOf]
  | cons b bytes ih =>
    have hcons : bitsOf (b :: bytes) = bitsOfByte b ++ bitsOf bytes := rfl
    rw [leNat, Nat.testBit_two_pow_mul_add _ b.toNat_lt, hcons, List.getD_eq_getElem?_getD]
    split_ifs with hi
    · rw [List.getElem?_append_left (by simpa using hi)]
      simp [bitsOfByte, hi]
    · rw [List.getElem?_append_right (by simpa using hi), length_bitsOfByte, ih,
        List.getD_eq_getElem?_getD]

theorem toBitVec_fromLeBytes (b₀ b₁ b₂ b₃ : UInt8) :
    (fromLeBytes b₀ b₁ b₂ b₃).toBitVec = word 32 (bitsOf [b₀, b₁, b₂, b₃]) := by
  have hnat : (fromLeBytes b₀ b₁ b₂ b₃).toNat = leNat [b₀, b₁, b₂, b₃] := by
    rw [toNat_fromLeBytes]
    simp only [leNat]
    omega
  refine BitVec.eq_of_getLsbD_eq fun i hi => ?_
  rw [getLsbD_word, decide_eq_true hi, Bool.true_and, ← testBit_leNat, ← hnat]
  rfl

/-- What an accepted frame leaves in the register. -/
def crcResidue : BitVec 32 := (shift crcTaps)^[32] crcInit

/-- **A receiver accepts the frames that leave the residue** in the register. -/
theorem verifyFcs_iff_register (frame : List UInt8) (frameLen : ℕ) :
    verifyFcs frame frameLen = .ok true ↔ 18 ≤ frameLen ∧ frameLen ≤ frame.length ∧
      feedAll crcTaps crcInit (bitsOf (frame.take frameLen)) = crcResidue := by
  by_cases hb : frameLen < 14 + 4 ∨ frame.length < frameLen
  · rw [verifyFcs, if_pos hb]
    simp only [Exec.pure_eq, Except.ok.injEq, Bool.false_eq_true, false_iff]
    omega
  · obtain ⟨n, rfl⟩ : ∃ n, frameLen = n + 4 := ⟨frameLen - 4, by omega⟩
    have htake : frame.take (n + 4) = frame.take n ++ [byteAt frame n, byteAt frame (n + 1),
        byteAt frame (n + 2), byteAt frame (n + 3)] := by
      rw [← List.take_concat_get' frame (n + 3) (by omega), ← List.take_concat_get' frame (n + 2)
        (by omega), ← List.take_concat_get' frame (n + 1) (by omega), ← List.take_concat_get' frame
        n (by omega), byteAt_eq_getElem (by omega), byteAt_eq_getElem (by omega),
        byteAt_eq_getElem (by omega), byteAt_eq_getElem (by omega)]
      simp only [List.append_assoc, List.cons_append, List.nil_append]
    have hfeed : feedAll crcTaps crcInit (bitsOf (frame.take (n + 4))) =
        (shift crcTaps)^[32] ((crcUpdate 0xFFFFFFFF (frame.take n)).toBitVec ^^^
          (fromLeBytes (byteAt frame n) (byteAt frame (n + 1)) (byteAt frame (n + 2))
            (byteAt frame (n + 3))).toBitVec) := by
      rw [htake, bitsOf_append, feedAll_append, feedAll_eq_iterate _ _ (by simp),
        toBitVec_fromLeBytes, toBitVec_crcUpdate]
      rfl
    rw [verifyFcs, if_neg hb, slice_zero (by omega), show n + 4 - 4 = n by omega,
      show n + 4 - 3 = n + 1 by omega, show n + 4 - 2 = n + 2 by omega,
      show n + 4 - 1 = n + 3 by omega, index_eq_byteAt (by omega), index_eq_byteAt (by omega),
      index_eq_byteAt (by omega), index_eq_byteAt (by omega), hfeed, crcResidue,
      iterate_shift_inj crcTaps_top, ← crcFinalize_eq_iff]
    simp only [Exec.ok_bind, Exec.pure_eq, Except.ok.injEq, decide_eq_true_eq]
    constructor
    · intro h
      exact ⟨by omega, by omega, h⟩
    · exact fun h => h.2.2

end Pico10BaseT
