import Pico10BaseT.Crc.Basic
import Pico10BaseT.Gf2.Division

/-!
# The CRC of IEEE 802.3

The specification divides the polynomial of a bit string by the generator of IEEE 802.3; `crc.rs`
clocks a reflected register with complements folded in at both ends.

* `crc32_eq_ieee` : the two are the same for every byte string.
-/

namespace Pico10BaseT

open Polynomial ShiftRegister

/-- The generator of IEEE 802.3. -/
noncomputable def ieeeGenerator : (ZMod 2)[X] :=
  X ^ 32 + X ^ 26 + X ^ 23 + X ^ 22 + X ^ 16 + X ^ 12 + X ^ 11 + X ^ 10 + X ^ 8 + X ^ 7 + X ^ 5 +
    X ^ 4 + X ^ 2 + X + 1

/-- The string that is divided: the message bits and 32 zeros, the first 32 bits complemented. -/
def ieeeString (data : List UInt8) : List Bool :=
  let bits := bitsOf data ++ List.replicate 32 false
  (bits.take 32).map (!·) ++ bits.drop 32

/-- The word whose bit `i` is the complement of the coefficient of `x ^ (31 - i)`. -/
noncomputable def reflectedComplement (p : (ZMod 2)[X]) : BitVec 32 :=
  word 32 ((List.range 32).map fun i => decide (p.coeff (31 - i) = 0))

/-- The remainder as IEEE 802.3 sends it. -/
noncomputable def ieeeCrc (data : List UInt8) : BitVec 32 :=
  reflectedComplement (bitPoly (ieeeString data) %ₘ ieeeGenerator)

theorem generator_crcTaps : generator crcTaps = ieeeGenerator := by
  have hbits : ∀ i < 32, crcTaps.getLsbD i =
      decide (31 - i ∈ [26, 23, 22, 16, 12, 11, 10, 8, 7, 5, 4, 2, 1, 0]) := by
    decide
  have hreg : regPoly crcTaps = ∑ i ∈ Finset.range 32,
      C (coeffOf (decide (31 - i ∈ [26, 23, 22, 16, 12, 11, 10, 8, 7, 5, 4, 2, 1, 0]))) *
        X ^ (31 - i) :=
    Finset.sum_congr rfl fun i hi => by rw [hbits i (Finset.mem_range.1 hi)]
  rw [generator, hreg, ieeeGenerator]
  simp [Finset.sum_range_succ, coeffOf]
  ring

theorem zipWith_xor_false (bits : List Bool) :
    List.zipWith (· ^^ ·) bits (List.replicate bits.length false) = bits := by
  induction bits with
  | nil => rfl
  | cons b bits ih => simp [List.replicate_succ, ih]

/-- Complementing the first bits adds ones to them. -/
theorem map_not_take_append_drop {bits : List Bool} {n : ℕ} (h : n ≤ bits.length) :
    (bits.take n).map (!·) ++ bits.drop n = List.zipWith (· ^^ ·) bits
      (List.replicate n true ++ List.replicate (bits.length - n) false) := by
  induction n generalizing bits with
  | zero => simp [zipWith_xor_false]
  | succ n ih =>
    obtain ⟨b, bits, rfl⟩ : ∃ b bits', bits = b :: bits' :=
      List.exists_cons_of_length_pos (by omega)
    simpa [List.replicate_succ] using ih (Nat.le_of_succ_le_succ h)

theorem bitPoly_ones : bitPoly (List.replicate 32 true) = regPoly crcInit := by
  have hbits : ∀ i < 32, crcInit.getLsbD i = true := by decide
  have hreg : regPoly crcInit = ∑ i ∈ Finset.range 32, X ^ (31 - i) :=
    Finset.sum_congr rfl fun i hi => by
      rw [hbits i (Finset.mem_range.1 hi), coeffOf, if_pos rfl, C_1, one_mul]
  rw [bitPoly_replicate_true, hreg, Finset.sum_range_reflect fun i => (X : (ZMod 2)[X]) ^ i]

theorem bitPoly_ieeeString (data : List UInt8) : bitPoly (ieeeString data) =
    X ^ (bitsOf data).length * regPoly crcInit + X ^ 32 * bitPoly (bitsOf data) := by
  have hlen : (bitsOf data ++ List.replicate 32 false).length = 32 + (bitsOf data).length := by
    rw [List.length_append, List.length_replicate, Nat.add_comm]
  rw [ieeeString, map_not_take_append_drop (by omega), hlen, Nat.add_sub_cancel_left,
    bitPoly_xor (by simp), bitPoly_append, bitPoly_append, bitPoly_replicate_false,
    bitPoly_replicate_false, bitPoly_ones, List.length_replicate, List.length_replicate]
  ring

/-- **The CRC is that of IEEE 802.3**, and the padded CRC is that of the padded bytes. -/
theorem crc32_eq_ieee (data : List UInt8) :
    (crc32 data).toBitVec = ieeeCrc data ∧
      ∀ n, crc32Padded data n = crc32 (data ++ List.replicate n 0) := by
  refine ⟨?_, crc32Padded_eq data⟩
  have hrem : bitPoly (ieeeString data) %ₘ ieeeGenerator =
      regPoly (feedAll crcTaps crcInit (bitsOf data)) := by
    rw [regPoly_feedAll crcTaps (by omega), bitPoly_ieeeString, generator_crcTaps]
  have hcrc : (crc32 data).toBitVec = feedAll crcTaps crcInit (bitsOf data) ^^^ crcInit := by
    rw [crc32, crcFinalize, UInt32.toBitVec_xor, toBitVec_crcUpdate]
    rfl
  refine BitVec.eq_of_getLsbD_eq fun i hi => ?_
  have hones : crcInit.getLsbD i = true := by
    have hall : ∀ i < 32, crcInit.getLsbD i = true := by decide
    exact hall i hi
  have hzero : ∀ b : Bool, decide (coeffOf b = 0) = (b ^^ true) := by decide
  rw [ieeeCrc, hrem, reflectedComplement, getLsbD_word, decide_eq_true hi, Bool.true_and, hcrc,
    BitVec.getLsbD_xor, hones, List.getD_eq_getElem?_getD, List.getElem?_map,
    List.getElem?_range hi, Option.map_some, Option.getD_some, coeff_regPoly _ hi, hzero]

end Pico10BaseT
