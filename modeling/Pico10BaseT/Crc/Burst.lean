import Pico10BaseT.Crc.Basic

/-!
# Burst errors

What the wire does to a frame is a pattern of flipped bits, in wire order: byte by byte, least
significant bit first.

* `verifyFcs_burst` : the FCS detects every error confined to 32 consecutive wire bits.
-/

namespace Pico10BaseT

open ShiftRegister

/-- The frame with the wire bits flipped at which `error` is set. -/
def corrupt (frame : List UInt8) (error : ℕ → Bool) : List UInt8 :=
  packBytes (List.zipWith (· ^^ ·) (bitsOf frame) ((List.range (8 * frame.length)).map error))

theorem bitsOf_corrupt (frame : List UInt8) (error : ℕ → Bool) :
    bitsOf (corrupt frame error) =
      List.zipWith (· ^^ ·) (bitsOf frame) ((List.range (8 * frame.length)).map error) := by
  have hlen : (List.zipWith (· ^^ ·) (bitsOf frame)
      ((List.range (8 * frame.length)).map error)).length = 8 * frame.length := by
    simp
  rw [corrupt, bitsOf_packBytes, hlen, Nat.mul_div_cancel_left _ (by omega)]
  exact List.take_of_length_le hlen.le

@[simp] theorem length_corrupt (frame : List UInt8) (error : ℕ → Bool) :
    (corrupt frame error).length = frame.length := by
  simp [corrupt]

theorem bitsOf_take (bytes : List UInt8) (n : ℕ) :
    bitsOf (bytes.take n) = (bitsOf bytes).take (8 * n) := by
  by_cases hn : n ≤ bytes.length
  · have hlen : (bitsOf (bytes.take n)).length = 8 * n := by
      rw [length_bitsOf, List.length_take_of_le hn]
    conv_rhs => rw [← List.take_append_drop n bytes, bitsOf_append]
    exact (List.take_left' hlen).symm
  · rw [List.take_of_length_le (by omega), List.take_of_length_le]
    rw [length_bitsOf]
    omega

theorem bitsOf_take_corrupt {frame : List UInt8} (error : ℕ → Bool) {n : ℕ}
    (hn : n ≤ frame.length) :
    bitsOf ((corrupt frame error).take n) =
      List.zipWith (· ^^ ·) (bitsOf (frame.take n)) ((List.range (8 * n)).map error) := by
  rw [bitsOf_take, bitsOf_corrupt, List.take_zipWith, ← bitsOf_take, ← List.map_take,
    List.take_range, Nat.min_eq_left (by omega)]

/-- An error confined to 32 bits is a burst between zeros. -/
theorem map_error_eq {error : ℕ → Bool} {start m : ℕ}
    (h : ∀ i, error i = true → start ≤ i ∧ i < start + 32) :
    (List.range m).map error = List.replicate (min start m) false ++
      (((List.range m).drop start).take 32).map error ++
      List.replicate (m - start - 32) false := by
  have hzero : ∀ l : List ℕ, (∀ i ∈ l, ¬(start ≤ i ∧ i < start + 32)) →
      l.map error = List.replicate l.length false := by
    intro l hl
    refine List.eq_replicate_iff.2 ⟨List.length_map _, fun b hb => ?_⟩
    obtain ⟨i, hi, rfl⟩ := List.mem_map.1 hb
    exact Bool.eq_false_iff.2 fun he => hl i hi (h i he)
  have hfront := hzero ((List.range m).take start) (by
    intro i hi
    rw [List.take_range, List.mem_range] at hi
    omega)
  have hback := hzero (((List.range m).drop start).drop 32) (by
    intro i hi
    rw [List.drop_drop] at hi
    obtain ⟨k, hk, rfl⟩ := List.getElem_of_mem hi
    rw [List.getElem_drop, List.getElem_range]
    omega)
  rw [List.length_take, List.length_range] at hfront
  rw [List.length_drop, List.length_drop, List.length_range] at hback
  rw [← hfront, ← hback, ← List.map_append, ← List.map_append, List.append_assoc,
    List.take_append_drop, List.take_append_drop]

/-- **The FCS detects every burst**: an error confined to 32 consecutive wire bits of the frame,
data or FCS, makes the receiver reject it. -/
theorem verifyFcs_burst {frame : List UInt8} {frameLen : ℕ} {error : ℕ → Bool} (start : ℕ)
    (h : verifyFcs frame frameLen = .ok true) (hne : ∃ i, error i = true)
    (hburst : ∀ i, error i = true → i < 8 * frameLen ∧ start ≤ i ∧ i < start + 32) :
    verifyFcs (corrupt frame error) frameLen = .ok false := by
  obtain ⟨hmin, hmax, hres⟩ := (verifyFcs_iff_register _ _).1 h
  obtain ⟨ok, hok⟩ := verifyFcs_total (corrupt frame error) frameLen
  cases ok with
  | false => exact hok
  | true =>
    exfalso
    obtain ⟨-, -, hres'⟩ := (verifyFcs_iff_register _ _).1 hok
    -- the difference of two accepted frames leaves nothing in the register
    have hzero : feedAll crcTaps 0 ((List.range (8 * frameLen)).map error) = 0 := by
      have hxor := feedAll_xor crcTaps crcInit 0 (a := bitsOf (frame.take frameLen))
        (b := (List.range (8 * frameLen)).map error) (by simp; omega)
      rw [← bitsOf_take_corrupt error hmax, hres, show crcInit ^^^ 0 = crcInit from rfl, hres']
        at hxor
      exact (BitVec.xor_right_inj crcResidue).1 (hxor.symm.trans BitVec.xor_zero.symm)
    obtain ⟨i, hi⟩ := hne
    obtain ⟨hlt, hge, hlt'⟩ := hburst i hi
    rw [map_error_eq fun j hj => (hburst j hj).2] at hzero
    refine feedAll_burst crcTaps_top _ _ ?_ ?_ hzero
    · simp
    · refine List.mem_map.2 ⟨i, ?_, hi⟩
      rw [List.mem_iff_getElem]
      refine ⟨i - start, by simp; omega, ?_⟩
      simp
      omega

/-- A burst over the end of the data. -/
theorem verifyFcs_burst_boundary :
    verifyFcs (corrupt (List.replicate 14 0 ++ toLeBytes (crc32 (List.replicate 14 0)))
      (fun i => decide (105 ≤ i ∧ i < 120))) 18 = .ok false :=
  verifyFcs_burst 105 (verifyFcs_append (by simp)) ⟨105, by decide⟩ fun i hi => by
    have hi' := of_decide_eq_true hi
    omega

end Pico10BaseT
