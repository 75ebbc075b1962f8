import Mathlib.Algebra.Field.ZMod
import Mathlib.Algebra.Polynomial.Div
import Mathlib.Algebra.CharP.Two
import Mathlib.Data.ZMod.Basic
import Mathlib.Tactic.Ring
import Pico10BaseT.Gf2.Register

/-!
# A shift register divides polynomials over GF(2)

Bit `i` of a register of `w` bits is the coefficient of `x ^ (w - 1 - i)`; the taps are the
generator without its leading term.

* `regPoly_shift` : a clock multiplies by `x`, modulo the generator.
* `regPoly_feedAll` : clocking in a message leaves its remainder.
-/

namespace Pico10BaseT

namespace ShiftRegister

open Polynomial

variable {w : ℕ} (g : BitVec w)

/-- A bit as a coefficient. -/
def coeffOf (b : Bool) : ZMod 2 := if b then 1 else 0

/-- The polynomial of a bit string, highest degree first. -/
noncomputable def bitPoly : List Bool → (ZMod 2)[X]
  | [] => 0
  | b :: bits => C (coeffOf b) * X ^ bits.length + bitPoly bits

/-- The polynomial of a register. -/
noncomputable def regPoly (r : BitVec w) : (ZMod 2)[X] :=
  ∑ i ∈ Finset.range w, C (coeffOf (r.getLsbD i)) * X ^ (w - 1 - i)

/-- The generator whose taps are `g`. -/
noncomputable def generator : (ZMod 2)[X] := X ^ w + regPoly g

theorem coeffOf_xor (a b : Bool) : coeffOf (a ^^ b) = coeffOf a + coeffOf b := by
  cases a <;> cases b <;> decide

theorem regPoly_xor (a b : BitVec w) : regPoly (a ^^^ b) = regPoly a + regPoly b := by
  simp only [regPoly, BitVec.getLsbD_xor, coeffOf_xor, C_add, add_mul, Finset.sum_add_distrib]

theorem bitPoly_append (a b : List Bool) :
    bitPoly (a ++ b) = bitPoly a * X ^ b.length + bitPoly b := by
  induction a with
  | nil => simp [bitPoly]
  | cons x a ih =>
    simp only [List.cons_append, bitPoly, ih, List.length_append, pow_add]
    ring

theorem bitPoly_xor {a b : List Bool} (h : a.length = b.length) :
    bitPoly (List.zipWith (· ^^ ·) a b) = bitPoly a + bitPoly b := by
  induction a generalizing b with
  | nil =>
    obtain rfl : b = [] := List.length_eq_zero_iff.1 h.symm
    simp [bitPoly]
  | cons x a ih =>
    obtain ⟨y, b, rfl⟩ : ∃ y b', b = y :: b' := List.exists_cons_of_length_eq_add_one h.symm
    have h' : a.length = b.length := Nat.succ.inj h
    simp only [List.zipWith_cons_cons, bitPoly, ih h', List.length_zipWith, ← h', Nat.min_self,
      coeffOf_xor, C_add]
    ring

theorem bitPoly_replicate_false (n : ℕ) : bitPoly (List.replicate n false) = 0 := by
  induction n with
  | zero => rfl
  | succ n ih => simp [List.replicate_succ, bitPoly, ih, coeffOf]

theorem bitPoly_replicate_true (n : ℕ) :
    bitPoly (List.replicate n true) = ∑ i ∈ Finset.range n, X ^ i := by
  induction n with
  | zero => rfl
  | succ n ih =>
    rw [List.replicate_succ, bitPoly, ih, List.length_replicate, coeffOf, if_pos rfl, C_1, one_mul,
      Finset.sum_range_succ, add_comm]

theorem coeff_regPoly (r : BitVec w) {i : ℕ} (hi : i < w) :
    (regPoly r).coeff (w - 1 - i) = coeffOf (r.getLsbD i) := by
  rw [regPoly, finsetSum_coeff, Finset.sum_eq_single i]
  · rw [coeff_C_mul, coeff_X_pow, if_pos rfl, mul_one]
  · intro j hj hne
    have hj' := Finset.mem_range.1 hj
    rw [coeff_C_mul, coeff_X_pow, if_neg (by omega), mul_zero]
  · intro h
    exact absurd (Finset.mem_range.2 hi) h

theorem degree_regPoly_lt (r : BitVec w) : (regPoly r).degree < w := by
  rw [degree_lt_iff_coeff_zero]
  intro m hm
  rw [regPoly, finsetSum_coeff]
  refine Finset.sum_eq_zero fun i hi => ?_
  have hi' := Finset.mem_range.1 hi
  rw [coeff_C_mul, coeff_X_pow, if_neg (by omega), mul_zero]

theorem generator_monic : (generator g).Monic :=
  monic_X_pow_add (degree_regPoly_lt g)

theorem degree_generator : (generator g).degree = w := by
  rw [generator, degree_add_eq_left_of_degree_lt, degree_X_pow]
  rw [degree_X_pow]
  exact degree_regPoly_lt g

/-- **A clock multiplies by `x`**, and takes the generator off when a one falls out. -/
theorem regPoly_shift (hw : 0 < w) (r : BitVec w) :
    regPoly (shift g r) = X * regPoly r + C (coeffOf (r.getLsbD 0)) * generator g := by
  obtain ⟨n, rfl⟩ : ∃ n, w = n + 1 := ⟨w - 1, by omega⟩
  have hand : ∀ a b c : Bool, coeffOf (a ^^ (b && c)) = coeffOf a + coeffOf b * coeffOf c := by
    decide
  have hshift : regPoly (shift g r) =
      ∑ i ∈ Finset.range (n + 1), C (coeffOf (r.getLsbD (i + 1))) * X ^ (n - i) +
        C (coeffOf (r.getLsbD 0)) * regPoly g := by
    simp only [regPoly, getLsbD_shift, hand, C_add, C_mul, add_mul, Finset.sum_add_distrib,
      Finset.mul_sum, Nat.add_sub_cancel, mul_assoc]
  -- the bits move one place up, but for the one that falls out
  have hmove : X * regPoly r =
      ∑ i ∈ Finset.range (n + 1), C (coeffOf (r.getLsbD (i + 1))) * X ^ (n - i) +
        C (coeffOf (r.getLsbD 0)) * X ^ (n + 1) := by
    have hlast : r.getLsbD (n + 1) = false := BitVec.getLsbD_of_ge r (n + 1) le_rfl
    rw [regPoly, Finset.sum_range_succ', Finset.sum_range_succ, hlast, mul_add, Finset.mul_sum]
    have hsum : ∀ i ∈ Finset.range n,
        X * (C (coeffOf (r.getLsbD (i + 1))) * X ^ (n + 1 - 1 - (i + 1))) =
          C (coeffOf (r.getLsbD (i + 1))) * X ^ (n - i) := by
      intro i hi
      have hi' := Finset.mem_range.1 hi
      rw [show n - i = n + 1 - 1 - (i + 1) + 1 by omega, pow_succ]
      ring
    rw [Finset.sum_congr rfl hsum]
    simp only [coeffOf, Bool.false_eq_true, if_false, C_0, zero_mul, add_zero, Nat.add_sub_cancel,
      Nat.sub_zero, pow_succ]
    ring
  rw [hshift, hmove, generator, mul_add, add_assoc, ← add_assoc (C _ * X ^ (n + 1)),
    CharTwo.add_self_eq_zero, zero_add]

theorem regPoly_word_singleton (hw : 0 < w) (b : Bool) :
    regPoly (word w [b]) = C (coeffOf b) * X ^ (w - 1) := by
  rw [regPoly, Finset.sum_eq_single 0]
  · rw [getLsbD_word, decide_eq_true hw]
    rfl
  · intro i hi hne
    obtain ⟨k, rfl⟩ := Nat.exists_eq_succ_of_ne_zero hne
    simp [coeffOf]
  · intro h
    exact absurd (Finset.mem_range.2 hw) h

/-- The register after some bits, as a combination of the register, the bits and the generator. -/
theorem regPoly_feedAll_add (hw : 0 < w) (r : BitVec w) (bits : List Bool) :
    ∃ q, regPoly (feedAll g r bits) =
      X ^ bits.length * regPoly r + X ^ w * bitPoly bits + generator g * q := by
  induction bits generalizing r with
  | nil => exact ⟨0, by simp [feedAll, bitPoly]⟩
  | cons b bits ih =>
    obtain ⟨q, hq⟩ := ih (feed g r b)
    have hfeed : regPoly (feed g r b) = X * regPoly r + C (coeffOf b) * X ^ w +
        C (coeffOf ((r ^^^ word w [b]).getLsbD 0)) * generator g := by
      have hpow : X * (C (coeffOf b) * X ^ (w - 1)) = C (coeffOf b) * (X : (ZMod 2)[X]) ^ w := by
        obtain ⟨n, rfl⟩ : ∃ n, w = n + 1 := ⟨w - 1, by omega⟩
        rw [Nat.add_sub_cancel, pow_succ]
        ring
      rw [feed, regPoly_shift g hw, regPoly_xor, regPoly_word_singleton hw, mul_add, hpow]
    refine ⟨q + X ^ bits.length * C (coeffOf ((r ^^^ word w [b]).getLsbD 0)), ?_⟩
    change regPoly (feedAll g (feed g r b) bits) = _
    rw [hq, hfeed, bitPoly, List.length_cons, pow_succ]
    ring

/-- **The register divides**: the bits leave the remainder of the register and the bits, moved up
by the width, modulo the generator. -/
theorem regPoly_feedAll (hw : 0 < w) (r : BitVec w) (bits : List Bool) :
    regPoly (feedAll g r bits) =
      (X ^ bits.length * regPoly r + X ^ w * bitPoly bits) %ₘ generator g := by
  obtain ⟨q, hq⟩ := regPoly_feedAll_add g hw r bits
  have hdvd : X ^ bits.length * regPoly r + X ^ w * bitPoly bits =
      regPoly (feedAll g r bits) + generator g * (-q) := by
    rw [hq]
    ring
  exact (div_modByMonic_unique (-q) _ (generator_monic g) ⟨hdvd.symm, by
    rw [degree_generator]
    exact degree_regPoly_lt _⟩).2.symm

end ShiftRegister

end Pico10BaseT
