import Mathlib.Data.BitVec
import Mathlib.Data.List.Basic
import Mathlib.Logic.Function.Iterate
import Mathlib.Tactic.Common

/-!
# Shift registers over GF(2)

A register of `w` bits that shifts to the right and adds its taps `g` when a one falls out at the
end, in Galois form.  It takes a message bit by bit at the end it shifts out.

* `feedAll_xor` : the register is linear in its state and its input together.
* `feedAll_eq_iterate` : up to `w` bits may be added all at once before they are clocked in.
* `iterate_shift_eq` : what several clocks do is decided by the bits that fall out.
* `feedAll_burst` : when the top tap is set, a burst of at most `w` bits leaves a trace for ever.
-/

namespace Pico10BaseT

namespace ShiftRegister

variable {w : ℕ} (g : BitVec w)

/-- One clock without input. -/
def shift (r : BitVec w) : BitVec w := if r.getLsbD 0 then (r >>> 1) ^^^ g else r >>> 1

/-- The word whose low bits are the given ones. -/
def word (w : ℕ) (bits : List Bool) : BitVec w := (BitVec.ofBoolListLE bits).setWidth w

/-- One clock with an input bit. -/
def feed (r : BitVec w) (b : Bool) : BitVec w := shift g (r ^^^ word w [b])

/-- Clock in the bits. -/
def feedAll (r : BitVec w) (bits : List Bool) : BitVec w := bits.foldl (feed g) r

@[simp] theorem getLsbD_word (bits : List Bool) (i : ℕ) :
    (word w bits).getLsbD i = (decide (i < w) && bits.getD i false) := by
  rw [word, BitVec.getLsbD_setWidth, BitVec.getLsbD_ofBoolListLE]

@[simp] theorem getLsbD_shift (r : BitVec w) (i : ℕ) :
    (shift g r).getLsbD i = (r.getLsbD (i + 1) ^^ (r.getLsbD 0 && g.getLsbD i)) := by
  rw [shift]
  cases r.getLsbD 0 <;> simp [Nat.add_comm 1 i]

theorem shift_zero : shift g 0 = 0 := by
  refine BitVec.eq_of_getLsbD_eq fun i _ => ?_
  simp

theorem shift_xor (a b : BitVec w) : shift g (a ^^^ b) = shift g a ^^^ shift g b := by
  refine BitVec.eq_of_getLsbD_eq fun i _ => ?_
  rw [BitVec.getLsbD_xor, getLsbD_shift, getLsbD_shift, getLsbD_shift, BitVec.getLsbD_xor,
    BitVec.getLsbD_xor]
  cases a.getLsbD (i + 1) <;> cases b.getLsbD (i + 1) <;> cases a.getLsbD 0 <;>
    cases b.getLsbD 0 <;> cases g.getLsbD i <;> rfl

theorem iterate_shift_xor (n : ℕ) (a b : BitVec w) :
    (shift g)^[n] (a ^^^ b) = (shift g)^[n] a ^^^ (shift g)^[n] b := by
  induction n generalizing a b with
  | zero => rfl
  | succ n ih => rw [Function.iterate_succ_apply, shift_xor, ih]; rfl

theorem word_xor {a b : List Bool} (h : a.length = b.length) :
    word w (List.zipWith (· ^^ ·) a b) = word w a ^^^ word w b := by
  refine BitVec.eq_of_getLsbD_eq fun i hi => ?_
  rw [BitVec.getLsbD_xor, getLsbD_word, getLsbD_word, getLsbD_word]
  simp only [hi, decide_true, Bool.true_and, List.getD_eq_getElem?_getD, List.getElem?_zipWith]
  by_cases hia : i < a.length
  · rw [List.getElem?_eq_getElem hia, List.getElem?_eq_getElem (h ▸ hia)]
    rfl
  · rw [List.getElem?_eq_none (by omega), List.getElem?_eq_none (by omega)]
    rfl

theorem feedAll_append (r : BitVec w) (a b : List Bool) :
    feedAll g r (a ++ b) = feedAll g (feedAll g r a) b := List.foldl_append

/-- **The register is linear** in its state and its input. -/
theorem feedAll_xor {a b : List Bool} (r s : BitVec w) (h : a.length = b.length) :
    feedAll g (r ^^^ s) (List.zipWith (· ^^ ·) a b) = feedAll g r a ^^^ feedAll g s b := by
  induction a generalizing b r s with
  | nil =>
    obtain rfl : b = [] := List.length_eq_zero_iff.1 h.symm
    rfl
  | cons x a ih =>
    obtain ⟨y, b, rfl⟩ : ∃ y b', b = y :: b' := List.exists_cons_of_length_eq_add_one h.symm
    have hfeed : feed g (r ^^^ s) (x ^^ y) = feed g r x ^^^ feed g s y := by
      have hword := word_xor (w := w) (a := [x]) (b := [y]) rfl
      rw [feed, feed, feed, ← shift_xor, show [x ^^ y] = List.zipWith (· ^^ ·) [x] [y] from rfl,
        hword]
      congr 1
      ac_rfl
    calc feedAll g (r ^^^ s) (List.zipWith (· ^^ ·) (x :: a) (y :: b))
        = feedAll g (feed g (r ^^^ s) (x ^^ y)) (List.zipWith (· ^^ ·) a b) := rfl
      _ = feedAll g (feed g r x) a ^^^ feedAll g (feed g s y) b := by
          rw [hfeed, ih _ _ (Nat.succ.inj h)]

theorem word_false : word w [false] = 0 := by
  refine BitVec.eq_of_getLsbD_eq fun i _ => ?_
  cases i <;> simp

theorem feedAll_replicate_false (r : BitVec w) (n : ℕ) :
    feedAll g r (List.replicate n false) = (shift g)^[n] r := by
  induction n generalizing r with
  | zero => rfl
  | succ n ih =>
    rw [List.replicate_succ, Function.iterate_succ_apply, ← ih]
    refine congrArg (fun r => feedAll g r (List.replicate n false)) ?_
    rw [feed, word_false]
    exact congrArg _ BitVec.xor_zero

/-- **The bits may be added all at once**, as long as they fit into the register. -/
theorem feedAll_eq_iterate (r : BitVec w) {bits : List Bool} (h : bits.length ≤ w) :
    feedAll g r bits = (shift g)^[bits.length] (r ^^^ word w bits) := by
  induction bits generalizing r with
  | nil =>
    have hword : word w [] = 0 := BitVec.eq_of_getLsbD_eq fun i _ => by simp
    rw [hword]
    exact BitVec.xor_zero.symm
  | cons b bits ih =>
    -- the later bits stand one place higher, so that the clock moves them into place
    have hrest : shift g (word w (false :: bits)) = word w bits := by
      refine BitVec.eq_of_getLsbD_eq fun i hi => ?_
      rw [getLsbD_shift, getLsbD_word, getLsbD_word, getLsbD_word]
      simp only [List.getD_cons_succ, List.getD_cons_zero, Bool.and_false, Bool.false_and,
        Bool.xor_false, hi, decide_true, Bool.true_and]
      by_cases hi' : i + 1 < w
      · rw [decide_eq_true hi', Bool.true_and]
      · have hlen : bits.length ≤ i := by
          rw [List.length_cons] at h
          omega
        simp [hi', List.getD_eq_getElem?_getD, hlen]
    have hsplit : word w (b :: bits) = word w [b] ^^^ word w (false :: bits) := by
      refine BitVec.eq_of_getLsbD_eq fun i hi => ?_
      rw [BitVec.getLsbD_xor, getLsbD_word, getLsbD_word, getLsbD_word]
      cases i <;> simp
    have hlen : bits.length ≤ w := by
      rw [List.length_cons] at h
      omega
    calc feedAll g r (b :: bits) = feedAll g (feed g r b) bits := rfl
      _ = (shift g)^[bits.length] (feed g r b ^^^ word w bits) := ih _ hlen
      _ = (shift g)^[bits.length] (shift g (r ^^^ word w (b :: bits))) := by
          rw [hsplit, ← BitVec.xor_assoc, shift_xor, hrest, feed]
      _ = (shift g)^[(b :: bits).length] (r ^^^ word w (b :: bits)) := rfl

/-! ### Several clocks at once -/

/-- Zeros fall out without a trace. -/
theorem iterate_shift_of_low {n : ℕ} {r : BitVec w} (h : ∀ i < n, r.getLsbD i = false) :
    (shift g)^[n] r = r >>> n := by
  induction n generalizing r with
  | zero => exact (BitVec.ushiftRight_zero r).symm
  | succ n ih =>
    have hshift : shift g r = r >>> 1 := by
      rw [shift, h 0 (Nat.succ_pos n)]
      rfl
    rw [Function.iterate_succ_apply, hshift, ih fun i hi => ?_, ← BitVec.shiftRight_add,
      Nat.add_comm]
    rw [BitVec.getLsbD_ushiftRight, Nat.add_comm]
    exact h (i + 1) (Nat.succ_lt_succ hi)

/-- **Several clocks at once**: the bits that fall out are clocked on their own. -/
theorem iterate_shift_eq (n : ℕ) (r : BitVec w) :
    (shift g)^[n] r = (r >>> n) ^^^ (shift g)^[n] (r &&& BitVec.ofNat w (2 ^ n - 1)) := by
  obtain ⟨low, hlow⟩ : ∃ low, low = r &&& BitVec.ofNat w (2 ^ n - 1) := ⟨_, rfl⟩
  have hbit : ∀ i, low.getLsbD i = (r.getLsbD i && decide (i < n)) := by
    intro i
    rw [hlow, BitVec.getLsbD_and, BitVec.getLsbD_ofNat, Nat.testBit_two_pow_sub_one]
    by_cases hi : i < w
    · simp [hi]
    · simp [BitVec.getLsbD_of_ge r i (by omega)]
  have hhigh : (r ^^^ low) >>> n = r >>> n := by
    refine BitVec.eq_of_getLsbD_eq fun i _ => ?_
    rw [BitVec.getLsbD_ushiftRight, BitVec.getLsbD_xor, hbit, BitVec.getLsbD_ushiftRight,
      decide_eq_false (by omega), Bool.and_false, Bool.xor_false]
  have hsplit : r = (r ^^^ low) ^^^ low := by
    rw [BitVec.xor_assoc, BitVec.xor_self]
    exact BitVec.xor_zero.symm
  rw [← hlow, ← hhigh, ← iterate_shift_of_low g (n := n), ← iterate_shift_xor, ← hsplit]
  intro i hi
  rw [BitVec.getLsbD_xor, hbit]
  simp [hi]

/-! ### Bursts -/

variable {g}

/-- With the top tap set nothing but zero is clocked to zero. -/
theorem shift_eq_zero_iff (hg : g.getLsbD (w - 1) = true) {r : BitVec w} :
    shift g r = 0 ↔ r = 0 := by
  constructor
  · intro h
    have hbit : ∀ i, (r.getLsbD (i + 1) ^^ (r.getLsbD 0 && g.getLsbD i)) = false := by
      intro i
      rw [← getLsbD_shift, h]
      simp
    have hw : w - 1 < w := BitVec.lt_of_getLsbD hg
    have hlow : r.getLsbD 0 = false := by
      have htop := hbit (w - 1)
      rw [show w - 1 + 1 = w by omega, BitVec.getLsbD_of_ge r w le_rfl, hg] at htop
      simpa using htop
    refine BitVec.eq_of_getLsbD_eq fun i _ => ?_
    cases i with
    | zero => simpa using hlow
    | succ i => simpa [hlow] using hbit i
  · rintro rfl
    exact shift_zero g

theorem iterate_shift_eq_zero_iff (hg : g.getLsbD (w - 1) = true) (n : ℕ) {r : BitVec w} :
    (shift g)^[n] r = 0 ↔ r = 0 := by
  induction n generalizing r with
  | zero => rfl
  | succ n ih => rw [Function.iterate_succ_apply, ih, shift_eq_zero_iff hg]

theorem iterate_shift_inj (hg : g.getLsbD (w - 1) = true) (n : ℕ) {a b : BitVec w} :
    (shift g)^[n] a = (shift g)^[n] b ↔ a = b := by
  rw [← BitVec.xor_eq_zero_iff, ← iterate_shift_xor]
  exact (iterate_shift_eq_zero_iff hg n).trans BitVec.xor_eq_zero_iff

/-- **A burst** of at most `w` bits, not all zero, is still seen after any number of clocks. -/
theorem feedAll_burst (hg : g.getLsbD (w - 1) = true) (m n : ℕ) {burst : List Bool}
    (hlen : burst.length ≤ w) (hne : true ∈ burst) :
    feedAll g 0 (List.replicate m false ++ burst ++ List.replicate n false) ≠ 0 := by
  intro h
  have hzero : (shift g)^[m] 0 = 0 := (iterate_shift_eq_zero_iff hg m).2 rfl
  rw [feedAll_append, feedAll_append, feedAll_replicate_false, feedAll_replicate_false, hzero,
    iterate_shift_eq_zero_iff hg, feedAll_eq_iterate g 0 hlen, iterate_shift_eq_zero_iff hg] at h
  obtain ⟨i, hi, hbit⟩ := List.getElem_of_mem hne
  have hword : (0 ^^^ word w burst).getLsbD i = false := by
    rw [h]
    exact BitVec.getLsbD_zero
  have hgetD : burst.getD i false = true := by
    simp [List.getD_eq_getElem?_getD, hi, hbit]
  rw [BitVec.getLsbD_xor, getLsbD_word, decide_eq_true (by omega), hgetD] at hword
  simp at hword

end ShiftRegister

end Pico10BaseT
