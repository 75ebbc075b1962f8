import Mathlib.Data.Int.ModEq
import Mathlib.Order.Bounds.Basic
import Mathlib.Tactic.Common

/-!
# The next number of a residue class

A counter that goes up by one and is compared modulo `m`: `untilModEq m w v` is the number of
steps from `w` to the next number congruent to `v`, at least one and at most `m`.

## Main results

* `isLeast_untilModEq` : it is the least such number.
* `untilModEq_before`, `untilModEq_after` : from `d` steps later, to a number `n` steps on, the rest
  of the `n` steps while `d < n`, and afterwards the rest of a whole round.
-/

namespace Pico10BaseT

/-- Steps from `w` to the next number congruent to `v`. -/
def untilModEq (m w v : ℕ) : ℕ := m - (w + (m - v % m)) % m

variable {m w v : ℕ}

theorem untilModEq_pos (hm : 0 < m) : 0 < untilModEq m w v :=
  Nat.sub_pos_of_lt (Nat.mod_lt _ hm)

theorem untilModEq_le : untilModEq m w v ≤ m := Nat.sub_le _ _

theorem add_untilModEq (hm : 0 < m) : w + untilModEq m w v ≡ v [MOD m] := by
  have hv : v % m ≤ m := (Nat.mod_lt _ hm).le
  have hlt := Nat.mod_lt (w + (m - v % m)) hm
  have hsum : w + untilModEq m w v + (w + (m - v % m)) % m = w + m := by
    rw [untilModEq]
    omega
  have hw : w + untilModEq m w v + (w + (m - v % m)) ≡ w + m [MOD m] := by
    rw [← hsum]
    exact (Nat.mod_modEq _ m).symm.add_left _
  have hround : w + untilModEq m w v + (m - v % m) ≡ v + (m - v % m) [MOD m] := by
    apply Nat.ModEq.add_right_cancel' w
    calc w + untilModEq m w v + (m - v % m) + w
        = w + untilModEq m w v + (w + (m - v % m)) := by omega
      _ ≡ w + m [MOD m] := hw
      _ = v % m + (m - v % m) + w := by omega
      _ ≡ v + (m - v % m) + w [MOD m] := ((Nat.mod_modEq v m).add_right _).add_right _
  exact hround.add_right_cancel' _

/-- Two numbers of a class less than a round apart are one. -/
theorem eq_of_add_modEq {a b : ℕ} (ha : a < b + m) (hb : b < a + m)
    (h : w + a ≡ w + b [MOD m]) : a = b := by
  have habs : |(b : ℤ) - a| < m := abs_lt.2 ⟨by omega, by omega⟩
  exact (h.add_left_cancel' w).eq_of_abs_lt habs

theorem untilModEq_eq {n : ℕ} (hpos : 0 < n) (hle : n ≤ m) (h : w + n ≡ v [MOD m]) :
    untilModEq m w v = n := by
  have hm : 0 < m := hpos.trans_le hle
  have hpos' := untilModEq_pos (w := w) (v := v) hm
  have hle' := untilModEq_le (m := m) (w := w) (v := v)
  exact eq_of_add_modEq (by omega) (by omega) ((add_untilModEq hm).trans h.symm)

theorem untilModEq_congr {w' v' : ℕ} (hm : 0 < m) (hw : w ≡ w' [MOD m]) (hv : v ≡ v' [MOD m]) :
    untilModEq m w v = untilModEq m w' v' := by
  apply untilModEq_eq (untilModEq_pos hm) untilModEq_le
  calc w + untilModEq m w' v' ≡ w' + untilModEq m w' v' [MOD m] := hw.add_right _
    _ ≡ v' [MOD m] := add_untilModEq hm
    _ ≡ v [MOD m] := hv.symm

theorem isLeast_untilModEq (hm : 0 < m) :
    IsLeast {n | 0 < n ∧ w + n ≡ v [MOD m]} (untilModEq m w v) := by
  refine ⟨⟨untilModEq_pos hm, add_untilModEq hm⟩, ?_⟩
  rintro n ⟨hpos, hn⟩
  rcases le_or_gt n m with hle | hlt
  · exact (untilModEq_eq hpos hle hn).le
  · exact untilModEq_le.trans hlt.le

section Later

variable {d n : ℕ}

/-- Before the number, the rest of the way to it. -/
theorem untilModEq_before (h : d < n) (hn : n ≤ d + m) : untilModEq m (w + d) (w + n) = n - d := by
  apply untilModEq_eq
  · omega
  · omega
  · have heq : w + d + (n - d) = w + n := by omega
    rw [heq]

/-- From the number on, the rest of a round. -/
theorem untilModEq_after (hm : 0 < m) (h : n ≤ d) :
    untilModEq m (w + d) (w + n) = m - (d - n) % m := by
  have hlt := Nat.mod_lt (d - n) hm
  apply untilModEq_eq
  · omega
  · omega
  · have hround : (d - n) % m + (m - (d - n) % m) = m := by omega
    calc w + d + (m - (d - n) % m) = w + n + (d - n) + (m - (d - n) % m) := by omega
      _ ≡ w + n + (d - n) % m + (m - (d - n) % m) [MOD m] :=
        (((Nat.mod_modEq (d - n) m).symm).add_left (w + n)).add_right _
      _ = w + n + m := by omega
      _ ≡ w + n [MOD m] := Nat.add_modEq_right

end Later

end Pico10BaseT
