import Mathlib.Algebra.BigOperators.Group.List.Basic
import Mathlib.Algebra.Order.BigOperators.Group.List
import Mathlib.Data.Nat.ModEq
import Mathlib.Tactic.Ring

/-!
# One's-complement sums

Addition with end-around carry on the words `0, …, m`, where `m = 2 ^ w - 1` for `w`-bit words.
The words `0` and `m` are the two representations of zero; a sum is `0` only when all its terms
are, and otherwise the representative in `1, …, m` of its residue.  `norm m` picks that
representative, and turns end-around addition into ordinary addition:

* `add_norm` : `add m (norm m a) (norm m b) = norm m (a + b)`;
* `norm_eq_norm_iff` : positive sums have the same representative iff they agree modulo `m`.
-/

namespace Pico10BaseT

namespace OnesComplement

variable {m : ℕ}

/-- End-around-carry addition. -/
def add (m a b : ℕ) : ℕ := if a + b ≤ m then a + b else a + b - m

/-- The word that represents the sum `n`. -/
def norm (m n : ℕ) : ℕ := if n = 0 then 0 else (n - 1) % m + 1

theorem norm_eq_zero {n : ℕ} : norm m n = 0 ↔ n = 0 := by
  unfold norm
  split_ifs with h
  · simp [h]
  · simp [h]

theorem norm_le (hm : 0 < m) (n : ℕ) : norm m n ≤ m := by
  unfold norm
  split_ifs
  · exact Nat.zero_le _
  · exact Nat.mod_lt _ hm

theorem norm_of_le {n : ℕ} (h : n ≤ m) : norm m n = n := by
  unfold norm
  split_ifs with h0
  · exact h0.symm
  · rw [Nat.mod_eq_of_lt (by omega)]
    omega

theorem norm_modEq (n : ℕ) : norm m n ≡ n [MOD m] := by
  unfold norm
  split_ifs with h0
  · rw [h0]
  · have hn : n = n - 1 + 1 := by omega
    calc (n - 1) % m + 1 ≡ n - 1 + 1 [MOD m] := (Nat.mod_modEq _ _).add_right 1
      _ = n := hn.symm

theorem norm_eq_norm_iff {a b : ℕ} (ha : 0 < a) (hb : 0 < b) :
    norm m a = norm m b ↔ a ≡ b [MOD m] := by
  constructor
  · intro h
    exact ((norm_modEq a).symm.trans (h ▸ Nat.ModEq.refl _)).trans (norm_modEq b)
  · intro h
    have h' : (a - 1) ≡ (b - 1) [MOD m] :=
      Nat.ModEq.add_right_cancel' 1 (by rwa [Nat.sub_add_cancel ha, Nat.sub_add_cancel hb])
    unfold norm
    rw [if_neg (by omega), if_neg (by omega), h']

/-- Which sums are the other zero. -/
theorem norm_eq_self_iff (hm : 0 < m) {n : ℕ} : norm m n = m ↔ 0 < n ∧ n ≡ 0 [MOD m] := by
  have hmm : m ≡ 0 [MOD m] := Nat.modEq_zero_iff_dvd.2 dvd_rfl
  constructor
  · intro h
    have hpos : 0 < n := Nat.pos_of_ne_zero fun h0 => by
      rw [norm_eq_zero.2 h0] at h
      omega
    refine ⟨hpos, ((norm_eq_norm_iff hpos hm).1 ?_).trans hmm⟩
    rw [h, norm_of_le le_rfl]
  · rintro ⟨hpos, hmod⟩
    rw [(norm_eq_norm_iff hpos hm).2 (hmod.trans hmm.symm), norm_of_le le_rfl]

theorem add_le {a b : ℕ} (ha : a ≤ m) (hb : b ≤ m) : add m a b ≤ m := by
  unfold add
  split_ifs <;> omega

theorem add_modEq (a b : ℕ) : add m a b ≡ a + b [MOD m] := by
  unfold add
  split_ifs with h
  · exact Nat.ModEq.refl _
  · exact (Nat.mod_eq_sub_mod (by omega)).symm

theorem add_eq_zero {a b : ℕ} : add m a b = 0 ↔ a = 0 ∧ b = 0 := by
  unfold add
  split_ifs <;> omega

/-- **End-around addition is addition of representatives.** -/
theorem add_norm (hm : 0 < m) (a b : ℕ) : add m (norm m a) (norm m b) = norm m (a + b) := by
  rcases Nat.eq_zero_or_pos (a + b) with h0 | hpos
  · obtain ⟨rfl, rfl⟩ : a = 0 ∧ b = 0 := by omega
    rfl
  · have hne : add m (norm m a) (norm m b) ≠ 0 := by
      rw [Ne, add_eq_zero, norm_eq_zero, norm_eq_zero]
      omega
    rw [← norm_of_le (add_le (norm_le hm a) (norm_le hm b)),
      norm_eq_norm_iff (Nat.pos_of_ne_zero hne) hpos]
    exact (add_modEq _ _).trans ((norm_modEq a).add (norm_modEq b))

/-- The complement of a word undoes it modulo `m`. -/
theorem sub_add_modEq {a : ℕ} (h : a ≤ m) : m - a + a ≡ 0 [MOD m] := by
  rw [Nat.sub_add_cancel h]
  exact (Nat.modEq_zero_iff_dvd).2 dvd_rfl

/-- **The check word law.**  The complement of a sum makes it the other zero. -/
theorem norm_add_compl (hm : 0 < m) (n : ℕ) : norm m (n + (m - norm m n)) = m := by
  have hle := norm_le hm n
  rcases Nat.eq_zero_or_pos n with rfl | hpos
  · rw [norm_eq_zero.2 rfl, Nat.zero_add, Nat.sub_zero, norm_of_le le_rfl]
  · have hmod : n + (m - norm m n) ≡ m [MOD m] :=
      calc n + (m - norm m n) ≡ norm m n + (m - norm m n) [MOD m] :=
            (norm_modEq n).symm.add_right _
        _ = m := by omega
    rw [(norm_eq_norm_iff (by omega) hm).2 hmod, norm_of_le le_rfl]

/-- **The incremental update law.**  `acc` accumulates the complement of the old check word `c`
and, for every change, the complement of the old word and the new word; the complement of `acc` as
the new check word balances the changes. -/
theorem incr_modEq {c acc : ℕ} (hc : c ≤ m) (hacc : acc ≤ m) (changes : List (ℕ × ℕ))
    (hold : ∀ p ∈ changes, p.1 ≤ m)
    (h : acc ≡ m - c + (changes.map fun p => m - p.1 + p.2).sum [MOD m]) :
    m - acc + (changes.map Prod.snd).sum ≡ c + (changes.map Prod.fst).sum [MOD m] := by
  have hsum : (changes.map fun p => m - p.1 + p.2).sum + (changes.map Prod.fst).sum ≡
      (changes.map Prod.snd).sum [MOD m] := by
    clear h
    induction changes with
    | nil => rfl
    | cons p ps ih =>
      have hp := sub_add_modEq (hold p List.mem_cons_self)
      have ih := ih fun q hq => hold q (List.mem_cons_of_mem _ hq)
      simp only [List.map_cons, List.sum_cons]
      calc m - p.1 + p.2 + (ps.map fun p => m - p.1 + p.2).sum + (p.1 + (ps.map Prod.fst).sum)
          = (m - p.1 + p.1) + p.2 +
              ((ps.map fun p => m - p.1 + p.2).sum + (ps.map Prod.fst).sum) := by ring
        _ ≡ 0 + p.2 + (ps.map Prod.snd).sum [MOD m] := (hp.add_right _).add ih
        _ = p.2 + (ps.map Prod.snd).sum := by ring
  -- add `acc` on both sides
  refine Nat.ModEq.add_right_cancel' acc ?_
  calc m - acc + (changes.map Prod.snd).sum + acc
      = (m - acc + acc) + (changes.map Prod.snd).sum := by ring
    _ ≡ 0 + (changes.map Prod.snd).sum [MOD m] := (sub_add_modEq hacc).add_right _
    _ ≡ 0 + ((changes.map fun p => m - p.1 + p.2).sum + (changes.map Prod.fst).sum) [MOD m] :=
        (hsum.symm).add_left _
    _ ≡ (m - c + c) + ((changes.map fun p => m - p.1 + p.2).sum + (changes.map Prod.fst).sum)
          [MOD m] := (sub_add_modEq hc).symm.add_right _
    _ = c + (changes.map Prod.fst).sum + (m - c + (changes.map fun p => m - p.1 + p.2).sum) := by
        ring
    _ ≡ c + (changes.map Prod.fst).sum + acc [MOD m] := h.symm.add_left _

end OnesComplement

end Pico10BaseT
