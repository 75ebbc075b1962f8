import Pico10BaseT.Conntrack.Checksum

/-!
# The incremental checksum against recomputation

Words are changed one after the other, at any positions; `checksum_incr` sees the pairs of old and
new words only.

* `toNat_onesSum` : the one's-complement sum is the representative of the sum.
* `checksumIncr_eq_recomputed_iff` : the updated checksum is the one recomputed exactly when a word
  is left that is not zero.
-/

namespace Pico10BaseT

open OnesComplement

/-- The one's-complement sum of words. -/
def onesSum (ws : List UInt16) : UInt16 := ws.foldl add1c 0

/-- The words after the changes `(position, new word)`. -/
def wordsAfter (ws : List UInt16) (changes : List (ℕ × UInt16)) : List UInt16 :=
  changes.foldl (fun ws c => ws.set c.1 c.2) ws

/-- The pairs of old and new words of the changes. -/
def changedPairs : List UInt16 → List (ℕ × UInt16) → List (UInt16 × UInt16)
  | _, [] => []
  | ws, (i, new) :: changes => (ws.getD i 0, new) :: changedPairs (ws.set i new) changes

theorem toNat_foldl_add1c (ws : List UInt16) {acc : UInt16} {n : ℕ}
    (h : acc.toNat = norm 65535 n) :
    (ws.foldl add1c acc).toNat = norm 65535 (n + (ws.map UInt16.toNat).sum) := by
  induction ws generalizing acc n with
  | nil => simpa using h
  | cons w ws ih =>
    rw [List.foldl_cons, ih (toNat_add1c_norm w h), List.map_cons, List.sum_cons, Nat.add_assoc]

theorem toNat_onesSum (ws : List UInt16) :
    (onesSum ws).toNat = norm 65535 (ws.map UInt16.toNat).sum := by
  rw [onesSum, toNat_foldl_add1c ws (n := 0) rfl, Nat.zero_add]

/-- A word is replaced in the sum. -/
theorem sum_set_add {ws : List UInt16} {i : ℕ} (h : i < ws.length) (new : UInt16) :
    ((ws.set i new).map UInt16.toNat).sum + (ws.getD i 0).toNat =
      (ws.map UInt16.toNat).sum + new.toNat := by
  induction ws generalizing i with
  | nil => exact absurd h (Nat.not_lt_zero _)
  | cons w ws ih =>
    cases i with
    | zero =>
      simp only [List.set_cons_zero, List.map_cons, List.sum_cons, List.getD_cons_zero]
      omega
    | succ i =>
      have hrest := ih (Nat.lt_of_succ_lt_succ h)
      simp only [List.set_cons_succ, List.map_cons, List.sum_cons, List.getD_cons_succ]
      omega

/-- The old words and the words at the end make up the words at the start and the new ones. -/
theorem sum_wordsAfter {ws : List UInt16} {changes : List (ℕ × UInt16)}
    (h : ∀ c ∈ changes, c.1 < ws.length) :
    ((wordsAfter ws changes).map UInt16.toNat).sum +
        ((changedPairs ws changes).map fun c => c.1.toNat).sum =
      (ws.map UInt16.toNat).sum + ((changedPairs ws changes).map fun c => c.2.toNat).sum := by
  induction changes generalizing ws with
  | nil => rfl
  | cons c changes ih =>
    obtain ⟨i, new⟩ := c
    have hi : i < ws.length := h (i, new) List.mem_cons_self
    have hset := sum_set_add hi new
    have hin : ∀ c ∈ changes, c.1 < (ws.set i new).length := fun c hc => by
      rw [List.length_set]
      exact h c (List.mem_cons_of_mem _ hc)
    have hrest := ih hin
    simp only [wordsAfter, List.foldl_cons, changedPairs, List.map_cons, List.sum_cons] at hrest ⊢
    omega

theorem length_changedPairs (ws : List UInt16) (changes : List (ℕ × UInt16)) :
    (changedPairs ws changes).length = changes.length := by
  induction changes generalizing ws with
  | nil => rfl
  | cons c changes ih => rw [changedPairs, List.length_cons, ih, List.length_cons]

/-- The changes add a multiple of `65535` to what they leave. -/
theorem sum_add_changeSum {ws : List UInt16} {changes : List (ℕ × UInt16)}
    (h : ∀ c ∈ changes, c.1 < ws.length) :
    (ws.map UInt16.toNat).sum + changeSum (changedPairs ws changes) =
      ((wordsAfter ws changes).map UInt16.toNat).sum + 65535 * changes.length := by
  have hwords := sum_wordsAfter h
  have hchanges := changeSum_add (changedPairs ws changes)
  rw [length_changedPairs] at hchanges
  omega

theorem sum_toNat_pos_iff {ws : List UInt16} :
    0 < (ws.map UInt16.toNat).sum ↔ ∃ w ∈ ws, w ≠ 0 := by
  rw [Nat.pos_iff_ne_zero, Ne, List.sum_eq_zero_iff]
  simp only [List.mem_map, forall_exists_index, and_imp, forall_apply_eq_imp_iff₂, not_forall,
    exists_prop]
  refine exists_congr fun w => and_congr_right fun _ => not_congr ?_
  rw [← UInt16.toNat_inj, UInt16.toNat_zero]

/-- **Incremental update and recomputation** give the same checksum exactly when a word is left that
is not zero. -/
theorem checksumIncr_eq_recomputed_iff {ws : List UInt16} {changes : List (ℕ × UInt16)}
    (hne : changes ≠ []) (h : ∀ c ∈ changes, c.1 < ws.length) :
    checksumIncr (~~~onesSum ws) (changedPairs ws changes) = ~~~onesSum (wordsAfter ws changes) ↔
      ∃ w ∈ wordsAfter ws changes, w ≠ 0 := by
  have hlen := List.length_pos_of_ne_nil hne
  have hacc := toNat_foldl_changes (changedPairs ws changes) (toNat_onesSum ws)
  rw [sum_add_changeSum h] at hacc
  rw [checksumIncr, UInt16.not_not, UInt16.not_inj, ← UInt16.toNat_inj, hacc, toNat_onesSum,
    ← sum_toNat_pos_iff]
  rcases Nat.eq_zero_or_pos ((wordsAfter ws changes).map UInt16.toNat).sum with hzero | hpos
  · have hne : norm 65535 (0 + 65535 * changes.length) ≠ 0 := by
      rw [Ne, norm_eq_zero]
      omega
    rw [hzero, norm_eq_zero.2 rfl]
    exact iff_of_false hne (Nat.lt_irrefl 0)
  · refine iff_of_true ((norm_eq_norm_iff (by omega) hpos).2 ?_) hpos
    exact Nat.add_mul_mod_self_left ..

/-- Both words of the sum are the other zero or become it. -/
theorem checksumIncr_eq_recomputed_zeros :
    checksumIncr (~~~onesSum [0xffff, 0]) (changedPairs [0xffff, 0] [(0, 0), (1, 0xffff)]) =
        ~~~onesSum (wordsAfter [0xffff, 0] [(0, 0), (1, 0xffff)]) ↔
      ∃ w ∈ wordsAfter [0xffff, 0] [(0, 0), (1, 0xffff)], w ≠ 0 :=
  checksumIncr_eq_recomputed_iff (by decide) (by decide)

end Pico10BaseT
