import Mathlib.Data.Finset.Card
import Mathlib.Data.Finset.Lattice.Basic
import Mathlib.Logic.Function.Iterate
import Mathlib.Tactic.Common
import Pico10BaseT.LTS.Basic

/-!
# Rolling allocators

Ids are handed out in the order of a successor function `next`: the first id from a cursor on that
is not in use is taken, and the cursor moves behind it.  At most `cap` ids are in use; which of them
are given back, and when, is left open.

How soon can an id be handed out again?  Within one lap of the cursor an id that was skipped was in
use when the lap began, since the lap has met it only once.  So a lap of `span` ids skips at most
`cap` of them, the one handed out first included (`Rolling.distance`).

* `Rolling.Lap` : what is known of the allocator since an id was handed out.
* `Rolling.Lap.alloc`, `Rolling.Lap.release` : the steps keep it.
-/

namespace Pico10BaseT

/-- A rolling allocator: where it looks next, and the ids in use. -/
structure Rolling (α : Type*) where
  cursor : α
  used : Finset α

namespace Rolling

variable {α : Type*} [DecidableEq α] (next : α → α)

/-- `x` is the first id from the cursor on that is not in use. -/
def Finds (s : Rolling α) (x : α) : Prop :=
  ∃ k, x = next^[k] s.cursor ∧ x ∉ s.used ∧ ∀ j < k, next^[j] s.cursor ∈ s.used

/-- Hand out an id, or give some back. -/
def Step (s : Rolling α) : Option α → Rolling α → Prop
  | some x, s' =>
    s.Finds next x ∧ s'.cursor = next x ∧ x ∈ s'.used ∧ s'.used ⊆ insert x s.used
  | none, s' => s'.cursor = s.cursor ∧ s'.used ⊆ s.used

/-- The allocator that starts at `start` with no id in use, and never has more than `cap`. -/
def system (start : α) (cap : ℕ) : System (Rolling α) (Option α) where
  init s := s.cursor = start ∧ s.used = ∅
  step s l s' := s.Step next l s' ∧ s'.used.card ≤ cap

/-- The `m` ids behind position `q`. -/
def visited (start : α) (q m : ℕ) : Finset α :=
  (Finset.range m).image fun j => next^[q + 1 + j] start

variable (start : α) (span cap : ℕ)

/-- Since `x` was handed out at position `q`, `n` more ids have been: that is as many as a lap
leaves, or the cursor is `m` ids further, less than a lap, and each of these was handed out or was in
use, as `x` was, when `x` was handed out. -/
def Lap (x : α) (n : ℕ) (s : Rolling α) : Prop :=
  span - cap ≤ n ∨
  ∃ q m, ∃ old : Finset α, x = next^[q] start ∧ s.cursor = next^[q + 1 + m] start ∧
    m ≤ span - 1 ∧ x ∈ old ∧ old.card ≤ cap ∧ s.used ⊆ old ∪ visited next start q m ∧
    m ≤ n + (old.erase x ∩ visited next start q m).card

variable {next start span cap} {s s' : Rolling α} {x y : α} {n : ℕ}

theorem visited_mono {q m m' : ℕ} (h : m ≤ m') :
    visited next start q m ⊆ visited next start q m' :=
  Finset.image_subset_image (Finset.range_subset_range.2 h)

section Distinct

-- ids less than a lap apart are different
variable (hlap : ∀ i j, i < j → j < i + span → next^[i] start ≠ next^[j] start)

include hlap

omit [DecidableEq α] in
theorem iterate_inj {i j : ℕ} (hi : i < j + span) (hj : j < i + span)
    (h : next^[i] start = next^[j] start) : i = j := by
  rcases Nat.lt_trichotomy i j with hij | hij | hij
  · exact absurd h (hlap i j hij hj)
  · exact hij
  · exact absurd h.symm (hlap j i hij hi)

/-- Ids skipped before the lap ends were in use when it began. -/
theorem card_visited {q m k : ℕ} {old : Finset α} (hk : m + k ≤ span - 1)
    (hused : s.used ⊆ old ∪ visited next start q m)
    (hskip : ∀ j < k, next^[q + 1 + (m + j)] start ∈ s.used) :
    (old.erase (next^[q] start) ∩ visited next start q m).card + k ≤
      (old.erase (next^[q] start) ∩ visited next start q (m + k)).card := by
  induction k with
  | zero => exact le_rfl
  | succ k ih =>
    have hlast := hskip k (Nat.lt_succ_self k)
    have hnew : next^[q + 1 + (m + k)] start ∉ visited next start q (m + k) := by
      intro hmem
      obtain ⟨j, hj, heq⟩ := Finset.mem_image.1 hmem
      have hj' := Finset.mem_range.1 hj
      have := iterate_inj hlap (by omega) (by omega) heq
      omega
    have hold : next^[q + 1 + (m + k)] start ∈ old := by
      rcases Finset.mem_union.1 (hused hlast) with h | h
      · exact h
      · obtain ⟨j, hj, heq⟩ := Finset.mem_image.1 h
        have hj' := Finset.mem_range.1 hj
        have := iterate_inj hlap (by omega) (by omega) heq
        omega
    have hne : next^[q + 1 + (m + k)] start ≠ next^[q] start := by
      intro heq
      have := iterate_inj hlap (by omega) (by omega) heq
      omega
    have hvis : visited next start q (m + (k + 1)) =
        insert (next^[q + 1 + (m + k)] start) (visited next start q (m + k)) := by
      rw [visited, ← Nat.add_assoc, Finset.range_add_one, Finset.image_insert, visited]
    have hstep := ih (by omega) fun j hj => hskip j (Nat.lt_succ_of_lt hj)
    rw [hvis, Finset.inter_insert_of_mem (Finset.mem_erase.2 ⟨hne, hold⟩),
      Finset.card_insert_of_notMem fun h => hnew (Finset.mem_inter.1 h).2]
    omega

/-- When the rest of the lap is skipped, as many ids as a lap leaves have been handed out. -/
theorem handedOut_of_skipped {q m : ℕ} {old : Finset α} (hm : m ≤ span - 1)
    (hmem : next^[q] start ∈ old) (hcard : old.card ≤ cap)
    (hused : s.used ⊆ old ∪ visited next start q m)
    (hskip : ∀ j < span - 1 - m, next^[q + 1 + (m + j)] start ∈ s.used)
    (hn : m ≤ n + (old.erase (next^[q] start) ∩ visited next start q m).card) :
    span - cap ≤ n := by
  have hle := card_visited hlap (k := span - 1 - m) (by omega) hused hskip
  have hrest : (old.erase (next^[q] start) ∩ visited next start q (m + (span - 1 - m))).card ≤
      old.card - 1 := by
    rw [← Finset.card_erase_of_mem hmem]
    exact Finset.card_le_card Finset.inter_subset_left
  have hpos : 0 < old.card := Finset.card_pos.2 ⟨_, hmem⟩
  omega

/-- **Handing out an id.**  It is `x` again only after as many others as a lap leaves. -/
theorem Lap.alloc (h : Lap next start span cap x n s) (hst : s.Step next (some y) s') :
    (y = x → span - cap ≤ n) ∧ Lap next start span cap x (n + 1) s' := by
  rcases h with h | ⟨q, m, old, rfl, hcur, hm, hmem, hcard, hused, hn⟩
  · exact ⟨fun _ => h, .inl (Nat.le_succ_of_le h)⟩
  obtain ⟨⟨k, hy, -, hskip⟩, hcur', -, hused'⟩ := hst
  have hpos : ∀ j, next^[j] s.cursor = next^[q + 1 + (m + j)] start := by
    intro j
    rw [hcur, ← Function.iterate_add_apply, show j + (q + 1 + m) = q + 1 + (m + j) by omega]
  simp only [hpos] at hy hskip
  by_cases hend : m + k < span - 1
  · -- the lap goes on
    have hle := card_visited hlap (Nat.le_of_lt hend) hused hskip
    constructor
    · intro heq
      have := iterate_inj hlap (by omega) (by omega) (hy.symm.trans heq)
      omega
    · refine .inr ⟨q, m + k + 1, old, rfl, ?_, hend, hmem, hcard, ?_, ?_⟩
      · rw [hcur', hy, ← Function.iterate_succ_apply' next]
        rfl
      · intro z hz
        rcases Finset.mem_insert.1 (hused' hz) with rfl | hz
        · refine Finset.mem_union_right _ (Finset.mem_image.2 ⟨m + k, ?_, hy.symm⟩)
          exact Finset.mem_range.2 (Nat.lt_succ_self _)
        · have hle : m ≤ m + k + 1 := Nat.le_add_right m (k + 1)
          exact Finset.union_subset_union_right (visited_mono hle) (hused hz)
      · have hmono : (old.erase (next^[q] start) ∩ visited next start q (m + k)).card ≤
            (old.erase (next^[q] start) ∩ visited next start q (m + k + 1)).card :=
          Finset.card_le_card (Finset.inter_subset_inter_left (visited_mono (Nat.le_succ _)))
        omega
  · -- the rest of the lap was skipped
    have hdone := handedOut_of_skipped hlap hm hmem hcard hused (fun j hj => hskip j (by omega)) hn
    exact ⟨fun _ => hdone, .inl (Nat.le_succ_of_le hdone)⟩

end Distinct

theorem Lap.release (h : Lap next start span cap x n s) (hst : s.Step next none s') :
    Lap next start span cap x n s' := by
  obtain ⟨hcur, hused⟩ := hst
  rcases h with h | ⟨q, m, old, hx, hc, hm, hmem, hcard, hu, hn⟩
  · exact .inl h
  · exact .inr ⟨q, m, old, hx, hcur.trans hc, hm, hmem, hcard, hused.trans hu, hn⟩

/-- A lap begins when an id is handed out. -/
theorem Lap.of_alloc {p : ℕ} (hp : s.cursor = next^[p] start) (hst : s.Step next (some x) s')
    (hcard : s'.used.card ≤ cap) : Lap next start span cap x 0 s' := by
  obtain ⟨⟨k, hx, -⟩, hcur, hmem, -⟩ := hst
  have hpos : x = next^[k + p] start := by rw [hx, hp, Function.iterate_add_apply]
  refine .inr ⟨k + p, 0, s'.used, hpos, ?_, Nat.zero_le _, hmem, hcard,
    Finset.subset_union_left, Nat.zero_le _⟩
  rw [hcur, hpos, Nat.add_zero, Function.iterate_succ_apply']

/-- What the ids handed out so far say of the allocator. -/
structure History (next : α → α) (start : α) (span cap : ℕ) (ids : List α) (s : Rolling α) :
    Prop where
  cursor : ∃ p, s.cursor = next^[p] start
  lap : ∀ i x, ids[i]? = some x → Lap next start span cap x (ids.length - i - 1) s
  distance : ∀ i j x, i < j → ids[i]? = some x → ids[j]? = some x → span - cap ≤ j - i - 1

omit [DecidableEq α] in
/-- A number in a list with one more element is an earlier one or the last. -/
theorem getElem?_concat_cases {ids : List α} {i : ℕ} (h : (ids ++ [y])[i]? = some x) :
    (i < ids.length ∧ ids[i]? = some x) ∨ (i = ids.length ∧ y = x) := by
  rcases Nat.lt_trichotomy i ids.length with hlt | rfl | hgt
  · rw [List.getElem?_append_left hlt] at h
    exact .inl ⟨hlt, h⟩
  · rw [List.getElem?_concat_length, Option.some_inj] at h
    exact .inr ⟨rfl, h⟩
  · rw [List.getElem?_eq_none (by simp; omega)] at h
    cases h

theorem History.release {ids : List α} (h : History next start span cap ids s)
    (hst : s.Step next none s') : History next start span cap ids s' := by
  obtain ⟨p, hp⟩ := h.cursor
  exact ⟨⟨p, hst.1.trans hp⟩, fun i x hi => (h.lap i x hi).release hst, h.distance⟩

theorem History.alloc (hlap : ∀ i j, i < j → j < i + span → next^[i] start ≠ next^[j] start)
    {ids : List α} (h : History next start span cap ids s) (hst : s.Step next (some y) s')
    (hcard : s'.used.card ≤ cap) : History next start span cap (ids ++ [y]) s' := by
  obtain ⟨p, hp⟩ := h.cursor
  refine ⟨?_, ?_, ?_⟩
  · obtain ⟨⟨k, hy, -⟩, hcur, -⟩ := hst
    refine ⟨k + p + 1, ?_⟩
    rw [hcur, hy, hp, ← Function.iterate_add_apply, ← Function.iterate_succ_apply' next]
  · intro i x hi
    rw [List.length_append, List.length_singleton]
    rcases getElem?_concat_cases hi with ⟨hlt, hi⟩ | ⟨rfl, rfl⟩
    · rw [show ids.length + 1 - i - 1 = ids.length - i - 1 + 1 by omega]
      exact ((h.lap i x hi).alloc hlap hst).2
    · rw [show ids.length + 1 - ids.length - 1 = 0 by omega]
      exact Lap.of_alloc hp hst hcard
  · intro i j x hij hi hj
    rcases getElem?_concat_cases hi with ⟨hlt, hi⟩ | ⟨rfl, -⟩
    · rcases getElem?_concat_cases hj with ⟨-, hj⟩ | ⟨rfl, rfl⟩
      · exact h.distance i j x hij hi hj
      · exact ((h.lap i y hi).alloc hlap hst).1 rfl
    · rcases getElem?_concat_cases hj with ⟨hlt, -⟩ | ⟨rfl, -⟩ <;> omega

/-- **The reuse distance.**  Between two times that a rolling allocator hands out the same id, it
hands out at least `span - cap` others. -/
theorem distance (hlap : ∀ i j, i < j → j < i + span → next^[i] start ≠ next^[j] start)
    {ls : List (Option α)} (h : (system next start cap).Run ls s) {i j : ℕ} (hij : i < j)
    (hi : (ls.filterMap id)[i]? = some x) (hj : (ls.filterMap id)[j]? = some x) :
    span - cap ≤ j - i - 1 := by
  have hhist : History next start span cap (ls.filterMap id) s := by
    refine h.induction (J := fun ls s => History next start span cap (ls.filterMap id) s) ?_ ?_
    · rintro s ⟨hcur, -⟩
      exact ⟨⟨0, hcur⟩, by simp, by simp⟩
    · rintro ls s l s' - hJ ⟨hst, hcard⟩
      rw [List.filterMap_append]
      cases l with
      | none =>
        rw [List.filterMap_cons_none rfl, List.filterMap_nil, List.append_nil]
        exact hJ.release hst
      | some y => exact hJ.alloc hlap hst hcard
  exact hhist.distance i j x hij hi hj

end Rolling

end Pico10BaseT
