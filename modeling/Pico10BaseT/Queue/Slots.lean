import Mathlib.Logic.Function.Basic
import Mathlib.Data.List.Nodup
import Mathlib.Algebra.Order.Group.Nat

/-!
# Queues in numbered slots

The elements of a queue are numbered in the order in which they are put in; number `i` is stored in
the cell `slot i`.  The numbers from `k` on, below the length of `xs`, are the elements not taken
yet.

* `Apart` : these elements are in different cells.
* `Holds` : each is in its cell.  Putting in one more element keeps this if its cell is free
  (`Holds.put`).
-/

namespace Pico10BaseT

variable {κ α : Type*}

/-- The numbers from `k` to `n` have different slots. -/
def Apart (slot : ℕ → κ) (k n : ℕ) : Prop := ∀ i j, k ≤ i → i < j → j < n → slot i ≠ slot j

/-- The elements of `xs` from number `k` on are in their cells. -/
def Holds (slot : ℕ → κ) (cells : κ → α) (xs : List α) (k : ℕ) : Prop :=
  ∀ i x, k ≤ i → xs[i]? = some x → cells (slot i) = x

variable {slot : ℕ → κ} {cells : κ → α} {xs : List α} {k n : ℕ}

theorem Apart.put (h : Apart slot k n) (hfree : ∀ i, k ≤ i → i < n → slot i ≠ slot n) :
    Apart slot k (n + 1) := by
  intro i j hi hij hj
  rcases Nat.lt_succ_iff_lt_or_eq.1 hj with hlt | rfl
  · exact h i j hi hij hlt
  · exact hfree i hi hij

theorem Apart.take (h : Apart slot k n) : Apart slot (k + 1) n :=
  fun i j hi => h i j (Nat.le_of_succ_le hi)

/-- Distinct slots, as a list. -/
theorem Apart.nodup (h : Apart slot k n) :
    ((List.range (n - k)).map fun i => slot (k + i)).Nodup := by
  refine List.Nodup.map_on (fun i hi j hj heq => ?_) List.nodup_range
  rw [List.mem_range] at hi hj
  rcases Nat.lt_trichotomy i j with hlt | rfl | hlt
  · exact absurd heq (h _ _ (by omega) (by omega) (by omega))
  · rfl
  · exact absurd heq.symm (h _ _ (by omega) (by omega) (by omega))

theorem holds_nil : Holds slot cells ([] : List α) k := fun i x _ hx => by simp at hx

/-- An element put into a free cell changes no other. -/
theorem Holds.put [DecidableEq κ] (h : Holds slot cells xs k) (x : α)
    (hfree : ∀ i, k ≤ i → i < xs.length → slot i ≠ slot xs.length) :
    Holds slot (Function.update cells (slot xs.length) x) (xs ++ [x]) k := by
  intro i y hi hy
  rcases Nat.lt_trichotomy i xs.length with hlt | rfl | hgt
  · rw [List.getElem?_append_left hlt] at hy
    rw [Function.update_of_ne (hfree i hi hlt)]
    exact h i y hi hy
  · rw [List.getElem?_concat_length, Option.some_inj] at hy
    rw [Function.update_self, hy]
  · rw [List.getElem?_eq_none (by simp; omega)] at hy
    cases hy

theorem Holds.take (h : Holds slot cells xs k) : Holds slot cells xs (k + 1) :=
  fun i x hi => h i x (Nat.le_of_succ_le hi)

end Pico10BaseT
