import Mathlib.Data.List.DropRight
import Pico10BaseT.Runs.Maximal

/-!
# The blocks of a list

The *blocks* of `p` in a list are its maximal runs of at least some length, in order: the pieces
between elements outside `p`.  Cutting behind a settled part cuts no block (`blocks_append`); what
stands behind the last element outside `p` is not `ended`.
-/

namespace Pico10BaseT

variable {α : Type*} (p : α → Bool)

/-- The maximal runs of `p` that are at least `minLen` long. -/
def blocks (minLen : ℕ) (l : List α) : List (List α) :=
  (l.splitOnP fun a => !p a).filter fun b => minLen ≤ b.length

/-- The list up to its last element outside `p`. -/
def ended (l : List α) : List α := l.rdropWhile p

variable {p} {minLen : ℕ} {a b l : List α} {x : α}

/-- An element outside `p` separates. -/
theorem blocks_append_cons (hx : p x = false) :
    blocks p minLen (a ++ x :: b) = blocks p minLen a ++ blocks p minLen b := by
  rw [blocks, List.splitOnP_append_cons a b (by simp [hx]), List.filter_append]
  rfl

theorem blocks_nil (hmin : 0 < minLen) : blocks p minLen [] = [] := by
  simp [blocks, hmin.ne']

theorem blocks_cons (hmin : 0 < minLen) (hx : p x = false) :
    blocks p minLen (x :: l) = blocks p minLen l := by
  rw [← List.nil_append (x :: l), blocks_append_cons hx, blocks_nil hmin, List.nil_append]

theorem blocks_outside (hmin : 0 < minLen) (ha : ∀ x ∈ a, p x = false) :
    blocks p minLen (a ++ b) = blocks p minLen b := by
  induction a with
  | nil => rfl
  | cons x a ih =>
    rw [List.cons_append, blocks_cons hmin (ha x List.mem_cons_self),
      ih fun y hy => ha y (List.mem_cons_of_mem _ hy)]

/-- Elements of `p` only are one block, if there are enough. -/
theorem blocks_of_forall (h : ∀ x ∈ l, p x = true) :
    blocks p minLen l = if minLen ≤ l.length then [l] else [] := by
  rw [blocks, List.splitOnP_eq_singleton (by simpa using h)]
  by_cases hmin : minLen ≤ l.length <;> simp [hmin]

/-- A run at the front, up to its end. -/
theorem blocks_run (hmin : 0 < minLen) (ha : ∀ x ∈ a, p x = true)
    (hb : ∀ x ∈ b.head?, p x = false) :
    blocks p minLen (a ++ b) = (if minLen ≤ a.length then [a] else []) ++ blocks p minLen b := by
  cases b with
  | nil => rw [List.append_nil, blocks_of_forall ha, blocks_nil hmin, List.append_nil]
  | cons x b =>
    have hx : p x = false := hb x rfl
    rw [blocks_append_cons hx, blocks_of_forall ha, blocks_cons hmin hx]

/-- A settled list is empty, or ends outside `p`. -/
theorem settled_iff : Settled p l ↔ l = [] ∨ ∃ a x, l = a ++ [x] ∧ p x = false := by
  rcases List.eq_nil_or_concat l with rfl | ⟨a, x, rfl⟩
  · simp [Settled]
  · simp only [Settled, List.concat_eq_append, List.length_append, List.length_singleton,
      Nat.add_right_cancel_iff, forall_eq, List.append_eq_nil_iff, List.cons_ne_self, and_false,
      false_or]
    constructor
    · intro h
      exact ⟨a, x, rfl, by simpa [holdsAt] using h⟩
    · rintro ⟨a', x', heq, hx⟩
      obtain ⟨rfl, rfl⟩ := List.append_inj' heq rfl |>.imp_right List.singleton_inj.1
      simpa [holdsAt] using hx

/-- **Cutting behind a settled part** cuts no block. -/
theorem blocks_append (hmin : 0 < minLen) (ha : Settled p a) :
    blocks p minLen (a ++ b) = blocks p minLen a ++ blocks p minLen b := by
  rcases settled_iff.1 ha with rfl | ⟨a, x, rfl, hx⟩
  · rw [List.nil_append, blocks_nil hmin, List.nil_append]
  · rw [List.append_assoc, List.singleton_append, blocks_append_cons hx, blocks_append_cons hx,
      blocks_nil hmin, List.append_nil]

theorem blocks_flatten (hmin : 0 < minLen) {ls : List (List α)} (h : ∀ l ∈ ls, Settled p l) :
    blocks p minLen ls.flatten = ls.flatMap (blocks p minLen) := by
  induction ls with
  | nil => exact blocks_nil hmin
  | cons l ls ih =>
    rw [List.flatten_cons, blocks_append hmin (h l List.mem_cons_self),
      ih fun l hl => h l (List.mem_cons_of_mem _ hl), List.flatMap_cons]

theorem settled_append (ha : Settled p a) (hb : Settled p b) : Settled p (a ++ b) := by
  rcases settled_iff.1 hb with rfl | ⟨b, x, rfl, hx⟩
  · rwa [List.append_nil]
  · exact settled_iff.2 (.inr ⟨a ++ b, x, (List.append_assoc ..).symm, hx⟩)

theorem settled_flatten {ls : List (List α)} (h : ∀ l ∈ ls, Settled p l) :
    Settled p ls.flatten := by
  induction ls with
  | nil => exact settled_iff.2 (.inl rfl)
  | cons l ls ih =>
    exact settled_append (h l List.mem_cons_self)
      (ih fun l hl => h l (List.mem_cons_of_mem _ hl))

/-- What is settled is ended, and elements of `p` behind it are not. -/
theorem ended_append (ha : Settled p a) (hb : ∀ x ∈ b, p x = true) : ended p (a ++ b) = a := by
  induction b using List.reverseRecOn with
  | nil =>
    rw [List.append_nil, ended]
    rcases settled_iff.1 ha with rfl | ⟨a, x, rfl, hx⟩
    · rfl
    · exact List.rdropWhile_concat_neg _ _ _ (by simp [hx])
  | append_singleton b x ih =>
    rw [ended, ← List.append_assoc, List.rdropWhile_concat_pos _ _ _ (hb x (by simp))]
    exact ih fun y hy => hb y (List.mem_append_left _ hy)

end Pico10BaseT
