import Mathlib.Data.List.Basic
import Mathlib.Tactic.Common

/-!
# First-fit tables

A table of cells, each free or held by a key.  A key takes the cell it holds already, else the first
free one; no cell is ever given back.

* `claim_cases` : the three outcomes of taking a cell.
* `Single.claim`, `keeps_claim` : no key comes to hold two cells, and what is held stays held, so
  over any sequence of claims a key has one cell and a cell has one key.
-/

namespace Pico10BaseT

namespace FirstFit

variable {κ : Type*} {t t' : List (Option κ)} {i j : ℕ} {k l : κ}

/-- Cell `i` is held by `k`. -/
def Held (t : List (Option κ)) (i : ℕ) (k : κ) : Prop := t[i]? = some (some k)

/-- No key holds two cells. -/
def Single (t : List (Option κ)) : Prop := ∀ i j k, Held t i k → Held t j k → i = j

/-- What is held in `t` is held in `t'`. -/
def Keeps (t t' : List (Option κ)) : Prop := ∀ i k, Held t i k → Held t' i k

/-- The key takes its cell, else the first free one. -/
def claim [DecidableEq κ] (t : List (Option κ)) (k : κ) : List (Option κ) × Option ℕ :=
  match t.findIdx? fun c => c = some k with
  | some i => (t, some i)
  | none =>
    match t.findIdx? fun c => c.isNone with
    | some i => (t.set i (some k), some i)
    | none => (t, none)

theorem held_unique (hk : Held t i k) (hl : Held t i l) : k = l := by
  rw [Held, hk] at hl
  simpa using hl

theorem Held.lt_length (h : Held t i k) : i < t.length := (List.getElem?_eq_some_iff.1 h).1

theorem Held.mem (h : Held t i k) : some k ∈ t := List.mem_of_getElem? h

theorem keeps_refl (t : List (Option κ)) : Keeps t t := fun _ _ h => h

theorem single_replicate (n : ℕ) : Single (List.replicate n (none : Option κ)) := by
  intro i j k h
  have hmem := h.mem
  simp at hmem

/-- What a filled free cell holds. -/
theorem held_set_iff (hi : t[i]? = some none) :
    Held (t.set i (some k)) j l ↔ (j = i ∧ l = k) ∨ Held t j l := by
  have hlt : i < t.length := (List.getElem?_eq_some_iff.1 hi).1
  by_cases hji : j = i
  · subst hji
    have hfree : ¬ Held t j l := fun h => by simp [Held, hi] at h
    rw [or_iff_left hfree, Held, List.getElem?_set_self hlt]
    simp [eq_comm]
  · simp [Held, List.getElem?_set_ne (Ne.symm hji), hji]

section Claim

variable [DecidableEq κ]

/-- **Everything a claim can do**: find the cell the key holds, fill the first free cell, or find
none free. -/
theorem claim_cases (t : List (Option κ)) (k : κ) :
    (∃ i, Held t i k ∧ claim t k = (t, some i)) ∨
    (some k ∉ t ∧ ∃ i, t[i]? = some none ∧ claim t k = (t.set i (some k), some i)) ∨
    (some k ∉ t ∧ none ∉ t ∧ claim t k = (t, none)) := by
  cases hown : t.findIdx? fun c => c = some k with
  | some i =>
    obtain ⟨hi, heq, -⟩ := List.findIdx?_eq_some_iff_getElem.1 hown
    refine .inl ⟨i, ?_, by simp only [claim, hown]⟩
    rw [Held, List.getElem?_eq_getElem hi, of_decide_eq_true heq]
  | none =>
    have hnot : some k ∉ t := fun hmem => by
      simpa using List.findIdx?_eq_none_iff.1 hown _ hmem
    cases hfree : t.findIdx? fun c => c.isNone with
    | some i =>
      obtain ⟨hi, heq, -⟩ := List.findIdx?_eq_some_iff_getElem.1 hfree
      refine .inr (.inl ⟨hnot, i, ?_, by simp only [claim, hown, hfree]⟩)
      rw [List.getElem?_eq_getElem hi, Option.isNone_iff_eq_none.1 heq]
    | none =>
      refine .inr (.inr ⟨hnot, ?_, by simp only [claim, hown, hfree]⟩)
      intro hmem
      simpa using List.findIdx?_eq_none_iff.1 hfree none hmem

/-- The cell a claim answers with is held by the key. -/
theorem held_claim (h : claim t k = (t', some i)) : Held t' i k := by
  rcases claim_cases t k with ⟨j, hj, heq⟩ | ⟨-, j, hj, heq⟩ | ⟨-, -, heq⟩
  · rw [heq] at h
    cases h
    exact hj
  · rw [heq] at h
    cases h
    exact (held_set_iff hj).2 (.inl ⟨rfl, rfl⟩)
  · rw [heq] at h
    cases h

theorem keeps_claim (t : List (Option κ)) (k : κ) : Keeps t (claim t k).1 := by
  rcases claim_cases t k with ⟨j, -, heq⟩ | ⟨-, j, hj, heq⟩ | ⟨-, -, heq⟩
  · rw [heq]
    exact keeps_refl t
  · rw [heq]
    exact fun i l h => (held_set_iff hj).2 (.inr h)
  · rw [heq]
    exact keeps_refl t

theorem Single.claim (h : Single t) (k : κ) : Single (FirstFit.claim t k).1 := by
  rcases claim_cases t k with ⟨j, -, heq⟩ | ⟨hnot, j, hj, heq⟩ | ⟨-, -, heq⟩
  · rwa [heq]
  · rw [heq]
    intro a b l ha hb
    rcases (held_set_iff hj).1 ha with ⟨rfl, rfl⟩ | ha'
    · rcases (held_set_iff hj).1 hb with ⟨rfl, -⟩ | hb'
      · rfl
      · exact absurd hb'.mem hnot
    · rcases (held_set_iff hj).1 hb with ⟨rfl, rfl⟩ | hb'
      · exact absurd ha'.mem hnot
      · exact h a b l ha' hb'
  · rwa [heq]

/-- A key that holds a cell finds it and changes nothing. -/
theorem claim_of_mem (h : some k ∈ t) : ∃ i, claim t k = (t, some i) := by
  rcases claim_cases t k with ⟨j, -, heq⟩ | ⟨hnot, -⟩ | ⟨hnot, -⟩
  · exact ⟨j, heq⟩
  · exact absurd h hnot
  · exact absurd h hnot

/-- In a full table a new key finds nothing and changes nothing. -/
theorem claim_full (hfull : none ∉ t) (hnot : some k ∉ t) : claim t k = (t, none) := by
  rcases claim_cases t k with ⟨j, hj, -⟩ | ⟨-, j, hj, -⟩ | ⟨-, -, heq⟩
  · exact absurd hj.mem hnot
  · exact absurd (List.mem_of_getElem? hj) hfull
  · exact heq

end Claim

end FirstFit

end Pico10BaseT
