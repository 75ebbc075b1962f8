import Mathlib.Data.List.Induction
import Mathlib.Order.Basic

/-!
# Labelled systems and their runs

A `System` is a set of initial states and a labelled step relation.  A *run* is the list of
labels taken from an initial state, oldest first, so that what a component has done so far can
be stated about the labels and need not be stored in its state.

## Main definitions

* `System.Run ls s` : some initial state leads to `s` by the labels `ls`.
* `System.Path s ls s'` : the labels `ls` lead from `s` to `s'`.
* `System.restrict C` : only the steps that satisfy `C` remain.

## Main results

* `System.Run.induction` : the invariant rule, for properties of the state and of the labels.
* `System.Run.of_restrict` : a run of a restricted system is a run.
-/

namespace Pico10BaseT

/-- A system with states `σ` and labels `ℓ`. -/
structure System (σ : Type*) (ℓ : Type*) where
  /-- The initial states. -/
  init : σ → Prop
  /-- `step s l s'`: the system moves from `s` to `s'` and shows the label `l`. -/
  step : σ → ℓ → σ → Prop

namespace System

variable {σ ℓ : Type*} (A : System σ ℓ)

/-- The labels `ls` lead from an initial state to `s`, the last label being the latest. -/
inductive Run : List ℓ → σ → Prop
  | init {s : σ} : A.init s → Run [] s
  | snoc {ls : List ℓ} {s s' : σ} {l : ℓ} : Run ls s → A.step s l s' → Run (ls ++ [l]) s'

/-- Some run ends in `s`. -/
def Reachable (s : σ) : Prop := ∃ ls, A.Run ls s

/-- The labels `ls` lead from `s` to the indexed state. -/
inductive Path (s : σ) : List ℓ → σ → Prop
  | nil : Path s [] s
  | snoc {ls : List ℓ} {s' s'' : σ} {l : ℓ} :
      Path s ls s' → A.step s' l s'' → Path s (ls ++ [l]) s''

/-- The steps of `A` that satisfy `C`. -/
def restrict (C : σ → ℓ → Prop) : System σ ℓ where
  init := A.init
  step s l s' := C s l ∧ A.step s l s'

variable {A}

/-- **The invariant rule.**  What holds of the initial states with no label shown, and is kept by
every step taken from a run, holds of every run. -/
theorem Run.induction {J : List ℓ → σ → Prop} {ls : List ℓ} {s : σ} (h : A.Run ls s)
    (hinit : ∀ s, A.init s → J [] s)
    (hstep : ∀ ls s l s', A.Run ls s → J ls s → A.step s l s' → J (ls ++ [l]) s') : J ls s := by
  induction h with
  | init h => exact hinit _ h
  | snoc h hst ih => exact hstep _ _ _ _ h ih hst

/-- A run passes through the states before and after each of its labels. -/
theorem Run.split {pre post : List ℓ} {l : ℓ} {s : σ} (h : A.Run (pre ++ l :: post) s) :
    ∃ s₁ s₂, A.Run pre s₁ ∧ A.step s₁ l s₂ := by
  induction post using List.reverseRecOn generalizing s with
  | nil =>
    generalize htr : pre ++ [l] = tr at h
    cases h with
    | init => simp at htr
    | snoc h hst =>
      obtain ⟨rfl, hl⟩ := List.append_inj' htr rfl
      obtain rfl : l = _ := by simpa using hl
      exact ⟨_, _, h, hst⟩
  | append_singleton post l' ih =>
    generalize htr : pre ++ l :: (post ++ [l']) = tr at h
    cases h with
    | init => simp at htr
    | snoc h hst =>
      rw [← List.cons_append, ← List.append_assoc] at htr
      obtain ⟨rfl, -⟩ := List.append_inj' htr rfl
      exact ih h

theorem Reachable.init {s : σ} (h : A.init s) : A.Reachable s := ⟨[], .init h⟩

theorem Reachable.step {s s' : σ} {l : ℓ} (h : A.Reachable s) (hst : A.step s l s') :
    A.Reachable s' := by
  obtain ⟨ls, h⟩ := h
  exact ⟨ls ++ [l], h.snoc hst⟩

/-- The invariant rule for properties of the state alone. -/
theorem Reachable.invariant {I : σ → Prop} {s : σ} (h : A.Reachable s)
    (hinit : ∀ s, A.init s → I s) (hstep : ∀ s l s', I s → A.step s l s' → I s') : I s := by
  obtain ⟨ls, h⟩ := h
  exact h.induction (J := fun _ s => I s) hinit fun _ s l s' _ hI hst => hstep s l s' hI hst

theorem Run.of_restrict {C : σ → ℓ → Prop} {ls : List ℓ} {s : σ}
    (h : (A.restrict C).Run ls s) : A.Run ls s := by
  induction h with
  | init h => exact .init h
  | snoc _ hst ih => exact ih.snoc hst.2

theorem Run.mono {C D : σ → ℓ → Prop} (hCD : ∀ s l, C s l → D s l) {ls : List ℓ} {s : σ}
    (h : (A.restrict C).Run ls s) : (A.restrict D).Run ls s := by
  induction h with
  | init h => exact .init h
  | snoc _ hst ih => exact ih.snoc ⟨hCD _ _ hst.1, hst.2⟩

theorem Reachable.of_restrict {C : σ → ℓ → Prop} {s : σ} (h : (A.restrict C).Reachable s) :
    A.Reachable s := by
  obtain ⟨ls, h⟩ := h
  exact ⟨ls, h.of_restrict⟩

theorem Path.one {s s' : σ} {l : ℓ} (h : A.step s l s') : A.Path s [l] s' := Path.nil.snoc h

/-- What holds at the start of a path and is kept by every step holds at its end. -/
theorem Path.invariant {I : σ → Prop} {s s' : σ} {ls : List ℓ} (h : A.Path s ls s') (h₀ : I s)
    (hstep : ∀ s l s', I s → A.step s l s' → I s') : I s' := by
  induction h with
  | nil => exact h₀
  | snoc _ hst ih => exact hstep _ _ _ ih hst

/-- A path from the end of a run continues it. -/
theorem Run.append {ls ls' : List ℓ} {s s' : σ} (h : A.Run ls s) (hp : A.Path s ls' s') :
    A.Run (ls ++ ls') s' := by
  induction hp with
  | nil => rwa [List.append_nil]
  | snoc _ hst ih =>
    rw [← List.append_assoc]
    exact ih.snoc hst

theorem Path.append {s s' s'' : σ} {ls ls' : List ℓ} (h : A.Path s ls s') (h' : A.Path s' ls' s'') :
    A.Path s (ls ++ ls') s'' := by
  induction h' with
  | nil => rwa [List.append_nil]
  | snoc _ hst ih =>
    rw [← List.append_assoc]
    exact ih.snoc hst

theorem Reachable.path {s s' : σ} {ls : List ℓ} (h : A.Reachable s) (hp : A.Path s ls s') :
    A.Reachable s' := by
  obtain ⟨ls', h⟩ := h
  exact ⟨ls' ++ ls, h.append hp⟩

/-- The last step of a run. -/
theorem Run.last {ls : List ℓ} {l : ℓ} {s : σ} (h : A.Run (ls ++ [l]) s) :
    ∃ s', A.Run ls s' ∧ A.step s' l s := by
  generalize htr : ls ++ [l] = tr at h
  cases h with
  | init => simp at htr
  | snoc h hst =>
    obtain ⟨rfl, hl⟩ := List.append_inj' htr rfl
    obtain rfl : l = _ := by simpa using hl
    exact ⟨_, h, hst⟩

/-- A run passes through a state wherever its labels are cut. -/
theorem Run.exists_path {ls ls' : List ℓ} {s : σ} (h : A.Run (ls ++ ls') s) :
    ∃ s', A.Run ls s' ∧ A.Path s' ls' s := by
  induction ls' using List.reverseRecOn generalizing s with
  | nil => exact ⟨s, List.append_nil ls ▸ h, .nil⟩
  | append_singleton ls' l ih =>
    rw [← List.append_assoc] at h
    obtain ⟨s₂, hrun, hst⟩ := h.last
    obtain ⟨s₁, hrun, hpath⟩ := ih hrun
    exact ⟨s₁, hrun, hpath.snoc hst⟩

theorem Path.of_restrict {C : σ → ℓ → Prop} {s s' : σ} {ls : List ℓ}
    (h : (A.restrict C).Path s ls s') : A.Path s ls s' := by
  induction h with
  | nil => exact .nil
  | snoc _ hst ih => exact ih.snoc hst.2

/-- The last step of a path. -/
theorem Path.last {s s' : σ} {ls : List ℓ} {l : ℓ} (h : A.Path s (ls ++ [l]) s') :
    ∃ s'', A.Path s ls s'' ∧ A.step s'' l s' := by
  generalize htr : ls ++ [l] = tr at h
  cases h with
  | nil => simp at htr
  | snoc h hst =>
    obtain ⟨rfl, hl⟩ := List.append_inj' htr rfl
    obtain rfl : l = _ := by simpa using hl
    exact ⟨_, h, hst⟩

/-- Where the label decides the step, the labels decide the path. -/
theorem Path.unique (hdet : ∀ s l s' s'', A.step s l s' → A.step s l s'' → s' = s'') {s s' s'' : σ}
    {ls : List ℓ} (h : A.Path s ls s') (h' : A.Path s ls s'') : s' = s'' := by
  induction h generalizing s'' with
  | nil =>
    generalize htr : ([] : List ℓ) = tr at h'
    cases h' with
    | nil => rfl
    | snoc => simp at htr
  | snoc _ hst ih =>
    obtain ⟨u, hu, hst'⟩ := h'.last
    obtain rfl := ih hu
    exact hdet _ _ _ _ hst hst'

end System

end Pico10BaseT
