import Mathlib.Algebra.Order.Group.Nat
import Mathlib.Order.Nat
import Mathlib.Order.WellFounded
import Mathlib.Tactic.Common

/-!
# Machines driven against an environment

A machine steps for ever, and before each of its steps the environment acts as often as it likes.
What the environment does is fixed before the run, so that a statement about every `env` is one
about every behaviour of it.

## Main results

* `Driven.invariant` : what holds at first and is kept by steps and actions holds always.
* `Driven.Waits.eventually_done_iff` : a machine whose steps lower a measure unless it waits for the
  environment comes to its end exactly when no wait lasts for ever.
-/

namespace Pico10BaseT

/-- A machine, and what the environment can do to it. -/
structure Driven (σ : Type*) (α : Type*) where
  /-- One step of the machine. -/
  step : σ → σ
  /-- One action of the environment. -/
  act : σ → α → σ

namespace Driven

variable {σ α : Type*} (M : Driven σ α) (env : ℕ → List α) (s₀ : σ)

/-- The state before the actions `env n` and step `n`. -/
def state : ℕ → σ
  | 0 => s₀
  | n + 1 => M.step ((env n).foldl M.act (state n))

/-- The state in which step `n` is taken. -/
def polled (n : ℕ) : σ := (env n).foldl M.act (M.state env s₀ n)

theorem state_succ (n : ℕ) : M.state env s₀ (n + 1) = M.step (M.polled env s₀ n) := rfl

variable {M env s₀}

/-- What actions keep, a batch of them keeps. -/
theorem foldl_act {I : σ → Prop} {as : List α} {s : σ} (h : I s)
    (hact : ∀ s, ∀ a ∈ as, I s → I (M.act s a)) : I (as.foldl M.act s) := by
  induction as generalizing s with
  | nil => exact h
  | cons a as ih =>
    refine ih (hact s a List.mem_cons_self h) fun s b hb => ?_
    exact hact s b (List.mem_cons_of_mem a hb)

/-- The invariant rule. -/
theorem invariant {I : σ → Prop} (h₀ : I s₀) (hstep : ∀ s, I s → I (M.step s))
    (hact : ∀ s a, I s → I (M.act s a)) (n : ℕ) : I (M.state env s₀ n) := by
  induction n with
  | zero => exact h₀
  | succ n ih => exact hstep _ (foldl_act ih fun s a _ => hact s a)

variable (M) in
/-- The machine can end in `done`; every other step lowers `μ`, unless it finds the machine
`blocked` and does nothing.  Only a releasing action unblocks. -/
structure Waits (done blocked : σ → Prop) (release : α → Prop) (μ : σ → ℕ) : Prop where
  done_step {s : σ} : done s → done (M.step s)
  done_act {s : σ} {a : α} : done (M.act s a) ↔ done s
  not_blocked_of_done {s : σ} : done s → ¬ blocked s
  step_of_blocked {s : σ} : blocked s → M.step s = s
  measure_step {s : σ} : ¬ done s → ¬ blocked s → μ (M.step s) < μ s
  measure_act {s : σ} {a : α} : μ (M.act s a) = μ s
  blocked_of_act {s : σ} {a : α} : blocked (M.act s a) → blocked s ∧ ¬ release a
  blocked_act {s : σ} {a : α} : blocked s → ¬ release a → blocked (M.act s a)

namespace Waits

variable {done blocked : σ → Prop} {release : α → Prop} {μ : σ → ℕ}
  (h : M.Waits done blocked release μ)

include h

theorem done_polled {n : ℕ} : done (M.polled env s₀ n) ↔ done (M.state env s₀ n) := by
  refine foldl_act (I := fun s => done s ↔ done (M.state env s₀ n)) Iff.rfl fun s a _ hs => ?_
  rw [h.done_act, hs]

theorem measure_polled {n : ℕ} : μ (M.polled env s₀ n) = μ (M.state env s₀ n) := by
  refine foldl_act (I := fun s => μ s = μ (M.state env s₀ n)) rfl fun s a _ hs => ?_
  rw [h.measure_act, hs]

/-- A batch of actions with a release in it unblocks. -/
theorem not_release_of_blocked {as : List α} {s : σ} (hb : blocked (as.foldl M.act s)) :
    blocked s ∧ ∀ a ∈ as, ¬ release a := by
  induction as generalizing s with
  | nil => exact ⟨hb, fun a ha => absurd ha List.not_mem_nil⟩
  | cons a as ih =>
    obtain ⟨hbs, has⟩ := ih hb
    obtain ⟨hs, ha⟩ := h.blocked_of_act hbs
    exact ⟨hs, List.forall_mem_cons.2 ⟨ha, has⟩⟩

/-- Done stays done. -/
theorem done_of_le {n m : ℕ} (hn : done (M.state env s₀ n)) (hle : n ≤ m) :
    done (M.state env s₀ m) := by
  induction m, hle using Nat.le_induction with
  | base => exact hn
  | succ m _ ih => exact h.done_step (h.done_polled.2 ih)

/-- The measure never grows before the end. -/
theorem measure_le {n m : ℕ} (hle : n ≤ m) (hnot : ¬ done (M.state env s₀ m)) :
    μ (M.state env s₀ m) ≤ μ (M.state env s₀ n) := by
  induction m, hle using Nat.le_induction with
  | base => exact le_rfl
  | succ m _ ih =>
    have hm : ¬ done (M.polled env s₀ m) := fun hd => hnot (h.done_step hd)
    refine le_trans ?_ (ih (mt h.done_polled.2 hm))
    rw [state_succ, ← h.measure_polled]
    by_cases hb : blocked (M.polled env s₀ m)
    · rw [h.step_of_blocked hb]
    · exact (h.measure_step hm hb).le

/-- A wait that is not released lasts for ever. -/
theorem blocked_of_le {n m : ℕ} (hn : blocked (M.polled env s₀ n)) (hle : n ≤ m)
    (hnone : ∀ k, n < k → ∀ a ∈ env k, ¬ release a) : blocked (M.polled env s₀ m) := by
  induction m, hle using Nat.le_induction with
  | base => exact hn
  | succ m hle ih =>
    rw [polled, state_succ, h.step_of_blocked ih]
    refine foldl_act ih fun s a ha hs => ?_
    exact h.blocked_act hs (hnone (m + 1) (Nat.lt_succ_of_le hle) a ha)

/-- Before the end the measure falls, now or when the wait is released. -/
theorem exists_measure_lt
    (hwait : ∀ n, blocked (M.polled env s₀ n) → ∃ m > n, ∃ a ∈ env m, release a) {n : ℕ}
    (hnot : ∀ m, ¬ done (M.state env s₀ m)) :
    ∃ m > n, μ (M.state env s₀ m) < μ (M.state env s₀ n) := by
  -- a step that does not wait, now or after the release
  obtain ⟨m, hnm, hm⟩ : ∃ m ≥ n, ¬ blocked (M.polled env s₀ m) := by
    by_cases hb : blocked (M.polled env s₀ n)
    · obtain ⟨m, hnm, a, ha, hrel⟩ := hwait n hb
      exact ⟨m, hnm.le, fun hbm => (h.not_release_of_blocked hbm).2 a ha hrel⟩
    · exact ⟨n, le_rfl, hb⟩
  refine ⟨m + 1, Nat.lt_succ_of_le hnm, ?_⟩
  calc μ (M.state env s₀ (m + 1)) < μ (M.polled env s₀ m) :=
        h.measure_step (mt h.done_polled.1 (hnot m)) hm
    _ = μ (M.state env s₀ m) := h.measure_polled
    _ ≤ μ (M.state env s₀ n) := h.measure_le hnm (hnot m)

/-- **The machine comes to its end exactly when every wait is released.** -/
theorem eventually_done_iff : (∃ n, done (M.state env s₀ n)) ↔
    ∀ n, blocked (M.polled env s₀ n) → ∃ m > n, ∃ a ∈ env m, release a := by
  constructor
  · rintro ⟨N, hN⟩ n hb
    by_contra! hnone
    have hblocked := h.blocked_of_le hb (le_max_left n N) hnone
    have hdone := h.done_polled.2 (h.done_of_le hN (le_max_right n N))
    exact h.not_blocked_of_done hdone hblocked
  · intro hwait
    by_contra! hnot
    -- the measure would fall below its least value
    let μs (n : ℕ) : ℕ := μ (M.state env s₀ n)
    obtain ⟨m, -, hlt⟩ := h.exists_measure_lt hwait (n := Function.argmin μs) hnot
    exact Function.not_lt_argmin μs m hlt

end Waits

end Driven

end Pico10BaseT
