import Mathlib.Logic.Function.Basic
import Mathlib.Tactic.Common

/-!
# A spinlock and the contexts that use it

A `Lock` is a non-reentrant spinlock, with the critical section that each context is in: waiting for
the lock, or holding it.  `suspends c c'` says that `c'` does not run while `c` does, as an interrupt
suspends what it preempts.

* `Lock.WellHeld` : the holder is the one context that is past its wait.
* `Lock.Deadlock` : a context waits for one that cannot run until it has finished.
* `Lock.Safe` : no waiting context suspends the holder.  The rules `Safe.enter`, `Safe.claim` and
  `Safe.release` keep it, and it excludes deadlock (`Safe.not_deadlock`).
-/

namespace Pico10BaseT

/-- A critical section: what is run in it, and whether the lock is already held. -/
structure Section (φ : Type*) where
  body : φ
  holds : Bool

/-- The holder of a spinlock, and the critical section of each context. -/
structure Lock (κ φ : Type*) where
  holder : Option κ
  inside : κ → Option (Section φ)

namespace Lock

variable {κ φ : Type*}

/-- A free lock. -/
def free : Lock κ φ := ⟨none, fun _ => none⟩

/-- `c` waits for the lock. -/
def Waits (L : Lock κ φ) (c : κ) : Prop := ∃ f, L.inside c = some ⟨f, false⟩

/-- The holder, and no one else, is past its wait. -/
def WellHeld (L : Lock κ φ) : Prop := ∀ c, L.holder = some c ↔ ∃ f, L.inside c = some ⟨f, true⟩

/-- Some context waits for the lock, and its holder cannot run until that context has finished. -/
def Deadlock (suspends : κ → κ → Prop) (L : Lock κ φ) : Prop :=
  ∃ c c', L.Waits c ∧ L.holder = some c' ∧ (c' = c ∨ suspends c c')

/-- No waiting context suspends the holder. -/
structure Safe (suspends : κ → κ → Prop) (L : Lock κ φ) : Prop where
  wellHeld : L.WellHeld
  runs : ∀ c c', L.Waits c → suspends c c' → L.holder ≠ some c'

variable {suspends : κ → κ → Prop} {L : Lock κ φ}

theorem safe_free : Safe suspends (free : Lock κ φ) :=
  ⟨fun c => by simp [free], fun c c' ⟨f, hf⟩ => by simp [free] at hf⟩

/-- **No waiting context suspends the holder**: there is no deadlock. -/
theorem Safe.not_deadlock (h : Safe suspends L) : ¬ Deadlock suspends L := by
  rintro ⟨c, c', ⟨f, hf⟩, hholder, rfl | hs⟩
  · obtain ⟨f', hf'⟩ := (h.wellHeld c').1 hholder
    rw [hf] at hf'
    cases hf'
  · exact h.runs c c' ⟨f, hf⟩ hs hholder

/-! ### Waiting, taking and leaving -/

variable [DecidableEq κ]

/-- `c` starts to wait. -/
def enter (L : Lock κ φ) (c : κ) (f : φ) : Lock κ φ :=
  { L with inside := Function.update L.inside c (some ⟨f, false⟩) }

/-- `c` takes the lock. -/
def claim (L : Lock κ φ) (c : κ) (f : φ) : Lock κ φ :=
  ⟨some c, Function.update L.inside c (some ⟨f, true⟩)⟩

/-- `c` leaves its critical section. -/
def release (L : Lock κ φ) (c : κ) : Lock κ φ := ⟨none, Function.update L.inside c none⟩

theorem inside_enter (L : Lock κ φ) (c : κ) (f : φ) : (L.enter c f).inside c = some ⟨f, false⟩ :=
  Function.update_self ..

theorem waits_enter (L : Lock κ φ) (c : κ) (f : φ) : (L.enter c f).Waits c :=
  ⟨f, inside_enter L c f⟩

theorem inside_claim (L : Lock κ φ) (c : κ) (f : φ) : (L.claim c f).inside c = some ⟨f, true⟩ :=
  Function.update_self ..

theorem inside_release (L : Lock κ φ) (c : κ) : (L.release c).inside c = none :=
  Function.update_self ..

/-- A context sees nothing of what another one does with the lock. -/
theorem inside_of_ne (L : Lock κ φ) {c c' : κ} (h : c' ≠ c) (f : φ) :
    (L.enter c f).inside c' = L.inside c' ∧ (L.claim c f).inside c' = L.inside c' ∧
      (L.release c).inside c' = L.inside c' :=
  ⟨Function.update_of_ne h .., Function.update_of_ne h .., Function.update_of_ne h ..⟩

/-- A wait that ends leaves the lock free again. -/
theorem release_claim_enter (c : κ) (f : φ) :
    (((free : Lock κ φ).enter c f).claim c f).release c = free := by
  simp only [release, claim, enter, free, Function.update_idem]
  exact congrArg (Lock.mk none) (Function.update_eq_self c fun _ => none)

theorem WellHeld.enter (h : L.WellHeld) {c : κ} {f : φ} (hc : L.inside c = none) :
    (L.enter c f).WellHeld := by
  intro c'
  rcases eq_or_ne c' c with rfl | hne
  · simp [Lock.enter, h c', hc]
  · simp [Lock.enter, h c', hne]

theorem WellHeld.claim (h : L.WellHeld) {c : κ} {f : φ} (hfree : L.holder = none) :
    (L.claim c f).WellHeld := by
  intro c'
  rcases eq_or_ne c' c with rfl | hne
  · simp [Lock.claim]
  · have := h c'
    simp only [hfree, reduceCtorEq, false_iff] at this
    simp [Lock.claim, hne, hne.symm, this]

theorem WellHeld.release (h : L.WellHeld) {c : κ} (hc : L.holder = some c) :
    (L.release c).WellHeld := by
  intro c'
  rcases eq_or_ne c' c with rfl | hne
  · simp [Lock.release]
  · have := h c'
    rw [hc, Option.some_inj] at this
    simp [Lock.release, hne, ← this, hne.symm]

/-- A context may start to wait if it does not suspend the holder. -/
theorem Safe.enter (h : Safe suspends L) {c : κ} {f : φ} (hc : L.inside c = none)
    (hholder : ∀ c', suspends c c' → L.holder ≠ some c') : Safe suspends (L.enter c f) := by
  refine ⟨h.wellHeld.enter hc, fun c₁ c' ⟨f', hf'⟩ hs => ?_⟩
  rcases eq_or_ne c₁ c with rfl | hne
  · exact hholder c' hs
  · simp only [Lock.enter, Function.update_of_ne hne] at hf'
    exact h.runs c₁ c' ⟨f', hf'⟩ hs

/-- A context may take the free lock if no context that suspends it waits. -/
theorem Safe.claim (h : Safe suspends L) {c : κ} {f : φ} (hfree : L.holder = none)
    (hrun : ∀ c₁, suspends c₁ c → L.inside c₁ = none) : Safe suspends (L.claim c f) := by
  refine ⟨h.wellHeld.claim hfree, ?_⟩
  rintro c₁ c' ⟨f', hf'⟩ hs ⟨rfl⟩
  rcases eq_or_ne c₁ c with rfl | hne
  · simp [Lock.claim] at hf'
  · simp only [Lock.claim, Function.update_of_ne hne, hrun c₁ hs, reduceCtorEq] at hf'

/-- The holder may leave at any time. -/
theorem Safe.release (h : Safe suspends L) {c : κ} (hc : L.holder = some c) :
    Safe suspends (L.release c) :=
  ⟨h.wellHeld.release hc, fun _ _ _ _ => by simp [Lock.release]⟩

end Lock

end Pico10BaseT
