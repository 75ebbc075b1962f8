import Pico10BaseT.Rx.MacRuns

/-!
# The IRQ and the spinlock

`DMA_IRQ_0` takes `Spinlock<0>` when a carry was dropped.  If it preempts the thread inside a critical
section it then spins for ever: the thread cannot release the lock before the IRQ returns.

* `spinlock_deadlock_iff` : this is the only deadlock.  While no half that the IRQ services inside the
  thread's critical section makes it take the lock, no reachable state is deadlocked; a step that
  breaks this condition deadlocks.
* `spinlock_deadlock` : two halves of carrier are enough.
-/

namespace Pico10BaseT

/-- The IRQ that preempts a critical section of the thread does not take the lock itself: the ring is
full, or there is no dropped carry to count. -/
def IrqSkipsLock (s : Mac) (ev : MacEvent) : Prop :=
  ∀ half stored, ev = .dmaIrq half stored → s.lock.holder = some .thread →
    s.ringFull = true ∨ s.rx.cappedAfter half = 0

theorem irqWaits_eq_false {s : Mac} {half : Option (Bytes bufBytes)} :
    s.irqWaits half = false ↔ s.ringFull = true ∨ s.rx.cappedAfter half = 0 := by
  cases hfull : s.ringFull <;> simp [Mac.irqWaits, hfull]

theorem suspends_core0 {c : Ctx} : ¬ suspends .core0 c := by simp [suspends]

theorem suspends_thread {c : Ctx} : ¬ suspends .thread c := by simp [suspends]

/-- **One action** keeps the lock safe. -/
theorem mac_safe_step {s s' : Mac} {ev : MacEvent} (hfit : s.rx.Fits)
    (h : s.lock.Safe suspends) (hskip : IrqSkipsLock s ev) (hst : s.Step ev s') :
    s'.lock.Safe suspends := by
  cases hst with
  | @dmaIrq half _ stored hout hirq =>
    obtain ⟨-, -, -, hlock⟩ := Mac.of_processCompletedHalf hfit hirq
    rw [hlock]
    split_ifs with hwaits
    · refine h.enter hout ?_
      rintro c' ⟨-, rfl⟩ hholder
      rw [irqWaits_eq_false.2 (hskip half stored rfl hholder)] at hwaits
      exact Bool.noConfusion hwaits
    · exact h
  | drain _ hout hdrain =>
    obtain hlock | ⟨f, hlock⟩ := (Mac.drainStep_frame hdrain).lock
    · rwa [hlock]
    · rw [hlock]
      exact h.enter hout fun c' hs => absurd hs suspends_thread
  | core0 hout => exact h.enter hout fun c' hs => absurd hs suspends_core0
  | claim hruns _ hfree => exact h.claim hfree hruns
  | critical _ hin => exact h.release ((h.wellHeld _).2 ⟨_, hin⟩)

theorem mac_safe {s : Mac} (h : (macSystem.restrict IrqSkipsLock).Reachable s) :
    s.rx.Fits ∧ s.lock.Safe suspends := by
  refine h.invariant (I := fun s => s.rx.Fits ∧ s.lock.Safe suspends) ?_ ?_
  · rintro _ ⟨ourMac, rfl⟩
    exact ⟨Nat.zero_le _, Lock.safe_free⟩
  · rintro s ev s' ⟨hfit, hsafe⟩ ⟨hskip, hst⟩
    exact ⟨mac_fits_step hfit hst, mac_safe_step hfit hsafe hskip hst⟩

/-- An IRQ that takes the lock inside a critical section of the thread. -/
theorem deadlock_of_irq {s s' : Mac} {half : Option (Bytes bufBytes)} {stored : Option Image}
    (hfit : s.rx.Fits) (hst : s.Step (.dmaIrq half stored) s')
    (hholder : s.lock.holder = some .thread) (hwaits : s.irqWaits half = true) :
    s'.lock.Deadlock suspends := by
  cases hst with
  | dmaIrq hout hirq =>
    obtain ⟨-, -, -, hlock⟩ := Mac.of_processCompletedHalf hfit hirq
    rw [if_pos hwaits] at hlock
    rw [hlock]
    exact ⟨.irq, .thread, Lock.waits_enter .., hholder, .inr ⟨rfl, rfl⟩⟩

/-! ### The thread inside a critical section -/

/-- A half in which every byte is active. -/
def carrierHalf : Bytes bufBytes := ⟨List.replicate bufBytes 0x55, List.length_replicate⟩

theorem allActive_carrierHalf : AllActive carrierHalf := fun i hi =>
  active_replicate bufBytes i (by rwa [List.length_replicate])

/-- After a half of carrier the thread can get to the merge of its (empty) image; from then on a
second such half makes the IRQ wait for the lock. -/
theorem reachable_merging {C : Mac → MacEvent → Prop} (hC : Mac.AllowsDrain C)
    (hirq : ∀ s stored, s.lock.holder = none → C s (.dmaIrq (some carrierHalf) stored)) :
    ∃ s, (macSystem.restrict C).Reachable s ∧ s.rx.Fits ∧ s.lock.holder = some .thread ∧
      s.lock.inside .irq = none ∧ s.irqWaits (some carrierHalf) = true := by
  obtain ⟨slot, s, h⟩ := Mac.irq_stores (s := .boot (.zero 6)) carrierHalf rfl (by decide) rfl rfl
  obtain ⟨himage, hcarried⟩ := h.carried.of_allActive (EthRx.carried_eq_nil rfl) allActive_carrierHalf
  have hboot : (macSystem.restrict C).Reachable (.boot (.zero 6)) := .init ⟨.zero 6, rfl⟩
  have hs : (macSystem.restrict C).Reachable s := hboot.step ⟨hirq _ _ rfl, h.step⟩
  have hring : s.ring (slotOf s.imgR) = slot := by
    rw [h.ring, h.imgR]
    exact Function.update_self ..
  have hne : s.imgR ≠ s.imgW := by
    rw [h.imgR, h.imgW]
    decide
  have hpos : 0 < s.rx.carryLen := by
    rw [← EthRx.length_carried h.rxFits, hcarried, carrierHalf.size]
    decide
  refine ⟨s.merging, hs.path (Mac.path_merging hC h.lock h.drain hne (hring ▸ h.fits) ?_), h.rxFits,
    rfl,
    ?_, ?_⟩
  · rw [hring, himage]
    exact fun i => rfl
  · simp [Mac.merging, h.lock, Lock.enter, Lock.claim, Lock.free, Mac.boot]
  · have hdrop : s.rx.dropsCarry (some carrierHalf) = true :=
      EthRx.dropsCarry_some.2 ⟨hpos, allActive_carrierHalf⟩
    have hfull : s.ringFull = false := by
      rw [Mac.ringFull, h.imgW, h.imgR]
      decide
    rw [Mac.irqWaits, show s.merging.ringFull = false from hfull]
    simp [Mac.merging, EthRx.cappedAfter, hdrop, h.carryCapped]

/-! ### When the lock deadlocks -/

/-- **When the lock deadlocks.**  While every IRQ inside a critical section of the thread leaves the
lock alone, no state is deadlocked; and the first that does not leads to a deadlock. -/
theorem spinlock_deadlock_iff {s : Mac} (h : (macSystem.restrict IrqSkipsLock).Reachable s) :
    ¬ s.lock.Deadlock suspends ∧ ∀ ev s', macSystem.step s ev s' →
      (s'.lock.Deadlock suspends ↔ ¬ IrqSkipsLock s ev) := by
  obtain ⟨hfit, hsafe⟩ := mac_safe h
  refine ⟨hsafe.not_deadlock, fun ev s' hst => ⟨fun hdead hskip => ?_, fun hnot => ?_⟩⟩
  · exact (mac_safe_step hfit hsafe hskip hst).not_deadlock hdead
  · simp only [IrqSkipsLock, not_forall] at hnot
    obtain ⟨half, stored, rfl, hholder, hwaits⟩ := hnot
    rw [← irqWaits_eq_false, Bool.not_eq_false] at hwaits
    exact deadlock_of_irq hfit hst hholder hwaits

/-- The thread in its critical section, with the carry full: not deadlocked yet. -/
theorem spinlock_deadlock_iff_merging :
    ∃ s : Mac, s.lock.holder = some .thread ∧ s.irqWaits (some carrierHalf) = true ∧
      ¬ s.lock.Deadlock suspends := by
  obtain ⟨s, hs, -, hholder, -, hwaits⟩ := @reachable_merging IrqSkipsLock
    (fun s ev hne half stored hev => absurd hev (hne _ _))
    fun s stored hnone half stored' _ hholder => by
      rw [hnone] at hholder
      cases hholder
  exact ⟨s, hholder, hwaits, (spinlock_deadlock_iff hs).1⟩

/-- **Two halves of carrier** are enough for a deadlock. -/
theorem spinlock_deadlock :
    ∃ s, macSystem.Reachable s ∧ (macSystem.restrict (Mac.Captures carrierHalf)).Reachable s ∧
      s.lock.Deadlock suspends := by
  obtain ⟨s, hs, hfit, hholder, hout, hwaits⟩ :=
    reachable_merging (Mac.allowsDrain_captures carrierHalf) fun s stored _ =>
      Mac.captures_dmaIrq carrierHalf s stored
  obtain ⟨s', stored, hirq, -⟩ := Mac.processCompletedHalf_spec hfit (some carrierHalf)
  have hst : s.Step (.dmaIrq (some carrierHalf) stored) s' := .dmaIrq hout hirq
  have hs' := hs.step ⟨Mac.captures_dmaIrq _ _ _, hst⟩
  exact ⟨s', hs'.of_restrict, hs', deadlock_of_irq hfit hst hholder hwaits⟩

end Pico10BaseT
