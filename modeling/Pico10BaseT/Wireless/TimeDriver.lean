import Pico10BaseT.LTS.Basic
import Pico10BaseT.Wireless.Alarm

/-!
# The time driver

The driver keeps the deadlines of sleeping tasks in a queue and arms `ALARM0` for the earliest.
`schedule_wake` and the handler of `TIMER0_IRQ_0` are critical sections, but the counter runs on
inside them, and an alarm armed before may fire there.  The queue is a parameter (`TimerQueue`), of
which the driver relies on what its operations are documented to do (`TimerQueue.Lawful`).

An alarm that is written only after its target is counted is late by a whole round
(`Timer0.armAlarm_late`).  Apart from that no wake-up is lost: what is pending is always about to be
looked at (`TimeDriver.Covered`).

* `timeDriver_wakes` : a task is woken, or pending by its deadline and not long overdue.
-/

namespace Pico10BaseT

/-! ### The queue -/

/-- A queue of deadlines.  Both operations return the tasks they wake; `scheduleWake` also returns
whether the queue has changed, `nextExpiration` the next deadline. -/
structure TimerQueue (Q W : Type*) where
  pending : Q → W → UInt64 → Prop
  scheduleWake : Q → UInt64 → W → Q × List W × Bool
  nextExpiration : Q → UInt64 → Q × List W × UInt64

/-- What the operations are documented to do. -/
structure TimerQueue.Lawful {Q W : Type*} (ops : TimerQueue Q W) : Prop where
  /-- The task is pending from now on, by `deadline` at the latest. -/
  schedules : ∀ q deadline w, ∃ d ≤ deadline, ops.pending (ops.scheduleWake q deadline w).1 w d
  /-- A task that was pending still is, no later, or is woken. -/
  keeps : ∀ q deadline w v d, ops.pending q v d →
    v ∈ (ops.scheduleWake q deadline w).2.1 ∨
      ∃ d' ≤ d, ops.pending (ops.scheduleWake q deadline w).1 v d'
  unchanged : ∀ q deadline w, (ops.scheduleWake q deadline w).2.2 = false →
    ∀ v d, ops.pending (ops.scheduleWake q deadline w).1 v d → ops.pending q v d
  /-- What is due is dequeued and woken, and nothing else is. -/
  expires : ∀ q now v d, ops.pending (ops.nextExpiration q now).1 v d ↔ ops.pending q v d ∧ now < d
  wakes : ∀ q now v d, ops.pending q v d → d ≤ now → v ∈ (ops.nextExpiration q now).2.1
  /-- The next deadline is the least that is left. -/
  next : ∀ q now v d, ops.pending (ops.nextExpiration q now).1 v d →
    (ops.nextExpiration q now).2.2 ≤ d

/-- The queue with a number of slots.  A task has one slot; in a full queue the last slot is woken to
make room. -/
def slotQueue (W : Type*) [DecidableEq W] (slots : ℕ) : TimerQueue (List (W × UInt64)) W where
  pending q w d := (w, d) ∈ q
  scheduleWake q deadline w :=
    if w ∈ q.map Prod.fst then
      (q.map fun x => if x.1 = w ∧ deadline < x.2 then (w, deadline) else x, [],
        q.any fun x => x.1 = w ∧ deadline < x.2)
    else if q.length < slots then (q ++ [(w, deadline)], [], true)
    else (q.dropLast ++ [(w, deadline)], q.getLast?.toList.map Prod.fst, true)
  nextExpiration q now :=
    let left := q.filter fun x => now < x.2
    (left, (q.filter fun x => x.2 ≤ now).map Prod.fst,
      left.foldr (fun x next => if x.2 ≤ next then x.2 else next) Timer0.noDeadline)

theorem foldr_next_le {W : Type*} {q : List (W × UInt64)} {w : W} {d : UInt64} (h : (w, d) ∈ q) :
    q.foldr (fun x next => if x.2 ≤ next then x.2 else next) Timer0.noDeadline ≤ d := by
  induction q with
  | nil => cases h
  | cons x q ih =>
    rw [List.foldr_cons]
    rcases List.mem_cons.1 h with rfl | h
    · split_ifs with hle
      · exact UInt64.le_refl _
      · exact UInt64.le_of_lt (UInt64.not_le.1 hle)
    · split_ifs with hle
      · exact UInt64.le_trans hle (ih h)
      · exact ih h

theorem slotQueue_lawful (W : Type*) [DecidableEq W] (slots : ℕ) : (slotQueue W slots).Lawful where
  schedules q deadline w := by
    simp only [slotQueue]
    split_ifs with hmem hroom
    · obtain ⟨⟨v, d⟩, hx, rfl⟩ := List.mem_map.1 hmem
      rcases UInt64.le_or_lt d deadline with hle | hlt
      · exact ⟨d, hle, List.mem_map.2 ⟨_, hx, if_neg fun h => UInt64.not_le.2 h.2 hle⟩⟩
      · exact ⟨deadline, UInt64.le_refl _, List.mem_map.2 ⟨_, hx, if_pos ⟨rfl, hlt⟩⟩⟩
    · exact ⟨deadline, UInt64.le_refl _, by simp⟩
    · exact ⟨deadline, UInt64.le_refl _, by simp⟩
  keeps q deadline w v d h := by
    simp only [slotQueue] at h ⊢
    split_ifs with hmem hroom
    · refine .inr ?_
      by_cases hx : v = w ∧ deadline < d
      · exact ⟨deadline, UInt64.le_of_lt hx.2, List.mem_map.2 ⟨_, h, by rw [if_pos hx, hx.1]⟩⟩
      · exact ⟨d, UInt64.le_refl _, List.mem_map.2 ⟨_, h, if_neg hx⟩⟩
    · exact .inr ⟨d, UInt64.le_refl _, List.mem_append_left _ h⟩
    · rcases List.eq_nil_or_concat q with rfl | ⟨q, x, rfl⟩
      · cases h
      · rw [List.concat_eq_append] at h ⊢
        rw [List.dropLast_concat, List.getLast?_concat]
        rcases List.mem_append.1 h with h | h
        · exact .inr ⟨d, UInt64.le_refl _, List.mem_append_left _ h⟩
        · exact .inl (by simp [← List.mem_singleton.1 h])
  unchanged q deadline w := by
    simp only [slotQueue]
    split_ifs with hmem hroom
    · intro hsame v d h
      obtain ⟨x, hx, heq⟩ := List.mem_map.1 h
      have hnot := List.any_eq_false.1 hsame x hx
      rw [if_neg (by simpa using hnot)] at heq
      exact heq ▸ hx
    · intro h
      cases h
    · intro h
      cases h
  expires q now v d := by simp [slotQueue]
  wakes q now v d h hle :=
    List.mem_map.2 ⟨(v, d), List.mem_filter.2 ⟨h, by simpa using hle⟩, rfl⟩
  next q now v d h := foldr_next_le h

/-! ### The driver -/

/-- Where the driver is. -/
inductive DriverPc
  /-- Outside its critical sections. -/
  | rest
  /-- Before `queue.next_expiration`. -/
  | expire
  /-- In `arm_alarm`, before it reads the counter. -/
  | arm (next : UInt64)
  /-- The counter is read; `INTE` is not set yet. -/
  | enable (now next : UInt64)
  /-- `ALARM0` is not written yet. -/
  | write (now next : UInt64)
  deriving DecidableEq, Repr

structure TimeDriver (Q : Type*) where
  timer : Timer0
  /-- `ALARM0` has been written and has not fired since. -/
  armed : Bool
  /-- The alarm has fired (`INTR`). -/
  latched : Bool
  queue : Q
  pc : DriverPc
  /-- For how many microseconds the driver has been inside a critical section, or its interrupt
  waiting. -/
  age : ℕ

/-- What is seen of the driver: time, the calls of `schedule_wake`, the tasks woken, and the write of
`ALARM0`. -/
inductive DriverEvent (W : Type*)
  | tick
  | schedule (deadline : UInt64) (w : W) (woken : List W)
  | expired (woken : List W)
  | write
  | silent

/-- The tasks that an event wakes. -/
def DriverEvent.woken {W : Type*} : DriverEvent W → List W
  | .schedule _ _ woken => woken
  | .expired woken => woken
  | _ => []

namespace TimeDriver

variable {Q W : Type*}

def boot (timeraw : UInt64) (queue : Q) : TimeDriver Q :=
  ⟨⟨timeraw, false, 0⟩, false, false, queue, .rest, 0⟩

def now (s : TimeDriver Q) : ℕ := s.timer.timeraw.toNat

/-- The interrupt waits. -/
def irqWaits (s : TimeDriver Q) : Bool := s.latched && s.timer.inte

/-- The driver rests, and no interrupt waits. -/
def quiet (s : TimeDriver Q) : Bool := s.pc = .rest && !s.irqWaits

/-- The age starts again when the driver is quiet. -/
def settle (s : TimeDriver Q) : TimeDriver Q := if s.quiet then { s with age := 0 } else s

/-- One microsecond. -/
def tick (s : TimeDriver Q) : TimeDriver Q :=
  let timer := s.timer.tick 1
  let fires := s.armed && timer.timerawl = timer.alarm0
  { s with
    timer
    armed := s.armed && !fires
    latched := s.latched || fires
    age := if s.quiet then s.age else s.age + 1 }

/-- The steps of the driver and of the timer. -/
inductive Step (ops : TimerQueue Q W) (s : TimeDriver Q) : DriverEvent W → TimeDriver Q → Prop
  | tick : Step ops s .tick s.tick.settle
  /-- `schedule_wake`; the rest of it runs when the queue has changed. -/
  | schedule {deadline : UInt64} {w : W} {queue : Q} {woken : List W} {changed : Bool} :
      s.pc = .rest → ops.scheduleWake s.queue deadline w = (queue, woken, changed) →
      Step ops s (.schedule deadline w woken)
        { s with queue, pc := if changed then .expire else .rest }
  /-- `TIMER0_IRQ_0` clears the latched interrupt. -/
  | irq : s.pc = .rest → s.irqWaits → Step ops s .silent { s with latched := false, pc := .expire }
  | expire {queue : Q} {woken : List W} {next : UInt64} : s.pc = .expire →
      ops.nextExpiration s.queue s.timer.timeraw = (queue, woken, next) →
      Step ops s (.expired woken) { s with queue, pc := .arm next }
  /-- No timers pending: the interrupt is disabled. -/
  | mask : s.pc = .arm Timer0.noDeadline →
      Step ops s .silent (settle { s with timer := { s.timer with inte := false }, pc := .rest })
  | read {next : UInt64} : s.pc = .arm next → next ≠ Timer0.noDeadline →
      Step ops s .silent { s with pc := .enable s.timer.timeraw next }
  | enable {now next : UInt64} : s.pc = .enable now next →
      Step ops s .silent { s with timer := { s.timer with inte := true }, pc := .write now next }
  | write {now next : UInt64} : s.pc = .write now next →
      Step ops s .write (settle
        { s with
          timer := { s.timer with alarm0 := (Timer0.target now next).toUInt32 }
          armed := true
          pc := .rest })

/-- The driver, from an empty queue on. -/
def system (ops : TimerQueue Q W) : System (TimeDriver Q) (DriverEvent W) where
  init s := ∃ timeraw queue, (∀ w d, ¬ops.pending queue w d) ∧ s = boot timeraw queue
  step := Step ops

/-- A critical section, or a waiting interrupt, takes `L` microseconds at most; `ALARM0` is written
before its target is counted; the counter does not come round. -/
def Timely (L : ℕ) (s : TimeDriver Q) : DriverEvent W → Prop
  | .tick => s.now + 1 < 2 ^ 64 ∧ (s.quiet = false → s.age < L)
  | .write => ∀ now next, s.pc = .write now next → s.now < now.toNat + Timer0.slack now next
  | _ => True

/-! ### What is pending -/

/-- The deadline is about to be looked at: the interrupt waits, or the alarm fires by the deadline,
or in two microseconds if that is later; and it is not long overdue. -/
def Due (L : ℕ) (s : TimeDriver Q) (d : UInt64) : Prop :=
  (s.irqWaits = true ∧ s.now ≤ d.toNat + L + 2 + s.age) ∨
    (s.armed = true ∧ ∃ n, s.timer.FiresIn n ∧ s.now + n ≤ max d.toNat (s.now + 2) ∧
      s.now + n ≤ d.toNat + L + 2)

/-- The deadline is not before `next`, and was not due when the critical section began. -/
def Ahead (next : UInt64) (s : TimeDriver Q) (d : UInt64) : Prop :=
  next ≤ d ∧ s.now ≤ d.toNat + s.age

/-- What holds of a pending deadline, by where the driver is. -/
def CoveredAt (L : ℕ) (s : TimeDriver Q) (d : UInt64) : DriverPc → Prop
  | .rest => d ≠ Timer0.noDeadline → s.Due L d
  | .expire => True
  | .arm next => s.Ahead next d
  | .enable now next => next ≠ Timer0.noDeadline ∧ now ≤ s.timer.timeraw ∧ s.Ahead next d
  | .write now next => next ≠ Timer0.noDeadline ∧ now ≤ s.timer.timeraw ∧
      s.timer.inte = true ∧ s.Ahead next d

/-- Every pending deadline is covered. -/
def Covered (ops : TimerQueue Q W) (L : ℕ) (s : TimeDriver Q) : Prop :=
  s.age ≤ L ∧ ∀ w d, ops.pending s.queue w d → s.CoveredAt L d s.pc

end TimeDriver

theorem Timer0.toNat_tick_one {t : Timer0} (h : t.timeraw.toNat + 1 < 2 ^ 64) :
    (t.tick 1).timeraw.toNat = t.timeraw.toNat + 1 := by
  rw [toNat_tick, Nat.mod_eq_of_lt h]

/-- An alarm fires now, or one microsecond nearer. -/
theorem Timer0.FiresIn.tick {t : Timer0} {n : ℕ} (h : t.FiresIn n) :
    (n = 1 ∧ (t.tick 1).timerawl = t.alarm0) ∨
      (1 < n ∧ (t.tick 1).timerawl ≠ t.alarm0 ∧ (t.tick 1).FiresIn (n - 1)) := by
  obtain ⟨hinte, ⟨hpos, hat⟩, hleast⟩ := h
  rcases Nat.eq_or_lt_of_le (Nat.succ_le_of_lt hpos) with heq | hlt
  · obtain rfl : n = 1 := heq.symm
    exact .inl ⟨rfl, hat⟩
  refine .inr ⟨hlt, fun hone => ?_, hinte, ⟨by omega, ?_⟩, fun m ⟨hm, hat'⟩ => ?_⟩
  · have hle := hleast ⟨Nat.one_pos, hone⟩
    omega
  · rw [tick_tick, Nat.add_sub_cancel' hlt.le]
    exact hat
  · rw [tick_tick] at hat'
    have hle := hleast ⟨Nat.add_pos_left Nat.one_pos m, hat'⟩
    omega

namespace TimeDriver

variable {Q W : Type*} {ops : TimerQueue Q W} {L : ℕ} {s s' : TimeDriver Q} {d : UInt64}

/-! ### One step -/

@[simp] theorem settle_timer (s : TimeDriver Q) : s.settle.timer = s.timer := by
  rw [settle]; split_ifs <;> rfl

@[simp] theorem settle_armed (s : TimeDriver Q) : s.settle.armed = s.armed := by
  rw [settle]; split_ifs <;> rfl

@[simp] theorem settle_latched (s : TimeDriver Q) : s.settle.latched = s.latched := by
  rw [settle]; split_ifs <;> rfl

@[simp] theorem settle_queue (s : TimeDriver Q) : s.settle.queue = s.queue := by
  rw [settle]; split_ifs <;> rfl

@[simp] theorem settle_pc (s : TimeDriver Q) : s.settle.pc = s.pc := by
  rw [settle]; split_ifs <;> rfl

theorem settle_age_le (s : TimeDriver Q) : s.settle.age ≤ s.age := by
  rw [settle]
  split_ifs
  · exact Nat.zero_le _
  · exact le_rfl

theorem quiet_of_pc (h : s.pc ≠ .rest) : s.quiet = false := by simp [quiet, h]

theorem quiet_of_irqWaits (h : s.irqWaits = true) : s.quiet = false := by simp [quiet, h]

/-- Whether a deadline is covered does not depend on the age of a quiet driver. -/
theorem CoveredAt.settle (h : s.CoveredAt L d s.pc) : s.settle.CoveredAt L d s.settle.pc := by
  rw [settle_pc]
  cases hq : s.quiet with
  | false =>
    have heq : s.settle = s := by rw [TimeDriver.settle, if_neg (by simp [hq])]
    rwa [heq]
  | true =>
    obtain ⟨hpc, hirq⟩ : s.pc = .rest ∧ s.irqWaits = false := by simpa [quiet] using hq
    rw [hpc] at h ⊢
    intro hd
    rcases h hd with ⟨hwaits, -⟩ | ⟨harmed, n, hfires, hby, hover⟩
    · rw [hirq] at hwaits
      cases hwaits
    · exact .inr ⟨by simpa using harmed, n, by simpa using hfires, by simpa [now] using hby,
        by simpa [now] using hover⟩

theorem now_tick (h : s.now + 1 < 2 ^ 64) : s.tick.now = s.now + 1 := Timer0.toNat_tick_one h

/-- The alarm comes nearer, or the interrupt waits. -/
theorem Due.tick (h : s.Due L d) (hnow : s.now + 1 < 2 ^ 64) : s.tick.Due L d := by
  have hnow' := now_tick hnow
  rcases h with ⟨hwaits, hover⟩ | ⟨harmed, n, hfires, hby, hover⟩
  · have hq := quiet_of_irqWaits hwaits
    obtain ⟨hlatched, hinte⟩ : s.latched = true ∧ s.timer.inte = true := by
      simpa [irqWaits] using hwaits
    refine .inl ⟨by simp [irqWaits, TimeDriver.tick, Timer0.tick, hlatched, hinte], ?_⟩
    have hage : s.tick.age = s.age + 1 := by simp [TimeDriver.tick, hq]
    omega
  rcases hfires.tick with ⟨rfl, hat⟩ | ⟨hlt, hne, hfires'⟩
  · refine .inl ⟨?_, by omega⟩
    have hinte : (s.timer.tick 1).inte = true := hfires.1
    have halarm : (s.timer.tick 1).alarm0 = s.timer.alarm0 := rfl
    simp [irqWaits, TimeDriver.tick, harmed, hat, hinte, halarm]
  · have halarm : (s.timer.tick 1).alarm0 = s.timer.alarm0 := rfl
    refine .inr ⟨by simp [TimeDriver.tick, harmed, halarm, hne], n - 1, hfires', ?_, ?_⟩
    · omega
    · omega

theorem Ahead.tick {next : UInt64} (h : s.Ahead next d) (hnow : s.now + 1 < 2 ^ 64)
    (hq : s.quiet = false) : s.tick.Ahead next d := by
  have hage : s.tick.age = s.age + 1 := by simp [TimeDriver.tick, hq]
  have hnow' := now_tick hnow
  obtain ⟨hle, hnow⟩ := h
  exact ⟨hle, by omega⟩

theorem CoveredAt.tick (h : s.CoveredAt L d s.pc) (hnow : s.now + 1 < 2 ^ 64) :
    s.tick.CoveredAt L d s.pc := by
  have hlater : ∀ now : UInt64, now ≤ s.timer.timeraw → now ≤ s.tick.timer.timeraw := by
    intro now hle
    have hnow' := now_tick hnow
    rw [UInt64.le_iff_toNat_le] at hle ⊢
    simp only [TimeDriver.now] at hnow'
    omega
  cases hpc : s.pc with
  | rest =>
    rw [hpc] at h
    exact fun hd => (h hd).tick hnow
  | expire => trivial
  | arm next =>
    rw [hpc] at h
    exact Ahead.tick h hnow (quiet_of_pc (by simp [hpc]))
  | enable now next =>
    rw [hpc] at h
    obtain ⟨hnext, hle, hahead⟩ := h
    exact ⟨hnext, hlater _ hle, hahead.tick hnow (quiet_of_pc (by simp [hpc]))⟩
  | write now next =>
    rw [hpc] at h
    obtain ⟨hnext, hle, hinte, hahead⟩ := h
    exact ⟨hnext, hlater _ hle, hinte, hahead.tick hnow (quiet_of_pc (by simp [hpc]))⟩

/-- **The write of `ALARM0`** before its target is counted covers the deadlines ahead. -/
theorem due_write {now next : UInt64} (hage : s.age ≤ L) (hnext : next ≠ Timer0.noDeadline)
    (hle : now ≤ s.timer.timeraw) (hinte : s.timer.inte = true) (hahead : s.Ahead next d)
    (htime : s.now < now.toNat + Timer0.slack now next) :
    ({ s with
      timer := { s.timer with alarm0 := (Timer0.target now next).toUInt32 }
      armed := true
      pc := .rest } : TimeDriver Q).Due L d := by
  obtain ⟨hnextd, hover⟩ := hahead
  rw [UInt64.le_iff_toNat_le] at hle hnextd
  have hslack := Timer0.add_slack_le now next
  have hnow : s.now = s.timer.timeraw.toNat := rfl
  -- the timer is the one that was read, so much later
  have htimer : (⟨now, false, 0⟩ : Timer0).armAlarm next (s.now - now.toNat) =
      { s.timer with alarm0 := (Timer0.target now next).toUInt32 } := by
    have hraw : now + UInt64.ofNat (s.now - now.toNat) = s.timer.timeraw := by
      apply UInt64.toNat_inj.1
      have hlt := s.timer.timeraw.toNat_lt
      rw [UInt64.toNat_add, UInt64.toNat_ofNat']
      omega
    rw [Timer0.armAlarm, if_neg hnext, Timer0.tick, hraw, ← hinte]
  have helapsed : s.now - now.toNat < Timer0.slack now next := by omega
  have hfires := Timer0.armAlarm_before ⟨now, false, 0⟩ hnext helapsed
  rw [htimer] at hfires
  refine .inr ⟨rfl, _, hfires, ?_, ?_⟩
  · change s.now + _ ≤ max d.toNat (s.now + 2)
    dsimp only
    omega
  · change s.now + _ ≤ _
    dsimp only
    omega

/-- **One step** of the driver. -/
theorem Covered.step (h : s.Covered ops L) (hops : ops.Lawful) {ev : DriverEvent W}
    (htime : s.Timely L ev) (hst : s.Step ops ev s') : s'.Covered ops L := by
  obtain ⟨hage, hcov⟩ := h
  cases hst with
  | tick =>
    obtain ⟨hnow, hbusy⟩ := htime
    refine ⟨(settle_age_le _).trans ?_, fun w d hp => ?_⟩
    · cases hq : s.quiet with
      | true => simpa [TimeDriver.tick, hq] using hage
      | false => simpa [TimeDriver.tick, hq] using Nat.succ_le_of_lt (hbusy hq)
    · rw [settle_queue] at hp
      exact CoveredAt.settle ((hcov w d hp).tick hnow)
  | @schedule deadline w queue woken changed hpc hsched =>
    refine ⟨hage, fun v d hp => ?_⟩
    cases changed with
    | true => trivial
    | false =>
      have hsame := hops.unchanged s.queue deadline w
      rw [hsched] at hsame
      have hcov' := hcov v d (hsame rfl v d hp)
      rw [hpc] at hcov'
      exact hcov'
  | irq => exact ⟨hage, fun w d hp => trivial⟩
  | @expire queue woken next hpc hnext =>
    refine ⟨hage, fun w d hp => ?_⟩
    have hexp := hops.expires s.queue s.timer.timeraw w d
    have hle := hops.next s.queue s.timer.timeraw w d
    rw [hnext] at hexp hle
    have hlt := UInt64.lt_iff_toNat_lt.1 (hexp.1 hp).2
    exact ⟨hle hp, by change s.timer.timeraw.toNat ≤ _; omega⟩
  | mask hpc =>
    refine ⟨(settle_age_le _).trans hage, fun w d hp => ?_⟩
    rw [settle_queue] at hp
    have hcov' := hcov w d hp
    rw [hpc] at hcov'
    -- only deadlines that stand for none are left
    refine CoveredAt.settle fun hd => absurd ?_ hd
    have hle := UInt64.le_iff_toNat_le.1 hcov'.1
    have hlt := d.toNat_lt
    apply UInt64.toNat_inj.1
    have hmax : Timer0.noDeadline.toNat = 2 ^ 64 - 1 := rfl
    omega
  | read hpc hnext =>
    refine ⟨hage, fun w d hp => ?_⟩
    have hcov' := hcov w d hp
    rw [hpc] at hcov'
    exact ⟨hnext, UInt64.le_refl _, hcov'⟩
  | enable hpc =>
    refine ⟨hage, fun w d hp => ?_⟩
    have hcov' := hcov w d hp
    rw [hpc] at hcov'
    obtain ⟨hnext, hle, hahead⟩ := hcov'
    exact ⟨hnext, hle, rfl, hahead⟩
  | write hpc =>
    refine ⟨(settle_age_le _).trans hage, fun w d hp => ?_⟩
    rw [settle_queue] at hp
    have hcov' := hcov w d hp
    rw [hpc] at hcov'
    obtain ⟨hnext, hle, hinte, hahead⟩ := hcov'
    exact CoveredAt.settle fun _ => due_write hage hnext hle hinte hahead (htime _ _ hpc)

/-! ### Runs -/

/-- **Runs** keep every pending deadline covered. -/
theorem covered (hops : ops.Lawful) {tr : List (DriverEvent W)}
    (h : ((system ops).restrict (Timely L)).Run tr s) : s.Covered ops L := by
  refine h.induction (J := fun _ s => s.Covered ops L) ?_ fun _ _ _ _ _ ih hst =>
    ih.step hops hst.1 hst.2
  rintro _ ⟨timeraw, queue, hempty, rfl⟩
  exact ⟨Nat.zero_le _, fun w d hp => (hempty w d hp).elim⟩

/-- A pending task stays pending, no later, until it is woken. -/
theorem Step.keeps (hops : ops.Lawful) {ev : DriverEvent W} (hst : s.Step ops ev s') {w : W}
    (hp : ops.pending s.queue w d) :
    w ∈ ev.woken ∨ ∃ d' ≤ d, ops.pending s'.queue w d' := by
  cases hst with
  | @schedule deadline v queue woken changed _ hsched =>
    have hkeeps := hops.keeps s.queue deadline v w d hp
    rwa [hsched] at hkeeps
  | @expire queue woken next _ hnext =>
    have hexp := hops.expires s.queue s.timer.timeraw w d
    have hwakes := hops.wakes s.queue s.timer.timeraw w d hp
    rw [hnext] at hexp hwakes
    rcases UInt64.le_or_lt d s.timer.timeraw with hle | hlt
    · exact .inl (hwakes hle)
    · exact .inr ⟨d, UInt64.le_refl _, hexp.2 ⟨hp, hlt⟩⟩
  | tick | mask | write =>
    refine .inr ⟨d, UInt64.le_refl _, ?_⟩
    rw [settle_queue]
    exact hp
  | irq | read | enable => exact .inr ⟨d, UInt64.le_refl _, hp⟩

theorem pending_of_path (hops : ops.Lawful) {tr : List (DriverEvent W)}
    (h : (system ops).Path s tr s') {w : W} (hp : ops.pending s.queue w d) :
    (∃ ev ∈ tr, w ∈ ev.woken) ∨ ∃ d' ≤ d, ops.pending s'.queue w d' := by
  induction h with
  | nil => exact .inr ⟨d, UInt64.le_refl _, hp⟩
  | snoc _ hst ih =>
    rcases ih with ⟨ev, hev, hw⟩ | ⟨d', hd', hp'⟩
    · exact .inl ⟨ev, List.mem_append_left _ hev, hw⟩
    rcases Step.keeps hops hst hp' with hw | ⟨d'', hd'', hp''⟩
    · exact .inl ⟨_, by simp, hw⟩
    · exact .inr ⟨d'', UInt64.le_trans hd'' hd', hp''⟩

/-- After `schedule_wake` the task is pending, no later, until it is woken. -/
theorem pending_of_run (hops : ops.Lawful) {tr₁ tr₂ : List (DriverEvent W)} {deadline : UInt64}
    {w : W} {woken : List W} (h : (system ops).Run (tr₁ ++ .schedule deadline w woken :: tr₂) s) :
    (∃ ev ∈ tr₂, w ∈ ev.woken) ∨ ∃ d ≤ deadline, ops.pending s.queue w d := by
  rw [← List.singleton_append, ← List.append_assoc] at h
  obtain ⟨s₁, hrun, hpath⟩ := h.exists_path
  obtain ⟨s₀, -, hst⟩ := hrun.last
  obtain ⟨d, hd, hp⟩ : ∃ d ≤ deadline, ops.pending s₁.queue w d := by
    cases hst with
    | schedule _ hsched =>
      have hsch := hops.schedules s₀.queue deadline w
      rwa [hsched] at hsch
  exact (pending_of_path hops hpath hp).imp_right fun ⟨d', hd', hp'⟩ => ⟨d', UInt64.le_trans hd' hd, hp'⟩

/-- **Wake-ups.**  Take a run in which critical sections and waiting interrupts take `L`
microseconds at most and `ALARM0` is written before its target is counted.  A task that has called
`schedule_wake` has been woken since, or it is pending with a deadline that is not later; while
it is, and the driver rests, the interrupt waits, or the alarm is armed and fires by the deadline or
within two microseconds.  Except before a `next_expiration` the deadline is at most `2 * L + 2`
microseconds ago. -/
theorem timeDriver_wakes (hops : ops.Lawful) {tr₁ tr₂ : List (DriverEvent W)} {deadline : UInt64}
    {w : W} {woken : List W}
    (h : ((system ops).restrict (Timely L)).Run (tr₁ ++ .schedule deadline w woken :: tr₂) s) :
    (∃ ev ∈ tr₂, w ∈ ev.woken) ∨
      ∃ d ≤ deadline, ops.pending s.queue w d ∧
        (d ≠ Timer0.noDeadline →
          (s.pc = .rest → s.irqWaits = true ∨ (s.armed = true ∧
            ∃ n, s.timer.FiresIn n ∧ s.now + n ≤ max d.toNat (s.now + 2))) ∧
          (s.pc ≠ .expire → s.now ≤ d.toNat + 2 * L + 2)) := by
  refine (pending_of_run hops h.of_restrict).imp_right fun ⟨d, hle, hp⟩ =>
    ⟨d, hle, hp, fun hd => ?_⟩
  obtain ⟨hage, hcov⟩ := covered hops h
  have hcov := hcov w d hp
  constructor
  · intro hpc
    rw [hpc] at hcov
    rcases hcov hd with ⟨hwaits, -⟩ | ⟨harmed, n, hfires, hby, -⟩
    · exact .inl hwaits
    · exact .inr ⟨harmed, n, hfires, hby⟩
  · intro hpc
    -- the age is at most `L`
    cases hat : s.pc with
    | rest =>
      rw [hat] at hcov
      rcases hcov hd with ⟨-, hover⟩ | ⟨-, n, -, -, hover⟩ <;> omega
    | expire => exact absurd hat hpc
    | arm =>
      rw [hat] at hcov
      have hover := hcov.2
      omega
    | enable =>
      rw [hat] at hcov
      have hover := hcov.2.2.2
      omega
    | write =>
      rw [hat] at hcov
      have hover := hcov.2.2.2.2
      omega

/-- One task and the 16 slots of the build; nothing takes longer than a microsecond. -/
def oneTask : System (TimeDriver (List (Unit × UInt64))) (DriverEvent Unit) :=
  (system (slotQueue Unit 16)).restrict (Timely 1)

/-- A task sleeps for 100 microseconds; one later the alarm is armed for it. -/
theorem timeDriver_wakes_sleep :
    oneTask.Run ([] ++ .schedule 100 () [] :: [.expired [], .silent, .silent, .write, .tick])
        ⟨⟨1, true, 100⟩, true, false, [((), 100)], .rest, 0⟩ ∧
      ∃ n, (⟨1, true, 100⟩ : Timer0).FiresIn n ∧ 1 + n ≤ 100 := by
  have h₀ : oneTask.Run [] (boot 0 []) := .init ⟨0, [], ⟨fun _ _ h => List.not_mem_nil h, rfl⟩⟩
  have hst₁ : oneTask.step (boot 0 []) (.schedule 100 () [])
      ⟨⟨0, false, 0⟩, false, false, [((), 100)], .expire, 0⟩ := ⟨trivial, .schedule rfl rfl⟩
  have hst₂ : oneTask.step ⟨⟨0, false, 0⟩, false, false, [((), 100)], .expire, 0⟩ (.expired [])
      ⟨⟨0, false, 0⟩, false, false, [((), 100)], .arm 100, 0⟩ := ⟨trivial, .expire rfl rfl⟩
  have hst₃ : oneTask.step ⟨⟨0, false, 0⟩, false, false, [((), 100)], .arm 100, 0⟩ .silent
      ⟨⟨0, false, 0⟩, false, false, [((), 100)], .enable 0 100, 0⟩ :=
    ⟨trivial, .read rfl (by decide)⟩
  have hst₄ : oneTask.step ⟨⟨0, false, 0⟩, false, false, [((), 100)], .enable 0 100, 0⟩ .silent
      ⟨⟨0, true, 0⟩, false, false, [((), 100)], .write 0 100, 0⟩ := ⟨trivial, .enable rfl⟩
  have hst₅ : oneTask.step ⟨⟨0, true, 0⟩, false, false, [((), 100)], .write 0 100, 0⟩ .write _ :=
    ⟨fun now next hpc => by cases hpc; decide, .write rfl⟩
  have hst₆ : oneTask.step ⟨⟨0, true, 100⟩, true, false, [((), 100)], .rest, 0⟩ .tick
      ⟨⟨1, true, 100⟩, true, false, [((), 100)], .rest, 0⟩ :=
    ⟨⟨by decide, fun hq => by cases hq⟩, .tick⟩
  have h₅ := ((((h₀.snoc hst₁).snoc hst₂).snoc hst₃).snoc hst₄).snoc hst₅
  have h₆ : oneTask.Run
      ([] ++ .schedule 100 () [] :: [.expired [], .silent, .silent, .write, .tick])
      ⟨⟨1, true, 100⟩, true, false, [((), 100)], .rest, 0⟩ := h₅.snoc hst₆
  refine ⟨h₆, ?_⟩
  rcases timeDriver_wakes (slotQueue_lawful Unit 16) h₆ with ⟨ev, hev, hw⟩ | ⟨d, hd, -, hfires⟩
  · have hnone : ∀ ev ∈ ([.expired [], .silent, .silent, .write, .tick] :
        List (DriverEvent Unit)), ev.woken = [] := by simp [DriverEvent.woken]
    rw [hnone ev hev] at hw
    cases hw
  · have hne : d ≠ Timer0.noDeadline := by
      rintro rfl
      exact absurd hd (by decide)
    rcases (hfires hne).1 rfl with hwaits | ⟨-, n, hn, hby⟩
    · cases hwaits
    · have hle := UInt64.le_iff_toNat_le.1 hd
      have hnow : (100 : UInt64).toNat = 100 := rfl
      refine ⟨n, hn, ?_⟩
      change 1 + n ≤ max d.toNat (1 + 2) at hby
      omega

end TimeDriver

end Pico10BaseT
