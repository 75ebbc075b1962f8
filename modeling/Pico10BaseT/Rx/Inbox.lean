import Pico10BaseT.LTS.Basic
import Pico10BaseT.Queue.DropOldest
import Pico10BaseT.Rx.LineFrame

/-!
# The hand-over between the cores

Core 1 publishes frames into the inbox and merges the counts of an image when its scan is over; core 0
pops the inbox and takes the stats.  The ledger of a run (`handoverOf`) replays its publishes and
pops on a queue that drops its oldest element.

`HandInv` relates a run to the state it ends in: the inbox is the queue of the ledger, `inbox_dropped`
counts the dropped, and `fcs_ok` counts the published but for those of the image that is being
drained (`ThreadAt`).

* `inbox_handover` : what core 0 gets, in every run, and what the two counters say about it.
-/

namespace Pico10BaseT

/-! ### What a run hands over -/

/-- The frame that an action publishes. -/
def MacEvent.publishes : MacEvent → Option (List UInt8)
  | .shared (.published frame) => some frame
  | _ => none

/-- The frame that an action gives to core 0. -/
def MacEvent.pops : MacEvent → Option (List UInt8)
  | .shared (.popped frame) => frame
  | _ => none

/-- The stats that an action gives to core 0. -/
def MacEvent.snaps : MacEvent → Option EthRxStats
  | .shared (.snapshot stats) => some stats
  | _ => none

/-- What an action does to the inbox. -/
def MacEvent.inboxOp : MacEvent → Option (QueueOp (List UInt8))
  | .shared (.published frame) => some (.put frame)
  | .shared (.popped _) => some .take
  | _ => none

/-- The frames published, in order. -/
def publishedOf (tr : List MacEvent) : List (List UInt8) := tr.filterMap MacEvent.publishes

/-- The frames popped, in order. -/
def poppedOf (tr : List MacEvent) : List (List UInt8) := tr.filterMap MacEvent.pops

/-- The ledger of the inbox: the published frames, numbered, and what became of each. -/
def handoverOf (tr : List MacEvent) : Ledger (List UInt8) :=
  .run inboxSlots (tr.filterMap MacEvent.inboxOp)

/-- A counter over all snapshots, plus its current value. -/
def totalOf (count : EthRxStats → UInt32) (tr : List MacEvent) (stats : EthRxStats) : ℕ :=
  ((tr.filterMap MacEvent.snaps).map fun st => (count st).toNat).sum + (count stats).toNat

/-- A total of 32-bit counters that may have wrapped says `n`. -/
def Says (total n : ℕ) : Prop := ∃ wraps, n = total + 2 ^ 32 * wraps

theorem says_zero : Says 0 0 := ⟨0, rfl⟩

/-- A sum of counters may wrap once more. -/
theorem Says.add {x n : ℕ} {a b : UInt32} (h : Says (x + (a.toNat + b.toNat)) n) :
    Says (x + (a + b).toNat) n := by
  obtain ⟨wraps, rfl⟩ := h
  refine ⟨wraps + (a.toNat + b.toNat) / 2 ^ 32, ?_⟩
  rw [UInt32.toNat_add]
  omega

theorem Says.succ {x n : ℕ} {a : UInt32} (h : Says (x + a.toNat) n) :
    Says (x + (a + 1).toNat) (n + 1) := by
  obtain ⟨wraps, rfl⟩ := h
  exact Says.add ⟨wraps, by rw [UInt32.toNat_one]; omega⟩

section Trace

variable {tr : List MacEvent} {ev : MacEvent}

theorem publishedOf_snoc : publishedOf (tr ++ [ev]) = publishedOf tr ++ ev.publishes.toList := by
  rw [publishedOf, List.filterMap_append]
  cases h : ev.publishes <;> simp [publishedOf, h]

theorem poppedOf_snoc : poppedOf (tr ++ [ev]) = poppedOf tr ++ ev.pops.toList := by
  rw [poppedOf, List.filterMap_append]
  cases h : ev.pops <;> simp [poppedOf, h]

theorem handoverOf_snoc {op : QueueOp (List UInt8)} (h : ev.inboxOp = some op) :
    handoverOf (tr ++ [ev]) = (handoverOf tr).step inboxSlots op := by
  rw [handoverOf, List.filterMap_append, handoverOf, ← Ledger.run_snoc]
  simp [h]

theorem handoverOf_snoc_none (h : ev.inboxOp = none) : handoverOf (tr ++ [ev]) = handoverOf tr := by
  rw [handoverOf, List.filterMap_append, handoverOf]
  simp [h]

theorem totalOf_snoc_none (count : EthRxStats → UInt32) (stats : EthRxStats) (h : ev.snaps = none) :
    totalOf count (tr ++ [ev]) stats = totalOf count tr stats := by
  simp [totalOf, List.filterMap_append, h]

/-- A snapshot moves the current value to the values taken. -/
theorem totalOf_snapshot {count : EthRxStats → UInt32} (h : count .new = 0) (stats : EthRxStats) :
    totalOf count (tr ++ [.shared (.snapshot stats)]) .new = totalOf count tr stats := by
  simp [totalOf, List.filterMap_append, MacEvent.snaps, h]

theorem put_handoverOf : (handoverOf tr).put = publishedOf tr := by
  rw [handoverOf, Ledger.put_run, publishedOf, List.filterMap_filterMap]
  refine List.filterMap_congr fun ev _ => ?_
  rcases ev with _ | _ | (_ | _ | _ | _) | _ <;> rfl

theorem valid_handoverOf : (handoverOf tr).Valid inboxSlots := Ledger.valid_run (by decide) _

end Trace

/-! ### The calls of the contexts -/

/-- What a context does under the lock. -/
def Ctx.Calls : Ctx → SharedCall → Prop
  | .core0, .receive => True
  | .core0, .snapshot => True
  | .thread, .publish _ => True
  | .thread, .merge _ => True
  | .irq, .addCapped _ => True
  | _, _ => False

/-- Where the thread is in a drain, with `n` frames published that are not merged yet. -/
inductive ThreadAt : DrainPc → Option (Section SharedCall) → UInt32 → Prop
  | scanning {r : UInt32} {len cl cursor : ℕ} {acc : StatsDelta} :
      ThreadAt (.scan r len cl cursor acc) none acc.ok
  | publishing {r : UInt32} {len cl cursor : ℕ} {acc : StatsDelta} {frame : List UInt8} {holds : Bool}
      {n : UInt32} : acc.ok = n + 1 →
      ThreadAt (.scan r len cl cursor acc) (some ⟨.publish frame, holds⟩) n
  | merging {r : UInt32} {acc : StatsDelta} {holds : Bool} :
      ThreadAt (.storeR r) (some ⟨.merge acc, holds⟩) acc.ok
  | between {pc : DrainPc} : (∀ r len cl cursor acc, pc ≠ .scan r len cl cursor acc) →
      ThreadAt pc none 0

/-- No image is being drained. -/
def Mac.BetweenDrains (s : Mac) : Prop :=
  (∀ r len cl cursor acc, s.drain ≠ .scan r len cl cursor acc) ∧ s.lock.inside .thread = none

theorem ThreadAt.eq_zero {pc : DrainPc} {n : UInt32} (h : ThreadAt pc none n)
    (hpc : ∀ r len cl cursor acc, pc ≠ .scan r len cl cursor acc) : n = 0 := by
  cases h with
  | scanning => exact (hpc _ _ _ _ _ rfl).elim
  | between => rfl

/-- **The thread outside its critical sections** publishes nothing and merges nothing. -/
theorem ThreadAt.drainStep {s s' : Mac} {ev : DrainEvent} {n : UInt32}
    (h : ThreadAt s.drain none n) (hout : s.lock.inside .thread = none)
    (hstep : s.drainStep = .ok (ev, s')) : ThreadAt s'.drain (s'.lock.inside .thread) n := by
  obtain ⟨call, hmove, hin⟩ := Mac.drainStep_cases hstep hout
  rw [hin]
  generalize s'.drain = pc at hmove
  cases hmove with
  | looks hscan _ hscan' _ =>
    obtain rfl := h.eq_zero hscan
    exact .between hscan'
  | begins hpc =>
    obtain rfl := h.eq_zero (by simp [hpc])
    exact .scanning
  | consumes hpc =>
    obtain rfl := h.eq_zero (by simp [hpc])
    exact .between (by simp)
  | ends hpc hturn =>
    rw [hpc] at h
    cases h with
    | between hne => exact (hne _ _ _ _ _ rfl).elim
    | scanning => exact .merging
  | @turns _ _ _ _ acc _ t hpc hturn =>
    obtain ⟨off, len', -, hscan⟩ := scanTurn_scanned hturn
    have hok := hscan.ok_count
    rw [hpc] at h
    cases h with
    | between hne => exact (hne _ _ _ _ _ rfl).elim
    | scanning =>
      cases hpub : t.publish with
      | none =>
        rw [hpub] at hok
        have hsame : t.acc.ok = acc.ok := hok
        rw [← hsame]
        exact .scanning
      | some frame =>
        rw [hpub] at hok
        exact .publishing hok

theorem ThreadAt.calls {pc : DrainPc} {f : SharedCall} {holds : Bool} {n : UInt32}
    (h : ThreadAt pc (some ⟨f, holds⟩) n) : Ctx.thread.Calls f := by
  cases h <;> trivial

/-- Taking the lock is not seen from where the thread is. -/
theorem ThreadAt.claim {pc : DrainPc} {f : SharedCall} {holds : Bool} {n : UInt32}
    (h : ThreadAt pc (some ⟨f, false⟩) n) : ThreadAt pc (some ⟨f, holds⟩) n := by
  cases h with
  | publishing hok => exact .publishing hok
  | merging => exact .merging

/-! ### The invariant -/

/-- The shared state after a run, with `n` frames published that are not merged yet. -/
structure HandedOver (tr : List MacEvent) (shared : RxShared) (n : UInt32) : Prop where
  inbox : shared.inbox = (handoverOf tr).queue.map Prod.fst
  popped : poppedOf tr = (handoverOf tr).taken.map Prod.fst
  dropped : Says (totalOf EthRxStats.inboxDropped tr shared.stats) (handoverOf tr).dropped.length
  ok : Says (totalOf EthRxStats.fcsOk tr shared.stats + n.toNat) (publishedOf tr).length

namespace HandedOver

variable {tr : List MacEvent} {shared : RxShared} {n : UInt32}

theorem room (h : HandedOver tr shared n) : shared.inbox.length ≤ inboxSlots := by
  rw [h.inbox, List.length_map]
  exact valid_handoverOf.room

/-- An action that does not touch the inbox, and takes no snapshot. -/
theorem other (h : HandedOver tr shared n) {ev : MacEvent} (hop : ev.inboxOp = none)
    (hsnap : ev.snaps = none) : HandedOver (tr ++ [ev]) shared n := by
  have hpub : ev.publishes = none ∧ ev.pops = none := by
    rcases ev with _ | _ | (_ | _ | _ | _) | _ <;> first | exact ⟨rfl, rfl⟩ | cases hop
  refine ⟨?_, ?_, ?_, ?_⟩
  · rw [handoverOf_snoc_none hop, h.inbox]
  · rw [handoverOf_snoc_none hop, poppedOf_snoc, hpub.2, h.popped]
    exact List.append_nil _
  · rw [handoverOf_snoc_none hop, totalOf_snoc_none _ _ hsnap]
    exact h.dropped
  · rw [publishedOf_snoc, hpub.1, totalOf_snoc_none _ _ hsnap]
    simpa using h.ok

/-- Core 0 pops the oldest frame. -/
theorem receive (h : HandedOver tr shared n) :
    HandedOver (tr ++ [.shared (.popped shared.inbox.head?)])
      { shared with inbox := shared.inbox.tail } n := by
  refine ⟨?_, ?_, ?_, ?_⟩
  · rw [handoverOf_snoc rfl, h.inbox]
    exact List.map_tail.symm
  · rw [handoverOf_snoc rfl, poppedOf_snoc, h.popped, h.inbox]
    simp only [Ledger.step, MacEvent.pops, List.map_append, List.head?_map]
    cases (handoverOf tr).queue.head? <;> rfl
  · rw [handoverOf_snoc rfl, totalOf_snoc_none _ _ rfl]
    exact h.dropped
  · rw [publishedOf_snoc, totalOf_snoc_none _ _ rfl]
    simpa [MacEvent.publishes] using h.ok

/-- Core 0 takes the stats and resets them. -/
theorem snapshot (h : HandedOver tr shared n) :
    HandedOver (tr ++ [.shared (.snapshot shared.stats)]) { shared with stats := .new } n := by
  refine ⟨?_, ?_, ?_, ?_⟩
  · rw [handoverOf_snoc_none rfl, h.inbox]
  · rw [handoverOf_snoc_none rfl, poppedOf_snoc, h.popped]
    exact List.append_nil _
  · rw [handoverOf_snoc_none rfl, totalOf_snapshot rfl]
    exact h.dropped
  · rw [publishedOf_snoc, totalOf_snapshot rfl]
    simpa [MacEvent.publishes] using h.ok

/-- Core 1 publishes a frame. -/
theorem publish (h : HandedOver tr shared n) (frame : List UInt8) :
    HandedOver (tr ++ [.shared (.published frame)]) (publishFrame shared frame) (n + 1) := by
  obtain ⟨hok, heff⟩ := publishFrame_eq shared frame h.room
  have hlen : shared.inbox.length = (handoverOf tr).queue.length := by
    rw [h.inbox, List.length_map]
  have hstep : handoverOf (tr ++ [.shared (.published frame)]) =
      (handoverOf tr).step inboxSlots (.put frame) := handoverOf_snoc rfl
  have hok' : Says (totalOf EthRxStats.fcsOk (tr ++ [.shared (.published frame)])
      (publishFrame shared frame).stats + (n + 1).toNat)
      (publishedOf (tr ++ [.shared (.published frame)])).length := by
    rw [totalOf_snoc_none _ _ rfl, publishedOf_snoc, List.length_append, totalOf, hok]
    exact h.ok.succ
  have hpop : poppedOf (tr ++ [.shared (.published frame)]) = (handoverOf tr).taken.map Prod.fst := by
    rw [poppedOf_snoc, h.popped]
    exact List.append_nil _
  rw [hlen] at heff
  split_ifs at heff with hroom
  · obtain ⟨hinbox, hdrop⟩ := heff
    rw [Ledger.step, if_pos hroom] at hstep
    refine ⟨?_, ?_, ?_, hok'⟩
    · rw [hinbox, hstep, h.inbox, List.map_append]
      rfl
    · rw [hpop, hstep]
    · rw [hstep, totalOf_snoc_none _ _ rfl, totalOf, hdrop]
      exact h.dropped
  · obtain ⟨hinbox, hdrop⟩ := heff
    rw [Ledger.step, if_neg hroom] at hstep
    refine ⟨?_, ?_, ?_, hok'⟩
    · rw [hinbox, hstep, h.inbox, List.map_append, List.map_tail]
      rfl
    · rw [hpop, hstep]
    · -- the queue is not empty, so one number is dropped
      have hone : (((handoverOf tr).queue.head?).map Prod.snd).toList.length = 1 := by
        cases hq : (handoverOf tr).queue with
        | nil => exact absurd (by rw [hq]; decide) hroom
        | cons => rfl
      rw [hstep, totalOf_snoc_none _ _ rfl, totalOf, hdrop, List.length_append, hone]
      exact h.dropped.succ

/-- Core 1 merges the counts of an image. -/
theorem merge {acc : StatsDelta} {shared' : RxShared} (h : HandedOver tr shared acc.ok)
    (hmerge : mergeStats shared acc = .ok shared') :
    HandedOver (tr ++ [.shared .merged]) shared' 0 := by
  obtain ⟨hinbox, hdrop, hok⟩ := mergeStats_counts hmerge
  have hnext := h.other (show MacEvent.inboxOp (.shared .merged) = none from rfl) rfl
  refine ⟨hinbox.trans hnext.inbox, hnext.popped, ?_, ?_⟩
  · rw [totalOf, hdrop]
    exact hnext.dropped
  · have hsum := hnext.ok
    rw [totalOf, Nat.add_assoc] at hsum
    rw [totalOf, hok]
    exact hsum.add

/-- The critical section of the thread, seen from where it is in the drain. -/
theorem thread {pc : DrainPc} {f : SharedCall} {holds : Bool} {shared' : RxShared}
    {ev : SharedEvent} (h : HandedOver tr shared n) (hthread : ThreadAt pc (some ⟨f, holds⟩) n)
    (hrun : f.run shared = .ok (shared', ev)) :
    ∃ n', ThreadAt pc none n' ∧ HandedOver (tr ++ [.shared ev]) shared' n' := by
  cases hthread with
  | publishing hok =>
    cases hrun
    exact ⟨n + 1, hok ▸ .scanning, h.publish _⟩
  | merging =>
    obtain ⟨shared', hmerge, hrun⟩ := Exec.bind_eq_ok.1 hrun
    cases hrun
    exact ⟨0, .between (by simp), h.merge hmerge⟩

end HandedOver

/-- **The invariant of the hand-over.** -/
structure HandInv (tr : List MacEvent) (s : Mac) : Prop where
  rxFits : s.rx.Fits
  calls : ∀ c f holds, s.lock.inside c = some ⟨f, holds⟩ → c.Calls f
  shared : ∃ n, ThreadAt s.drain (s.lock.inside .thread) n ∧ HandedOver tr s.shared n

namespace HandInv

variable {tr : List MacEvent} {s s' : Mac}

theorem boot (ourMac : Bytes 6) : HandInv [] (.boot ourMac) where
  rxFits := Nat.zero_le _
  calls := fun c f holds h => by cases h
  shared := ⟨0, .between (by simp [Mac.boot]), rfl, rfl, says_zero, says_zero⟩

/-- `DMA_IRQ_0` touches neither the thread nor the shared state. -/
theorem irq (h : HandInv tr s) {half : Option (Bytes bufBytes)} {stored : Option Image}
    (hirq : s.processCompletedHalf half = .ok (s', stored)) :
    HandInv (tr ++ [.dmaIrq half stored]) s' := by
  obtain ⟨hfit, hframe, -, hlock⟩ := Mac.of_processCompletedHalf h.rxFits hirq
  obtain ⟨n, hthread, hshared⟩ := h.shared
  have hinside : s'.lock.inside .thread = s.lock.inside .thread := by
    rw [hlock]
    split_ifs
    · exact (s.lock.inside_of_ne (by decide) _).1
    · rfl
  refine ⟨hfit, fun c f holds hin => ?_, n, ?_, ?_⟩
  · rw [hlock] at hin
    split_ifs at hin
    · rcases eq_or_ne c .irq with rfl | hne
      · rw [Lock.inside_enter] at hin
        cases hin
        trivial
      · rw [(s.lock.inside_of_ne hne _).1] at hin
        exact h.calls c f holds hin
    · exact h.calls c f holds hin
  · rwa [hinside, hframe.drain]
  · rw [hframe.shared]
    exact hshared.other rfl rfl

/-- The thread outside its critical sections does not touch the shared state. -/
theorem drain (h : HandInv tr s) {ev : DrainEvent} (hout : s.lock.inside .thread = none)
    (hstep : s.drainStep = .ok (ev, s')) : HandInv (tr ++ [.drain ev]) s' := by
  have hframe := Mac.drainStep_frame hstep
  obtain ⟨n, hthread, hshared⟩ := h.shared
  rw [hout] at hthread
  have hthread' := hthread.drainStep hout hstep
  refine ⟨hframe.rx ▸ h.rxFits, fun c f holds hin => ?_, n, hthread', ?_⟩
  · rcases eq_or_ne c .thread with rfl | hne
    · rw [hin] at hthread'
      exact hthread'.calls
    · refine h.calls c f holds ?_
      obtain hlock | ⟨f', hlock⟩ := hframe.lock
      · rwa [hlock] at hin
      · rwa [hlock, (s.lock.inside_of_ne hne f').1] at hin
  · rw [hframe.shared]
    exact hshared.other rfl rfl

/-- Core 0 starts to wait for the lock. -/
theorem core0 (h : HandInv tr s) {f : SharedCall} (hf : f = .receive ∨ f = .snapshot) :
    HandInv (tr ++ [.silent]) { s with lock := s.lock.enter .core0 f } := by
  obtain ⟨n, hthread, hshared⟩ := h.shared
  refine ⟨h.rxFits, fun c f' holds hin => ?_, n, ?_, hshared.other rfl rfl⟩
  · rcases eq_or_ne c .core0 with rfl | hne
    · rw [Lock.inside_enter] at hin
      cases hin
      rcases hf with rfl | rfl <;> trivial
    · rw [(s.lock.inside_of_ne hne f).1] at hin
      exact h.calls c f' holds hin
  · rwa [(s.lock.inside_of_ne (by decide) f).1]

/-- A context takes the lock. -/
theorem claim (h : HandInv tr s) {c : Ctx} {f : SharedCall}
    (hin : s.lock.inside c = some ⟨f, false⟩) :
    HandInv (tr ++ [.silent]) { s with lock := s.lock.claim c f } := by
  obtain ⟨n, hthread, hshared⟩ := h.shared
  refine ⟨h.rxFits, fun c' f' holds hin' => ?_, n, ?_, hshared.other rfl rfl⟩
  · rcases eq_or_ne c' c with rfl | hne
    · rw [Lock.inside_claim] at hin'
      cases hin'
      exact h.calls _ _ _ hin
    · rw [(s.lock.inside_of_ne hne f).2.1] at hin'
      exact h.calls c' f' holds hin'
  · rcases eq_or_ne Ctx.thread c with rfl | hne
    · rw [Lock.inside_claim]
      rw [hin] at hthread
      exact hthread.claim
    · rwa [(s.lock.inside_of_ne hne f).2.1]

/-- The calls that are left when `c` drops its guard. -/
theorem calls_release (h : HandInv tr s) (c : Ctx) :
    ∀ c' f holds, (s.lock.release c).inside c' = some ⟨f, holds⟩ → c'.Calls f := by
  intro c' f holds hin
  rcases eq_or_ne c' c with rfl | hne
  · rw [Lock.inside_release] at hin
    cases hin
  · rw [(s.lock.inside_of_ne hne f).2.2] at hin
    exact h.calls c' f holds hin

/-- **A critical section.** -/
theorem critical (h : HandInv tr s) {c : Ctx} {f : SharedCall} {shared : RxShared}
    {ev : SharedEvent} (hin : s.lock.inside c = some ⟨f, true⟩)
    (hrun : f.run s.shared = .ok (shared, ev)) :
    HandInv (tr ++ [.shared ev]) { s with shared, lock := s.lock.release c } := by
  obtain ⟨n, hthread, hshared⟩ := h.shared
  refine ⟨h.rxFits, h.calls_release c, ?_⟩
  have hcalls := h.calls c f true hin
  have hother : ∀ c ≠ Ctx.thread, ThreadAt s.drain ((s.lock.release c).inside .thread) n :=
    fun c hne => by rwa [(s.lock.inside_of_ne hne.symm f).2.2]
  cases c with
  | core0 =>
    cases f with
    | receive =>
      cases hrun
      exact ⟨n, hother .core0 (by decide), hshared.receive⟩
    | snapshot =>
      cases hrun
      exact ⟨n, hother .core0 (by decide), hshared.snapshot⟩
    | publish | merge | addCapped => exact hcalls.elim
  | irq =>
    cases f with
    | addCapped capped =>
      cases hrun
      have hnext := hshared.other (show MacEvent.inboxOp (.shared .merged) = none from rfl) rfl
      exact ⟨n, hother .irq (by decide), hnext.inbox, hnext.popped, hnext.dropped, hnext.ok⟩
    | receive | snapshot | publish | merge => exact hcalls.elim
  | thread =>
    rw [hin] at hthread
    obtain ⟨n', hnext⟩ := hshared.thread hthread hrun
    rw [Lock.inside_release]
    exact ⟨n', hnext⟩

/-- **One action** of any context. -/
theorem step (h : HandInv tr s) {ev : MacEvent} (hst : s.Step ev s') : HandInv (tr ++ [ev]) s' := by
  cases hst with
  | dmaIrq _ hirq => exact h.irq hirq
  | drain _ hout hdrain => exact h.drain hout hdrain
  | core0 _ hf => exact h.core0 hf
  | claim _ hin => exact h.claim hin
  | critical _ hin hrun => exact h.critical hin hrun

end HandInv

/-- **Runs** keep the invariant. -/
theorem handInv {tr : List MacEvent} {s : Mac} (h : macSystem.Run tr s) : HandInv tr s := by
  refine h.induction (J := HandInv) ?_ fun tr s ev s' _ hinv hst => hinv.step hst
  rintro _ ⟨ourMac, rfl⟩
  exact .boot ourMac

/-- What a publish drops, seen from the inbox: the oldest of a full one. -/
theorem HandInv.dropped_snoc {tr : List MacEvent} {s : Mac} (h : HandInv tr s) (ev : MacEvent) :
    (handoverOf (tr ++ [ev])).dropped = (handoverOf tr).dropped ++
      if ev.publishes.isSome ∧ s.shared.inbox.length = inboxSlots then
        ((handoverOf tr).queue.head?.map Prod.snd).toList
      else [] := by
  obtain ⟨n, -, hshared⟩ := h.shared
  have hroom := hshared.room
  have hlen : s.shared.inbox.length = (handoverOf tr).queue.length := by
    rw [hshared.inbox, List.length_map]
  cases hop : ev.inboxOp with
  | none =>
    have hpub : ev.publishes.isSome = false := by
      rcases ev with _ | _ | (_ | _ | _ | _) | _ <;> first | rfl | cases hop
    rw [handoverOf_snoc_none hop, hpub]
    simp
  | some op =>
    rw [handoverOf_snoc hop]
    rcases ev with _ | _ | (frame | frame | _ | _) | _ <;> cases hop
    · rw [Ledger.step, ← hlen]
      split_ifs with hlt hfull hfull
      · omega
      · exact (List.append_nil _).symm
      · rfl
      · exact absurd ⟨rfl, by omega⟩ hfull
    · simp [Ledger.step, MacEvent.publishes]

/-- **The hand-over between the cores.**  In every run, the frames that core 0 has popped and those in
the inbox, of which there are at most `INBOX_SLOTS`, are the published frames in order, each once, but
for the numbers dropped; a number is dropped when it is the oldest in a full inbox and a frame is
published.  The dropped are as many as `inbox_dropped` says over all snapshots and now; and while no
image is being drained the published are as many as `fcs_ok` says, the two counters wrapping at
2³². -/
theorem inbox_handover {tr : List MacEvent} {s : Mac} (h : macSystem.Run tr s) :
    poppedOf tr ++ s.shared.inbox =
        (Ledger.kept (publishedOf tr) (handoverOf tr).dropped).map Prod.fst ∧
      s.shared.inbox.length ≤ inboxSlots ∧
      ((handoverOf tr).dropped.Nodup ∧ (∀ i ∈ (handoverOf tr).dropped, i < (publishedOf tr).length) ∧
        s.shared.inbox = (handoverOf tr).queue.map Prod.fst ∧
        ∀ ev, (handoverOf (tr ++ [ev])).dropped = (handoverOf tr).dropped ++
          if ev.publishes.isSome ∧ s.shared.inbox.length = inboxSlots then
            ((handoverOf tr).queue.head?.map Prod.snd).toList
          else []) ∧
      Says (totalOf EthRxStats.inboxDropped tr s.shared.stats) (handoverOf tr).dropped.length ∧
      (s.BetweenDrains →
        Says (totalOf EthRxStats.fcsOk tr s.shared.stats) (publishedOf tr).length) := by
  have hinv := handInv h
  have hvalid : (handoverOf tr).Valid inboxSlots := valid_handoverOf
  obtain ⟨n, hthread, hshared⟩ := hinv.shared
  refine ⟨?_, hshared.room, ⟨hvalid.nodup, fun i hi => ?_, hshared.inbox, hinv.dropped_snoc⟩,
    hshared.dropped, fun ⟨hpc, hout⟩ => ?_⟩
  · rw [hshared.popped, hshared.inbox, ← List.map_append, hvalid.kept, put_handoverOf]
  · rw [← put_handoverOf]
    exact hvalid.lt i hi
  · rw [hout] at hthread
    have hok := hshared.ok
    rwa [hthread.eq_zero hpc] at hok

/-- Frames that fill halves are published one after the other, if core 0 takes nothing. -/
theorem exists_run_puts (ourMac : Bytes 6) {fs : List LineFrame}
    (h : ∀ f ∈ fs, f.FillsHalf ∧ f.isFor ourMac.data = true) :
    ∃ tr s, macSystem.Run tr s ∧ s.Quiet fs.length fs.length ∧ s.ourMac = ourMac ∧
      tr.filterMap MacEvent.inboxOp = fs.map fun f => .put (wireFrame f.body) := by
  induction fs using List.reverseRecOn with
  | nil => exact ⟨[], .boot ourMac, .init ⟨_, rfl⟩, Mac.quiet_boot ourMac, rfl, rfl⟩
  | append_singleton fs f ih =>
    obtain ⟨tr, s, hrun, hquiet, hmac, hops⟩ := ih fun g hg => h g (List.mem_append_left _ hg)
    obtain ⟨hf, hfor⟩ := h f (List.mem_append_right _ (List.mem_singleton_self f))
    obtain ⟨image, s', -, hpath, hdel⟩ := Mac.path_delivers (C := fun _ _ => True)
      (fun _ _ _ => trivial) hquiet hf (hmac ▸ hfor) fun _ => trivial
    refine ⟨_, s', hrun.append hpath.of_restrict, ?_, hdel.ourMac.trans hmac, ?_⟩
    · rw [List.length_append]
      exact hdel.quiet
    · rw [List.filterMap_append, hops, List.map_append]
      rfl

theorem headerAgrees_numbered (i : UInt8) : HeaderAgrees (arpBody ++ [i]) := by
  have hetype : wordAt (paddedBody (arpBody ++ [i])) 12 = 0x0806 :=
    (show wordAt (paddedBody (arpBody ++ [i])) 12 = fromBeBytes 8 6 from rfl).trans (by decide)
  have hlen : (arpBody ++ [i]).length = 43 := rfl
  refine ⟨fun h => ?_, fun _ => by omega⟩
  rw [hetype] at h
  exact absurd h (by decide)

/-- An ARP packet with a number. -/
def numbered (i : UInt8) : LineFrame :=
  .onIdleLine (arpBody ++ [i])
    (Nat.le_of_ble_eq_true (show Nat.ble (max 43 60 + 4) 1600 = true from rfl))
    (headerAgrees_numbered i)

theorem fillsHalf_numbered (i : UInt8) :
    (numbered i).FillsHalf ∧ (numbered i).isFor (Bytes.zero 6).data = true := by
  refine ⟨LineFrame.fillsHalf_onIdleLine _ _, ?_⟩
  have hdst : (paddedBody (numbered i).body).take 6 = List.replicate 6 0xff := rfl
  rw [LineFrame.isFor, macAccept, Bool.or_eq_true]
  exact .inr (by rw [hdst]; decide)

/-- Five frames are published, then core 0 pops a frame and takes the stats: it gets the second
frame, the other three wait, and both counters say that the first was dropped. -/
theorem inbox_handover_five :
    ∃ tr s, macSystem.Run tr s ∧
      publishedOf tr = [0, 1, 2, 3, 4].map (fun i => wireFrame (numbered i).body) ∧
      poppedOf tr = [wireFrame (numbered 1).body] ∧
      s.shared.inbox = [2, 3, 4].map (fun i => wireFrame (numbered i).body) ∧
      (handoverOf tr).dropped = [0] ∧
      Says (totalOf EthRxStats.inboxDropped tr s.shared.stats) 1 ∧
      Says (totalOf EthRxStats.fcsOk tr s.shared.stats) 5 := by
  have hfills : ∀ f ∈ [0, 1, 2, 3, 4].map numbered,
      f.FillsHalf ∧ f.isFor (Bytes.zero 6).data = true := fun f hf => by
    obtain ⟨i, -, rfl⟩ := List.mem_map.1 hf
    exact fillsHalf_numbered i
  obtain ⟨tr₀, s₀, hrun₀, hquiet, -, hops⟩ := exists_run_puts (.zero 6) hfills
  have hpop := Mac.path_core0 (C := fun _ _ => True) (fun _ _ _ => trivial) (.inl rfl)
    hquiet.lock (show SharedCall.receive.run s₀.shared = .ok (_, _) from rfl)
  have hsnap := Mac.path_core0 (C := fun _ _ => True) (fun _ _ _ => trivial) (.inr rfl)
    (s := { s₀ with shared := { s₀.shared with inbox := s₀.shared.inbox.tail } })
    hquiet.lock (show SharedCall.snapshot.run _ = .ok (_, _) from rfl)
  have hrun := (hrun₀.append hpop.of_restrict).append hsnap.of_restrict
  obtain ⟨hkept, -, ⟨-, -, hinbox, -⟩, hdropped, hok⟩ := inbox_handover hrun
  generalize htr : (tr₀ ++ [.silent, .silent, .shared (.popped s₀.shared.inbox.head?)]) ++
    [.silent, .silent, .shared (.snapshot s₀.shared.stats)] = tr at *
  -- the ledger of the run
  have hledger : handoverOf tr = .run inboxSlots
      (([0, 1, 2, 3, 4].map fun i => .put (wireFrame (numbered i).body)) ++ [.take]) := by
    rw [handoverOf, ← htr, List.filterMap_append, List.filterMap_append, hops]
    rfl
  have hpub : publishedOf tr = [0, 1, 2, 3, 4].map fun i => wireFrame (numbered i).body := by
    rw [← put_handoverOf, hledger]
    rfl
  rw [hledger] at hinbox hkept hdropped
  rw [hinbox, hpub] at hkept
  refine ⟨tr, _, hrun, hpub, List.append_cancel_right hkept, hinbox, ?_, hdropped, ?_⟩
  · rw [hledger]
    rfl
  · have := hok ⟨by simp [hquiet.drain], by simp [hquiet.lock, Lock.free]⟩
    rwa [hpub] at this

end Pico10BaseT
