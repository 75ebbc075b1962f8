import Pico10BaseT.Rx.MacSpec

/-!
# Pieces of runs

What a context does when no other gets in its way, as paths of the system: the IRQ stores a half
(`Mac.irq_stores`), the thread gets to an image (`Mac.path_scanning`), publishes a frame
(`Mac.path_publishes`) and ends its scan (`Mac.path_ends`), and core 0 calls (`Mac.path_core0`).

A half of an idle line is stored as an image (`Mac.Quiet.stores`), and a half of carrier is carried
as a whole, with an empty image (`Carried.of_allActive`).  Neither image has an active byte, so its
scan ends at once: the thread merges its empty deltas (`Mac.path_merging`) and consumes the image
(`Mac.path_consumed`).
-/

namespace Pico10BaseT

/-- No byte is active. -/
def Inactive (bytes : List UInt8) : Prop := ∀ i, holdsAt isActive bytes i = false

theorem scanTurn_of_inactive (ourMac : List UInt8) {bytes : List UInt8} (stitchCl : Option ℕ)
    (acc : StatsDelta) (stitch : StitchCounters) (h : Inactive bytes) :
    scanTurn ourMac bytes stitchCl 0 acc stitch = .ok none := by
  obtain ⟨r, hr, hfound⟩ := findActiveRunFrom_spec 100 (.inl rfl : Boundary bytes 0)
  rw [scanTurn, hr, Exec.ok_bind]
  cases r with
  | none => rfl
  | some r =>
    obtain ⟨hrun, -⟩ := hfound
    have := hrun.outside (h r.1)
    have := hrun.pos
    omega

/-! ### Halves from an empty carry -/

section Carry

variable {rx rx' : EthRx} {half : Bytes bufBytes} {image : List UInt8}

/-- A half of carrier is carried as a whole. -/
theorem Carried.of_allActive (h : Carried rx half image rx') (h0 : rx.carried = [])
    (hall : AllActive half) : image = [] ∧ rx'.carried = half.data :=
  h.unique (by rw [h0]) (by simp [Settled]) fun i hi => hall i (half.size ▸ hi)

theorem EthRx.carried_eq_nil (h : rx.carryLen = 0) : rx.carried = [] := by
  rw [EthRx.carried, h, List.take_zero]

end Carry

theorem toNat_ofNat_sub {k n : ℕ} (hk : k ≤ n) (hn : n - k < 2 ^ 32) :
    (UInt32.ofNat n - UInt32.ofNat k).toNat = n - k := by
  rw [UInt32.toNat_sub, UInt32.toNat_ofNat', UInt32.toNat_ofNat']
  omega

namespace Mac

/-- The IRQ stored `half` in `slot`, and did not wait for the lock. -/
structure StoredHalf (s : Mac) (half : Bytes bufBytes) (slot : ImgSlot) (s' : Mac) : Prop
    extends IrqFrame s s' where
  step : s.Step (.dmaIrq (some half) (some slot.image)) s'
  fits : slot.Fits
  ring : s'.ring = Function.update s.ring (slotOf s.imgW) slot
  imgW : s'.imgW = s.imgW + 1
  lock : s'.lock = s.lock
  rxFits : s'.rx.Fits
  carryCapped : s'.rx.carryCapped = 0
  carried : Carried s.rx half slot.image.bytes s'.rx

/-- A half is stored when nothing is carried and no drop is left to count. -/
theorem irq_stores {s : Mac} (half : Bytes bufBytes) (hout : s.lock.inside .irq = none)
    (hfull : s.ringFull = false) (hlen : s.rx.carryLen = 0) (hcap : s.rx.carryCapped = 0) :
    ∃ slot s', s.StoredHalf half slot s' := by
  have hfit : s.rx.Fits := Nat.le_trans (Nat.le_of_eq hlen) (Nat.zero_le _)
  have hdrop : s.rx.dropsCarry (some half) = false := by simp [EthRx.dropsCarry, hlen]
  have hafter : s.rx.cappedAfter (some half) = 0 := by rw [EthRx.cappedAfter, hdrop]; exact hcap
  have hstores : s.rx.storesImage (some half) = true := by rw [EthRx.storesImage, hdrop]; rfl
  obtain ⟨s', stored, hirq, hfit', hframe, heff, hcap', hlock⟩ :=
    processCompletedHalf_spec hfit (some half)
  rw [if_neg (by rw [irqWaits, hafter]; simp)] at hlock
  rw [hfull] at hcap'
  cases heff with
  | none hnot => exact absurd ⟨hfull, hstores⟩ hnot
  | @stored slot _ _ hslot hring hw hcarried =>
    exact ⟨slot, s', hframe, .dmaIrq hout hirq, hslot, hring, hw, hlock, hfit', hcap',
      hcarried half rfl⟩

/-! ### Between images -/

theorem ringFull_eq_false {s : Mac} : s.ringFull = false ↔ (s.imgW - s.imgR).toNat < imgSlots := by
  rw [ringFull, decide_eq_false_iff_not, UInt32.le_iff_toNat_le, Nat.not_le]
  rfl

/-- Between two actions of the thread and the IRQ, on an idle line: `n` images are stored and `k`
consumed. -/
structure Quiet (s : Mac) (k n : ℕ) : Prop where
  lock : s.lock = .free
  drain : s.drain = .loadR
  carryLen : s.rx.carryLen = 0
  carryCapped : s.rx.carryCapped = 0
  imgR : s.imgR = UInt32.ofNat k
  imgW : s.imgW = UInt32.ofNat n

theorem quiet_boot (ourMac : Bytes 6) : (boot ourMac).Quiet 0 0 := ⟨rfl, rfl, rfl, rfl, rfl, rfl⟩

/-- An image is pending. -/
theorem Quiet.ne {s : Mac} {k n : ℕ} (h : s.Quiet k n) (hk : k < n) (hn : n < k + 2 ^ 32) :
    s.imgR ≠ s.imgW := by
  rw [h.imgR, h.imgW]
  intro heq
  have := congrArg UInt32.toNat heq
  rw [UInt32.toNat_ofNat', UInt32.toNat_ofNat'] at this
  omega

/-- A half that ends with an idle byte is stored as an image. -/
theorem Quiet.stores {s : Mac} {k n : ℕ} (h : s.Quiet k n) (hk : k ≤ n) (hn : n < k + 6)
    {half : Bytes bufBytes} (hset : Settled isActive half.data) :
    ∃ slot s', s.StoredHalf half slot s' ∧ s'.Quiet k (n + 1) ∧ slot.image.bytes = half.data := by
  have hfull : s.ringFull = false := by
    rw [ringFull_eq_false, h.imgR, h.imgW, toNat_ofNat_sub hk (by omega), imgSlots]
    omega
  obtain ⟨slot, s', hst⟩ := irq_stores half (by rw [h.lock]; rfl) hfull h.carryLen h.carryCapped
  obtain ⟨himage, hnil⟩ := hst.carried.unique (b := [])
    (by rw [EthRx.carried_eq_nil h.carryLen, List.append_nil, List.nil_append]) hset (by simp)
  refine ⟨slot, s', hst, ⟨hst.lock.trans h.lock, hst.drain.trans h.drain, ?_, hst.carryCapped,
    hst.imgR.trans h.imgR, ?_⟩, himage⟩
  · rw [← EthRx.length_carried hst.rxFits, hnil]
    rfl
  · rw [hst.imgW, h.imgW, UInt32.ofNat_add]
    rfl

/-! ### Draining -/

/-- Every action but the IRQ is allowed. -/
def AllowsDrain (C : Mac → MacEvent → Prop) : Prop :=
  ∀ s ev, (∀ half stored, ev ≠ MacEvent.dmaIrq half stored) → C s ev

/-- Every half that is captured is `b`. -/
def Captures (b : Bytes bufBytes) (_ : Mac) (ev : MacEvent) : Prop :=
  ∀ half stored, ev = .dmaIrq half stored → half = some b

theorem captures_dmaIrq (b : Bytes bufBytes) (s : Mac) (stored : Option Image) :
    Captures b s (.dmaIrq (some b) stored) := by
  rintro _ _ ⟨⟩
  rfl

theorem allowsDrain_captures (b : Bytes bufBytes) : AllowsDrain (Captures b) :=
  fun _ _ hne _ _ hev => absurd hev (hne _ _)

variable {C : Mac → MacEvent → Prop} {s : Mac}

/-- While the lock is free the thread takes its steps. -/
theorem drain_of_free {s' : Mac} {ev : DrainEvent} (hlock : s.lock = .free)
    (h : s.drainStep = .ok (ev, s')) : s.Step (.drain ev) s' :=
  .drain (fun c' _ => by rw [hlock]; rfl) (by rw [hlock]; rfl) h

/-- A step of the thread while the lock is free. -/
theorem path_drain (hC : AllowsDrain C) {s' : Mac} {ev : DrainEvent} (hlock : s.lock = .free)
    (h : s.drainStep = .ok (ev, s')) : (macSystem.restrict C).Path s [.drain ev] s' :=
  .one ⟨hC _ _ (by simp), drain_of_free hlock h⟩

/-- A context that waits while the lock is free takes it. -/
theorem path_claim (hC : AllowsDrain C) {c : Ctx} {f : SharedCall}
    (hlock : s.lock = Lock.free.enter c f) :
    (macSystem.restrict C).Path s [.silent] { s with lock := s.lock.claim c f } := by
  refine .one ⟨hC _ _ (by simp), .claim ?_ ?_ ?_⟩
  · rintro c' ⟨rfl, rfl⟩
    rw [hlock]
    rfl
  · rw [hlock]
    exact Lock.inside_enter ..
  · rw [hlock]
    rfl

/-- It runs its closure and leaves the lock free. -/
theorem path_critical (hC : AllowsDrain C) {c : Ctx} {f : SharedCall} {shared : RxShared}
    {ev : SharedEvent} (hlock : s.lock = Lock.free.enter c f)
    (hrun : f.run s.shared = .ok (shared, ev)) :
    (macSystem.restrict C).Path s [.silent, .shared ev] { s with shared, lock := .free } := by
  have hfree : (s.lock.claim c f).release c = .free := by
    rw [hlock]
    exact Lock.release_claim_enter _ _
  rw [← hfree]
  refine (path_claim hC hlock).append
    (.one ⟨hC _ _ (by simp), .critical ?_ (Lock.inside_claim ..) hrun⟩)
  rintro c' ⟨rfl, rfl⟩
  rw [hlock]
  rfl

/-- Core 0 calls `receive` or `snapshot_rx_stats` while the lock is free. -/
theorem path_core0 (hC : AllowsDrain C) {f : SharedCall} (hf : f = .receive ∨ f = .snapshot)
    {shared : RxShared} {ev : SharedEvent} (hlock : s.lock = .free)
    (hrun : f.run s.shared = .ok (shared, ev)) :
    (macSystem.restrict C).Path s [.silent, .silent, .shared ev] { s with shared } := by
  have h₁ : (macSystem.restrict C).Path s [.silent] { s with lock := s.lock.enter .core0 f } :=
    .one ⟨hC _ _ (by simp), .core0 (by rw [hlock]; rfl) hf⟩
  have h₂ := h₁.append (path_critical hC (congrArg (Lock.enter · _ _) hlock) hrun)
  rwa [← hlock] at h₂

/-- The thread begins to scan the first image of the ring. -/
def scanning (s : Mac) : Mac :=
  { s with
    drain := .scan s.imgR (s.ring (slotOf s.imgR)).len.toNat (s.ring (slotOf s.imgR)).cl.toNat 0
      .new }

theorem path_scanning (hC : AllowsDrain C) (hlock : s.lock = .free) (hpc : s.drain = .loadR)
    (hne : s.imgR ≠ s.imgW) :
    (macSystem.restrict C).Path s
      [.drain .silent, .drain .silent, .drain .silent, .drain .silent] s.scanning := by
  have h₁ : (macSystem.restrict C).Path s [.drain .silent] { s with drain := .loadW s.imgR } :=
    path_drain hC hlock (by rw [drainStep, hpc]; rfl)
  have h₂ := h₁.append (path_drain hC hlock rfl)
  have h₃ : (macSystem.restrict C).Path { s with drain := .loadLen s.imgR s.imgW } [.drain .silent]
      { s with drain := .loadCl s.imgR (s.ring (slotOf s.imgR)).len.toNat } :=
    path_drain hC hlock (by rw [drainStep]; exact if_neg hne)
  exact (h₂.append h₃).append (path_drain hC hlock rfl)

section Scan

variable {r : UInt32} {len cl cursor : ℕ} {acc : StatsDelta} {bytes : List UInt8}

/-- A turn of the scan finds a frame, and the thread publishes it. -/
theorem path_publishes (hC : AllowsDrain C) (hlock : s.lock = .free)
    (hpc : s.drain = .scan r len cl cursor acc)
    (hparts : rawParts (s.ring (slotOf r)).data len = .ok bytes) {t : Turn} {frame : List UInt8}
    (hturn : scanTurn s.ourMac.data bytes (if 0 < cl then some cl else none) cursor acc s.stitch =
      .ok (some t)) (hpub : t.publish = some frame) :
    (macSystem.restrict C).Path s
      [.drain (.turn ⟨bytes, cl⟩), .silent, .shared (.published frame)]
      { s with
        drain := .scan r len cl t.cursor t.acc
        stitch := t.stitch
        shared := publishFrame s.shared frame } := by
  have h₁ : (macSystem.restrict C).Path s [.drain (.turn ⟨bytes, cl⟩)]
      { s with
        drain := .scan r len cl t.cursor t.acc
        stitch := t.stitch
        lock := s.lock.enter .thread (.publish frame) } :=
    path_drain hC hlock (by
      simp only [drainStep, hpc, hparts, Exec.ok_bind, hturn, afterTurn, hpub, Exec.pure_eq])
  have h₂ := h₁.append (path_critical hC (congrArg (Lock.enter · _ _) hlock) rfl)
  rwa [← hlock] at h₂

/-- A turn of the scan finds no more run, and the thread merges and consumes the image. -/
theorem path_ends (hC : AllowsDrain C) (hlock : s.lock = .free)
    (hpc : s.drain = .scan r len cl cursor acc)
    (hparts : rawParts (s.ring (slotOf r)).data len = .ok bytes)
    (hturn : scanTurn s.ourMac.data bytes (if 0 < cl then some cl else none) cursor acc s.stitch =
      .ok none) {shared : RxShared} (hmerge : mergeStats s.shared acc = .ok shared) :
    (macSystem.restrict C).Path s
      [.drain (.turn ⟨bytes, cl⟩), .silent, .shared .merged, .drain .consumed]
      { s with shared, imgR := r + 1, drain := .loadR } := by
  have h₁ : (macSystem.restrict C).Path s [.drain (.turn ⟨bytes, cl⟩)]
      { s with drain := .storeR r, lock := s.lock.enter .thread (.merge acc) } :=
    path_drain hC hlock (by
      simp only [drainStep, hpc, hparts, Exec.ok_bind, hturn, afterTurn, Exec.pure_eq])
  have hrun : (SharedCall.merge acc).run s.shared = .ok (shared, .merged) := by
    rw [SharedCall.run, hmerge]
    rfl
  have h₂ := h₁.append (path_critical hC (congrArg (Lock.enter · _ _) hlock) hrun)
  have h₃ := h₂.append (path_drain hC rfl rfl)
  rwa [← hlock] at h₃

end Scan

/-- The thread holds the lock to merge the deltas of an image without frames. -/
def merging (s : Mac) : Mac :=
  { s with
    drain := .storeR s.imgR
    lock := (s.lock.enter .thread (.merge .new)).claim .thread (.merge .new) }

theorem rawParts_slot {slot : ImgSlot} (h : slot.Fits) :
    rawParts slot.data slot.len.toNat = .ok slot.image.bytes :=
  if_pos h

/-- The thread takes the lock to merge the deltas of an image without frames. -/
theorem path_merging (hC : AllowsDrain C) (hlock : s.lock = .free) (hpc : s.drain = .loadR)
    (hne : s.imgR ≠ s.imgW) (hfits : (s.ring (slotOf s.imgR)).Fits)
    (hinactive : Inactive (s.ring (slotOf s.imgR)).image.bytes) :
    (macSystem.restrict C).Path s
      ([.drain .silent, .drain .silent, .drain .silent, .drain .silent] ++
        [.drain (.turn (s.ring (slotOf s.imgR)).image), .silent]) s.merging := by
  have h₁ : (macSystem.restrict C).Path s.scanning [.drain (.turn (s.ring (slotOf s.imgR)).image)]
      { s with drain := .storeR s.imgR, lock := s.lock.enter .thread (.merge .new) } :=
    path_drain hC hlock (by
      simp only [drainStep, scanning, rawParts_slot hfits, Exec.ok_bind,
        scanTurn_of_inactive _ _ _ _ hinactive, afterTurn, Exec.pure_eq]
      rfl)
  exact (path_scanning hC hlock hpc hne).append
    (h₁.append (path_claim hC (congrArg (Lock.enter · _ _) hlock)))

/-- An image without frames is consumed. -/
theorem path_consumed (hC : AllowsDrain C) (hlock : s.lock = .free) (hpc : s.drain = .loadR)
    (hne : s.imgR ≠ s.imgW) (hfits : (s.ring (slotOf s.imgR)).Fits)
    (hinactive : Inactive (s.ring (slotOf s.imgR)).image.bytes) :
    ∃ shared, (macSystem.restrict C).Path s
      ([.drain .silent, .drain .silent, .drain .silent, .drain .silent] ++
        [.drain (.turn (s.ring (slotOf s.imgR)).image), .silent, .shared .merged, .drain .consumed])
      { s with shared, imgR := s.imgR + 1 } := by
  obtain ⟨⟨shared, ev⟩, hrun⟩ := SharedCall.run_ok s.shared (.merge .new)
  obtain ⟨shared, hmerge, -⟩ := Exec.bind_eq_ok.1 hrun
  have h := (path_scanning hC hlock hpc hne).append (path_ends (s := s.scanning) hC hlock rfl
    (rawParts_slot hfits) (scanTurn_of_inactive _ _ _ _ hinactive) hmerge)
  simp only [scanning] at h
  rw [← hpc] at h
  exact ⟨shared, h⟩

end Mac

end Pico10BaseT
