import Pico10BaseT.Rx.EdgeTrack
import Pico10BaseT.Rx.Mac

/-!
# What the contexts of the receive side can do

One lemma a function: what it changes, and that it does not fault.

* `Mac.processCompletedHalf_spec` : the IRQ, by two predicates on what it starts from, `dropsCarry`
  (the half is dropped with the carry and counted) and `storesImage`.
* `scanTurn_spec` : a turn of the scan.
* `Mac.drainStep_move` : a step of the thread outside its critical sections.
* `SharedCall.run_ok` : a critical section.
-/

namespace Pico10BaseT

/-! ### The IRQ -/

namespace EthRx

variable {rx : EthRx} {half : Option (Bytes bufBytes)}

/-- `poll_into` drops the carry: something is carried, and the half is active throughout. -/
def dropsCarry (rx : EthRx) : Option (Bytes bufBytes) → Bool
  | none => false
  | some half => decide (0 < rx.carryLen) && half.data.all isActive

/-- `poll_into` returns an image. -/
def storesImage (rx : EthRx) (half : Option (Bytes bufBytes)) : Bool :=
  half.isSome && !rx.dropsCarry half

/-- The cap count after `poll_into`. -/
def cappedAfter (rx : EthRx) (half : Option (Bytes bufBytes)) : UInt32 :=
  if rx.dropsCarry half then rx.carryCapped + 1 else rx.carryCapped

theorem allActive_iff {half : Bytes bufBytes} : AllActive half ↔ half.data.all isActive = true := by
  rw [List.all_eq_true]
  constructor
  · intro h b hb
    obtain ⟨i, hi, rfl⟩ := List.mem_iff_getElem.1 hb
    have := h i (half.size ▸ hi)
    rwa [holdsAt_eq_byteAt hi, byteAt_eq_getElem hi] at this
  · intro h i hi
    have hi' : i < half.data.length := half.size.symm ▸ hi
    rw [holdsAt_eq_byteAt hi', byteAt_eq_getElem hi']
    exact h _ (List.getElem_mem hi')

theorem dropsCarry_some {half : Bytes bufBytes} :
    rx.dropsCarry (some half) = true ↔ 0 < rx.carryLen ∧ AllActive half := by
  simp [dropsCarry, allActive_iff]

/-- `poll_into` never faults; it returns an image or leaves the slot alone. -/
theorem pollInto_cases (h : rx.Fits) (half : Option (Bytes bufBytes)) (slot : Bytes stitchBufBytes) :
    ∃ rx' slot' out, rx.pollInto half slot = .ok (rx', slot', out) ∧ rx'.Fits ∧
      rx'.carryCapped = rx.cappedAfter half ∧
      ((out = .nothing ∧ slot' = slot ∧ rx.storesImage half = false) ∨
        ∃ len, out = .image len rx.carryLen ∧ len ≤ stitchBufBytes ∧ rx.storesImage half = true ∧
          ∀ b, half = some b → Carried rx b (slot'.data.take len) rx') := by
  cases half with
  | none => exact ⟨rx, slot, .nothing, rfl, h, rfl, .inl ⟨rfl, rfl, rfl⟩⟩
  | some half =>
    obtain ⟨rx', slot', out, hpoll, hfit, hcases⟩ := EthRx.pollInto_spec h half slot
    refine ⟨rx', slot', out, hpoll, hfit, ?_⟩
    rcases hcases with ⟨len, rfl, hlen, -, hcap, hdrop, hcarried⟩ | ⟨rfl, rfl, hpos, hall, rfl⟩
    · rw [← dropsCarry_some, Bool.not_eq_true] at hdrop
      refine ⟨by rw [hcap, cappedAfter, hdrop]; rfl,
        .inr ⟨len, rfl, hlen, by rw [storesImage, hdrop]; rfl, ?_⟩⟩
      rintro _ ⟨rfl⟩
      exact hcarried
    · have hdrop := dropsCarry_some.2 ⟨hpos, hall⟩
      exact ⟨by rw [cappedAfter, if_pos hdrop],
        .inl ⟨rfl, rfl, by rw [storesImage, hdrop]; rfl⟩⟩

end EthRx

/-- The image in a slot. -/
def ImgSlot.image (slot : ImgSlot) : Image := ⟨slot.data.data.take slot.len.toNat, slot.cl.toNat⟩

/-- The length of the image is inside the slot. -/
def ImgSlot.Fits (slot : ImgSlot) : Prop := slot.len.toNat ≤ stitchBufBytes

namespace Mac

variable {s s' : Mac}

/-- What the IRQ leaves alone, up to its critical section. -/
structure IrqFrame (s s' : Mac) : Prop where
  ourMac : s'.ourMac = s.ourMac
  imgR : s'.imgR = s.imgR
  shared : s'.shared = s.shared
  stitch : s'.stitch = s.stitch
  drain : s'.drain = s.drain

/-- The IRQ's effect on the ring: an image is stored in the slot of `IMG_W`, or nothing happens. -/
inductive RingEffect (s : Mac) (half : Option (Bytes bufBytes)) (s' : Mac) : Option Image → Prop
  | stored {slot : ImgSlot} : s.ringFull = false → s.rx.storesImage half = true → slot.Fits →
      s'.ring = Function.update s.ring (slotOf s.imgW) slot → s'.imgW = s.imgW + 1 →
      (∀ b, half = some b → Carried s.rx b slot.image.bytes s'.rx) →
      RingEffect s half s' (some slot.image)
  | none : ¬(s.ringFull = false ∧ s.rx.storesImage half = true) → s'.ring = s.ring →
      s'.imgW = s.imgW → RingEffect s half s' none

/-- The IRQ goes on to wait for the lock: the ring is not full, and there are drops to count. -/
def irqWaits (s : Mac) (half : Option (Bytes bufBytes)) : Bool :=
  !s.ringFull && decide (s.rx.cappedAfter half ≠ 0)

/-- **The IRQ** does not fault.  It stores an image or not, and waits for the lock or not; while the
ring is full it leaves the drops uncounted. -/
theorem processCompletedHalf_spec (h : s.rx.Fits) (half : Option (Bytes bufBytes)) :
    ∃ s' stored, s.processCompletedHalf half = .ok (s', stored) ∧ s'.rx.Fits ∧ IrqFrame s s' ∧
      RingEffect s half s' stored ∧
      s'.rx.carryCapped = (if s.ringFull then s.rx.cappedAfter half else 0) ∧
      s'.lock = if s.irqWaits half then s.lock.enter .irq (.addCapped (s.rx.cappedAfter half))
        else s.lock := by
  unfold processCompletedHalf
  cases hfull : s.ringFull with
  | true =>
    obtain ⟨rx', slot', out, hpoll, hfit, hcap, -⟩ := EthRx.pollInto_cases h half s.discard
    simp only [if_true, hpoll, Exec.ok_bind, Exec.pure_eq]
    exact ⟨_, _, rfl, hfit, ⟨rfl, rfl, rfl, rfl, rfl⟩, .none (by simp [hfull]) rfl rfl, hcap,
      by simp [irqWaits, hfull]⟩
  | false =>
    obtain ⟨rx', slot', out, hpoll, hfit, hcap, hcases⟩ :=
      EthRx.pollInto_cases h half (s.ring (slotOf s.imgW)).data
    simp only [Bool.false_eq_true, if_false, hpoll, Exec.ok_bind, Exec.pure_eq]
    refine ⟨_, _, rfl, ?_⟩
    have hwaits : s.irqWaits half = decide (s.rx.cappedAfter half ≠ 0) := by simp [irqWaits, hfull]
    -- the count is merged whatever is stored
    rcases hcases with ⟨rfl, rfl, hstores⟩ | ⟨len, rfl, hlen, hstores, hcarried⟩
    · have hring : Function.update s.ring (slotOf s.imgW)
          { s.ring (slotOf s.imgW) with data := (s.ring (slotOf s.imgW)).data } = s.ring :=
        Function.update_eq_self _ _
      have hnone : ¬(s.ringFull = false ∧ s.rx.storesImage half = true) := by simp [hstores]
      simp only [store, hring, mergeCapped, EthRx.takeCarryCapped, hwaits, hcap, decide_eq_true_eq]
      split_ifs
      · exact ⟨hfit, ⟨rfl, rfl, rfl, rfl, rfl⟩, .none hnone rfl rfl, rfl, rfl⟩
      · exact ⟨hfit, ⟨rfl, rfl, rfl, rfl, rfl⟩, .none hnone rfl rfl, rfl, rfl⟩
    · have hfits : s.rx.carryLen ≤ maxCarryBytes := h
      have hl : (UInt32.ofNat len).toNat = len := by
        rw [UInt32.toNat_ofNat']
        simp only [stitchBufBytes, bufBytes, maxCarryBytes] at hlen
        omega
      have hc : (UInt32.ofNat s.rx.carryLen).toNat = s.rx.carryLen := by
        rw [UInt32.toNat_ofNat']
        simp only [maxCarryBytes] at hfits
        omega
      have himage : storedImage slot' (.image len s.rx.carryLen) =
          some (ImgSlot.image ⟨slot', UInt32.ofNat len, UInt32.ofNat s.rx.carryLen⟩) := by
        rw [storedImage, ImgSlot.image, hl, hc]
      have hslot : ImgSlot.Fits ⟨slot', UInt32.ofNat len, UInt32.ofNat s.rx.carryLen⟩ := by
        rw [ImgSlot.Fits, hl]
        exact hlen
      have hbytes : ∀ b, half = some b → Carried s.rx b
          (ImgSlot.image ⟨slot', UInt32.ofNat len, UInt32.ofNat s.rx.carryLen⟩).bytes
          { rx' with carryCapped := 0 } := fun b hb => by
        obtain ⟨happ, hset, hact⟩ := hcarried b hb
        simp only [ImgSlot.image, hl]
        exact ⟨happ, hset, hact⟩
      simp only [store, mergeCapped, EthRx.takeCarryCapped, hwaits, hcap, himage, decide_eq_true_eq]
      split_ifs
      · exact ⟨hfit, ⟨rfl, rfl, rfl, rfl, rfl⟩, .stored hfull hstores hslot rfl rfl hbytes, rfl, rfl⟩
      · exact ⟨hfit, ⟨rfl, rfl, rfl, rfl, rfl⟩, .stored hfull hstores hslot rfl rfl hbytes, rfl, rfl⟩

/-- What holds after an IRQ that has returned. -/
theorem of_processCompletedHalf (h : s.rx.Fits) {half : Option (Bytes bufBytes)} {s' : Mac}
    {stored : Option Image} (hirq : s.processCompletedHalf half = .ok (s', stored)) :
    s'.rx.Fits ∧ IrqFrame s s' ∧ RingEffect s half s' stored ∧
      s'.lock = if s.irqWaits half then s.lock.enter .irq (.addCapped (s.rx.cappedAfter half))
        else s.lock := by
  obtain ⟨s₁, stored₁, hirq₁, hfit, hframe, heff, -, hlock⟩ := processCompletedHalf_spec h half
  rw [hirq] at hirq₁
  cases hirq₁
  exact ⟨hfit, hframe, heff, hlock⟩

end Mac

/-! ### A turn of the scan -/

theorem StatsDelta.record_ok (acc : StatsDelta) {frame : List UInt8} {n : ℕ} (ok : Bool)
    (h : n ≤ frame.length) : ∃ acc', acc.record frame n ok = .ok acc' := by
  have hlen : (frame.take (min n frameSnapBytes)).length ≤ frameSnapBytes := by
    rw [List.length_take]
    omega
  obtain ⟨snap, hsnap, -⟩ := acc.lastSnap.copyFromSlice_ok 0
    (show 0 + (frame.take (min n frameSnapBytes)).length ≤ frameSnapBytes by omega)
  rw [StatsDelta.record, slice_zero (by omega), Exec.ok_bind, hsnap]
  exact ⟨_, rfl⟩

theorem StatsDelta.record_counts {acc acc' : StatsDelta} {frame : List UInt8} {n : ℕ} {ok : Bool}
    (h : acc.record frame n ok = .ok acc') : acc'.ok = if ok then acc.ok + 1 else acc.ok := by
  obtain ⟨head, -, h⟩ := Exec.bind_eq_ok.1 h
  obtain ⟨snap, -, h⟩ := Exec.bind_eq_ok.1 h
  cases h
  rfl

/-- **A turn of the scan** does not fault, and ends at a place where the next search can start. -/
theorem scanTurn_spec (ourMac : List UInt8) {bytes : List UInt8} (stitchCl : Option ℕ) {cursor : ℕ}
    (acc : StatsDelta) (stitch : StitchCounters) (h : Boundary bytes cursor) :
    ∃ turn, scanTurn ourMac bytes stitchCl cursor acc stitch = .ok turn ∧
      ∀ t, turn = some t → Boundary bytes t.cursor := by
  obtain ⟨r, hr, hfound⟩ := findActiveRunFrom_spec 100 h
  rw [scanTurn, hr, Exec.ok_bind]
  cases r with
  | none => exact ⟨_, rfl, by simp⟩
  | some r =>
    obtain ⟨off, len⟩ := r
    obtain ⟨hrun, -, hmin, -⟩ := hfound
    have hle := hrun.le_length
    have hnext : Boundary bytes (off + len) := .inr (.inr hrun.right)
    obtain ⟨dst, hdst⟩ := peekDstMac_total rate60MHz (by omega) hle
    simp only [hdst, Exec.ok_bind]
    cases dst with
    | none => exact ⟨_, rfl, fun t ht => by cases ht; exact hnext⟩
    | some dst =>
      dsimp only
      split_ifs
      · exact ⟨_, rfl, fun t ht => by cases ht; exact hnext⟩
      · have hne : (bytes.drop off).take len ≠ [] := by
          rw [← List.length_pos_iff, List.length_take, List.length_drop]
          omega
        obtain ⟨frame, hframe⟩ := decodeFrameEdgeTrack_total hne
        rw [slice_ok (by omega) hle, Nat.add_sub_cancel_left, Exec.ok_bind, hframe, Exec.ok_bind]
        cases frame with
        | none => exact ⟨_, rfl, fun t ht => by cases ht; exact hnext⟩
        | some frame =>
          obtain ⟨flen, hflen⟩ := deriveFrameLen_total frame
          obtain ⟨ok, hok⟩ := verifyFcs_total frame flen
          obtain ⟨acc', hacc⟩ := acc.record_ok ok (Nat.min_le_right flen frame.length)
          simp only [hflen, hok, hacc, Exec.ok_bind]
          exact ⟨_, rfl, fun t ht => by cases ht; exact hnext⟩

/-- Everything a turn of the scan can do with the run `(off, len)` that it finds. -/
inductive RunScanned (ourMac bytes : List UInt8) (stitchCl : Option ℕ) (acc : StatsDelta)
    (stitch : StitchCounters) (off len : ℕ) : Turn → Prop
  | noMac : peekDstMac rate60MHz bytes off len = .ok none →
    RunScanned ourMac bytes stitchCl acc stitch off len ⟨off + len, acc, stitch, none⟩
  | filtered {dst : List UInt8} : peekDstMac rate60MHz bytes off len = .ok (some dst) →
    macAccept dst ourMac = false →
    RunScanned ourMac bytes stitchCl acc stitch off len
      ⟨off + len, { acc with filtered := acc.filtered + 1 }, stitch, none⟩
  | undecoded {dst run : List UInt8} : peekDstMac rate60MHz bytes off len = .ok (some dst) →
    macAccept dst ourMac = true → slice bytes off (off + len) = .ok run →
    decodeFrameEdgeTrack run = .ok none →
    RunScanned ourMac bytes stitchCl acc stitch off len ⟨off + len, acc, stitch, none⟩
  | decoded {dst run frame : List UInt8} {flen : ℕ} {ok : Bool} {acc' : StatsDelta} :
    peekDstMac rate60MHz bytes off len = .ok (some dst) → macAccept dst ourMac = true →
    slice bytes off (off + len) = .ok run → decodeFrameEdgeTrack run = .ok (some frame) →
    deriveFrameLen frame = .ok flen → verifyFcs frame flen = .ok ok →
    acc.record frame (min flen frame.length) ok = .ok acc' →
    RunScanned ourMac bytes stitchCl acc stitch off len
      ⟨off + len, acc', stitch.count stitchCl ok,
        if ok then some (frame.take (min flen frame.length)) else none⟩

/-- **A turn of the scan, inverted.** -/
theorem scanTurn_scanned {ourMac bytes : List UInt8} {stitchCl : Option ℕ} {cursor : ℕ}
    {acc : StatsDelta} {stitch : StitchCounters} {t : Turn}
    (h : scanTurn ourMac bytes stitchCl cursor acc stitch = .ok (some t)) :
    ∃ off len, findActiveRunFrom bytes cursor 100 = .ok (some (off, len)) ∧
      RunScanned ourMac bytes stitchCl acc stitch off len t := by
  obtain ⟨r, hr, h⟩ := Exec.bind_eq_ok.1 h
  cases r with
  | none => cases h
  | some r =>
    obtain ⟨off, len⟩ := r
    obtain ⟨dst, hdst, h⟩ := Exec.bind_eq_ok.1 h
    refine ⟨off, len, hr, ?_⟩
    cases dst with
    | none =>
      cases h
      exact .noMac hdst
    | some dst =>
      by_cases hacc : macAccept dst ourMac = false
      · simp only [hacc, if_true, Exec.pure_eq, Except.ok.injEq, Option.some.injEq] at h
        subst h
        exact .filtered hdst hacc
      · simp only [if_neg hacc] at h
        obtain ⟨run, hrun, h⟩ := Exec.bind_eq_ok.1 h
        obtain ⟨frame, hframe, h⟩ := Exec.bind_eq_ok.1 h
        rw [Bool.not_eq_false] at hacc
        cases frame with
        | none =>
          cases h
          exact .undecoded hdst hacc hrun hframe
        | some frame =>
          obtain ⟨flen, hflen, h⟩ := Exec.bind_eq_ok.1 h
          obtain ⟨ok, hok, h⟩ := Exec.bind_eq_ok.1 h
          obtain ⟨acc', hacc', h⟩ := Exec.bind_eq_ok.1 h
          cases h
          exact .decoded hdst hacc hrun hframe hflen hok hacc'

/-- `p` is what is published of the run `(off, len)`: a frame addressed to us by the peek, cut to
its derived length, at which its FCS is valid. -/
structure PublishedFrom (ourMac bytes : List UInt8) (off len : ℕ) (dst frame p : List UInt8) :
    Prop where
  peeked : peekDstMac rate60MHz bytes off len = .ok (some dst)
  accepted : macAccept dst ourMac = true
  decoded : ∃ run, slice bytes off (off + len) = .ok run ∧
    decodeFrameEdgeTrack run = .ok (some frame)
  frameLen : deriveFrameLen frame = .ok p.length
  fcs : verifyFcs frame p.length = .ok true
  eq_take : p = frame.take p.length

/-- **What a turn publishes.** -/
theorem RunScanned.publishedFrom {ourMac bytes : List UInt8} {stitchCl : Option ℕ}
    {acc : StatsDelta} {stitch : StitchCounters} {off len : ℕ} {t : Turn} {p : List UInt8}
    (h : RunScanned ourMac bytes stitchCl acc stitch off len t) (hp : t.publish = some p) :
    ∃ dst frame, PublishedFrom ourMac bytes off len dst frame p := by
  cases h with
  | noMac | filtered | undecoded => cases hp
  | @decoded dst run frame flen ok acc' hdst hmac hrun hframe hflen hok hacc =>
    cases ok with
    | false => cases hp
    | true =>
      have hle := deriveFrameLen_le hflen
      simp only [if_true, Nat.min_eq_left hle, Option.some.injEq] at hp
      have hlen : p.length = flen := by rw [← hp, List.length_take_of_le hle]
      exact ⟨dst, frame, hdst, hmac, ⟨run, hrun, hframe⟩, hlen ▸ hflen, hlen ▸ hok,
        by rw [hlen, hp]⟩

/-- A turn counts a frame as FCS-OK if it publishes one. -/
theorem RunScanned.ok_count {ourMac bytes : List UInt8} {stitchCl : Option ℕ} {acc : StatsDelta}
    {stitch : StitchCounters} {off len : ℕ} {t : Turn}
    (h : RunScanned ourMac bytes stitchCl acc stitch off len t) :
    t.acc.ok = if t.publish.isSome then acc.ok + 1 else acc.ok := by
  cases h with
  | noMac | filtered | undecoded => rfl
  | @decoded _ _ _ _ ok _ _ _ _ _ _ _ hacc =>
    have hok := StatsDelta.record_counts hacc
    cases ok <;> exact hok

/-! ### The thread -/

/-- Where a step of the thread outside its critical sections takes it, and the call it makes. -/
inductive Mac.DrainMove (s : Mac) : DrainEvent → DrainPc → Option SharedCall → Prop
  /-- On the way to an image. -/
  | looks {pc : DrainPc} :
      (∀ r len cl cursor acc, s.drain ≠ .scan r len cl cursor acc) → (∀ r, s.drain ≠ .storeR r) →
      (∀ r len cl cursor acc, pc ≠ .scan r len cl cursor acc) → (∀ r, pc ≠ .storeR r) →
      DrainMove s .silent pc none
  | begins {r : UInt32} {len cl : ℕ} :
      s.drain = .loadCl r len → DrainMove s .silent (.scan r len cl 0 .new) none
  /-- A turn finds no more run. -/
  | ends {r : UInt32} {len cl cursor : ℕ} {acc : StatsDelta} {bytes : List UInt8} :
      s.drain = .scan r len cl cursor acc →
      scanTurn s.ourMac.data bytes (if 0 < cl then some cl else none) cursor acc s.stitch =
        .ok none →
      DrainMove s (.turn ⟨bytes, cl⟩) (.storeR r) (some (.merge acc))
  | turns {r : UInt32} {len cl cursor : ℕ} {acc : StatsDelta} {bytes : List UInt8} {t : Turn} :
      s.drain = .scan r len cl cursor acc →
      scanTurn s.ourMac.data bytes (if 0 < cl then some cl else none) cursor acc s.stitch =
        .ok (some t) →
      DrainMove s (.turn ⟨bytes, cl⟩) (.scan r len cl t.cursor t.acc) (t.publish.map .publish)
  | consumes {r : UInt32} : s.drain = .storeR r → DrainMove s .consumed .loadR none

/-- A step moves the thread, and the rest of the state follows. -/
theorem Mac.drainStep_move {s s' : Mac} {ev : DrainEvent} (h : s.drainStep = .ok (ev, s')) :
    ∃ call pc imgR stitch, s.DrainMove ev pc call ∧
      s' = { s with
        drain := pc, imgR, stitch, lock := call.elim s.lock (s.lock.enter .thread) } := by
  unfold drainStep at h
  cases hpc : s.drain with
  | loadR | loadW =>
    rw [hpc] at h
    cases h
    exact ⟨none, _, _, _, .looks (by simp [hpc]) (by simp [hpc]) (by simp) (by simp), rfl⟩
  | loadLen r w =>
    simp only [hpc] at h
    split_ifs at h
    · cases h
      exact ⟨none, _, _, _, .looks (by simp [hpc]) (by simp [hpc]) (by simp) (by simp), rfl⟩
    · cases h
      exact ⟨none, _, _, _, .looks (by simp [hpc]) (by simp [hpc]) (by simp) (by simp), rfl⟩
  | loadCl r len =>
    rw [hpc] at h
    cases h
    exact ⟨none, _, _, _, .begins hpc, rfl⟩
  | scan r len cl cursor acc =>
    simp only [hpc, Exec.bind_eq_ok] at h
    obtain ⟨bytes, -, turn, hturn, hpure⟩ := h
    cases hpure
    cases turn with
    | none => exact ⟨_, _, _, _, .ends hpc hturn, rfl⟩
    | some t =>
      refine ⟨_, _, s.imgR, t.stitch, .turns hpc hturn, ?_⟩
      cases hpub : t.publish with
      | none => simp only [Mac.afterTurn, hpub, Option.map_none, Option.elim_none]
      | some frame => simp only [Mac.afterTurn, hpub, Option.map_some, Option.elim_some]
  | storeR r =>
    rw [hpc] at h
    cases h
    exact ⟨none, _, _, _, .consumes hpc, rfl⟩

theorem Mac.drainStep_cases {s s' : Mac} {ev : DrainEvent} (h : s.drainStep = .ok (ev, s'))
    (hout : s.lock.inside .thread = none) :
    ∃ call, s.DrainMove ev s'.drain call ∧ s'.lock.inside .thread = call.map (⟨·, false⟩) := by
  obtain ⟨call, pc, imgR, stitch, hmove, rfl⟩ := Mac.drainStep_move h
  refine ⟨call, hmove, ?_⟩
  cases call with
  | none => exact hout
  | some f => exact Lock.inside_enter ..

/-- What a step of the thread leaves alone, and its use of the lock. -/
structure Mac.DrainFrame (s s' : Mac) : Prop where
  rx : s'.rx = s.rx
  ourMac : s'.ourMac = s.ourMac
  ring : s'.ring = s.ring
  imgW : s'.imgW = s.imgW
  shared : s'.shared = s.shared
  lock : s'.lock = s.lock ∨ ∃ f, s'.lock = s.lock.enter .thread f

theorem Mac.drainStep_frame {s s' : Mac} {ev : DrainEvent} (h : s.drainStep = .ok (ev, s')) :
    s.DrainFrame s' := by
  obtain ⟨call, pc, imgR, stitch, -, rfl⟩ := Mac.drainStep_move h
  refine ⟨rfl, rfl, rfl, rfl, rfl, ?_⟩
  cases call with
  | none => exact .inl rfl
  | some f => exact .inr ⟨f, rfl⟩

/-- The engine's carry stays inside its buffer. -/
theorem mac_fits_step {s s' : Mac} {ev : MacEvent} (h : s.rx.Fits) (hst : s.Step ev s') :
    s'.rx.Fits := by
  cases hst with
  | dmaIrq _ hirq => exact (Mac.of_processCompletedHalf h hirq).1
  | drain _ _ hdrain => rwa [(Mac.drainStep_frame hdrain).rx]
  | core0 => exact h
  | claim => exact h
  | critical => exact h

/-! ### Critical sections -/

/-- A critical section does not fault. -/
theorem SharedCall.run_ok (shared : RxShared) (f : SharedCall) : ∃ r, f.run shared = .ok r := by
  cases f with
  | merge acc =>
    have hfits := acc.snapFits
    have hlen : (acc.lastSnap.data.take acc.lastSnapLen).length ≤ frameSnapBytes := by
      rw [List.length_take, acc.lastSnap.size]
      omega
    obtain ⟨snap, hsnap, -⟩ := shared.stats.lastFrameSnapshot.copyFromSlice_ok 0
      (show 0 + (acc.lastSnap.data.take acc.lastSnapLen).length ≤ frameSnapBytes by omega)
    have hmerge : ∃ shared', mergeStats shared acc = .ok shared' := by
      rw [mergeStats]
      cases acc.haveLast with
      | false => exact ⟨_, rfl⟩
      | true =>
        simp only [if_true, slice_zero (show acc.lastSnapLen ≤ acc.lastSnap.data.length by
          rw [acc.lastSnap.size]; exact hfits), Exec.ok_bind, hsnap]
        exact ⟨_, rfl⟩
    obtain ⟨shared', hshared⟩ := hmerge
    rw [SharedCall.run, hshared]
    exact ⟨_, rfl⟩
  | _ => exact ⟨_, rfl⟩

theorem mergeStats_counts {shared shared' : RxShared} {acc : StatsDelta}
    (h : mergeStats shared acc = .ok shared') :
    shared'.inbox = shared.inbox ∧ shared'.stats.inboxDropped = shared.stats.inboxDropped ∧
      shared'.stats.fcsOk = shared.stats.fcsOk + acc.ok := by
  rw [mergeStats] at h
  cases hlast : acc.haveLast with
  | false =>
    rw [hlast] at h
    cases h
    exact ⟨rfl, rfl, rfl⟩
  | true =>
    simp only [hlast, if_true] at h
    obtain ⟨snap, -, h⟩ := Exec.bind_eq_ok.1 h
    obtain ⟨last, -, h⟩ := Exec.bind_eq_ok.1 h
    cases h
    exact ⟨rfl, rfl, rfl⟩

/-- A published frame enters the inbox; if it is full, its oldest frame is dropped and counted. -/
theorem publishFrame_eq (shared : RxShared) (frame : List UInt8)
    (h : shared.inbox.length ≤ inboxSlots) :
    (publishFrame shared frame).stats.fcsOk = shared.stats.fcsOk ∧
      if shared.inbox.length < inboxSlots then
        (publishFrame shared frame).inbox = shared.inbox ++ [frame] ∧
          (publishFrame shared frame).stats.inboxDropped = shared.stats.inboxDropped
      else
        (publishFrame shared frame).inbox = shared.inbox.tail ++ [frame] ∧
          (publishFrame shared frame).stats.inboxDropped = shared.stats.inboxDropped + 1 := by
  by_cases hroom : shared.inbox.length < inboxSlots
  · rw [if_pos hroom]
    simp only [publishFrame, if_neg hroom.ne, if_pos hroom]
    split_ifs <;> simp
  · have hfull : shared.inbox.length = inboxSlots := by omega
    have htail : shared.inbox.tail.length < inboxSlots := by
      rw [List.length_tail, hfull]
      decide
    rw [if_neg hroom]
    simp only [publishFrame, if_pos hfull, if_pos htail]
    split_ifs <;> simp

end Pico10BaseT
