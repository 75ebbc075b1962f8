import Pico10BaseT.Queue.Slots
import Pico10BaseT.Rx.MacRuns

/-!
# The image ring

The image with sequence number `n` is stored in slot `n mod 2³² mod 6`.  As 6 does not divide 2³²,
numbers on both sides of a wrap of the counter can share a slot while the ring is not full.

`QueueInv` relates the ring to a queue of numbered slots: the slots stored so far, of which the first
`k` are consumed.  Every action keeps it as long as no image is stored just after a wrap while four or
more are pending (`NoLateWrap`).

* `imageRing_spsc` : under this condition the ring is a queue; a step that breaks it makes two pending
  images share a slot.
* `imageRing_clash` : on an idle line this happens after 2³² images.
-/

namespace Pico10BaseT

/-! ### What a run stores and scans -/

/-- The image that an action stores. -/
def MacEvent.stored : MacEvent → Option Image
  | .dmaIrq _ stored => stored
  | _ => none

/-- The image that an action reads. -/
def MacEvent.scanned : MacEvent → Option Image
  | .drain (.turn image) => some image
  | _ => none

/-- The images that an action consumes. -/
def MacEvent.consumes : MacEvent → ℕ
  | .drain .consumed => 1
  | _ => 0

/-- The images stored, in order. -/
def storedOf (tr : List MacEvent) : List Image := tr.filterMap MacEvent.stored

/-- How many images are consumed. -/
def consumedOf (tr : List MacEvent) : ℕ := (tr.map MacEvent.consumes).sum

/-- The turns of the scan after `k` consumed images: how many were consumed then, and the image
read. -/
def scansFrom : ℕ → List MacEvent → List (ℕ × Image)
  | _, [] => []
  | k, ev :: tr => (ev.scanned.map (k, ·)).toList ++ scansFrom (k + ev.consumes) tr

/-- The turns of the scan of a run. -/
def scansOf (tr : List MacEvent) : List (ℕ × Image) := scansFrom 0 tr

section Trace

variable (tr : List MacEvent) (ev : MacEvent)

theorem storedOf_snoc : storedOf (tr ++ [ev]) = storedOf tr ++ ev.stored.toList := by
  rw [storedOf, List.filterMap_append]
  cases h : ev.stored <;> simp [storedOf, h]

theorem consumedOf_snoc : consumedOf (tr ++ [ev]) = consumedOf tr + ev.consumes := by
  simp [consumedOf]

theorem scansFrom_snoc (k : ℕ) :
    scansFrom k (tr ++ [ev]) =
      scansFrom k tr ++ (ev.scanned.map (k + consumedOf tr, ·)).toList := by
  induction tr generalizing k with
  | nil => simp [scansFrom, consumedOf]
  | cons ev' tr ih =>
    rw [List.cons_append, scansFrom, ih, scansFrom, List.append_assoc, consumedOf, consumedOf,
      List.map_cons, List.sum_cons, Nat.add_assoc]

theorem scansOf_snoc :
    scansOf (tr ++ [ev]) = scansOf tr ++ (ev.scanned.map (consumedOf tr, ·)).toList := by
  rw [scansOf, scansFrom_snoc, Nat.zero_add]
  rfl

end Trace

/-! ### Slots of sequence numbers -/

/-- The slot of the image with number `n`. -/
def seqSlot (n : ℕ) : Fin imgSlots := slotOf (UInt32.ofNat n)

theorem val_seqSlot (n : ℕ) : (seqSlot n).val = n % 2 ^ 32 % 6 := by
  change (UInt32.ofNat n).toNat % 6 = _
  rw [UInt32.toNat_ofNat']

/-- Six consecutive numbers have different slots, but for a wrap less than four numbers back. -/
theorem seqSlot_ne {i n : ℕ} (hlt : i < n) (hn : n < i + 6)
    (hwrap : ¬(n % 2 ^ 32 < 4 ∧ i + 4 ≤ n)) : seqSlot i ≠ seqSlot n := by
  intro heq
  have := congrArg Fin.val heq
  rw [val_seqSlot, val_seqSlot] at this
  -- both in one round of the counter, or on both sides of a wrap
  obtain hround | hround : n / 2 ^ 32 = i / 2 ^ 32 ∨ n / 2 ^ 32 = i / 2 ^ 32 + 1 := by omega
  · omega
  · omega

/-- Four numbers back across a wrap is the same slot. -/
theorem seqSlot_wrap {n : ℕ} (h : n % 2 ^ 32 < 4) (h4 : 4 ≤ n) : seqSlot (n - 4) = seqSlot n := by
  apply Fin.ext
  rw [val_seqSlot, val_seqSlot]
  omega

namespace Mac

/-- The slots of the sequence numbers `IMG_R..IMG_W`. -/
def pendingSlots (s : Mac) : List (Fin imgSlots) :=
  (List.range (s.imgW - s.imgR).toNat).map fun i => slotOf (s.imgR + UInt32.ofNat i)

theorem pendingSlots_eq {s : Mac} {k n : ℕ} (hw : s.imgW = UInt32.ofNat n)
    (hr : s.imgR = UInt32.ofNat k) (hk : k ≤ n) (hn : n - k < 2 ^ 32) :
    s.pendingSlots = (List.range (n - k)).map fun i => seqSlot (k + i) := by
  rw [pendingSlots, hw, hr, toNat_ofNat_sub hk hn]
  refine List.map_congr_left fun i _ => ?_
  rw [seqSlot, UInt32.ofNat_add]

end Mac

/-- No image is stored less than four numbers after a wrap while four or more are pending. -/
def NoLateWrap (s : Mac) (ev : MacEvent) : Prop :=
  ∀ half stored, ev = .dmaIrq half stored → s.ringFull = false → s.rx.storesImage half = true →
    ¬(s.imgW < 4 ∧ 4 ≤ s.imgW - s.imgR)

/-! ### The invariant -/

/-- Where the thread is, `k` images being consumed: it has loaded `IMG_R`, an earlier `IMG_W`, and
the length and carry prefix of image `k`; behind the scan it has read the image. -/
def DrainAt (xs : List ImgSlot) (k : ℕ) (scans : List (ℕ × Image)) : DrainPc → Prop
  | .loadR => True
  | .loadW r => r = UInt32.ofNat k
  | .loadLen r w => r = UInt32.ofNat k ∧ ∃ n, w = UInt32.ofNat n ∧ k ≤ n ∧ n ≤ xs.length
  | .loadCl r len => r = UInt32.ofNat k ∧ ∃ x, xs[k]? = some x ∧ len = x.len.toNat
  | .scan r len cl cursor _ => r = UInt32.ofNat k ∧ ∃ x, xs[k]? = some x ∧ len = x.len.toNat ∧
      cl = x.cl.toNat ∧ Boundary x.image.bytes cursor
  | .storeR r => r = UInt32.ofNat k ∧ k < xs.length ∧ ∃ image, (k, image) ∈ scans

/-- The ring is a queue: the slots `xs` are stored so far, the first `k` of them are consumed, and
`scans` are the turns of the scan. -/
structure QueueInv (xs : List ImgSlot) (k : ℕ) (scans : List (ℕ × Image)) (s : Mac) : Prop where
  rxFits : s.rx.Fits
  slotsFit : ∀ x ∈ xs, x.Fits
  holds : Holds seqSlot s.ring xs k
  apart : Apart seqSlot k xs.length
  le : k ≤ xs.length
  room : xs.length ≤ k + imgSlots
  imgW : s.imgW = UInt32.ofNat xs.length
  imgR : s.imgR = UInt32.ofNat k
  drain : DrainAt xs k scans s.drain
  reads : ∀ p ∈ scans, (xs.map ImgSlot.image)[p.1]? = some p.2
  scanned : ∀ i < k, ∃ image, (i, image) ∈ scans

theorem DrainAt.mono {xs : List ImgSlot} {k : ℕ} {scans : List (ℕ × Image)} {pc : DrainPc}
    (h : DrainAt xs k scans pc) (slot : ImgSlot) : DrainAt (xs ++ [slot]) k scans pc := by
  have hget : ∀ x, xs[k]? = some x → (xs ++ [slot])[k]? = some x := fun x hx => by
    rwa [List.getElem?_append_left (List.getElem?_eq_some_iff.1 hx).1]
  have hlen : (xs ++ [slot]).length = xs.length + 1 := by simp
  cases pc with
  | loadR => trivial
  | loadW r => exact h
  | loadLen r w =>
    obtain ⟨hr, n, hw, hkn, hn⟩ := h
    exact ⟨hr, n, hw, hkn, by omega⟩
  | loadCl r len =>
    obtain ⟨hr, x, hx, hlen⟩ := h
    exact ⟨hr, x, hget x hx, hlen⟩
  | scan r len cl cursor acc =>
    obtain ⟨hr, x, hx, hrest⟩ := h
    exact ⟨hr, x, hget x hx, hrest⟩
  | storeR r =>
    obtain ⟨hr, hk, himage⟩ := h
    exact ⟨hr, by omega, himage⟩

namespace QueueInv

variable {xs : List ImgSlot} {k : ℕ} {scans : List (ℕ × Image)} {s s' : Mac}

theorem boot (ourMac : Bytes 6) : QueueInv [] 0 [] (.boot ourMac) where
  rxFits := Nat.zero_le _
  slotsFit := by simp
  holds := holds_nil
  apart := fun i j _ _ hj => by simp at hj
  le := le_rfl
  room := Nat.zero_le _
  imgW := rfl
  imgR := rfl
  drain := trivial
  reads := by simp
  scanned := fun i hi => absurd hi (Nat.not_lt_zero i)

/-- An action that leaves the ring alone. -/
theorem other (h : QueueInv xs k scans s) (hfit : s'.rx.Fits) (hring : s'.ring = s.ring)
    (hw : s'.imgW = s.imgW) (hr : s'.imgR = s.imgR) (hdrain : DrainAt xs k scans s'.drain) :
    QueueInv xs k scans s' :=
  { h with
    rxFits := hfit
    holds := hring ▸ h.holds
    imgW := hw.trans h.imgW
    imgR := hr.trans h.imgR
    drain := hdrain }

/-- The pending numbers, as counted by the two counters. -/
theorem pending (h : QueueInv xs k scans s) : (s.imgW - s.imgR).toNat = xs.length - k := by
  have hroom := h.room
  rw [imgSlots] at hroom
  rw [h.imgW, h.imgR, toNat_ofNat_sub h.le (by omega)]

/-- The slot of the next image is free. -/
theorem slot_free (h : QueueInv xs k scans s) (hfull : s.ringFull = false)
    (hwrap : ¬(s.imgW < 4 ∧ 4 ≤ s.imgW - s.imgR)) {i : ℕ} (hk : k ≤ i) (hi : i < xs.length) :
    seqSlot i ≠ seqSlot xs.length := by
  have hpending := h.pending
  rw [Mac.ringFull_eq_false, hpending, imgSlots] at hfull
  refine seqSlot_ne hi (by omega) ?_
  rintro ⟨hlow, hback⟩
  refine hwrap ⟨?_, ?_⟩
  · rw [UInt32.lt_iff_toNat_lt, h.imgW, UInt32.toNat_ofNat']
    exact hlow
  · rw [UInt32.le_iff_toNat_le, hpending]
    change 4 ≤ _
    omega

/-- An image is put at the end of the queue. -/
theorem put (h : QueueInv xs k scans s) {slot : ImgSlot} (hslot : slot.Fits)
    (hfull : s.ringFull = false) (hwrap : ¬(s.imgW < 4 ∧ 4 ≤ s.imgW - s.imgR))
    (hfit : s'.rx.Fits) (hring : s'.ring = Function.update s.ring (slotOf s.imgW) slot)
    (hw : s'.imgW = s.imgW + 1) (hr : s'.imgR = s.imgR) (hdrain : s'.drain = s.drain) :
    QueueInv (xs ++ [slot]) k scans s' := by
  have hfree : ∀ i, k ≤ i → i < xs.length → seqSlot i ≠ seqSlot xs.length :=
    fun i => h.slot_free hfull hwrap
  have hle := h.le
  have hlen : (xs ++ [slot]).length = xs.length + 1 := by simp
  rw [Mac.ringFull_eq_false, h.pending] at hfull
  refine ⟨hfit, ?_, ?_, ?_, by omega, by omega, ?_, hr.trans h.imgR, ?_, ?_, h.scanned⟩
  · intro x hx
    rcases List.mem_append.1 hx with hx | hx
    · exact h.slotsFit x hx
    · rwa [List.mem_singleton.1 hx]
  · rw [hring, h.imgW]
    exact h.holds.put slot hfree
  · rw [hlen]
    exact h.apart.put hfree
  · rw [hw, h.imgW, hlen, UInt32.ofNat_add]
    rfl
  · rw [hdrain]
    exact h.drain.mono slot
  · intro p hp
    have hget := h.reads p hp
    rwa [List.map_append, List.getElem?_append_left (List.getElem?_eq_some_iff.1 hget).1]

/-- A turn of the scan reads the first image of the queue. -/
theorem turn (h : QueueInv xs k scans s) {x : ImgSlot} (hx : xs[k]? = some x) (hfit : s'.rx.Fits)
    (hring : s'.ring = s.ring) (hw : s'.imgW = s.imgW) (hr : s'.imgR = s.imgR)
    (hdrain : DrainAt xs k (scans ++ [(k, x.image)]) s'.drain) :
    QueueInv xs k (scans ++ [(k, x.image)]) s' := by
  refine ⟨hfit, h.slotsFit, hring ▸ h.holds, h.apart, h.le, h.room, hw.trans h.imgW,
    hr.trans h.imgR, hdrain, fun p hp => ?_, fun i hi => ?_⟩
  · rcases List.mem_append.1 hp with hp | hp
    · exact h.reads p hp
    · rw [List.mem_singleton.1 hp, List.getElem?_map, hx]
      rfl
  · obtain ⟨image, himage⟩ := h.scanned i hi
    exact ⟨image, List.mem_append_left _ himage⟩

/-- The store of `IMG_R` takes the first image off the queue. -/
theorem take (h : QueueInv xs k scans s) {image : Image} (hk : k < xs.length)
    (himage : (k, image) ∈ scans) :
    QueueInv xs (k + 1) scans { s with imgR := UInt32.ofNat k + 1, drain := .loadR } := by
  have hroom := h.room
  refine ⟨h.rxFits, h.slotsFit, h.holds.take, h.apart.take, hk, by omega, h.imgW, ?_, trivial,
    h.reads, fun i hi => ?_⟩
  · rw [UInt32.ofNat_add]
    rfl
  · rcases Nat.lt_succ_iff_lt_or_eq.1 hi with hi | rfl
    · exact h.scanned i hi
    · exact ⟨image, himage⟩

/-- The image that the thread drains is in its slot. -/
theorem slot_at (h : QueueInv xs k scans s) {x : ImgSlot} (hx : xs[k]? = some x) :
    s.ring (slotOf (UInt32.ofNat k)) = x :=
  h.holds k x le_rfl hx

/-- The queue after an action. -/
def After (xs : List ImgSlot) (k : ℕ) (scans : List (ℕ × Image)) (ev : MacEvent) (s' : Mac) : Prop :=
  ∃ xs', xs'.map ImgSlot.image = xs.map ImgSlot.image ++ ev.stored.toList ∧
    QueueInv xs' (k + ev.consumes) (scans ++ (ev.scanned.map (k, ·)).toList) s'

/-- An action that neither stores, reads nor consumes an image. -/
theorem after_of_silent (h : QueueInv xs k scans s') {ev : MacEvent} (hstored : ev.stored = none)
    (hscanned : ev.scanned = none) (hconsumes : ev.consumes = 0) : After xs k scans ev s' := by
  refine ⟨xs, by simp [hstored], ?_⟩
  rw [hscanned, hconsumes]
  simpa using h

/-- **The IRQ** puts at most one image at the end of the queue. -/
theorem irq (h : QueueInv xs k scans s) {half : Option (Bytes bufBytes)} {stored : Option Image}
    (hwrap : NoLateWrap s (.dmaIrq half stored))
    (hirq : s.processCompletedHalf half = .ok (s', stored)) :
    After xs k scans (.dmaIrq half stored) s' := by
  obtain ⟨hfit, hframe, heff, -⟩ := Mac.of_processCompletedHalf h.rxFits hirq
  have hnone : scans ++ ((MacEvent.dmaIrq half stored).scanned.map (k, ·)).toList = scans := by
    simp [MacEvent.scanned]
  rw [After, hnone]
  cases heff with
  | none _ hring hw =>
    refine ⟨xs, by simp [MacEvent.stored], h.other hfit hring hw hframe.imgR ?_⟩
    rw [hframe.drain]
    exact h.drain
  | @stored slot hfull hstores hslot hring hw _ =>
    exact ⟨xs ++ [slot], List.map_append, h.put hslot hfull (hwrap half _ rfl hfull hstores) hfit hring
      hw hframe.imgR hframe.drain⟩

/-- **The thread** scans the first image of the queue and then takes it off.  It does not fault. -/
theorem drainStep (h : QueueInv xs k scans s) :
    ∃ ev s', s.drainStep = .ok (ev, s') ∧ After xs k scans (.drain ev) s' := by
  have hsilent : ∀ {s'}, QueueInv xs k scans s' → After xs k scans (.drain .silent) s' := fun h' =>
    h'.after_of_silent rfl rfl rfl
  have hdrain := h.drain
  unfold Mac.drainStep
  cases hpc : s.drain with
  | loadR => exact ⟨_, _, rfl, hsilent (h.other h.rxFits rfl rfl rfl h.imgR)⟩
  | loadW r =>
    rw [hpc] at hdrain
    exact ⟨_, _, rfl, hsilent (h.other h.rxFits rfl rfl rfl
      ⟨hdrain, xs.length, h.imgW, h.le, le_rfl⟩)⟩
  | loadLen r w =>
    rw [hpc] at hdrain
    obtain ⟨rfl, n, rfl, hkn, hn⟩ := hdrain
    dsimp only
    split_ifs with heq
    · exact ⟨_, _, rfl, hsilent (h.other h.rxFits rfl rfl rfl trivial)⟩
    · -- the loaded counters differ, so an image is pending
      have hlt : k < xs.length := by
        rcases Nat.eq_or_lt_of_le hkn with rfl | hlt
        · exact absurd rfl heq
        · omega
      have hx := List.getElem?_eq_getElem hlt
      refine ⟨_, _, rfl, hsilent (h.other h.rxFits rfl rfl rfl ⟨rfl, _, hx, ?_⟩)⟩
      rw [h.slot_at hx]
  | loadCl r len =>
    rw [hpc] at hdrain
    obtain ⟨rfl, x, hx, hlen⟩ := hdrain
    refine ⟨_, _, rfl, hsilent (h.other h.rxFits rfl rfl rfl ⟨rfl, x, hx, hlen, ?_, .inl rfl⟩)⟩
    rw [h.slot_at hx]
  | scan r len cl cursor acc =>
    rw [hpc] at hdrain
    obtain ⟨rfl, x, hx, rfl, rfl, hbound⟩ := hdrain
    have hfits : x.len.toNat ≤ stitchBufBytes := h.slotsFit x (List.mem_of_getElem? hx)
    obtain ⟨turn, hturn, hnext⟩ := scanTurn_spec s.ourMac.data
      (if 0 < x.cl.toNat then some x.cl.toNat else none) acc s.stitch hbound
    have hbytes : x.image.bytes = x.data.data.take x.len.toNat := rfl
    simp only [h.slot_at hx, rawParts, if_pos hfits, Exec.ok_bind, ← hbytes, hturn]
    refine ⟨_, _, rfl, xs, (List.append_nil _).symm, h.turn hx ?_ ?_ ?_ ?_ ?_⟩
    · cases turn <;> exact h.rxFits
    · cases turn <;> rfl
    · cases turn <;> rfl
    · cases turn <;> rfl
    · cases turn with
      | none =>
        exact ⟨rfl, (List.getElem?_eq_some_iff.1 hx).1, x.image, List.mem_append_right _ (by simp)⟩
      | some t => exact ⟨rfl, x, hx, rfl, rfl, hnext t rfl⟩
  | storeR r =>
    rw [hpc] at hdrain
    obtain ⟨rfl, hk, image, himage⟩ := hdrain
    exact ⟨_, _, rfl, xs, (List.append_nil _).symm,
      by simpa [MacEvent.consumes, MacEvent.scanned] using h.take hk himage⟩

/-- **One action** of any context. -/
theorem step (h : QueueInv xs k scans s) {ev : MacEvent} (hwrap : NoLateWrap s ev)
    (hst : s.Step ev s') : After xs k scans ev s' := by
  cases hst with
  | dmaIrq _ hirq => exact h.irq hwrap hirq
  | drain _ _ hdrain =>
    obtain ⟨ev₁, s₁, hdrain₁, hafter⟩ := h.drainStep
    rw [hdrain] at hdrain₁
    cases hdrain₁
    exact hafter
  | core0 =>
    refine after_of_silent ?_ rfl rfl rfl
    exact h.other h.rxFits rfl rfl rfl h.drain
  | claim =>
    refine after_of_silent ?_ rfl rfl rfl
    exact h.other h.rxFits rfl rfl rfl h.drain
  | critical =>
    refine after_of_silent ?_ rfl rfl rfl
    exact h.other h.rxFits rfl rfl rfl h.drain

theorem pendingSlots (h : QueueInv xs k scans s) :
    s.pendingSlots = (List.range (xs.length - k)).map fun i => seqSlot (k + i) := by
  have hroom := h.room
  rw [imgSlots] at hroom
  exact Mac.pendingSlots_eq h.imgW h.imgR h.le (by omega)

theorem nodup (h : QueueInv xs k scans s) : s.pendingSlots.Nodup := by
  rw [h.pendingSlots]
  exact h.apart.nodup

/-- The IRQ does not write a slot that is still pending. -/
theorem pending_kept (h : QueueInv xs k scans s) {ev : MacEvent} (hwrap : NoLateWrap s ev)
    (hst : s.Step ev s') : ∀ i ∈ s.pendingSlots, s'.ring i = s.ring i := by
  intro i hi
  cases hst with
  | @dmaIrq half _ stored _ hirq =>
    obtain ⟨-, -, heff, -⟩ := Mac.of_processCompletedHalf h.rxFits hirq
    cases heff with
    | none _ hring => rw [hring]
    | stored hfull hstores _ hring =>
      rw [h.pendingSlots, List.mem_map] at hi
      obtain ⟨j, hj, rfl⟩ := hi
      rw [List.mem_range] at hj
      have hne : seqSlot (k + j) ≠ slotOf s.imgW := by
        rw [h.imgW]
        exact h.slot_free hfull (hwrap half _ rfl hfull hstores) (Nat.le_add_right _ _) (by omega)
      rw [hring, Function.update_of_ne hne]
  | drain _ _ hdrain => rw [(Mac.drainStep_frame hdrain).ring]
  | core0 => rfl
  | claim => rfl
  | critical => rfl

/-- An image stored late after a wrap gets the slot of a pending one. -/
theorem not_nodup (h : QueueInv xs k scans s) {ev : MacEvent} (hlate : ¬ NoLateWrap s ev)
    (hst : s.Step ev s') : ¬ s'.pendingSlots.Nodup := by
  simp only [NoLateWrap, not_forall, not_not] at hlate
  obtain ⟨half, stored, rfl, hfull, hstores, hlow, hback⟩ := hlate
  have hpending := h.pending
  rw [UInt32.le_iff_toNat_le, hpending] at hback
  rw [UInt32.lt_iff_toNat_lt, h.imgW, UInt32.toNat_ofNat'] at hlow
  change 4 ≤ _ at hback
  change _ < 4 at hlow
  rw [Mac.ringFull_eq_false, hpending, imgSlots] at hfull
  cases hst with
  | dmaIrq _ hirq =>
    obtain ⟨-, hframe, heff, -⟩ := Mac.of_processCompletedHalf h.rxFits hirq
    cases heff with
    | none hnot => exact absurd ⟨by rwa [Mac.ringFull_eq_false, hpending], hstores⟩ hnot
    | stored _ _ _ _ hw =>
      have hw' : s'.imgW = UInt32.ofNat (xs.length + 1) := by
        rw [hw, h.imgW, UInt32.ofNat_add]
        rfl
      have hle := h.le
      rw [Mac.pendingSlots_eq hw' (hframe.imgR.trans h.imgR) (by omega) (by omega)]
      intro hnodup
      -- the new image and the one four numbers back
      have hinj := List.inj_on_of_nodup_map hnodup
        (List.mem_range.2 (show xs.length - 4 - k < _ by omega))
        (List.mem_range.2 (show xs.length - k < _ by omega))
      have hclash : seqSlot (k + (xs.length - 4 - k)) = seqSlot (k + (xs.length - k)) := by
        rw [Nat.add_sub_cancel' (by omega), Nat.add_sub_cancel' hle]
        exact seqSlot_wrap hlow (by omega)
      have := hinj hclash
      omega

end QueueInv

/-- **Runs** keep the queue. -/
theorem ring_inv {tr : List MacEvent} {s : Mac} (h : (macSystem.restrict NoLateWrap).Run tr s) :
    ∃ xs, storedOf tr = xs.map ImgSlot.image ∧ QueueInv xs (consumedOf tr) (scansOf tr) s := by
  refine h.induction (J := fun tr s => ∃ xs, storedOf tr = xs.map ImgSlot.image ∧
    QueueInv xs (consumedOf tr) (scansOf tr) s) ?_ ?_
  · rintro _ ⟨ourMac, rfl⟩
    exact ⟨[], rfl, .boot ourMac⟩
  · rintro tr s ev s' - ⟨xs, hstored, hinv⟩ ⟨hwrap, hst⟩
    obtain ⟨xs', hxs', hinv'⟩ := hinv.step hwrap hst
    refine ⟨xs', ?_, ?_⟩
    · rw [storedOf_snoc, hstored, hxs']
    · rwa [consumedOf_snoc, scansOf_snoc]

/-! ### An idle line -/

/-- A half of an idle line. -/
def silentHalf : Bytes bufBytes := .zero _

theorem inactive_silentHalf : Inactive silentHalf.data := idle_replicate _

section Idle

variable {s : Mac} {k n : ℕ}

/-- One more half of the idle line. -/
theorem Mac.Quiet.store (h : s.Quiet k n)
    (hs : (macSystem.restrict (Mac.Captures silentHalf)).Reachable s) (hk : k ≤ n) (hn : n < k + 6) :
    ∃ slot s', (macSystem.restrict (Mac.Captures silentHalf)).Reachable s' ∧ s'.Quiet k (n + 1) ∧
      s'.ring = Function.update s.ring (slotOf s.imgW) slot ∧ slot.Fits ∧
      Inactive slot.image.bytes := by
  obtain ⟨slot, s', hst, h', himage⟩ := h.stores hk hn fun i _ => inactive_silentHalf i
  exact ⟨slot, s', hs.step ⟨Mac.captures_dmaIrq _ _ _, hst.step⟩, h', hst.ring, hst.fits,
    himage ▸ inactive_silentHalf⟩

/-- Images stored and consumed in turn: the counters pass every number. -/
theorem reachable_quiet (n : ℕ) :
    ∃ s, (macSystem.restrict (Mac.Captures silentHalf)).Reachable s ∧ s.Quiet n n := by
  induction n with
  | zero => exact ⟨.boot (.zero 6), .init ⟨_, rfl⟩, Mac.quiet_boot _⟩
  | succ n ih =>
    obtain ⟨s, hs, h⟩ := ih
    obtain ⟨slot, s', hs', h', hring, hfits, hinactive⟩ := h.store hs le_rfl (by omega)
    have hslot : s'.ring (slotOf s'.imgR) = slot := by
      rw [hring, h'.imgR, h.imgW]
      exact Function.update_self ..
    obtain ⟨shared, hpath⟩ := Mac.path_consumed (Mac.allowsDrain_captures silentHalf) h'.lock
      h'.drain (h'.ne (by omega) (by omega)) (hslot ▸ hfits) (hslot ▸ hinactive)
    refine ⟨_, hs'.path hpath, h'.lock, h'.drain, h'.carryLen, h'.carryCapped, ?_, h'.imgW⟩
    change s'.imgR + 1 = _
    rw [h'.imgR, UInt32.ofNat_add]
    rfl

/-- Up to six images are stored while the thread does not run. -/
theorem reachable_pending (k : ℕ) {m : ℕ} (hm : m ≤ 6) :
    ∃ s, (macSystem.restrict (Mac.Captures silentHalf)).Reachable s ∧ s.Quiet k (k + m) := by
  induction m with
  | zero => exact reachable_quiet k
  | succ m ih =>
    obtain ⟨s, hs, h⟩ := ih (by omega)
    obtain ⟨slot, s', hs', h', -⟩ := h.store hs (Nat.le_add_right _ _) (by omega)
    exact ⟨s', hs', h'⟩

end Idle

/-! ### The queue -/

/-- **The image ring is a queue**, while no image is stored just after a wrap of `IMG_W` with four or
more pending.  At most six images are pending, in different slots; the turns of the scan read the
images stored, one after the other; what is not consumed is pending; the thread does not fault; and no
action writes a pending slot.  An action that breaks the condition makes two pending images share a
slot. -/
theorem imageRing_spsc {tr : List MacEvent} {s : Mac}
    (h : (macSystem.restrict NoLateWrap).Run tr s) :
    s.pendingSlots.Nodup ∧ s.pendingSlots.length ≤ imgSlots ∧
      (storedOf tr).length = consumedOf tr + s.pendingSlots.length ∧
      (∀ k image, (k, image) ∈ scansOf tr → (storedOf tr)[k]? = some image) ∧
      (∀ k < consumedOf tr, ∃ image, (k, image) ∈ scansOf tr) ∧
      (∃ ev s', s.drainStep = .ok (ev, s')) ∧
      ∀ ev s', macSystem.step s ev s' →
        (NoLateWrap s ev → ∀ i ∈ s.pendingSlots, s'.ring i = s.ring i) ∧
        (s'.pendingSlots.Nodup ↔ NoLateWrap s ev) := by
  obtain ⟨xs, hstored, hinv⟩ := ring_inv h
  have hlen : s.pendingSlots.length = xs.length - consumedOf tr := by
    rw [hinv.pendingSlots, List.length_map, List.length_range]
  have hle := hinv.le
  have hroom := hinv.room
  obtain ⟨ev, s', hdrain, -⟩ := hinv.drainStep
  refine ⟨hinv.nodup, by omega, ?_, fun i image hi => ?_, hinv.scanned, ⟨ev, s', hdrain⟩,
    fun ev s' hst => ⟨fun hwrap => hinv.pending_kept hwrap hst, ?_, ?_⟩⟩
  · rw [hstored, List.length_map]
    omega
  · rw [hstored]
    exact hinv.reads (i, image) hi
  · intro hnodup
    by_contra hlate
    exact hinv.not_nodup hlate hst hnodup
  · intro hwrap
    obtain ⟨xs', -, hinv'⟩ := hinv.step hwrap hst
    exact hinv'.nodup

theorem Mac.Quiet.noLateWrap {s : Mac} {k n : ℕ} (h : s.Quiet k n) (hk : k ≤ n) (hn : n < k + 4)
    (ev : MacEvent) : NoLateWrap s ev := by
  rintro _ _ rfl - - ⟨-, hback⟩
  rw [UInt32.le_iff_toNat_le, h.imgR, h.imgW, toNat_ofNat_sub hk (by omega)] at hback
  change 4 ≤ _ at hback
  omega

/-- Three halves of an idle line are stored, and the first is scanned and consumed: two images are
pending, and the one scanned is the first stored. -/
theorem imageRing_spsc_three :
    ∃ tr s image, (macSystem.restrict NoLateWrap).Run tr s ∧ (storedOf tr).length = 3 ∧
      consumedOf tr = 1 ∧ scansOf tr = [(0, image)] ∧ (storedOf tr)[0]? = some image ∧
      s.pendingSlots.length = 2 := by
  have hsettled : Settled isActive silentHalf.data := fun i _ => inactive_silentHalf i
  have h₀ := Mac.quiet_boot (.zero 6)
  obtain ⟨slot₁, s₁, hst₁, h₁, himage⟩ := h₀.stores le_rfl (by omega) hsettled
  obtain ⟨slot₂, s₂, hst₂, h₂, -⟩ := h₁.stores (by omega) (by omega) hsettled
  obtain ⟨slot₃, s₃, hst₃, h₃, -⟩ := h₂.stores (by omega) (by omega) hsettled
  have hboot : (macSystem.restrict NoLateWrap).Run [] (.boot (.zero 6)) := .init ⟨_, rfl⟩
  have hrun := ((hboot.snoc ⟨h₀.noLateWrap le_rfl (by omega) _, hst₁.step⟩).snoc
    ⟨h₁.noLateWrap (by omega) (by omega) _, hst₂.step⟩).snoc
    ⟨h₂.noLateWrap (by omega) (by omega) _, hst₃.step⟩
  have hslot : s₃.ring (slotOf s₃.imgR) = slot₁ := by
    rw [hst₃.ring, hst₂.ring, hst₁.ring, h₃.imgR, h₂.imgW, h₁.imgW,
      Function.update_of_ne (by decide), Function.update_of_ne (by decide)]
    exact Function.update_self ..
  obtain ⟨shared, hpath⟩ := Mac.path_consumed (C := NoLateWrap)
    (fun _ _ hne _ _ hev => absurd hev (hne _ _)) h₃.lock h₃.drain (h₃.ne (by omega) (by omega))
    (hslot ▸ hst₁.fits)
    (by rw [hslot, himage]; exact inactive_silentHalf)
  have hrun := hrun.append hpath
  obtain ⟨-, -, hlen, hreads, -⟩ := imageRing_spsc hrun
  exact ⟨_, _, _, hrun, rfl, rfl, rfl, hreads 0 _ (List.mem_singleton_self _),
    (Nat.add_left_cancel (n := 1) (m := 2) hlen).symm⟩

/-- **Two pending images in one slot.**  On an idle line the counters get to `2³² - 4`; of the next
five images, stored before the thread runs again, the last is stored over the first. -/
theorem imageRing_clash :
    ∃ s, macSystem.Reachable s ∧ (macSystem.restrict (Mac.Captures silentHalf)).Reachable s ∧
      s.pendingSlots.map Fin.val = [0, 1, 2, 3, 0] ∧ ¬ s.pendingSlots.Nodup := by
  obtain ⟨s, hs, h⟩ := reachable_pending (2 ^ 32 - 4) (show 5 ≤ 6 by omega)
  have hslots : s.pendingSlots.map Fin.val = [0, 1, 2, 3, 0] := by
    rw [Mac.pendingSlots_eq h.imgW h.imgR (Nat.le_add_right _ _) (by omega),
      Nat.add_sub_cancel_left]
    decide +kernel
  refine ⟨s, hs.of_restrict, hs, hslots, fun hnodup => ?_⟩
  have := hnodup.map Fin.val_injective
  rw [hslots] at this
  exact absurd this (by decide)

end Pico10BaseT
