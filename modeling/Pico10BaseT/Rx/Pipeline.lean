import Mathlib.Data.List.Flatten
import Pico10BaseT.Runs.Blocks
import Pico10BaseT.Rx.Inbox
import Pico10BaseT.Rx.LineFrame
import Pico10BaseT.Rx.Ring

/-!
# From the captured stream to the inbox

The halves that `DMA_IRQ_0` captures are one stream of bytes.  A frame in it is a block of active
bytes, ended by an idle one, that is long enough, is addressed to us and has a valid FCS (`heard`).
The receive side gets at them by a detour: halves are cut into images, images wait in a ring, and
the thread scans one image after the other, publishing what it finds.

* `scanTurn_block` : a turn of the scan takes the next block of the image.
* `receive_pipeline` : what is published, and popped, in every interleaving of the three contexts.
-/

namespace Pico10BaseT

/-! ### The frame in a run -/

/-- What `scan_runs` publishes of a run. -/
def runFrame (ourMac run : List UInt8) : Exec (Option (List UInt8)) := do
  match ← peekDstMac rate60MHz run 0 run.length with
  | none => return none
  | some dst =>
    if macAccept dst ourMac = false then return none
    else
      match ← decodeFrameEdgeTrack run with
      | none => return none
      | some frame =>
        let flen ← deriveFrameLen frame
        let ok ← verifyFcs frame flen
        return if ok then some (frame.take (min flen frame.length)) else none

/-- The frame that a run holds for us, if it holds one. -/
def frameIn (ourMac run : List UInt8) : Option (List UInt8) := (runFrame ourMac run).toOption.join

/-- The frames for us in a stream of captured bytes. -/
def heard (ourMac stream : List UInt8) : List (List UInt8) :=
  (blocks isActive minRun stream).filterMap (frameIn ourMac)

/-! ### The peek sees the run only -/

/-- The `n` samples of `a` from `i` on are those of `b` from `j` on. -/
def SameSamples (a : List UInt8) (i : ℕ) (b : List UInt8) (j n : ℕ) : Prop :=
  ∀ k < n, sampleBit a (i + k) = sampleBit b (j + k)

section Congr

variable {a b : List UInt8} {i j ns : ℕ}

theorem fallingEdgeLoop_congr (h : SameSamples a i b j ns) {n k : ℕ} {prev : UInt8}
    (hn : k + n ≤ ns) : fallingEdgeLoop a i n k prev = fallingEdgeLoop b j n k prev := by
  induction n generalizing k prev with
  | zero => rfl
  | succ n ih =>
    rw [fallingEdgeLoop, fallingEdgeLoop, h k (by omega)]
    refine bind_congr fun s => ?_
    rw [ih (by omega)]

theorem findFirstFallingEdge_congr (h : SameSamples a i b j ns) (hpos : 0 < ns) :
    findFirstFallingEdge a i ns = findFirstFallingEdge b j ns := by
  have h0 := h 0 hpos
  rw [Nat.add_zero, Nat.add_zero] at h0
  rw [findFirstFallingEdge, findFirstFallingEdge, h0]
  exact bind_congr fun s => fallingEdgeLoop_congr h (by omega)

theorem dataBit_congr (h : SameSamples a i b j ns) (rate : SampleRate) (f k : ℕ) :
    dataBit rate a i f k ns = dataBit rate b j f k ns := by
  rw [dataBit, dataBit]
  split_ifs with hin
  · rfl
  · rw [h _ (Nat.lt_of_not_le hin)]

theorem sfdEndLoop_congr (h : SameSamples a i b j ns) (rate : SampleRate) (f : ℕ) {n k : ℕ}
    {prev : UInt8} : sfdEndLoop rate a i f ns n k prev = sfdEndLoop rate b j f ns n k prev := by
  induction n generalizing k prev with
  | zero => rfl
  | succ n ih =>
    rw [sfdEndLoop, sfdEndLoop, dataBit_congr h]
    refine bind_congr fun r => ?_
    cases r with
    | none => rfl
    | some cur =>
      dsimp only
      rw [ih]

theorem macByteLoop_congr (h : SameSamples a i b j ns) (rate : SampleRate) (f : ℕ) {n l k : ℕ}
    {byte : UInt8} :
    macByteLoop rate a i f ns n l k byte = macByteLoop rate b j f ns n l k byte := by
  induction n generalizing l k byte with
  | zero => rfl
  | succ n ih =>
    rw [macByteLoop, macByteLoop, dataBit_congr h]
    refine bind_congr fun r => ?_
    cases r with
    | none => rfl
    | some s => exact ih

theorem macLoop_congr (h : SameSamples a i b j ns) (rate : SampleRate) (f : ℕ) {n k : ℕ}
    {mac : List UInt8} : macLoop rate a i f ns n k mac = macLoop rate b j f ns n k mac := by
  induction n generalizing k mac with
  | zero => rfl
  | succ n ih =>
    rw [macLoop, macLoop, macByteLoop_congr h]
    refine bind_congr fun r => ?_
    cases r with
    | none => rfl
    | some byte => exact ih

theorem peekDstMac_congr {base base' nbytes : ℕ}
    (h : SameSamples a (base * 8) b (base' * 8) (nbytes * 8)) (hpos : 0 < nbytes)
    (rate : SampleRate) : peekDstMac rate a base nbytes = peekDstMac rate b base' nbytes := by
  rw [peekDstMac, peekDstMac, findFirstFallingEdge_congr h (by omega)]
  refine bind_congr fun r => ?_
  cases r with
  | none => rfl
  | some f =>
    dsimp only
    rw [findSfdEnd, findSfdEnd, dataBit_congr h]
    simp only [sfdEndLoop_congr h, macLoop_congr h]

end Congr

section Scan

variable {bytes : List UInt8} {off len : ℕ}

theorem length_run (hle : off + len ≤ bytes.length) : ((bytes.drop off).take len).length = len := by
  rw [List.length_take, List.length_drop]
  omega

theorem sameSamples_run (hle : off + len ≤ bytes.length) :
    SameSamples bytes (off * 8) ((bytes.drop off).take len) (0 * 8) (len * 8) := by
  intro k hk
  have hbyte : byteAt ((bytes.drop off).take len) (k / 8) = byteAt bytes (off + k / 8) := by
    rw [byteAt_take (by omega), byteAt_drop]
  rw [sampleBit_ok (by omega), sampleBit_ok (by rw [length_run hle]; omega), level, level,
    show (0 * 8 + k) / 8 = k / 8 by omega, hbyte, show (off * 8 + k) / 8 = off + k / 8 by omega,
    show (off * 8 + k) % 8 = (0 * 8 + k) % 8 by omega]

theorem peekDstMac_run (hpos : 0 < len) (hle : off + len ≤ bytes.length) :
    peekDstMac rate60MHz bytes off len =
      peekDstMac rate60MHz ((bytes.drop off).take len) 0 ((bytes.drop off).take len).length := by
  rw [length_run hle]
  exact peekDstMac_congr (sameSamples_run hle) hpos _

theorem frameIn_of_runFrame {ourMac run : List UInt8} {r : Option (List UInt8)}
    (h : runFrame ourMac run = .ok r) : frameIn ourMac run = r := by
  rw [frameIn, h]
  cases r <;> rfl

/-- A turn publishes the frame of its run. -/
theorem RunScanned.runFrame_eq {ourMac : List UInt8} {stitchCl : Option ℕ} {acc : StatsDelta}
    {stitch : StitchCounters} {t : Turn} (h : RunScanned ourMac bytes stitchCl acc stitch off len t)
    (hpos : 0 < len) (hle : off + len ≤ bytes.length) :
    t.cursor = off + len ∧ runFrame ourMac ((bytes.drop off).take len) = .ok t.publish := by
  have hpeek := peekDstMac_run hpos hle
  have hslice : slice bytes off (off + len) = .ok ((bytes.drop off).take len) := by
    rw [slice_ok (Nat.le_add_right _ _) hle, Nat.add_sub_cancel_left]
  cases h with
  | noMac hdst =>
    refine ⟨rfl, ?_⟩
    rw [runFrame, ← hpeek, hdst]
    rfl
  | filtered hdst hmac =>
    refine ⟨rfl, ?_⟩
    rw [runFrame, ← hpeek, hdst, Exec.ok_bind]
    exact if_pos hmac
  | undecoded hdst hmac hrun hdec =>
    rw [hslice] at hrun
    cases hrun
    refine ⟨rfl, ?_⟩
    simp only [runFrame, ← hpeek, hdst, Exec.ok_bind, hmac, Bool.true_eq_false, if_false, hdec,
      Exec.pure_eq]
  | decoded hdst hmac hrun hdec hflen hok _ =>
    rw [hslice] at hrun
    cases hrun
    refine ⟨rfl, ?_⟩
    simp only [runFrame, ← hpeek, hdst, Exec.ok_bind, hmac, Bool.true_eq_false, if_false, hdec,
      hflen, hok, Exec.pure_eq]

/-! ### The scan takes the blocks -/

/-- A loop over the bytes from `i` on stops where `p` ends. -/
theorem scanWhile_split (p : UInt8 → Bool) (bytes : List UInt8) (i : ℕ) :
    ∃ j, scanWhile p bytes (bytes.length - i) i = .ok j ∧ i ≤ j ∧
      (i ≤ bytes.length → j ≤ bytes.length) ∧
      (∀ x ∈ (bytes.drop i).take (j - i), p x = true) ∧ ∀ x ∈ (bytes.drop j).head?, p x = false := by
  obtain ⟨j, hj, hij, hle, hin, hstop⟩ := scanWhile_spec p (remaining bytes i)
  refine ⟨j, hj, hij, by omega, fun x hx => ?_, fun x hx => ?_⟩
  · obtain ⟨k, hk, rfl⟩ := List.mem_iff_getElem.1 hx
    rw [List.length_take, List.length_drop] at hk
    have hat := hin (i + k) (Nat.le_add_right _ _) (by omega)
    rw [List.getElem_take, List.getElem_drop]
    simpa [holdsAt, List.getElem?_eq_getElem (show i + k < bytes.length by omega)] using hat
  · rw [List.head?_drop, Option.mem_def] at hx
    have hlt := (List.getElem?_eq_some_iff.1 hx).1
    have hat := hstop (by omega)
    simpa [holdsAt, hx] using hat

/-- What a search from `i` leaves of the blocks behind `i`. -/
def NextBlock (minLen : ℕ) (bytes : List UInt8) (i : ℕ) : Option (ℕ × ℕ) → Prop
  | none => blocks isActive minLen (bytes.drop i) = []
  | some (off, len) => minLen ≤ len ∧ off + len ≤ bytes.length ∧
      blocks isActive minLen (bytes.drop i) =
        (bytes.drop off).take len :: blocks isActive minLen (bytes.drop (off + len))

theorem drop_split (bytes : List UInt8) {i j : ℕ} (h : i ≤ j) :
    bytes.drop i = (bytes.drop i).take (j - i) ++ bytes.drop j := by
  conv_lhs => rw [← List.take_append_drop (j - i) (bytes.drop i)]
  rw [List.drop_drop, Nat.add_sub_cancel' h]

theorem activeRunLoop_block {minLen fuel i : ℕ} (hmin : 0 < minLen) (hpos : 1 ≤ fuel)
    (hfuel : bytes.length + 1 ≤ fuel + i) :
    ∃ r, activeRunLoop bytes minLen fuel i = .ok r ∧ NextBlock minLen bytes i r := by
  induction fuel generalizing i with
  | zero => omega
  | succ fuel ih =>
    obtain ⟨st, hst, hist, hstle, hidle, hstart⟩ := scanWhile_split isIdle bytes i
    have hskip : blocks isActive minLen (bytes.drop i) = blocks isActive minLen (bytes.drop st) := by
      rw [drop_split bytes hist]
      exact blocks_outside hmin fun x hx => by rw [isActive, hidle x hx]; rfl
    rw [activeRunLoop, hst, Exec.ok_bind]
    by_cases hend : bytes.length ≤ st
    · rw [if_pos hend]
      refine ⟨none, rfl, ?_⟩
      rw [NextBlock, hskip, List.drop_of_length_le hend, blocks_nil hmin]
    obtain ⟨en, hen, hsten, henle, hact, hstop⟩ := scanWhile_split isActive bytes st
    have henlen := henle (by omega)
    have hrun : blocks isActive minLen (bytes.drop st) =
        (if minLen ≤ en - st then [(bytes.drop st).take (en - st)] else []) ++
          blocks isActive minLen (bytes.drop en) := by
      conv_lhs => rw [drop_split bytes hsten]
      rw [blocks_run hmin hact hstop, List.length_take, List.length_drop,
        Nat.min_eq_left (by omega)]
    rw [if_neg hend, hen, Exec.ok_bind]
    by_cases hlong : minLen ≤ en - st
    · rw [if_pos hlong]
      refine ⟨_, rfl, hlong, by omega, ?_⟩
      rw [hskip, hrun, if_pos hlong, Nat.add_sub_cancel' hsten]
      rfl
    rw [if_neg hlong, List.nil_append] at hrun
    rw [if_neg hlong]
    by_cases hlast : bytes.length ≤ en
    · rw [if_pos hlast]
      refine ⟨none, rfl, ?_⟩
      rw [NextBlock, hskip, hrun, List.drop_of_length_le hlast, blocks_nil hmin]
    · -- the byte at `st` is active, so the loop gets on
      have hne : st ≠ en := by
        rintro rfl
        obtain ⟨x, hx⟩ : ∃ x, (bytes.drop st).head? = some x := by
          rw [List.head?_drop]
          exact ⟨_, List.getElem?_eq_getElem (by omega)⟩
        have hnot := hstop x hx
        rw [isActive, hstart x hx] at hnot
        cases hnot
      obtain ⟨r, hr, hnext⟩ := ih (i := en) (by omega) (by omega)
      refine ⟨r, by rw [if_neg hlast]; exact hr, ?_⟩
      cases r with
      | none =>
        rw [NextBlock] at hnext ⊢
        rw [hskip, hrun, hnext]
      | some r =>
        obtain ⟨hlong', hle', hblocks⟩ := hnext
        exact ⟨hlong', hle', by rw [hskip, hrun, hblocks]⟩

theorem findActiveRunFrom_block (bytes : List UInt8) (cursor : ℕ) :
    ∃ r, findActiveRunFrom bytes cursor minRun = .ok r ∧ NextBlock minRun bytes cursor r :=
  activeRunLoop_block (by decide) (by omega) (by omega)

/-- A turn that finds a run is not the last. -/
theorem scanTurn_ne_none {ourMac : List UInt8} {stitchCl : Option ℕ} {cursor : ℕ} {acc : StatsDelta}
    {stitch : StitchCounters} {r : ℕ × ℕ} (hr : findActiveRunFrom bytes cursor 100 = .ok (some r)) :
    scanTurn ourMac bytes stitchCl cursor acc stitch ≠ .ok none := by
  intro h
  obtain ⟨off, len⟩ := r
  rw [scanTurn, hr, Exec.ok_bind] at h
  obtain ⟨dst, -, h⟩ := Exec.bind_eq_ok.1 h
  cases dst with
  | none => cases h
  | some dst =>
    by_cases hmac : macAccept dst ourMac = false
    · simp only [hmac, if_true] at h
      cases h
    · simp only [if_neg hmac] at h
      obtain ⟨run, -, h⟩ := Exec.bind_eq_ok.1 h
      obtain ⟨frame, -, h⟩ := Exec.bind_eq_ok.1 h
      cases frame with
      | none => cases h
      | some frame =>
        obtain ⟨flen, -, h⟩ := Exec.bind_eq_ok.1 h
        obtain ⟨ok, -, h⟩ := Exec.bind_eq_ok.1 h
        obtain ⟨acc', -, h⟩ := Exec.bind_eq_ok.1 h
        cases h

/-- **A turn of the scan** takes the next block. -/
theorem scanTurn_block {ourMac : List UInt8} {stitchCl : Option ℕ} {cursor : ℕ} {acc : StatsDelta}
    {stitch : StitchCounters} {turn : Option Turn}
    (h : scanTurn ourMac bytes stitchCl cursor acc stitch = .ok turn) :
    heard ourMac (bytes.drop cursor) =
      turn.elim [] fun t => t.publish.toList ++ heard ourMac (bytes.drop t.cursor) := by
  obtain ⟨r, hr, hnext⟩ := findActiveRunFrom_block bytes cursor
  cases turn with
  | none =>
    cases r with
    | none => rw [heard, hnext]; rfl
    | some r => exact absurd h (scanTurn_ne_none hr)
  | some t =>
    obtain ⟨off, len, hr', hscan⟩ := scanTurn_scanned h
    obtain rfl : r = some (off, len) := Except.ok.inj (hr.symm.trans hr')
    obtain ⟨hlong, hle, hblocks⟩ := hnext
    obtain ⟨hcursor, hframe⟩ := hscan.runFrame_eq (Nat.lt_of_lt_of_le (by decide) hlong) hle
    rw [heard, hblocks, List.filterMap_cons, frameIn_of_runFrame hframe, Option.elim_some, hcursor]
    cases t.publish <;> rfl

end Scan

/-! ### What the thread has published -/

/-- The frames for us in images, one after the other. -/
def heardIn (ourMac : List UInt8) (images : List (List UInt8)) : List (List UInt8) :=
  images.flatMap (heard ourMac)

/-- The bytes of the images stored, in order. -/
def imagesStored (tr : List MacEvent) : List (List UInt8) := (storedOf tr).map Image.bytes

/-- The frame that the thread waits to publish. -/
def waitingFrame : Option (Section SharedCall) → List (List UInt8)
  | some ⟨.publish frame, _⟩ => [frame]
  | _ => []

/-- The frames that the thread has not come to, with `k` images consumed. -/
def framesAhead (ourMac : List UInt8) (images : List (List UInt8)) (k : ℕ) :
    DrainPc → List (List UInt8)
  | .scan _ _ _ cursor _ =>
    heard ourMac ((images.getD k []).drop cursor) ++ heardIn ourMac (images.drop (k + 1))
  | .storeR _ => heardIn ourMac (images.drop (k + 1))
  | _ => heardIn ourMac (images.drop k)

/-- What is published, waits to be or lies ahead is what is in the images. -/
def Publishing (tr : List MacEvent) (s : Mac) : Prop :=
  publishedOf tr ++ waitingFrame (s.lock.inside .thread) ++
      framesAhead s.ourMac.data (imagesStored tr) (consumedOf tr) s.drain =
    heardIn s.ourMac.data (imagesStored tr)

section Ahead

variable {ourMac : List UInt8} {images : List (List UInt8)} {k : ℕ} {pc : DrainPc}

theorem heardIn_append (a b : List (List UInt8)) :
    heardIn ourMac (a ++ b) = heardIn ourMac a ++ heardIn ourMac b := List.flatMap_append

theorem heard_flatten (h : ∀ image ∈ images, Settled isActive image) :
    heard ourMac images.flatten = heardIn ourMac images := by
  rw [heard, blocks_flatten (by decide) h, List.filterMap_flatMap]
  rfl

/-- The image at hand and those behind it. -/
theorem heardIn_drop (h : k < images.length) :
    heardIn ourMac (images.drop k) =
      heard ourMac (images.getD k []) ++ heardIn ourMac (images.drop (k + 1)) := by
  rw [List.drop_eq_getElem_cons h, heardIn, List.flatMap_cons, List.getD_eq_getElem?_getD,
    List.getElem?_eq_getElem h]
  rfl

theorem framesAhead_of_looking (hscan : ∀ r len cl cursor acc, pc ≠ .scan r len cl cursor acc)
    (hstore : ∀ r, pc ≠ .storeR r) :
    framesAhead ourMac images k pc = heardIn ourMac (images.drop k) := by
  cases pc with
  | scan => exact absurd rfl (hscan _ _ _ _ _)
  | storeR => exact absurd rfl (hstore _)
  | _ => rfl

/-- A new image lies ahead. -/
theorem framesAhead_snoc (hle : k ≤ images.length)
    (hlt : (∃ r len cl cursor acc, pc = .scan r len cl cursor acc) ∨ (∃ r, pc = .storeR r) →
      k < images.length) (image : List UInt8) :
    framesAhead ourMac (images ++ [image]) k pc =
      framesAhead ourMac images k pc ++ heard ourMac image := by
  have hsnoc : ∀ j ≤ images.length, heardIn ourMac ((images ++ [image]).drop j) =
      heardIn ourMac (images.drop j) ++ heard ourMac image := fun j hj => by
    rw [List.drop_append_of_le_length hj, heardIn_append]
    simp [heardIn]
  cases pc with
  | scan r len cl cursor acc =>
    have hk := hlt (.inl ⟨_, _, _, _, _, rfl⟩)
    have hget : (images ++ [image]).getD k [] = images.getD k [] := by
      simp [List.getD_eq_getElem?_getD, List.getElem?_append_left hk]
    simp only [framesAhead, hget, hsnoc _ hk, List.append_assoc]
  | storeR r => exact hsnoc _ (hlt (.inr ⟨_, rfl⟩))
  | _ => exact hsnoc _ hle

end Ahead

namespace Publishing

variable {tr : List MacEvent} {s s' : Mac} {xs : List ImgSlot} {scans : List (ℕ × Image)}

/-- An action that neither stores, reads, consumes nor publishes. -/
theorem other (h : Publishing tr s) {ev : MacEvent} (hstored : ev.stored = none)
    (hconsumes : ev.consumes = 0) (hpub : ev.publishes = none) (hmac : s'.ourMac = s.ourMac)
    (hdrain : s'.drain = s.drain)
    (hwait : waitingFrame (s'.lock.inside .thread) = waitingFrame (s.lock.inside .thread)) :
    Publishing (tr ++ [ev]) s' := by
  have himages : imagesStored (tr ++ [ev]) = imagesStored tr := by
    rw [imagesStored, storedOf_snoc, hstored]
    simp [imagesStored]
  rw [Publishing] at h
  rw [Publishing, himages, consumedOf_snoc, hconsumes, publishedOf_snoc, hpub, hmac, hdrain, hwait]
  simpa using h

theorem length_imagesStored (hstored : storedOf tr = xs.map ImgSlot.image) :
    (imagesStored tr).length = xs.length := by
  rw [imagesStored, hstored, List.length_map, List.length_map]

/-- The IRQ stores at most one image. -/
theorem irq (h : Publishing tr s) (hstored : storedOf tr = xs.map ImgSlot.image)
    (hqueue : QueueInv xs (consumedOf tr) scans s) {half : Option (Bytes bufBytes)}
    {stored : Option Image} (hirq : s.processCompletedHalf half = .ok (s', stored)) :
    Publishing (tr ++ [.dmaIrq half stored]) s' := by
  obtain ⟨-, hframe, -, hlock⟩ := Mac.of_processCompletedHalf hqueue.rxFits hirq
  have hinside : s'.lock.inside .thread = s.lock.inside .thread := by
    rw [hlock]
    split_ifs
    · exact (s.lock.inside_of_ne (by decide) _).1
    · rfl
  cases stored with
  | none => exact h.other rfl rfl rfl hframe.ourMac hframe.drain (by rw [hinside])
  | some image =>
    have himages : imagesStored (tr ++ [.dmaIrq half (some image)]) =
        imagesStored tr ++ [image.bytes] := by
      rw [imagesStored, storedOf_snoc, List.map_append]
      rfl
    have hlen := length_imagesStored hstored
    have hdrain := hqueue.drain
    have hle := hqueue.le
    rw [Publishing, himages, consumedOf_snoc, publishedOf_snoc, hframe.ourMac, hframe.drain,
      hinside]
    have hsnoc : framesAhead s.ourMac.data (imagesStored tr ++ [image.bytes]) (consumedOf tr)
        s.drain = framesAhead s.ourMac.data (imagesStored tr) (consumedOf tr) s.drain ++
          heard s.ourMac.data image.bytes := by
      refine framesAhead_snoc (by omega) ?_ _
      rintro (⟨r, len, cl, cursor, acc, hpc⟩ | ⟨r, hpc⟩)
      · rw [hpc] at hdrain
        obtain ⟨-, x, hx, -⟩ := hdrain
        have := (List.getElem?_eq_some_iff.1 hx).1
        omega
      · rw [hpc] at hdrain
        have := hdrain.2.1
        omega
    simp only [MacEvent.consumes, MacEvent.publishes, Nat.add_zero, Option.toList_none,
      List.append_nil, hsnoc]
    rw [← List.append_assoc, h, heardIn_append]
    simp [heardIn]

/-- **The thread outside its critical sections** moves on in the image it drains. -/
theorem drain (h : Publishing tr s) (hstored : storedOf tr = xs.map ImgSlot.image)
    (hqueue : QueueInv xs (consumedOf tr) scans s) {ev : DrainEvent}
    (hout : s.lock.inside .thread = none)
    (hread : ∀ image, (MacEvent.drain ev).scanned = some image →
      (imagesStored tr)[consumedOf tr]? = some image.bytes)
    (hstep : s.drainStep = .ok (ev, s')) : Publishing (tr ++ [.drain ev]) s' := by
  obtain ⟨call, pc, imgR, stitch, hmove, rfl⟩ := Mac.drainStep_move hstep
  have hlen := length_imagesStored hstored
  have himages : imagesStored (tr ++ [.drain ev]) = imagesStored tr := by
    rw [imagesStored, storedOf_snoc]
    simp [imagesStored, MacEvent.stored]
  have hinside : (call.elim s.lock (s.lock.enter .thread)).inside .thread =
      call.map (⟨·, false⟩) := by
    cases call with
    | none => exact hout
    | some f => exact Lock.inside_enter ..
  rw [Publishing, hout] at h
  rw [Publishing, himages, publishedOf_snoc, consumedOf_snoc]
  simp only [hinside, MacEvent.publishes, Option.toList_none, List.append_nil]
  rw [← h]
  have hdrain := hqueue.drain
  cases hmove with
  | looks hscan hstore hscan' hstore' =>
    rw [framesAhead_of_looking hscan hstore, framesAhead_of_looking hscan' hstore']
    rfl
  | begins hpc =>
    rw [hpc] at hdrain
    obtain ⟨-, x, hx, -⟩ := hdrain
    have hlt := (List.getElem?_eq_some_iff.1 hx).1
    rw [hpc]
    change _ ++ (heard _ _ ++ _) = _ ++ heardIn _ _
    rw [List.drop_zero]
    exact congrArg _ (heardIn_drop (k := consumedOf tr) (by omega)).symm
  | @ends r len cl cursor acc bytes hpc hturn =>
    have hblock := scanTurn_block hturn
    have hbytes : (imagesStored tr).getD (consumedOf tr) [] = bytes := by
      rw [List.getD_eq_getElem?_getD, hread _ rfl]
      rfl
    rw [hpc]
    change _ ++ [] ++ _ = _ ++ [] ++ (heard _ _ ++ _)
    rw [hbytes, hblock]
    rfl
  | @turns r len cl cursor acc bytes t hpc hturn =>
    have hblock := scanTurn_block hturn
    have hbytes : (imagesStored tr).getD (consumedOf tr) [] = bytes := by
      rw [List.getD_eq_getElem?_getD, hread _ rfl]
      rfl
    have hwait : waitingFrame ((t.publish.map SharedCall.publish).map (⟨·, false⟩)) =
        t.publish.toList := by
      cases t.publish <;> rfl
    rw [hpc, hwait]
    change _ ++ _ ++ (heard _ (((imagesStored tr).getD (consumedOf tr) []).drop _) ++
      heardIn _ ((imagesStored tr).drop (consumedOf tr + 1))) = _ ++ [] ++ (heard _ _ ++ _)
    rw [hbytes, hblock, Option.elim_some]
    simp only [List.append_assoc, List.append_nil]
  | consumes hpc =>
    rw [hpc]
    rfl

/-- A critical section: the frame that waits is published. -/
theorem critical (h : Publishing tr s) (hhand : HandInv tr s) {c : Ctx} {f : SharedCall}
    {shared : RxShared} {ev : SharedEvent} (hin : s.lock.inside c = some ⟨f, true⟩)
    (hrun : f.run s.shared = .ok (shared, ev)) :
    Publishing (tr ++ [.shared ev]) { s with shared, lock := s.lock.release c } := by
  have hcalls := hhand.calls c f true hin
  have hquiet : ∀ c ≠ Ctx.thread, waitingFrame ((s.lock.release c).inside .thread) =
      waitingFrame (s.lock.inside .thread) := fun c hne => by
    rw [(s.lock.inside_of_ne hne.symm f).2.2]
  cases c with
  | core0 =>
    cases f with
    | receive | snapshot =>
      cases hrun
      exact h.other rfl rfl rfl rfl rfl (hquiet _ (by decide))
    | publish | merge | addCapped => exact hcalls.elim
  | irq =>
    cases f with
    | addCapped capped =>
      cases hrun
      exact h.other rfl rfl rfl rfl rfl (hquiet _ (by decide))
    | receive | snapshot | publish | merge => exact hcalls.elim
  | thread =>
    cases f with
    | merge acc =>
      obtain ⟨shared', -, hrun⟩ := Exec.bind_eq_ok.1 hrun
      cases hrun
      refine h.other rfl rfl rfl rfl rfl ?_
      rw [Lock.inside_release, hin]
      rfl
    | publish frame =>
      cases hrun
      have himages : imagesStored (tr ++ [.shared (.published frame)]) = imagesStored tr := by
        rw [imagesStored, storedOf_snoc]
        simp [imagesStored, MacEvent.stored]
      rw [Publishing, hin] at h
      rw [Publishing, himages, publishedOf_snoc, consumedOf_snoc, Lock.inside_release, ← h]
      simp [MacEvent.publishes, waitingFrame, MacEvent.consumes]
    | receive | snapshot | addCapped => exact hcalls.elim

end Publishing

/-- **Runs** keep it. -/
theorem publishing {tr : List MacEvent} {s : Mac} (h : (macSystem.restrict NoLateWrap).Run tr s) :
    Publishing tr s := by
  refine h.induction (J := Publishing) ?_ fun tr s ev s' hrun ih ⟨hwrap, hst⟩ => ?_
  · rintro _ ⟨ourMac, rfl⟩
    rfl
  obtain ⟨xs, hstored, hqueue⟩ := ring_inv hrun
  have hhand := handInv hrun.of_restrict
  cases hst with
  | dmaIrq _ hirq => exact ih.irq hstored hqueue hirq
  | @drain ev s' hruns hout hstep =>
    refine ih.drain hstored hqueue hout (fun image himage => ?_) hstep
    -- the image at hand is what the turn reads
    obtain ⟨xs', hxs', hqueue'⟩ := hqueue.step hwrap (.drain hruns hout hstep)
    have hread := hqueue'.reads (consumedOf tr, image) (by simp [himage])
    rw [hxs', ← hstored] at hread
    have hnone : (MacEvent.drain ev).stored = none := rfl
    rw [hnone, Option.toList_none, List.append_nil] at hread
    rw [imagesStored, List.getElem?_map, hread]
    rfl
  | core0 =>
    exact ih.other rfl rfl rfl rfl rfl (by rw [(s.lock.inside_of_ne (by decide) _).1])
  | @claim c f _ hin =>
    refine ih.other rfl rfl rfl rfl rfl ?_
    rcases eq_or_ne Ctx.thread c with rfl | hne
    · rw [Lock.inside_claim, hin]
      cases f <;> rfl
    · rw [(s.lock.inside_of_ne hne f).2.1]
  | critical _ hin hrun' => exact ih.critical hhand hin hrun'

/-! ### The stream -/

/-- The bytes that an action captures. -/
def MacEvent.captured : MacEvent → List UInt8
  | .dmaIrq (some half) _ => half.data
  | _ => []

/-- The captured stream of a run. -/
def capturedOf (tr : List MacEvent) : List UInt8 := tr.flatMap MacEvent.captured

/-- A half is serviced and no image stored: the ring was full. -/
def MacEvent.Drops (ev : MacEvent) : Prop := ∃ half, ev = .dmaIrq (some half) none

/-- No carry is dropped: a half that is active throughout comes with an empty carry. -/
def KeepsCarry (s : Mac) (ev : MacEvent) : Prop :=
  ∀ half stored, ev = .dmaIrq half stored → s.rx.dropsCarry half = false

/-- The stream is cut into images, of which some are stored; the rest is carried. -/
structure CutAt (tr : List MacEvent) (s : Mac) (cut : List (Bool × List UInt8)) : Prop where
  stream : streamOf cut ++ s.rx.carried = capturedOf tr
  settled : ∀ image ∈ cut, Settled isActive image.2
  active : ∀ b ∈ s.rx.carried, isActive b = true
  stored : (cut.filter Prod.fst).map Prod.snd = imagesStored tr
  whole : (∀ ev ∈ tr, ¬ev.Drops) → ∀ image ∈ cut, image.1 = true

theorem active_of_holdsAt {l : List UInt8} (h : ∀ i < l.length, holdsAt isActive l i = true) :
    ∀ b ∈ l, isActive b = true := by
  intro b hb
  obtain ⟨i, hi, rfl⟩ := List.mem_iff_getElem.1 hb
  have hat := h i hi
  rwa [holdsAt_eq_byteAt hi, byteAt_eq_getElem hi] at hat

theorem Mac.carried_mergeCapped (s : Mac) : s.mergeCapped.rx.carried = s.rx.carried := by
  simp only [mergeCapped]
  split_ifs <;> rfl

/-- No half is ready: the carry stays. -/
theorem Mac.irq_idle {s s' : Mac} {stored : Option Image}
    (hirq : s.processCompletedHalf none = .ok (s', stored)) :
    s'.rx.carried = s.rx.carried ∧ stored = none := by
  rw [processCompletedHalf] at hirq
  split_ifs at hirq
  · cases hirq
    exact ⟨rfl, rfl⟩
  · cases hirq
    exact ⟨(carried_mergeCapped _).trans rfl, rfl⟩

/-- A half that drops no carry is cut into an image and the new carry, stored or not. -/
theorem Mac.irq_carried {s s' : Mac} (hfit : s.rx.Fits) {half : Bytes bufBytes}
    {stored : Option Image} (hdrop : s.rx.dropsCarry (some half) = false)
    (hirq : s.processCompletedHalf (some half) = .ok (s', stored)) :
    ∃ image, Carried s.rx half image s'.rx ∧ ∀ im, stored = some im → im.bytes = image := by
  have hstores : s.rx.storesImage (some half) = true := by rw [EthRx.storesImage, hdrop]; rfl
  cases hfull : s.ringFull with
  | false =>
    obtain ⟨-, -, heff, -⟩ := Mac.of_processCompletedHalf hfit hirq
    cases heff with
    | none hnot => exact absurd ⟨hfull, hstores⟩ hnot
    | stored _ _ _ _ _ hcarried =>
      exact ⟨_, hcarried half rfl, fun im him => by cases him; rfl⟩
  | true =>
    obtain ⟨rx', slot', out, hpoll, -, -, hcases⟩ :=
      EthRx.pollInto_cases hfit (some half) s.discard
    rcases hcases with ⟨-, -, hnot⟩ | ⟨len, -, -, -, hcarried⟩
    · rw [hstores] at hnot
      cases hnot
    · simp only [Mac.processCompletedHalf, hfull, if_true, hpoll, Exec.ok_bind, Exec.pure_eq] at hirq
      cases hirq
      exact ⟨_, hcarried half rfl, fun im him => by cases him⟩

namespace CutAt

variable {tr : List MacEvent} {s s' : Mac} {cut : List (Bool × List UInt8)}

/-- An action that captures nothing. -/
theorem other (h : CutAt tr s cut) {ev : MacEvent} (hcaptured : ev.captured = [])
    (hstored : ev.stored = none) (hrx : s'.rx.carried = s.rx.carried) :
    CutAt (tr ++ [ev]) s' cut := by
  refine ⟨?_, h.settled, hrx ▸ h.active, ?_, fun hkept => h.whole fun ev hev =>
    hkept ev (List.mem_append_left _ hev)⟩
  · rw [hrx, h.stream, capturedOf, capturedOf, List.flatMap_append]
    simp [hcaptured]
  · rw [h.stored, imagesStored, imagesStored, storedOf_snoc, hstored]
    simp

/-- A half is captured. -/
theorem irq (h : CutAt tr s cut) {half : Bytes bufBytes} {stored : Option Image}
    {image : List UInt8} (hcarried : Carried s.rx half image s'.rx)
    (himage : ∀ im, stored = some im → im.bytes = image) :
    CutAt (tr ++ [.dmaIrq (some half) stored]) s' (cut ++ [(stored.isSome, image)]) := by
  refine ⟨?_, fun im him => ?_, active_of_holdsAt hcarried.active, ?_, fun hkept im him => ?_⟩
  · have hstream : streamOf (cut ++ [(stored.isSome, image)]) = streamOf cut ++ image := by
      simp [streamOf]
    rw [hstream, List.append_assoc, hcarried.append, ← List.append_assoc, h.stream, capturedOf,
      capturedOf, List.flatMap_append]
    simp [MacEvent.captured]
  · rcases List.mem_append.1 him with him | him
    · exact h.settled im him
    · rw [List.mem_singleton.1 him]
      exact hcarried.settled
  · rw [List.filter_append, List.map_append, h.stored, imagesStored, imagesStored, storedOf_snoc,
      List.map_append]
    cases stored with
    | none => rfl
    | some im => simp [MacEvent.stored, himage im rfl]
  · rcases List.mem_append.1 him with him | him
    · exact h.whole (fun ev hev => hkept ev (List.mem_append_left _ hev)) im him
    · rw [List.mem_singleton.1 him]
      cases stored with
      | none => exact absurd ⟨half, rfl⟩ (hkept _ (by simp))
      | some => rfl

end CutAt

/-- **Runs** cut the stream. -/
theorem exists_cut {tr : List MacEvent} {s : Mac} (h : (macSystem.restrict KeepsCarry).Run tr s) :
    s.rx.Fits ∧ ∃ cut, CutAt tr s cut := by
  refine h.induction (J := fun tr s => s.rx.Fits ∧ ∃ cut, CutAt tr s cut) ?_ ?_
  · rintro _ ⟨ourMac, rfl⟩
    exact ⟨Nat.zero_le _, [], ⟨rfl, by simp, by simp [Mac.boot, EthRx.new, EthRx.carried], rfl,
      by simp⟩⟩
  rintro tr s ev s' - ⟨hfit, cut, hcut⟩ ⟨hkeeps, hst⟩
  refine ⟨mac_fits_step hfit hst, ?_⟩
  cases hst with
  | @dmaIrq half _ stored _ hirq =>
    cases half with
    | none =>
      obtain ⟨hsame, rfl⟩ := Mac.irq_idle hirq
      exact ⟨cut, hcut.other rfl rfl hsame⟩
    | some half =>
      obtain ⟨image, hcarried, himage⟩ := Mac.irq_carried hfit (hkeeps _ _ rfl) hirq
      exact ⟨_, hcut.irq hcarried himage⟩
  | drain _ _ hdrain =>
    exact ⟨cut, hcut.other rfl rfl (by rw [(Mac.drainStep_frame hdrain).rx])⟩
  | core0 => exact ⟨cut, hcut.other rfl rfl rfl⟩
  | claim => exact ⟨cut, hcut.other rfl rfl rfl⟩
  | critical => exact ⟨cut, hcut.other rfl rfl rfl⟩

/-! ### Frames on the line -/

namespace LineFrame

/-- It is the only run that is long enough, and the line is idle at the end. -/
def Apart (f : LineFrame) : Prop :=
  Settled isActive f.captured ∧ (blocks isActive minRun f.captured).length ≤ 1

theorem heard_captured (ourMac : List UInt8) {f : LineFrame} (h : f.Apart) :
    heard ourMac f.captured = if f.isFor ourMac then [wireFrame f.body] else [] := by
  obtain ⟨off, len, run, hrec⟩ := f.received
  obtain ⟨r, hr, hnext⟩ := findActiveRunFrom_block f.captured 0
  obtain rfl : r = some (off, len) := Except.ok.inj (hr.symm.trans hrec.found)
  obtain ⟨hlong, hle, hblocks⟩ := hnext
  have hone := h.2
  rw [List.drop_zero] at hblocks
  rw [hblocks, List.length_cons, Nat.succ_le_succ_iff, Nat.le_zero, List.length_eq_zero_iff] at hone
  have hrun : (f.captured.drop off).take len = run := by
    have hslice := hrec.slice
    rw [slice_ok (Nat.le_add_right _ _) hle, Nat.add_sub_cancel_left] at hslice
    exact Except.ok.inj hslice
  have hpeek := peekDstMac_run (Nat.lt_of_lt_of_le (by decide) hlong) hle
  rw [hrun, hrec.dstMac] at hpeek
  have hframe : frameIn ourMac run = if f.isFor ourMac then some (wireFrame f.body) else none := by
    refine frameIn_of_runFrame ?_
    rw [runFrame, ← hpeek, Exec.ok_bind]
    cases hmac : f.isFor ourMac with
    | false => exact if_pos hmac
    | true =>
      rw [isFor] at hmac
      have hwhole : (wireFrame f.body).take (min (max f.body.length 60 + 4)
          (wireFrame f.body).length) = wireFrame f.body := by
        rw [length_wireFrame, min_self, ← length_wireFrame, List.take_length]
      simp only [hmac, Bool.true_eq_false, if_false, hrec.decoded, hrec.frameLen, hrec.fcs,
        Exec.ok_bind, Exec.pure_eq, if_true]
      exact congrArg (fun frame => Except.ok (some frame)) hwhole
  rw [heard, hblocks, hone, hrun, List.filterMap_cons, hframe]
  split_ifs <;> rfl

theorem heard_flatMap (ourMac : List UInt8) {fs : List LineFrame} (h : ∀ f ∈ fs, f.Apart) :
    heard ourMac (fs.flatMap captured) =
      (fs.filter (isFor ourMac)).map fun f => wireFrame f.body := by
  have hsettled : ∀ image ∈ fs.map captured, Settled isActive image := by
    intro image himage
    obtain ⟨f, hf, rfl⟩ := List.mem_map.1 himage
    exact (h f hf).1
  rw [List.flatMap, heard_flatten hsettled, heardIn, List.flatMap_map]
  clear hsettled
  induction fs with
  | nil => rfl
  | cons f fs ih =>
    rw [List.flatMap_cons, heard_captured ourMac (h f List.mem_cons_self),
      ih fun g hg => h g (List.mem_cons_of_mem _ hg), List.filter_cons]
    split_ifs <;> rfl

/-- **Before an idle line** a frame is apart. -/
theorem apart_of_idle {f : LineFrame} {m : ℕ} (hrest : f.rest = List.replicate m true) :
    f.Apart := by
  refine ⟨settled_captured hrest, ?_⟩
  obtain ⟨off, len, run, hrec⟩ := f.received
  -- the first block is the frame
  obtain ⟨r, hr, hfirst⟩ := findActiveRunFrom_block f.captured 0
  obtain rfl : r = some (off, len) := Except.ok.inj (hr.symm.trans hrec.found)
  obtain ⟨-, -, hblocks⟩ := hfirst
  -- and there is no second
  obtain ⟨r, hr, hnext⟩ := findActiveRunFrom_block f.captured (off + len)
  obtain rfl : r = none := Except.ok.inj (hr.symm.trans (searches hrest hrec))
  rw [NextBlock] at hnext
  rw [List.drop_zero, hnext] at hblocks
  rw [hblocks, List.length_singleton]

end LineFrame

/-! ### The pipeline -/

/-- The images that are stored hold what is heard, if none is dropped. -/
theorem CutAt.heard_eq {tr : List MacEvent} {s : Mac} {cut : List (Bool × List UInt8)}
    (h : CutAt tr s cut) (ourMac : List UInt8) :
    heard ourMac (ended isActive (capturedOf tr)) = heardIn ourMac (cut.map Prod.snd) := by
  have hsettled : ∀ image ∈ cut.map Prod.snd, Settled isActive image := by
    intro image himage
    obtain ⟨x, hx, rfl⟩ := List.mem_map.1 himage
    exact h.settled x hx
  rw [← h.stream, streamOf, ended_append (settled_flatten hsettled) h.active,
    heard_flatten hsettled]

/-- Nothing waits and nothing lies ahead once the ring is empty. -/
theorem publishedOf_eq {tr : List MacEvent} {s : Mac}
    (h : (macSystem.restrict NoLateWrap).Run tr s) (hempty : s.imgR = s.imgW) :
    publishedOf tr = heardIn s.ourMac.data (imagesStored tr) := by
  obtain ⟨xs, hstored, hqueue⟩ := ring_inv h
  obtain ⟨n, hthread, -⟩ := (handInv h.of_restrict).shared
  have hpub := publishing h
  have hroom := hqueue.room
  have hle := hqueue.le
  have hpending : xs.length - consumedOf tr = 0 := by
    rw [← toNat_ofNat_sub hle (by unfold imgSlots at hroom; omega), ← hqueue.imgW, ← hqueue.imgR,
      hempty, UInt32.sub_self]
    rfl
  have hlen := Publishing.length_imagesStored hstored
  have hdrain := hqueue.drain
  have hscan : ∀ r len cl cursor acc, s.drain ≠ .scan r len cl cursor acc := by
    intro r len cl cursor acc hpc
    rw [hpc] at hdrain
    obtain ⟨-, x, hx, -⟩ := hdrain
    have hlt := (List.getElem?_eq_some_iff.1 hx).1
    omega
  have hstore : ∀ r, s.drain ≠ .storeR r := by
    intro r hpc
    rw [hpc] at hdrain
    have hlt := hdrain.2.1
    omega
  have hwait : waitingFrame (s.lock.inside .thread) = [] := by
    generalize s.drain = pc at hthread hscan hstore
    generalize s.lock.inside .thread = call at hthread
    cases hthread with
    | scanning => exact (hscan _ _ _ _ _ rfl).elim
    | publishing => exact (hscan _ _ _ _ _ rfl).elim
    | merging => exact (hstore _ rfl).elim
    | between => rfl
  rw [Publishing, hwait, framesAhead_of_looking hscan hstore, List.drop_of_length_le (by omega)]
    at hpub
  simpa [heardIn] using hpub

/-- **From the line to core 0.**  Take a run in which no image is stored late after a wrap and no
carry is dropped.  What is published is in the order of the frames for us in the captured stream up
to its last idle byte, each at most once and unchanged, and what core 0 has popped or finds in the
inbox is in that order too.  If no image is dropped, what is published is the first of these frames,
and all of them as soon as the ring is empty; and if the inbox drops none either, core 0 gets all of
them.  Where the stream is that of frames of ours on the line, they are the wire frames of those
addressed to us. -/
theorem receive_pipeline {tr : List MacEvent} {s : Mac}
    (h : (macSystem.restrict fun s ev => NoLateWrap s ev ∧ KeepsCarry s ev).Run tr s) :
    (publishedOf tr).Sublist (heard s.ourMac.data (ended isActive (capturedOf tr))) ∧
      (poppedOf tr ++ s.shared.inbox).Sublist (publishedOf tr) ∧
      ((∀ ev ∈ tr, ¬ev.Drops) →
        publishedOf tr <+: heard s.ourMac.data (ended isActive (capturedOf tr)) ∧
          (s.imgR = s.imgW →
            publishedOf tr = heard s.ourMac.data (ended isActive (capturedOf tr)) ∧
              ((handoverOf tr).dropped = [] → poppedOf tr ++ s.shared.inbox =
                heard s.ourMac.data (ended isActive (capturedOf tr))))) ∧
      ∀ fs : List LineFrame, (∀ f ∈ fs, f.Apart) →
        ended isActive (capturedOf tr) = fs.flatMap LineFrame.captured →
          heard s.ourMac.data (ended isActive (capturedOf tr)) =
            (fs.filter (LineFrame.isFor s.ourMac.data)).map fun f => wireFrame f.body := by
  have hrun : (macSystem.restrict NoLateWrap).Run tr s := h.mono fun _ _ hC => hC.1
  obtain ⟨-, cut, hcut⟩ := exists_cut (h.mono fun _ _ hC => hC.2)
  obtain ⟨n, -, hshared⟩ := (handInv hrun.of_restrict).shared
  have hheard := hcut.heard_eq s.ourMac.data
  have hkept : poppedOf tr ++ s.shared.inbox =
      (Ledger.kept (publishedOf tr) (handoverOf tr).dropped).map Prod.fst := by
    rw [hshared.popped, hshared.inbox, ← List.map_append, valid_handoverOf.kept, put_handoverOf]
  have hpub : publishedOf tr <+: heardIn s.ourMac.data (imagesStored tr) := by
    rw [← publishing hrun, List.append_assoc]
    exact List.prefix_append ..
  refine ⟨?_, ?_, fun hkeeps => ?_, fun fs hfs hstream => ?_⟩
  · -- the images that are stored are some of those of the stream
    have hsome : (imagesStored tr).Sublist (cut.map Prod.snd) := by
      rw [← hcut.stored]
      exact List.filter_sublist.map _
    rw [hheard]
    exact hpub.sublist.trans (hsome.flatMap _)
  · rw [hkept]
    exact Ledger.kept_sublist ..
  · have hall : cut.filter Prod.fst = cut := List.filter_eq_self.2 (hcut.whole hkeeps)
    rw [hheard, ← hall, hcut.stored]
    refine ⟨hpub, fun hempty => ?_⟩
    have heq := publishedOf_eq hrun hempty
    exact ⟨heq, fun hnone => by rw [hkept, hnone, Ledger.kept_nil, heq]⟩
  · rw [hstream, LineFrame.heard_flatMap _ hfs]

/-- What is captured is the frame, and the last run of it has ended. -/
theorem ended_capturedOf_deliver {f : LineFrame} (hf : f.FillsHalf) (image : Image)
    (frame : List UInt8) (ev : SharedEvent) :
    ended isActive (capturedOf (Mac.deliverEvents hf.half image frame ++
      [.silent, .silent, .shared ev])) = f.captured := by
  obtain ⟨m, hrest⟩ := hf.idle
  have hcaptured : capturedOf (Mac.deliverEvents hf.half image frame ++
      [.silent, .silent, .shared ev]) = f.captured ++ [] := by
    simp only [capturedOf, Mac.deliverEvents, List.cons_append, List.nil_append,
      List.flatMap_cons, MacEvent.captured, List.flatMap_nil, hf.data_half]
  rw [hcaptured]
  exact ended_append (LineFrame.settled_captured hrest) (by simp)

/-- The half with an ARP packet is captured, stored, scanned and consumed, and core 0 pops the
packet. -/
theorem receive_pipeline_arp :
    ∃ tr s, (macSystem.restrict fun s ev => NoLateWrap s ev ∧ KeepsCarry s ev).Run tr s ∧
      s.imgR = s.imgW ∧
      heard s.ourMac.data (ended isActive (capturedOf tr)) = [wireFrame arpBody] ∧
      publishedOf tr = [wireFrame arpBody] ∧ poppedOf tr = [wireFrame arpBody] := by
  have hC : Mac.AllowsDrain fun s ev => NoLateWrap s ev ∧ KeepsCarry s ev := fun _ _ hne =>
    ⟨fun _ _ hev => absurd hev (hne _ _), fun _ _ hev => absurd hev (hne _ _)⟩
  have hquiet := Mac.quiet_boot (.zero 6)
  have hfills := LineFrame.fillsHalf_arp
  obtain ⟨m, hrest⟩ := hfills.idle
  have hgroup := LineFrame.isFor_arp (Bytes.zero 6).data
  -- the frame is delivered and popped
  obtain ⟨image, s, -, hpath, hdel⟩ := Mac.path_delivers hC hquiet hfills hgroup fun _ =>
    ⟨hquiet.noLateWrap le_rfl (by omega) _, fun _ _ hev => by cases hev; rfl⟩
  have hpop := Mac.path_core0 hC (.inl rfl) hdel.quiet.lock
    (show SharedCall.receive.run s.shared = .ok (_, _) from rfl)
  have hboot : (macSystem.restrict fun s ev => NoLateWrap s ev ∧ KeepsCarry s ev).Run []
      (.boot (.zero 6)) := .init ⟨_, rfl⟩
  have hrun := (hboot.append hpath).append hpop
  rw [List.nil_append] at hrun
  have hcaptured := ended_capturedOf_deliver hfills image (wireFrame LineFrame.arp.body)
    (.popped s.shared.inbox.head?)
  generalize htr : Mac.deliverEvents hfills.half image (wireFrame LineFrame.arp.body) ++
    [.silent, .silent, .shared (.popped s.shared.inbox.head?)] = tr at *
  obtain ⟨-, -, hkept, hline⟩ := receive_pipeline hrun
  have hmac : s.ourMac = .zero 6 := hdel.ourMac
  simp only [hmac] at hkept hline
  have hheard :
      heard (Bytes.zero 6).data (ended isActive (capturedOf tr)) = [wireFrame arpBody] := by
    rw [hline [LineFrame.arp] (by simp [LineFrame.apart_of_idle hrest])
      (hcaptured.trans (List.flatMap_singleton ..).symm), List.filter_singleton, hgroup]
    rfl
  -- no image and no frame is dropped
  have hempty : s.imgR = s.imgW := hdel.quiet.imgR.trans hdel.quiet.imgW.symm
  have hops : handoverOf tr = .run inboxSlots [.put (wireFrame LineFrame.arp.body), .take] := by
    rw [← htr]
    rfl
  obtain ⟨-, hall⟩ := hkept (by simp [← htr, Mac.deliverEvents, MacEvent.Drops])
  obtain ⟨hpub, hgets⟩ := hall hempty
  have hinbox := hgets (by rw [hops]; rfl)
  have hpopped : poppedOf tr = s.shared.inbox.head?.toList := by
    rw [← htr]
    cases s.shared.inbox <;> rfl
  rw [hheard] at hpub hinbox
  rw [hpopped] at hinbox
  refine ⟨tr, _, hrun, hempty, by rw [hmac]; exact hheard, hpub, ?_⟩
  rw [hpopped]
  cases hqueue : s.shared.inbox with
  | nil => exact absurd hinbox (by rw [hqueue]; simp)
  | cons frame frames =>
    rw [hqueue] at hinbox
    rw [List.head?_cons, Option.toList_some, (List.cons.inj hinbox).1]

end Pico10BaseT
