import Pico10BaseT.Rx.MacRuns
import Pico10BaseT.Rx.RoundTrip

/-!
# Frames on an idle line

A `LineFrame` is a frame of ours on the line.  Before an idle line it is the one run of what is
captured of it (`LineFrame.searches`), and a turn of the scan publishes it, if it is for us
(`LineFrame.scanTurn_captured`).

* `Mac.path_delivers` : from an empty ring, a half with such a frame is stored, scanned and
  consumed, and the frame published.
-/

namespace Pico10BaseT

/-- A frame of ours on the line, behind an idle line and before whatever follows. -/
structure LineFrame where
  before : ℕ
  idle : Bool
  body : List UInt8
  rest : List Bool
  fits : max body.length 60 + 4 ≤ 1600
  header : HeaderAgrees body

namespace LineFrame

/-- The bytes captured of it. -/
def captured (f : LineFrame) : List UInt8 := capturedImage f.before f.idle f.body f.rest

/-- It is addressed to `ourMac`, or to a group. -/
def isFor (ourMac : List UInt8) (f : LineFrame) : Bool :=
  macAccept ((paddedBody f.body).take 6) ourMac

theorem received (f : LineFrame) :
    ∃ off len run, FrameReceived f.captured f.before f.body off len run :=
  received_capturedImage f.before f.idle f.body f.rest f.fits f.header

section Idle

variable {f : LineFrame} {m : ℕ}

theorem length_captured (hrest : f.rest = List.replicate m true) : f.captured.length =
    (f.before + 402 + 6 * (bitsOf (wireFrame f.body)).length + (606 + m)) / 8 := by
  rw [captured, capturedImage, length_packBytes, hrest, lineSamples_sendRawFrame, bitsOf_append]
  simp only [List.length_append, List.length_replicate, length_manchester_wireFrame]
  omega

/-- The line is high behind the low samples that end the frame. -/
theorem level_captured (hrest : f.rest = List.replicate m true) {i : ℕ}
    (hlo : f.before + 402 + 6 * (bitsOf (wireFrame f.body)).length ≤ i)
    (hhi : i < 8 * f.captured.length) : level f.captured i = true := by
  have hlen := length_manchester_wireFrame f.body
  have hsplit : List.replicate f.before f.idle ++ lineSamples (sendRawFrame f.body) ++ f.rest =
      (List.replicate f.before f.idle ++ (manchester (bitsOf preambleBytes ++
        bitsOf (wireFrame f.body)) ++ List.replicate 18 false)) ++
        List.replicate (606 + m) true := by
    rw [lineSamples_sendRawFrame, bitsOf_append, hrest, List.replicate_add]
    simp only [List.append_assoc]
  have hfront : (List.replicate f.before f.idle ++ (manchester (bitsOf preambleBytes ++
      bitsOf (wireFrame f.body)) ++ List.replicate 18 false)).length =
        f.before + 402 + 6 * (bitsOf (wireFrame f.body)).length := by
    simp only [List.length_append, List.length_replicate, hlen]
    omega
  have hin : i < 8 * ((f.before + 402 + 6 * (bitsOf (wireFrame f.body)).length + (606 + m)) / 8) :=
    length_captured hrest ▸ hhi
  rw [captured, capturedImage, hsplit, level_packBytes (by
      rw [List.length_append, hfront, List.length_replicate]
      exact hin),
    List.getElem?_append_right (by rw [hfront]; exact hlo), hfront,
    List.getElem?_replicate_of_lt (by omega)]
  rfl

/-- Behind the run of the frame one byte at most, which holds the edge from low to high, is active,
and it is not the last. -/
theorem idle_behind (hrest : f.rest = List.replicate m true) :
    ∃ j, j + 1 < f.captured.length ∧
      ∀ k, Sent.runStop f.before (bitsOf (wireFrame f.body)) ≤ k → k ≠ j →
        holdsAt isActive f.captured k = false := by
  have H : Sent (level f.captured) f.before f.idle (bitsOf (wireFrame f.body)) :=
    sent_capturedImage ..
  have hbits := length_bitsOf_wireFrame f.body
  have hlen := length_captured hrest
  refine ⟨(f.before + 402 + 6 * (bitsOf (wireFrame f.body)).length) / 8, by omega,
    fun k hstop hne => ?_⟩
  rcases Nat.lt_or_gt_of_ne hne with hlow | hhigh
  · refine Sent.holdsAt_of_level fun i h1 h2 => H.level_from_frameStop (by omega) ?_ (by omega)
    unfold Sent.runStop at hstop
    omega
  rcases Nat.lt_or_ge k f.captured.length with hlt | hge
  · exact Sent.holdsAt_of_level fun i h1 h2 => level_captured hrest (by omega) (by omega)
  · exact holdsAt_of_length_le hge

/-- The line is idle at the end. -/
theorem settled_captured (hrest : f.rest = List.replicate m true) :
    Settled isActive f.captured := by
  have hbits := length_bitsOf_wireFrame f.body
  have hbounds := Sent.run_bounds f.before f.idle (bitsOf (wireFrame f.body))
  have hlen := length_captured hrest
  obtain ⟨j, hj, hidle⟩ := idle_behind hrest
  exact fun i hi => hidle i (by omega) (by omega)

/-- **Before an idle line** the run of a frame is the last that is long enough. -/
theorem searches (hrest : f.rest = List.replicate m true) {off len : ℕ} {run : List UInt8}
    (h : FrameReceived f.captured f.before f.body off len run) :
    findActiveRunFrom f.captured (off + len) 100 = .ok none := by
  have H : Sent (level f.captured) f.before f.idle (bitsOf (wireFrame f.body)) :=
    sent_capturedImage ..
  have hbits := length_bitsOf_wireFrame f.body
  have hbounds := Sent.run_bounds f.before f.idle (bitsOf (wireFrame f.body))
  have hfound := Except.ok.inj (h.found.symm.trans (H.findActiveRunFrom_eq (by omega)))
  obtain ⟨rfl, rfl⟩ := Prod.mk.inj (Option.some.inj hfound)
  obtain ⟨j, hj, hidle⟩ := idle_behind hrest
  obtain ⟨r, hr, hfirst⟩ := findActiveRunFrom_spec 100 (.inr (.inr h.isRun.right))
  cases r with
  | none => exact hr
  | some r =>
    -- of two bytes behind the first run, one is idle
    obtain ⟨hrun, hge, hmin, -⟩ := hfirst
    have h₀ := hrun.all r.1 le_rfl (Nat.lt_add_of_pos_right hrun.pos)
    have h₁ := hrun.all (r.1 + 1) (by omega) (by omega)
    rcases eq_or_ne r.1 j with heq | hne
    · rw [hidle _ (by omega) (by omega)] at h₁
      cases h₁
    · rw [hidle _ (by omega) hne] at h₀
      cases h₀

end Idle

/-- **The turn that finds the frame** publishes and records it. -/
theorem scanTurn_captured {f : LineFrame} {ourMac : List UInt8} (hfor : f.isFor ourMac = true)
    {off len : ℕ} {run : List UInt8} (h : FrameReceived f.captured f.before f.body off len run)
    (stitchCl : Option ℕ) (acc : StatsDelta) (stitch : StitchCounters) :
    ∃ t, scanTurn ourMac f.captured stitchCl 0 acc stitch = .ok (some t) ∧ t.cursor = off + len ∧
      t.publish = some (wireFrame f.body) ∧
      acc.record (wireFrame f.body) (wireFrame f.body).length true = .ok t.acc := by
  obtain ⟨acc', hacc⟩ :
      ∃ acc', acc.record (wireFrame f.body) (wireFrame f.body).length true = .ok acc' :=
    acc.record_ok true le_rfl
  have hdecoded : decodeFrameEdgeTrack run = .ok (some (wireFrame f.body)) := h.decoded
  have hlen : deriveFrameLen (wireFrame f.body) = .ok (wireFrame f.body).length :=
    deriveFrameLen_wireFrame f.header
  rw [isFor] at hfor
  refine ⟨⟨off + len, acc', stitch.count stitchCl true, some (wireFrame f.body)⟩, ?_, rfl, rfl,
    hacc⟩
  simp only [scanTurn, h.found, h.dstMac, hfor, h.slice, hdecoded, hlen, verifyFcs_wireFrame,
    Nat.min_self, hacc, Exec.ok_bind, Bool.true_eq_false, if_false, if_true, List.take_length,
    Exec.pure_eq]

/-- What is captured of the frame and of the idle line behind it is a half. -/
structure FillsHalf (f : LineFrame) : Prop where
  idle : ∃ m, f.rest = List.replicate m true
  size : f.captured.length = bufBytes

/-- The half. -/
def FillsHalf.half {f : LineFrame} (h : f.FillsHalf) : Bytes bufBytes := ⟨f.captured, h.size⟩

theorem FillsHalf.data_half {f : LineFrame} (h : f.FillsHalf) : h.half.data = f.captured := rfl

/-- A body behind 8 high samples, and an idle line to the end of the half. -/
def onIdleLine (body : List UInt8) (fits : max body.length 60 + 4 ≤ 1600)
    (header : HeaderAgrees body) : LineFrame where
  before := 8
  idle := true
  body := body
  rest := List.replicate (8 * bufBytes - (1016 + 48 * (max body.length 60 + 4))) true
  fits := fits
  header := header

theorem fillsHalf_onIdleLine {body : List UInt8} (fits : max body.length 60 + 4 ≤ 1600)
    (header : HeaderAgrees body) : (onIdleLine body fits header).FillsHalf := by
  have hrest : (onIdleLine body fits header).rest =
      List.replicate (8 * bufBytes - (1016 + 48 * (max body.length 60 + 4))) true := by
    rw [onIdleLine]
  refine ⟨⟨_, hrest⟩, ?_⟩
  rw [length_captured hrest, length_bitsOf_wireFrame]
  simp only [onIdleLine, bufBytes]
  omega

/-- An ARP packet to everyone, behind 8 high samples and before an idle line. -/
def arp : LineFrame := .onIdleLine arpBody (by decide) (by unfold HeaderAgrees; decide +kernel)

theorem fillsHalf_arp : arp.FillsHalf := fillsHalf_onIdleLine _ _

theorem isFor_arp (ourMac : List UInt8) : arp.isFor ourMac = true := by
  rw [isFor, macAccept, Bool.or_eq_true]
  exact .inr (by decide)

end LineFrame

/-! ### From the line to the inbox -/

namespace Mac

/-- What the contexts show while they take a frame from the line to the inbox. -/
def deliverEvents (half : Bytes bufBytes) (image : Image) (frame : List UInt8) : List MacEvent :=
  [.dmaIrq (some half) (some image), .drain .silent, .drain .silent, .drain .silent, .drain .silent,
    .drain (.turn image), .silent, .shared (.published frame), .drain (.turn image), .silent,
    .shared .merged, .drain .consumed]

/-- The state after a frame is delivered: it is published, and recorded and merged. -/
structure Delivered (s : Mac) (n : ℕ) (frame : List UInt8) (s' : Mac) : Prop where
  quiet : s'.Quiet (n + 1) (n + 1)
  ourMac : s'.ourMac = s.ourMac
  shared : ∃ acc, StatsDelta.new.record frame frame.length true = .ok acc ∧
    mergeStats (publishFrame s.shared frame) acc = .ok s'.shared

variable {C : Mac → MacEvent → Prop} {s : Mac} {n : ℕ} {f : LineFrame}

/-- **A frame is delivered.** -/
theorem path_delivers (hC : AllowsDrain C) (h : s.Quiet n n) (hf : f.FillsHalf)
    (hfor : f.isFor s.ourMac.data = true)
    (hirq : ∀ stored, C s (.dmaIrq (some hf.half) (some stored))) :
    ∃ image s', image.bytes = f.captured ∧
      (macSystem.restrict C).Path s (deliverEvents hf.half image (wireFrame f.body)) s' ∧
      s.Delivered n (wireFrame f.body) s' := by
  obtain ⟨m, hrest⟩ := hf.idle
  obtain ⟨off, len, run, hrec⟩ := f.received
  obtain ⟨slot, s₁, hst, h₁, himage⟩ :=
    h.stores le_rfl (by omega) (show Settled isActive hf.half.data from f.settled_captured hrest)
  have hring : s₁.ring (slotOf s₁.imgR) = slot := by
    rw [hst.ring, h₁.imgR, h.imgW]
    exact Function.update_self ..
  have hparts := rawParts_slot hst.fits
  obtain ⟨t, hturn, hcursor, hpub, hacc⟩ := LineFrame.scanTurn_captured (hst.ourMac ▸ hfor) hrec
    (if 0 < slot.cl.toNat then some slot.cl.toNat else none) .new s₁.stitch
  have hend : scanTurn s₁.ourMac.data f.captured
      (if 0 < slot.cl.toNat then some slot.cl.toNat else none) t.cursor t.acc t.stitch =
        .ok none := by
    rw [scanTurn, hcursor, LineFrame.searches hrest hrec]
    rfl
  obtain ⟨⟨shared, ev⟩, hrun⟩ :=
    SharedCall.run_ok (publishFrame s₁.shared (wireFrame f.body)) (.merge t.acc)
  obtain ⟨shared, hmerge, -⟩ := Exec.bind_eq_ok.1 hrun
  rw [← show slot.image.bytes = f.captured from himage] at hturn hend
  -- store, scan up to the frame, publish it, and end the scan
  have hstore : (macSystem.restrict C).Path s [.dmaIrq (some hf.half) (some slot.image)] s₁ :=
    .one ⟨hirq _, hst.step⟩
  have hscan := path_scanning hC h₁.lock h₁.drain (h₁.ne (by omega) (by omega))
  rw [scanning, hring] at hscan
  have hpublish := path_publishes
    (s := { s₁ with drain := .scan s₁.imgR slot.len.toNat slot.cl.toNat 0 .new })
    hC h₁.lock rfl (hring ▸ hparts) hturn hpub
  have hends := path_ends
    (s := { s₁ with
      drain := .scan s₁.imgR slot.len.toNat slot.cl.toNat t.cursor t.acc
      stitch := t.stitch
      shared := publishFrame s₁.shared (wireFrame f.body) })
    hC h₁.lock rfl (hring ▸ hparts) hend hmerge
  have hpath := (hstore.append hscan).append (hpublish.append hends)
  refine ⟨slot.image, _, himage, hpath, ⟨h₁.lock, rfl, h₁.carryLen, h₁.carryCapped, ?_, h₁.imgW⟩,
    hst.ourMac, t.acc, hacc, ?_⟩
  · change s₁.imgR + 1 = _
    rw [h₁.imgR, UInt32.ofNat_add]
    rfl
  · rw [← hst.shared]
    exact hmerge

end Mac

end Pico10BaseT
