import Pico10BaseT.Frame
import Pico10BaseT.Rx.EdgeTrack
import Pico10BaseT.Tx.RawFrame

/-!
# The length cap of the decoder and the length of the frame

`decode_frame_edge_track` derives a cap from the IP header in the middle of a frame, in either of its
loops; `derive_frame_len` derives the length again from the frame that was returned, with another
clamp.

* `decode_frameLen` : on IPv4 frames the two agree; a frame shorter than its header says is one that
  ran out of samples.
-/

namespace Pico10BaseT

theorem length_capFrame_le (frame : List UInt8) :
    (capFrame frame).length ≤ frameCap (capFrame frame) := by
  by_cases h18 : 18 ≤ (capFrame frame).length
  · have hcap : frameCap (capFrame frame) = frameCap frame := by
      rw [← frameCap_append (frame.drop (frameCap frame)) h18, capFrame, List.take_append_drop]
    rw [hcap]
    exact List.length_take_le _ _
  · have hbounds := frameCap_bounds (capFrame frame)
    omega

/-- A decoded frame keeps to its cap, and reaches it unless the samples ran out. -/
theorem finalTracker_of_decoded {buf frame : List UInt8} (h : buf ≠ [])
    (hdec : decodeFrameEdgeTrack buf = .ok (some frame)) :
    frame.length ≤ frameCap frame ∧ ∃ d, finalTracker buf = .ok (some d) ∧ d.out.frame = frame ∧
      (d.RanOut buf ∨ frame.length = frameCap frame) := by
  obtain ⟨tr, htr, hpos⟩ := acquire_ok h
  obtain ⟨r, hr, hspec, hstop⟩ := finalTracker_spec htr hpos
  have hframe : r.map (·.out.frame) = some frame := by
    rw [decodeFrameEdgeTrack_eq_finalTracker, hr] at hdec
    exact Except.ok.inj hdec
  obtain ⟨d, rfl, rfl⟩ := Option.map_eq_some_iff.1 hframe
  refine ⟨?_, d, hr, rfl, hstop d rfl⟩
  obtain ⟨t, -, ht⟩ := Option.map_eq_some_iff.1 (hspec.symm.trans hframe)
  rw [← ht]
  exact length_capFrame_le _

/-- **The cap and the receiver's length agree** on every IPv4 frame that is decoded, whichever loop
derived the cap.  A frame shorter than the cap is one that ran out of samples. -/
theorem decode_frameLen {buf frame : List UInt8} (h : buf ≠ [])
    (hdec : decodeFrameEdgeTrack buf = .ok (some frame)) (h18 : 18 ≤ frame.length)
    (hip : wordAt frame 12 = 0x0800) :
    deriveFrameLen frame = .ok frame.length ∧
      (frame.length < 1600 → frame.length < max (14 + (wordAt frame 16).toNat + 4) 64 →
        ∃ d, finalTracker buf = .ok (some d) ∧ d.out.frame = frame ∧ d.RanOut buf) := by
  obtain ⟨hle, d, hd, hframe, hstop⟩ := finalTracker_of_decoded h hdec
  have hcap : frameCap frame = min (max (14 + (wordAt frame 16).toNat + 4) 64) maxFrameBytes :=
    if_pos ⟨h18, hip⟩
  constructor
  · rw [deriveFrameLen_ipv4 h18 hip, Nat.min_eq_right]
    rw [hcap] at hle
    exact hle.trans (Nat.min_le_left _ _)
  · intro h1600 hshort
    refine ⟨d, hd, hframe, hstop.resolve_right ?_⟩
    rw [hcap]
    exact (lt_min hshort h1600).ne

/-- The first bytes of an IPv4 frame of 274. -/
def cutOffFrame : List UInt8 := List.replicate 12 2 ++ [0x08, 0x00, 0x45, 0x00, 0x01, 0x00]

/-- The frame behind its preamble, ideally sampled, and nothing behind it. -/
def cutOffCapture : List UInt8 :=
  (List.replicate 7 0x55 ++ 0xd5 :: cutOffFrame).flatMap fun b =>
    packBytes (manchester (bitsOfByte b))

theorem cutOff_decoded : decodeFrameEdgeTrack cutOffCapture = .ok (some cutOffFrame) := by
  decide +kernel

theorem decode_frameLen_cutOff :
    deriveFrameLen cutOffFrame = .ok cutOffFrame.length ∧
      (cutOffFrame.length < 1600 →
        cutOffFrame.length < max (14 + (wordAt cutOffFrame 16).toNat + 4) 64 →
        ∃ d, finalTracker cutOffCapture = .ok (some d) ∧ d.out.frame = cutOffFrame ∧
          d.RanOut cutOffCapture) :=
  decode_frameLen (by decide) cutOff_decoded (by decide) (by decide)

end Pico10BaseT
