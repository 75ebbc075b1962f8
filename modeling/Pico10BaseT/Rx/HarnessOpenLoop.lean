import Pico10BaseT.Frame
import Pico10BaseT.Rx.Harness
import Pico10BaseT.Rx.OpenLoop
import Pico10BaseT.Rx.Peek

/-!
# The open-loop reference

`decode_current` of `harness.py`, the baseline that `decode_edge_track` is compared with.  It reads
one sample a bit at a fixed stride, as `decode_frame` does, but looks at every index before it reads
and packs what it has read at the end: it knows nothing of the length that a header declares.

* `harness_current_ok` : the reference returns all the whole bytes that are there.
* `deriveFrameLen_eq` : where `decode_frame` stops is the length that `derive_frame_len` finds.
* `decodeFrame_eq_current` : `decode_frame` returns the frame of the reference, cut to that length,
  and the check says the same of both.
-/

namespace Pico10BaseT

/-! ### The source -/

namespace Harness

/-- The loop of `decode_current`, with `k` bits read. -/
def currentLoop (buf : List UInt8) (ns f start : ℕ) : ℕ → ℕ → List Bool → Exec (List Bool)
  | 0, _, _ => .error .noFuel
  | fuel + 1, k, bits => do
    let idx := f + 4 + 6 * (start + k)
    if ns ≤ idx ∨ 1600 * 8 ≤ k then return bits
    else
      let s ← sampleBit buf idx
      currentLoop buf ns f start fuel (k + 1) (bits ++ [decide (s = 1)])

/-- `decode_current(buf)`: the edge `F` and the frame, as far as they are found. -/
def decodeCurrent (buf : List UInt8) : Exec (Option ℕ × Option (List UInt8)) := do
  let ns := buf.length * 8
  match ← findF buf ns with
  | none => return (none, none)
  | some f =>
    match ← findSfd buf ns f with
    | none => return (some f, none)
    | some sfd =>
      let start := sfd + 1
      let bits ← currentLoop buf ns f start (1600 * 8 + 1) 0 []
      return (some f, some (packBytes bits))

end Harness

/-! ### The bits -/

section Bits

variable {buf : List UInt8} {f k : ℕ}

/-- Number of bits that the reference reads from `k` on. -/
def currentLen (ns f k : ℕ) : ℕ := min (bitsAvailable rate60MHz f k ns) (1600 * 8)

theorem openBits_snoc (rate : SampleRate) (lv : ℕ → Bool) (f k n : ℕ) :
    openBits rate lv f k (n + 1) = openBits rate lv f k n ++ [lv (rate.sampleOf f (k + n))] := by
  rw [openBits_add, openBits_succ]
  rfl

theorem lt_currentLen_iff {ns i : ℕ} :
    i < currentLen ns f k ↔ rate60MHz.sampleOf f (k + i) < ns ∧ i < 1600 * 8 := by
  rw [currentLen, lt_min_iff, ← availBits_eq (by decide), lt_availBits_iff (by decide)]

/-- **The loop** reads the open-loop bits, as long as there are any. -/
theorem currentLoop_ok {fuel i : ℕ} (hi : i ≤ currentLen (buf.length * 8) f k)
    (hfuel : currentLen (buf.length * 8) f k < fuel + i) :
    Harness.currentLoop buf (buf.length * 8) f k fuel i
        (openBits rate60MHz (levelsFrom buf 0) f k i) =
      .ok (openBits rate60MHz (levelsFrom buf 0) f k (currentLen (buf.length * 8) f k)) := by
  induction fuel generalizing i with
  | zero => omega
  | succ fuel ih =>
    have hidx : f + 4 + 6 * (k + i) = rate60MHz.sampleOf f (k + i) := rfl
    rw [Harness.currentLoop, hidx]
    by_cases hlt : i < currentLen (buf.length * 8) f k
    · obtain ⟨hin, hcap⟩ := lt_currentLen_iff.1 hlt
      have hlevel : level buf (rate60MHz.sampleOf f (k + i)) =
          levelsFrom buf 0 (rate60MHz.sampleOf f (k + i)) := by
        rw [levelsFrom, Nat.zero_add]
      rw [if_neg (by omega), sampleBit_ok (by omega), Exec.ok_bind]
      simp only [toUInt8_eq_one, Bool.decide_eq_true]
      rw [hlevel, ← openBits_snoc]
      exact ih hlt (by omega)
    · obtain rfl : i = currentLen (buf.length * 8) f k := by omega
      have hstop : buf.length * 8 ≤ rate60MHz.sampleOf f (k + currentLen (buf.length * 8) f k) ∨
          1600 * 8 ≤ currentLen (buf.length * 8) f k := by
        by_contra hgo
        push Not at hgo
        exact hlt (lt_currentLen_iff.2 hgo)
      rw [if_pos hstop]
      rfl

end Bits

/-! ### The frame -/

section Frame

variable {buf : List UInt8} {f sfd : ℕ}

/-- **What the reference returns** once it has found the edge and the SFD: the whole bytes that are
there. -/
theorem harness_current_ok (hf : findF buf (buf.length * 8) = .ok (some f))
    (hsfd : findSfd buf (buf.length * 8) f = .ok (some sfd)) :
    Harness.decodeCurrent buf = .ok (some f, some (openBytes rate60MHz (levelsFrom buf 0) f
      (sfd + 1) (bytesAvailable rate60MHz (buf.length * 8) f sfd))) := by
  set n := currentLen (buf.length * 8) f (sfd + 1) with hn
  have hf' : Harness.findF buf (buf.length * 8) = .ok (some f) := hf
  have hloop : Harness.currentLoop buf (buf.length * 8) f (sfd + 1) (1600 * 8 + 1) 0 [] =
      .ok (openBits rate60MHz (levelsFrom buf 0) f (sfd + 1) n) :=
    currentLoop_ok (Nat.zero_le _) (by
      have hcap : n ≤ 1600 * 8 := Nat.min_le_right _ _
      omega)
  have havail : bytesAvailable rate60MHz (buf.length * 8) f sfd = n / 8 := by
    rw [hn, currentLen, bytesAvailable, maxFrameBytes]
    omega
  -- the bits of the last byte that is not whole are dropped
  have hpack : packBytes (openBits rate60MHz (levelsFrom buf 0) f (sfd + 1) n) =
      openBytes rate60MHz (levelsFrom buf 0) f (sfd + 1) (n / 8) := by
    conv_lhs => rw [← Nat.div_add_mod n 8, openBits_add]
    rw [packBytes_append_of_lt (by simp) (by simp [Nat.mod_lt]), openBytes]
  simp only [Harness.decodeCurrent, hf', harness_findSfd_eq, hsfd, hloop, Exec.ok_bind, hpack,
    havail, Exec.pure_eq]

/-- The frame of the firmware is that of the reference, cut. -/
theorem openFrame_eq_take (lv : ℕ → Bool) (ns f sfd : ℕ) :
    openFrame rate60MHz lv ns f sfd =
      (openBytes rate60MHz lv f (sfd + 1) (bytesAvailable rate60MHz ns f sfd)).take
        (openLen (openBytes rate60MHz lv f (sfd + 1) (bytesAvailable rate60MHz ns f sfd))
          (bytesAvailable rate60MHz ns f sfd)) := by
  generalize havail : bytesAvailable rate60MHz ns f sfd = avail
  obtain ⟨hle, hshort, -⟩ := openLen_bounds (openBytes rate60MHz lv f (sfd + 1) 18) avail
  have hlen : openLen (openBytes rate60MHz lv f (sfd + 1) avail) avail =
      openLen (openBytes rate60MHz lv f (sfd + 1) 18) avail := by
    by_cases h : avail < 18
    · rw [hshort h, openLen, if_pos h]
    · obtain ⟨d, rfl⟩ := Nat.exists_eq_add_of_le (Nat.le_of_not_lt h)
      rw [openBytes_add, openLen_append _ (by rw [length_openBytes])]
  obtain ⟨d, hd⟩ := Nat.exists_eq_add_of_le hle
  rw [openFrame, havail, hlen]
  conv_rhs => rw [hd, openBytes_add, ← hd]
  rw [List.take_left' (by rw [length_openBytes])]

/-! ### The cut -/

/-- The length of a frame is what its header declares, as far as the frame goes. -/
theorem deriveFrameLen_eq (frame : List UInt8) :
    deriveFrameLen frame = .ok (openLen frame frame.length) := by
  by_cases hlen : frame.length < 18
  · rw [deriveFrameLen, if_pos hlen, openLen, if_pos hlen]
    rfl
  · rw [deriveFrameLen, if_neg hlen, rd16_ok (by omega), rd16_ok (by omega), openLen, if_neg hlen,
      declaredOf]
    simp only [Exec.ok_bind, Exec.pure_eq]
    by_cases hip : wordAt frame 12 = 0x0800
    · rw [if_pos hip, if_pos hip, Nat.min_def]
    · rw [if_neg hip, if_neg hip]
      by_cases harp : wordAt frame 12 = 0x0806
      · simp only [harp, true_and, if_true]
        split_ifs
        · rw [Nat.min_eq_left ‹_›]
        · rw [Nat.min_eq_right (by omega)]
      · rw [if_neg fun h => harp h.1, if_neg harp, Nat.min_self]

/-- A cut behind the header leaves the header. -/
theorem wordAt_take {frame : List UInt8} {n i : ℕ} (h : i + 1 < n) :
    wordAt (frame.take n) i = wordAt frame i := by
  rw [wordAt, wordAt, byteAt_take (by omega), byteAt_take h]

/-- A frame that is cut to its length has that length. -/
theorem openLen_take (frame : List UInt8) :
    openLen (frame.take (openLen frame frame.length)) (openLen frame frame.length) =
      openLen frame frame.length := by
  obtain ⟨hle, hshort, hlong⟩ := openLen_bounds frame frame.length
  by_cases hlen : frame.length < 18
  · rw [hshort hlen, openLen, if_pos hlen]
  · have h18 := hlong (Nat.le_of_not_lt hlen)
    rw [openLen_of_le h18, declaredOf, wordAt_take (by omega), wordAt_take (by omega)]
    rw [openLen_of_le (Nat.le_of_not_lt hlen), declaredOf] at h18 ⊢
    split_ifs <;> omega

theorem deriveFrameLen_take (frame : List UInt8) :
    deriveFrameLen (frame.take (openLen frame frame.length)) =
      .ok (openLen frame frame.length) := by
  have hcut : (frame.take (openLen frame frame.length)).length = openLen frame frame.length := by
    rw [List.length_take, Nat.min_eq_left (openLen_bounds _ _).1]
  rw [deriveFrameLen_eq, hcut, openLen_take]

/-- The check reads no further than the length. -/
theorem verifyFcs_take {frame : List UInt8} {n : ℕ} (h : n ≤ frame.length) :
    verifyFcs (frame.take n) n = verifyFcs frame n := by
  have hlen : (frame.take n).length = n := by
    rw [List.length_take, Nat.min_eq_left h]
  rw [verifyFcs, verifyFcs, hlen]
  by_cases h18 : n < 14 + 4
  · rw [if_pos (.inl h18), if_pos (.inl h18)]
  · have hbyte : ∀ i, i < n → index (frame.take n) i = index frame i := fun i hi => by
      rw [index_eq_byteAt (by omega), index_eq_byteAt (by omega), byteAt_take hi]
    rw [if_neg (by omega), if_neg (by omega), slice_zero (by omega), slice_zero (by omega),
      List.take_take, Nat.min_eq_left (Nat.sub_le _ _), hbyte _ (by omega), hbyte _ (by omega),
      hbyte _ (by omega), hbyte _ (by omega)]

/-! ### Both decoders -/

theorem windowLen_whole (buf : List UInt8) : windowLen buf 0 buf.length = buf.length * 8 := by
  rw [windowLen]
  omega

/-- Without an edge, or without an SFD, the firmware finds no frame either. -/
theorem decodeFrame_eq_none (hne : buf ≠ []) {e : Option ℕ}
    (hf : findF buf (buf.length * 8) = .ok e)
    (hsfd : ∀ f, e = some f → findSfd buf (buf.length * 8) f = .ok none) :
    decodeFrame rate60MHz buf 0 buf.length = .ok none := by
  have hpos : 0 < buf.length := List.length_pos_of_ne_nil hne
  have hwin : min (buf.length * 8) (buf.length * 8 - 0 * 8) = buf.length * 8 := windowLen_whole buf
  rw [findF] at hf
  rw [decodeFrame, if_neg (by omega)]
  simp only [hwin, Nat.zero_mul, hf, Exec.ok_bind]
  cases e with
  | none => rfl
  | some f =>
    have hnone : findSfdEnd rate60MHz buf 0 f (buf.length * 8) sfdSearchBits = .ok none :=
      hsfd f rfl
    simp only [hnone, Exec.ok_bind]
    rfl

/-- With both, it finds the frame of the reference, cut. -/
theorem decodeFrame_eq_take (hlock : Locked rate60MHz (levelsFrom buf 0) (buf.length * 8) f sfd)
    {b : List UInt8} (hb : b = openBytes rate60MHz (levelsFrom buf 0) f (sfd + 1)
      (bytesAvailable rate60MHz (buf.length * 8) f sfd)) :
    decodeFrame rate60MHz buf 0 buf.length = .ok (some (b.take (openLen b b.length))) := by
  have hlen : b.length = bytesAvailable rate60MHz (buf.length * 8) f sfd := by
    rw [hb, length_openBytes]
  rw [← windowLen_whole] at hlock
  rw [@decodeFrame_of_locked rate60MHz buf 0 buf.length (by decide) f sfd hlock, windowLen_whole,
    openFrame_eq_take, ← hb, hlen]

/-- **The decoders agree.**  On every capture with a sample the reference returns, and the firmware
finds a frame if the reference does: the frame of the reference, which fits the frame buffer, cut to
the length that `derive_frame_len` finds for it.  The cut changes neither that length nor what the
check says. -/
theorem decodeFrame_eq_current (hne : buf ≠ []) :
    ∃ f frame, Harness.decodeCurrent buf = .ok (f, frame) ∧
      (frame = none → decodeFrame rate60MHz buf 0 buf.length = .ok none) ∧
      ∀ b, frame = some b → b.length ≤ maxFrameBytes ∧ ∃ n, deriveFrameLen b = .ok n ∧
        decodeFrame rate60MHz buf 0 buf.length = .ok (some (b.take n)) ∧
        deriveFrameLen (b.take n) = .ok n ∧ verifyFcs (b.take n) n = verifyFcs b n := by
  have hpos : 0 < buf.length := List.length_pos_of_ne_nil hne
  have hlen : 0 + buf.length * 8 ≤ 8 * buf.length := by omega
  obtain ⟨e, hf, hedge, -⟩ := findFirstFallingEdge_spec 0 (buf.length * 8) (by omega) hlen
  have hf' : Harness.findF buf (buf.length * 8) = .ok e := hf
  cases e with
  | none =>
    refine ⟨none, none, by simp [Harness.decodeCurrent, hf'], fun _ => ?_, fun b hb => by cases hb⟩
    exact decodeFrame_eq_none hne hf fun f h => by cases h
  | some f =>
    obtain ⟨s, hsfd, hpair, -⟩ := findSfdEnd_spec rate60MHz f hlen sfdSearchBits
    have hsfd' : findSfd buf (buf.length * 8) f = .ok s := hsfd
    cases s with
    | none =>
      refine ⟨some f, none, ?_, fun _ => ?_, fun b hb => by cases hb⟩
      · simp [Harness.decodeCurrent, hf', harness_findSfd_eq, hsfd']
      · refine decodeFrame_eq_none hne hf ?_
        rintro _ ⟨⟩
        exact hsfd'
    | some sfd =>
      obtain ⟨hlt, hfall, hfirst⟩ := hedge f rfl
      obtain ⟨hsfdlt, hklt, hk, hkfirst⟩ := hpair sfd rfl
      have hlock : Locked rate60MHz (levelsFrom buf 0) (buf.length * 8) f sfd :=
        ⟨hlt, hfall, hfirst, hsfdlt, hklt, hk, hkfirst⟩
      refine ⟨some f, _, harness_current_ok hf hsfd', (fun h => by cases h), ?_⟩
      rintro b ⟨⟩
      refine ⟨?_, _, deriveFrameLen_eq _, decodeFrame_eq_take hlock rfl, deriveFrameLen_take _,
        verifyFcs_take (openLen_bounds _ _).1⟩
      rw [length_openBytes]
      exact bytesAvailable_le _ _ _ _

end Frame

/-! ### A frame with more behind it -/

/-- An ARP packet on the line, captured with the idle line behind it. -/
def arpImage : List UInt8 := capturedImage 5 true arpBody []

theorem length_arpImage : arpImage.length = 510 := by
  rw [arpImage, capturedImage, length_packBytes, lineSamples_sendRawFrame, bitsOf_append]
  simp only [List.length_append, List.length_replicate, length_manchester_wireFrame,
    length_bitsOf_wireFrame, List.length_nil]
  decide

/-- The reference takes 76 bytes, the packet first. -/
theorem decodeCurrent_arpImage :
    ∃ f rest, rest.length = 12 ∧
      Harness.decodeCurrent arpImage = .ok (some f, some (wireFrame arpBody ++ rest)) := by
  have H : Sent (level arpImage) 5 true (bitsOf (wireFrame arpBody)) := sent_capturedImage ..
  have hbits : (bitsOf (wireFrame arpBody)).length = 512 := length_bitsOf_wireFrame arpBody
  have hw : Windowed (level arpImage) (levelsFrom arpImage 0) 0 (8 * arpImage.length) :=
    fun _ _ => rfl
  obtain ⟨hf, hsfd⟩ := H.acquires_window
    (show Windowed (level arpImage) (level arpImage) 0 (8 * arpImage.length) from
      fun i _ => by rw [Nat.zero_add]) (Nat.zero_le _) (by rw [length_arpImage]; omega)
  have havail : bytesAvailable rate60MHz (arpImage.length * 8) (Sent.firstFall 5 0)
      (62 - 2 * Sent.skipped 5 0) = 64 + 12 := by
    rw [length_arpImage]
    decide +kernel
  have hpacket : openBytes rate60MHz (levelsFrom arpImage 0) (Sent.firstFall 5 0)
      (62 - 2 * Sent.skipped 5 0 + 1) 64 = wireFrame arpBody := by
    have hread : openBits rate60MHz (levelsFrom arpImage 0) (Sent.firstFall 5 0)
        (62 - 2 * Sent.skipped 5 0 + 1) 512 = (bitsOf (wireFrame arpBody)).take 512 :=
      H.openBits_window hw (Nat.zero_le _) hbits.ge (by rw [length_arpImage]; omega)
    rw [openBytes, hread, List.take_of_length_le hbits.le, packBytes_bitsOf]
  have hcur := harness_current_ok hf hsfd
  rw [havail, openBytes_add, hpacket] at hcur
  exact ⟨_, _, length_openBytes .., hcur⟩

/-- The reference goes on behind the packet, the firmware stops at the 64 bytes of an ARP frame. -/
theorem decodeFrame_eq_current_arp :
    ∃ f b, Harness.decodeCurrent arpImage = .ok (f, some b) ∧ 64 < b.length ∧
      decodeFrame rate60MHz arpImage 0 arpImage.length = .ok (some (wireFrame arpBody)) ∧
      b.take 64 = wireFrame arpBody ∧ verifyFcs (wireFrame arpBody) 64 = verifyFcs b 64 := by
  have hwire : (wireFrame arpBody).length = 64 := length_wireFrame arpBody
  obtain ⟨f, rest, hrest, hcur⟩ := decodeCurrent_arpImage
  obtain ⟨f', frame, hcur', -, hcut⟩ :=
    decodeFrame_eq_current (List.ne_nil_of_length_pos (by rw [length_arpImage]; decide))
  rw [hcur] at hcur'
  obtain ⟨rfl, rfl⟩ := Prod.mk.inj (Except.ok.inj hcur')
  obtain ⟨-, n, hderived, hdec, -, hfcs⟩ := hcut _ rfl
  -- the header decides
  have h64 : openLen (wireFrame arpBody ++ rest) (wireFrame arpBody ++ rest).length = 64 := by
    rw [openLen_append rest (by rw [hwire]; decide), List.length_append, hwire, hrest]
    decide +kernel
  rw [deriveFrameLen_eq, h64] at hderived
  obtain rfl := Except.ok.inj hderived
  rw [List.take_left' hwire] at hdec hfcs
  exact ⟨_, _, hcur, by rw [List.length_append, hwire, hrest]; decide, hdec,
    List.take_left' hwire, hfcs⟩

end Pico10BaseT
