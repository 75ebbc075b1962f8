import Pico10BaseT.Rx.IdealSignal
import Pico10BaseT.Tx.RawFrame

/-!
# From the transmitter to the receiver

The words of `send_raw_frame`, sampled and packed behind an idle line, are received as the frame that
was sent: `frame_roundTrip`.

* `sent_capturedImage` : the image of a frame is an ideal signal.
* `Sent.peekDstMac_eq`, `Sent.decode_eq` : what both decoders return for the run of a frame.
* `capFrame_wireFrame`, `deriveFrameLen_wireFrame` : a frame that is not longer than its header says
  keeps its length.
-/

namespace Pico10BaseT

/-! ### The image of a frame -/

/-- The image of a frame behind `n` idle samples, and whatever follows its idle words. -/
def capturedImage (n : ℕ) (idle : Bool) (body : List UInt8) (rest : List Bool) : List UInt8 :=
  packBytes (List.replicate n idle ++ lineSamples (sendRawFrame body) ++ rest)

theorem getElem?_bitsOf_preambleBytes :
    ∀ k < 64, (bitsOf preambleBytes)[k]? = some (preambleBit k) := by
  decide +kernel

theorem length_bitsOf_wireFrame (body : List UInt8) :
    (bitsOf (wireFrame body)).length = 8 * (max body.length 60 + 4) := by
  rw [length_bitsOf, length_wireFrame]

section Image

variable (n : ℕ) (idle : Bool) (body : List UInt8) (rest : List Bool)

theorem length_manchester_wireFrame :
    (manchester (bitsOf preambleBytes ++ bitsOf (wireFrame body))).length =
      384 + 6 * (bitsOf (wireFrame body)).length := by
  have hpre : (bitsOf preambleBytes).length = 64 := rfl
  rw [length_manchester, List.length_append, hpre]
  omega

/-- Behind the idle line are preamble and SFD, the frame, and low samples. -/
theorem level_capturedImage {i : ℕ} (hi : i < n + 402 + 6 * (bitsOf (wireFrame body)).length) :
    level (capturedImage n idle body rest) i =
      ((List.replicate n idle ++ (manchester (bitsOf preambleBytes ++ bitsOf (wireFrame body)) ++
        List.replicate 18 false))[i]?).getD false := by
  have hlen := length_manchester_wireFrame body
  have hsplit : List.replicate n idle ++ lineSamples (sendRawFrame body) ++ rest =
      (List.replicate n idle ++ (manchester (bitsOf preambleBytes ++ bitsOf (wireFrame body)) ++
        List.replicate 18 false)) ++ (List.replicate 606 true ++ rest) := by
    rw [lineSamples_sendRawFrame, bitsOf_append]
    simp only [List.append_assoc]
  rw [capturedImage, hsplit, level_packBytes, List.getElem?_append_left]
  · simp only [List.length_append, List.length_replicate, hlen]
    omega
  · simp only [List.length_append, List.length_replicate, hlen]
    omega

theorem sent_capturedImage :
    Sent (level (capturedImage n idle body rest)) n idle (bitsOf (wireFrame body)) := by
  have hpre : (bitsOf preambleBytes).length = 64 := rfl
  have hlen := length_manchester_wireFrame body
  -- sample `j` of bit `k` of preamble, SFD and frame
  have hbit : ∀ k < 64 + (bitsOf (wireFrame body)).length, ∀ j < 6,
      level (capturedImage n idle body rest) (n + 6 * k + j) =
        ((bitsOf preambleBytes ++ bitsOf (wireFrame body))[k]?.map (· ^^ decide (3 ≤ j))).getD
          false := by
    intro k hk j hj
    rw [level_capturedImage n idle body rest (by omega),
      List.getElem?_append_right (by rw [List.length_replicate]; omega), List.length_replicate,
      show n + 6 * k + j - n = 6 * k + j by omega, List.getElem?_append_left (by omega),
      getElem?_manchester _ hj]
  constructor
  · intro i hi
    rw [level_capturedImage n idle body rest (by omega),
      List.getElem?_append_left (by rw [List.length_replicate]; omega),
      List.getElem?_replicate_of_lt hi]
    rfl
  · intro k hk j hj
    rw [hbit k (by omega) j hj, List.getElem?_append_left (by omega),
      getElem?_bitsOf_preambleBytes k hk]
    rfl
  · intro k hk j hj
    rw [show n + 384 + 6 * k + j = n + 6 * (64 + k) + j by omega, hbit (64 + k) (by omega) j hj,
      List.getElem?_append_right (by omega), hpre, Nat.add_sub_cancel_left,
      List.getElem?_eq_getElem hk]
    rfl
  · intro j hj
    rw [level_capturedImage n idle body rest (by omega),
      List.getElem?_append_right (by rw [List.length_replicate]; omega), List.length_replicate,
      List.getElem?_append_right (by omega), List.getElem?_replicate_of_lt (by omega)]
    rfl

end Image

/-! ### The run of a frame -/

namespace Sent

variable {bytes : List UInt8} {n : ℕ} {idle : Bool} {bits : List Bool}

/-- The search finds the run of the frame. -/
theorem findActiveRunFrom_eq (H : Sent (level bytes) n idle bits) (h8 : 512 ≤ bits.length) :
    findActiveRunFrom bytes 0 minRun =
      .ok (some (runStart n idle, runStop n bits - runStart n idle)) := by
  obtain ⟨hrun, hbefore⟩ := H.isRun (by omega)
  obtain ⟨hstart, hstop, -⟩ := run_bounds n idle bits
  have hmin : minRun ≤ runStop n bits - runStart n idle := by
    unfold minRun
    omega
  obtain ⟨r, hr, hfound⟩ := findActiveRunFrom_spec minRun (.inl rfl : Boundary bytes 0)
  cases r with
  | none =>
    have := hfound _ _ hrun (Nat.zero_le _)
    omega
  | some r =>
    obtain ⟨hfound, -, -, hfirst⟩ := hfound
    -- no run starts before
    have hle := hfirst _ _ hrun (Nat.zero_le _) hmin
    have hge : runStart n idle ≤ r.1 :=
      hfound.le_of_forall_false (Nat.zero_le _) fun k _ hk => hbefore k hk
    have hoff : r.1 = runStart n idle := Nat.le_antisymm hle hge
    have hlen : r.2 = runStop n bits - runStart n idle := by
      rw [hoff] at hfound
      exact hfound.len_eq hrun
    have hr' : r = (runStart n idle, runStop n bits - runStart n idle) := Prod.ext hoff hlen
    rw [hr, hr']

theorem skipped_le (n d : ℕ) : skipped n d ≤ 1 := by
  unfold skipped
  split_ifs <;> omega

theorem openBits_window {lv lw : ℕ → Bool} {d nw : ℕ} (H : Sent lv n idle bits)
    (hw : Windowed lv lw d nw) (hd : d ≤ n + 3) {c : ℕ} (hc : c ≤ bits.length)
    (hnw : n + 384 + 6 * c ≤ d + nw) :
    openBits rate60MHz lw (firstFall n d) (62 - 2 * skipped n d + 1) c = bits.take c := by
  have hq := skipped_le n d
  refine List.ext_getElem (by simp [hc]) fun i hi hi' => ?_
  rw [length_openBits] at hi
  have hpos := sampleOf_window hd (62 - 2 * skipped n d + 1 + i)
  simp only [openBits, List.getElem_map, List.getElem_range, List.getElem_take]
  rw [hw _ (by omega), hpos, show n + 6 * (62 - 2 * skipped n d + 1 + i + 1 + 2 * skipped n d) + 1 =
      n + 384 + 6 * i + 1 by omega]
  exact (H.firstHalf (by omega)).2 (by omega)

/-- **The peek** returns the first 48 bits. -/
theorem peekDstMac_eq (H : Sent (level bytes) n idle bits) (h8 : 512 ≤ bits.length) :
    peekDstMac rate60MHz bytes (runStart n idle) (runStop n bits - runStart n idle) =
      .ok (some (packBytes (bits.take 48))) := by
  obtain ⟨hstart, hstop, -⟩ := run_bounds n idle bits
  have hq := skipped_le n (runStart n idle * 8)
  obtain ⟨hrun, -⟩ := H.isRun (by omega)
  have hw : Windowed (level bytes) (levelsFrom bytes (runStart n idle * 8)) (runStart n idle * 8)
      ((runStop n bits - runStart n idle) * 8) := fun i _ => rfl
  have hd : runStart n idle * 8 ≤ n + 3 := by omega
  have hin : ∀ i < 62 - 2 * skipped n (runStart n idle * 8) + 49,
      rate60MHz.sampleOf (firstFall n (runStart n idle * 8)) i <
        (runStop n bits - runStart n idle) * 8 := by
    intro i hi
    have := sampleOf_window hd i
    omega
  have hf : firstFall n (runStart n idle * 8) < (runStop n bits - runStart n idle) * 8 := by
    unfold firstFall
    omega
  obtain ⟨hfall, hffirst⟩ := H.fallsAt_window hw hd hf
  obtain ⟨hpair, hpfirst⟩ := H.pairAt_window hw hd (hin _ (by omega))
  rw [peekDstMac_eq_some hrun.le_length hf hfall hffirst (by unfold peekMaxBits; omega) hin hpair
    hpfirst, H.openBits_window hw hd (by omega) (by omega)]

/-- The levels of a slice. -/
theorem windowed_slice {off stop : ℕ} :
    Windowed (level bytes) (level ((bytes.drop off).take (stop - off))) (8 * off)
      (8 * (stop - off)) := by
  intro i hi
  rw [level, level, show (8 * off + i) / 8 = off + i / 8 by omega,
    show (8 * off + i) % 8 = i % 8 by omega, byteAt, byteAt, List.getD_eq_getElem?_getD,
    List.getD_eq_getElem?_getD, List.getElem?_take_of_lt (by omega), List.getElem?_drop]

/-- **Edge and SFD** are found in every window that holds the preamble from its first edge on. -/
theorem acquires_window {lv : ℕ → Bool} {buf : List UInt8} {d : ℕ} (H : Sent lv n idle bits)
    (hw : Windowed lv (level buf) d (8 * buf.length)) (hd : d ≤ n + 3)
    (hroom : n + 384 ≤ d + 8 * buf.length) :
    findF buf (buf.length * 8) = .ok (some (firstFall n d)) ∧
      findSfd buf (buf.length * 8) (firstFall n d) = .ok (some (62 - 2 * skipped n d)) := by
  have hq := skipped_le n d
  have hsample := sampleOf_window (n := n) (d := d) hd
  have hf0 : firstFall n d < 8 * buf.length := by
    have := hsample (62 - 2 * skipped n d)
    unfold firstFall
    omega
  have hlv : levelsFrom buf 0 = level buf := by
    funext i
    rw [levelsFrom, Nat.zero_add]
  obtain ⟨hfall, hffirst⟩ := H.fallsAt_window hw hd hf0
  obtain ⟨hpair, hpfirst⟩ := H.pairAt_window hw hd (by
    have := hsample (62 - 2 * skipped n d)
    omega)
  rw [← hlv] at hfall hffirst hpair hpfirst
  refine ⟨findFirstFallingEdge_eq_some (by omega) (by omega) hfall hffirst,
    findSfdEnd_eq_some (by omega) (by omega) (fun i hi => ?_) hpair hpfirst⟩
  have := hsample i
  omega

/-- **The tracked bits** of the run are those sent and at most two more. -/
theorem decode_eq (H : Sent (level bytes) n idle bits) (h8 : 512 ≤ bits.length) :
    ∃ extra, extra.length ≤ 2 ∧
      decodeFrameEdgeTrack
          ((bytes.drop (runStart n idle)).take (runStop n bits - runStart n idle)) =
        .ok (some (capFrame (packBytes (bits ++ extra)))) := by
  obtain ⟨hstart, hstop, hstop'⟩ := run_bounds n idle bits
  obtain ⟨hrun, -⟩ := H.isRun (by omega)
  have hw := @windowed_slice bytes (runStart n idle) (runStop n bits)
  have hfits := hrun.le_length
  obtain ⟨buf, hbuf⟩ :
      ∃ b, b = (bytes.drop (runStart n idle)).take (runStop n bits - runStart n idle) := ⟨_, rfl⟩
  have hlen : buf.length = runStop n bits - runStart n idle := by
    rw [hbuf, List.length_take, List.length_drop]
    omega
  rw [← hbuf] at hw ⊢
  rw [← hlen] at hw
  have hq := skipped_le n (8 * runStart n idle)
  obtain ⟨hf, hsfd⟩ := H.acquires_window hw hstart (by omega)
  have hdec := decodeFrameEdgeTrack_spec (acquire_eq_some hf hsfd) fun t ht => by
    cases ht
    exact anchor_pos _ _ _ _
  obtain ⟨extra, htrack, hle⟩ := H.trackBits_window hw hstart (by omega) (by omega)
    (Nat.zero_add bits.length) (by omega)
  refine ⟨extra, hle, hdec.trans ?_⟩
  rw [H.anchor_window hw hstart (by omega) (by omega)]
  simp only [decodeSpec, Option.map_some, finalFrame, List.nil_append]
  rw [← Nat.add_zero (n + 387), ← Nat.mul_zero 6, htrack, List.drop_zero]

end Sent

/-! ### The frame received -/

/-- The padded body is not longer than its header says: an IPv4 packet by its total length, an ARP
packet by the minimal length. -/
def HeaderAgrees (body : List UInt8) : Prop :=
  (wordAt (paddedBody body) 12 = 0x0800 →
    max body.length 60 ≤ max (14 + (wordAt (paddedBody body) 16).toNat) 60) ∧
  (wordAt (paddedBody body) 12 = 0x0806 → body.length ≤ 60)

section Header

variable {body : List UInt8}

theorem wordAt_wireFrame (body : List UInt8) {i : ℕ} (hi : i + 1 < 60) :
    wordAt (wireFrame body) i = wordAt (paddedBody body) i := by
  have hlen := length_paddedBody body
  rw [wordAt, wordAt, wireFrame, byteAt_append_left _ (by omega), byteAt_append_left _ (by omega)]

/-- The cap does not cut the frame. -/
theorem capFrame_wireFrame (h : HeaderAgrees body) (hmax : max body.length 60 + 4 ≤ 1600) :
    capFrame (wireFrame body) = wireFrame body := by
  refine capFrame_of_length_le ?_
  rw [length_wireFrame, frameCap, wordAt_wireFrame body (by omega), wordAt_wireFrame body (by omega)]
  unfold maxFrameBytes
  split_ifs with hip
  · have := h.1 hip.2
    omega
  · exact hmax

theorem deriveFrameLen_wireFrame (h : HeaderAgrees body) :
    deriveFrameLen (wireFrame body) = .ok (wireFrame body).length := by
  have hlen := length_wireFrame body
  rw [deriveFrameLen, if_neg (by omega), rd16_ok (by omega), rd16_ok (by omega),
    wordAt_wireFrame body (by omega), wordAt_wireFrame body (by omega)]
  simp only [Exec.ok_bind, Exec.pure_eq]
  split_ifs with hip hle harp
  · have := h.1 hip
    exact congrArg _ (by omega)
  · rfl
  · have := h.2 harp.1
    exact congrArg _ (by omega)
  · rfl

theorem verifyFcs_wireFrame (body : List UInt8) :
    verifyFcs (wireFrame body) (wireFrame body).length = .ok true := by
  have hlen := length_paddedBody body
  have hframe : (wireFrame body).length = (paddedBody body).length + 4 := by
    rw [length_wireFrame, hlen]
  rw [hframe]
  exact verifyFcs_append (by omega)

end Header

/-- The first bytes, from their bits. -/
theorem packBytes_take_bitsOf {bytes : List UInt8} {k : ℕ} (h : k ≤ bytes.length) :
    packBytes ((bitsOf bytes).take (8 * k)) = bytes.take k := by
  have hsplit : bitsOf bytes = bitsOf (bytes.take k) ++ bitsOf (bytes.drop k) := by
    rw [← bitsOf_append, List.take_append_drop]
  have hlen : (bitsOf (bytes.take k)).length = 8 * k := by
    rw [length_bitsOf, List.length_take, Nat.min_eq_left h]
  rw [hsplit, ← hlen, List.take_left, packBytes_bitsOf]

/-- The frame of `body` is received from the run `run` of an image, in which its preamble starts at
sample `n`. -/
structure FrameReceived (image : List UInt8) (n : ℕ) (body : List UInt8) (off len : ℕ)
    (run : List UInt8) : Prop where
  found : findActiveRunFrom image 0 100 = .ok (some (off, len))
  isRun : IsRun isActive image off len
  /-- The run holds the frame from its first mid-bit edge to its last one. -/
  covers : 8 * off ≤ n + 3 ∧ n + 381 + 48 * (wireFrame body).length ≤ 8 * (off + len)
  dstMac : peekDstMac rate60MHz image off len = .ok (some ((paddedBody body).take 6))
  slice : slice image off (off + len) = .ok run
  decoded : decodeFrameEdgeTrack run =
    .ok (some (paddedBody body ++ toLeBytes (crc32 (paddedBody body))))
  frameLen : deriveFrameLen (paddedBody body ++ toLeBytes (crc32 (paddedBody body))) =
    .ok (max body.length 60 + 4)
  fcs : verifyFcs (paddedBody body ++ toLeBytes (crc32 (paddedBody body)))
    (max body.length 60 + 4) = .ok true

theorem received_capturedImage (n : ℕ) (idle : Bool) (body : List UInt8) (rest : List Bool)
    (hmax : max body.length 60 + 4 ≤ 1600) (hheader : HeaderAgrees body) :
    ∃ off len run, FrameReceived (capturedImage n idle body rest) n body off len run := by
  have H := sent_capturedImage n idle body rest
  have hbits := length_bitsOf_wireFrame body
  have hwire := length_wireFrame body
  have hpad := length_paddedBody body
  have hbounds := Sent.run_bounds n idle (bitsOf (wireFrame body))
  have hfind := H.findActiveRunFrom_eq (by omega)
  have hpeek := H.peekDstMac_eq (by omega)
  obtain ⟨hrun, -⟩ := H.isRun (by omega)
  obtain ⟨extra, hextra, hdec⟩ := H.decode_eq (by omega)
  obtain ⟨off, hoff⟩ : ∃ off, off = Sent.runStart n idle := ⟨_, rfl⟩
  obtain ⟨len, hlen⟩ : ∃ len, len = Sent.runStop n (bitsOf (wireFrame body)) - off := ⟨_, rfl⟩
  rw [← hoff, ← hlen] at hfind hpeek hrun hdec
  refine ⟨off, len, ((capturedImage n idle body rest).drop off).take len, hfind, hrun, by omega,
    ?_, ?_, ?_, ?_, ?_⟩
  · rw [hpeek, packBytes_take_bitsOf (k := 6) (by omega), wireFrame,
      List.take_append_of_le_length (by omega)]
  · rw [slice_ok (Nat.le_add_right _ _) hrun.le_length, Nat.add_sub_cancel_left]
  · rw [hdec, packBytes_append_of_lt (by omega) (by omega), packBytes_bitsOf,
      capFrame_wireFrame hheader hmax, wireFrame]
  · rw [← hwire]
    exact deriveFrameLen_wireFrame hheader
  · rw [← hwire]
    exact verifyFcs_wireFrame body

/-- **Sent and received.**  A body that agrees with its header is received, whatever the idle line
before it and whatever follows its idle words; the peeked MAC is that of the body. -/
theorem frame_roundTrip (n : ℕ) (idle : Bool) (body : List UInt8) (rest : List Bool)
    (hmax : max body.length 60 + 4 ≤ 1600) (hheader : HeaderAgrees body) :
    (∃ off len run, FrameReceived (capturedImage n idle body rest) n body off len run) ∧
      (6 ≤ body.length → (paddedBody body).take 6 = body.take 6) :=
  ⟨received_capturedImage n idle body rest hmax hheader,
    fun h6 => List.take_append_of_le_length h6⟩

/-- An ARP packet of 42 bytes, behind 5 high samples. -/
def arpBody : List UInt8 :=
  List.replicate 6 0xff ++ List.replicate 6 0x02 ++ [0x08, 0x06] ++ List.replicate 28 1

theorem frame_roundTrip_arp :
    ∃ off len run, FrameReceived (capturedImage 5 true arpBody []) 5 arpBody off len run :=
  (frame_roundTrip 5 true arpBody [] (by decide) (by unfold HeaderAgrees; decide +kernel)).1

end Pico10BaseT
