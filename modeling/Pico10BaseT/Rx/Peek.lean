import Pico10BaseT.Rx.MacSpec
import Pico10BaseT.Rx.RoundTrip

/-!
# The MAC prefilter

`peek_dst_mac` samples the destination address at a fixed stride from the first falling edge, within
200 bits.  The decoder acquires at the same edge and the same SFD, but looks for the SFD in 1600 bits
and follows every mid-bit edge.  So the two read the same address exactly when the SFD comes early and
the tracked edges have not left the half-bits that the stride samples (`Sees`).

* `Acquired.peekDstMac_eq` : what the peek returns on a run that the decoder acquires.
* `prefilter_agrees_iff` : when the peek returns the address of the decoded frame, and what follows for
  frames that are accepted and frames that are published.
* `prefilter_disagrees` : runs on which it does not.
-/

namespace Pico10BaseT

/-! ### The tracked bits -/

section Track

variable {lv : ℕ → Bool} {ns tr n : ℕ}

/-- Enough bits take enough samples. -/
theorem le_of_lt_length_trackBits (h : n < (trackBits lv ns tr).length) : tr + 5 * n ≤ ns := by
  induction n generalizing tr with
  | zero =>
    by_contra hlt
    rw [trackBits_of_lt (by omega)] at h
    exact absurd h (by simp)
  | succ n ih =>
    have hle : tr ≤ ns := by
      by_contra hlt
      rw [trackBits_of_lt (by omega)] at h
      exact absurd h (by simp)
    rw [trackBits_of_le hle, List.length_cons] at h
    have hnext := ih (show n < (trackBits lv ns (advance lv ns tr)).length by omega)
    have := (advance_bounds lv ns tr).1
    omega

/-- The first bits, by the edges that the tracker follows. -/
theorem take_trackBits (h : n ≤ (trackBits lv ns tr).length) :
    (trackBits lv ns tr).take n =
      (List.range n).map fun k => lv ((advance lv ns)^[k] tr - 1) := by
  induction n generalizing tr with
  | zero => rfl
  | succ n ih =>
    have hle := le_of_lt_length_trackBits h
    rw [trackBits_of_le (by omega), List.length_cons] at h
    rw [trackBits_of_le (by omega), List.take_succ_cons, ih (by omega), List.range_succ_eq_map,
      List.map_cons, List.map_map]
    rfl

end Track

/-! ### Acquisition -/

/-- The first falling edge of the levels, and the end of the SFD by the open-loop bits after it. -/
structure Acquired (lv : ℕ → Bool) (ns f sfd : ℕ) : Prop where
  edge_lt : f < ns
  edge : FallsAt lv f
  firstEdge : ∀ i < f, ¬ FallsAt lv i
  pair_lt : rate60MHz.sampleOf f sfd < ns
  pair : PairAt rate60MHz lv f sfd
  firstPair : ∀ i < sfd, ¬ PairAt rate60MHz lv f i

theorem sampleOf_eq (f k : ℕ) : rate60MHz.sampleOf f k = f + 4 + 6 * k := rfl

/-- Acquisition looks no further than the end of the SFD. -/
theorem Acquired.congr {lv lw : ℕ → Bool} {ns f sfd : ℕ} (h : Acquired lv ns f sfd)
    (heq : ∀ i < ns, lw i = lv i) : Acquired lw ns f sfd := by
  have hedge : ∀ i ≤ f, FallsAt lw i ↔ FallsAt lv i := fun i hi => by
    have := h.edge_lt
    rw [FallsAt, FallsAt, heq i (by omega), heq (i - 1) (by omega)]
  have hpair : ∀ k ≤ sfd, PairAt rate60MHz lw f k ↔ PairAt rate60MHz lv f k := fun k hk => by
    have := h.pair_lt
    simp only [sampleOf_eq] at this
    rw [PairAt, PairAt, sampleOf_eq, sampleOf_eq, heq _ (by omega), heq _ (by omega)]
  exact ⟨h.edge_lt, (hedge f le_rfl).2 h.edge, fun i hi => mt (hedge i hi.le).1 (h.firstEdge i hi),
    h.pair_lt, (hpair sfd le_rfl).2 h.pair, fun i hi => mt (hpair i hi.le).1 (h.firstPair i hi)⟩

theorem Acquired.unique {lv : ℕ → Bool} {ns f sfd f' sfd' : ℕ} (h : Acquired lv ns f sfd)
    (h' : Acquired lv ns f' sfd') : f' = f ∧ sfd' = sfd := by
  have hf : f' = f := by
    rcases Nat.lt_trichotomy f' f with hlt | heq | hgt
    · exact absurd h'.edge (h.firstEdge f' hlt)
    · exact heq
    · exact absurd h.edge (h'.firstEdge f hgt)
  subst hf
  refine ⟨rfl, ?_⟩
  rcases Nat.lt_trichotomy sfd' sfd with hlt | heq | hgt
  · exact absurd h'.pair (h.firstPair sfd' hlt)
  · exact heq
  · exact absurd h.pair (h'.firstPair sfd hgt)

/-- A run that is decoded is acquired, and its frame is that of the tracked bits. -/
theorem acquired_of_decode {run frame : List UInt8}
    (h : decodeFrameEdgeTrack run = .ok (some frame)) :
    ∃ f sfd, Acquired (level run) (8 * run.length) f sfd ∧
      frame = finalFrame run [] (anchor (level run) (8 * run.length) f sfd) := by
  have hne : run ≠ [] := by
    rintro rfl
    cases h
  have hpos : 0 < run.length := List.length_pos_of_ne_nil hne
  have hlen : 0 + run.length * 8 ≤ 8 * run.length := by omega
  have hlv : levelsFrom run 0 = level run := by
    funext i
    rw [levelsFrom, Nat.zero_add]
  obtain ⟨tr, htr, htrpos⟩ := acquire_ok hne
  rw [decodeFrameEdgeTrack_spec htr htrpos] at h
  obtain ⟨f, hf, hedge, -⟩ := findFirstFallingEdge_spec 0 (run.length * 8) (by omega) hlen
  cases f with
  | none =>
    simp only [acquire, findF, hf, Exec.ok_bind, Exec.pure_eq, Except.ok.injEq] at htr
    rw [← htr] at h
    cases h
  | some f =>
    obtain ⟨sfd, hsfd, hpair, -⟩ := findSfdEnd_spec rate60MHz f hlen 1600
    cases sfd with
    | none =>
      simp only [acquire, findF, hf, findSfd, hsfd, Exec.ok_bind, Exec.pure_eq,
        Except.ok.injEq] at htr
      rw [← htr] at h
      cases h
    | some sfd =>
      rw [acquire_eq_some hf hsfd, Except.ok.injEq] at htr
      rw [← htr, decodeSpec, Option.map_some, Except.ok.injEq, Option.some_inj] at h
      obtain ⟨hflt, hfall, hfirst⟩ := hedge f rfl
      obtain ⟨-, hklt, hk, hkfirst⟩ := hpair sfd rfl
      rw [hlv] at hfall hfirst hk hkfirst
      exact ⟨f, sfd, ⟨by omega, hfall, hfirst, by omega, hk, hkfirst⟩, h.symm⟩

/-! ### The peek on an acquired run -/

/-- The stride of the peek sees what the tracker reads: the SFD ends early enough, and each of the 48
open-loop samples of the address has the level of the tracked one. -/
structure Sees (lv : ℕ → Bool) (ns f sfd : ℕ) : Prop where
  early : sfd + 49 ≤ peekMaxBits
  level : ∀ k < 48, lv (rate60MHz.sampleOf f (sfd + 1 + k)) =
    lv ((advance lv ns)^[k] (anchor lv ns f sfd) - 1)

/-- The peek sees the address in a run. -/
def PeekSees (run : List UInt8) : Prop :=
  ∃ f sfd, Acquired (level run) (8 * run.length) f sfd ∧ Sees (level run) (8 * run.length) f sfd

theorem Acquired.peekSees_iff {run : List UInt8} {f sfd : ℕ}
    (h : Acquired (level run) (8 * run.length) f sfd) :
    PeekSees run ↔ Sees (level run) (8 * run.length) f sfd := by
  refine ⟨?_, fun hsees => ⟨f, sfd, h, hsees⟩⟩
  rintro ⟨f', sfd', h', hsees⟩
  obtain ⟨rfl, rfl⟩ := h.unique h'
  exact hsees

/-- **The peek** returns 48 open-loop bits after the SFD, if it finds the SFD early enough. -/
theorem Acquired.peekDstMac_eq {bytes : List UInt8} {off len f sfd : ℕ}
    (h : Acquired (levelsFrom bytes (off * 8)) (len * 8) f sfd) (hlen : off + len ≤ bytes.length)
    (hin : ∀ i < sfd + 49, rate60MHz.sampleOf f i < len * 8) :
    peekDstMac rate60MHz bytes off len =
      .ok (if sfd + 49 ≤ peekMaxBits then
        some (packBytes (openBits rate60MHz (levelsFrom bytes (off * 8)) f (sfd + 1) 48))
      else none) := by
  split_ifs with hearly
  · exact peekDstMac_eq_some hlen h.edge_lt h.edge h.firstEdge hearly hin h.pair h.firstPair
  have hlen' : off * 8 + len * 8 ≤ 8 * bytes.length := by omega
  obtain ⟨r, hr, hsome, -⟩ := findSfdEnd_spec rate60MHz f hlen' peekMaxBits
  simp only [peekDstMac, findFirstFallingEdge_eq_some hlen' h.edge_lt h.edge h.firstEdge,
    Exec.ok_bind, hr]
  cases r with
  | none => rfl
  | some k =>
    obtain ⟨-, -, hpair, -⟩ := hsome k rfl
    have hle : sfd ≤ k := by
      by_contra hlt
      exact h.firstPair k (by omega) hpair
    dsimp only
    rw [if_pos (show peekMaxBits < k + 1 + 48 by omega)]
    rfl

/-- The address of a decoded frame, by the tracked bits. -/
theorem take_finalFrame {run : List UInt8} {tr : ℕ} (h : 18 ≤ (finalFrame run [] tr).length) :
    tr + 5 * 143 ≤ 8 * run.length ∧ (finalFrame run [] tr).take 6 =
      packBytes ((List.range 48).map fun k =>
        level run ((advance (level run) (8 * run.length))^[k] tr - 1)) := by
  rw [finalFrame, List.nil_append] at h ⊢
  obtain ⟨bits, hbits⟩ : ∃ b, b = trackBits (level run) (8 * run.length) tr := ⟨_, rfl⟩
  rw [← hbits] at h ⊢
  have hcap := frameCap_bounds (packBytes bits)
  have hlen : 144 ≤ bits.length := by
    rw [capFrame, List.length_take, length_packBytes] at h
    omega
  refine ⟨le_of_lt_length_trackBits (n := 143) (by rw [← hbits]; omega), ?_⟩
  have h48 : (bits.take 48).length = 48 := by
    rw [List.length_take]
    omega
  rw [← take_trackBits (by rw [← hbits]; omega), ← hbits, capFrame, List.take_take,
    Nat.min_eq_left (by omega)]
  nth_rewrite 1 [← List.take_append_drop 48 bits]
  rw [packBytes_append _ (by rw [h48]; decide), List.take_left' (by rw [length_packBytes, h48])]

/-- **When the peek agrees with the decoder.** -/
theorem peek_eq_iff {bytes run frame : List UInt8} {off len : ℕ}
    (hslice : slice bytes off (off + len) = .ok run)
    (hdec : decodeFrameEdgeTrack run = .ok (some frame)) (h18 : 18 ≤ frame.length) :
    peekDstMac rate60MHz bytes off len = .ok (some (frame.take 6)) ↔ PeekSees run := by
  obtain ⟨f, sfd, hacq, rfl⟩ := acquired_of_decode hdec
  obtain ⟨hfits, htake⟩ := take_finalFrame h18
  rw [hacq.peekSees_iff, htake]
  obtain ⟨hle, hrun⟩ : off + len ≤ bytes.length ∧ run = (bytes.drop off).take len := by
    rw [slice, Nat.add_sub_cancel_left] at hslice
    split_ifs at hslice with hb
    exact ⟨hb.2, (Except.ok.inj hslice).symm⟩
  have hlen : run.length = len := by
    rw [hrun, List.length_take, List.length_drop]
    omega
  -- the levels of the run are those of the image
  have hlevels : ∀ i < len * 8, levelsFrom bytes (off * 8) i = level run i := fun i hi => by
    have hw := @Sent.windowed_slice bytes off (off + len) i (by omega)
    rw [Nat.add_sub_cancel_left, ← hrun] at hw
    rw [levelsFrom, hw, Nat.mul_comm]
  rw [hlen, Nat.mul_comm 8 len] at hacq htake hfits ⊢
  have hanchor := nextEdge_bounds (level run) (f + (5 + 6 * (sfd + 1)))
  have hpos : f + (5 + 6 * (sfd + 1)) - 1 ≤ anchor (level run) (len * 8) f sfd := by
    unfold anchor
    split_ifs <;> omega
  have hin : ∀ i < sfd + 49, rate60MHz.sampleOf f i < len * 8 := fun i hi => by
    rw [sampleOf_eq]
    omega
  have hopen : openBits rate60MHz (levelsFrom bytes (off * 8)) f (sfd + 1) 48 =
      (List.range 48).map fun k => level run (rate60MHz.sampleOf f (sfd + 1 + k)) :=
    List.map_congr_left fun k hk => hlevels _ (hin _ (by rw [List.mem_range] at hk; omega))
  rw [(hacq.congr hlevels).peekDstMac_eq hle hin, hopen]
  split_ifs with hearly
  · rw [Except.ok.injEq, Option.some_inj, packBytes_inj (by simp) (by simp),
      List.map_inj_left]
    exact ⟨fun h => ⟨hearly, fun k hk => h k (List.mem_range.2 hk)⟩,
      fun h k hk => h.level k (List.mem_range.1 hk)⟩
  · exact ⟨fun h => (by cases h), fun h => absurd h.early hearly⟩

/-- **When the prefilter agrees with the decoder.**  For every slice of an image that decodes to a
frame with a valid FCS, the peek returns the address of that frame exactly when it sees the address
(`PeekSees`); then it hides no frame that is accepted.  For every frame that is published, the peeked
address is accepted; it is the address of the frame exactly when the peek sees it, and then that
address is accepted. -/
theorem prefilter_agrees_iff (bytes : List UInt8) :
    (∀ off len run frame flen, slice bytes off (off + len) = .ok run →
      decodeFrameEdgeTrack run = .ok (some frame) → deriveFrameLen frame = .ok flen →
      verifyFcs frame flen = .ok true →
      (peekDstMac rate60MHz bytes off len = .ok (some (frame.take 6)) ↔ PeekSees run) ∧
      ∀ ourMac, PeekSees run → macAccept (frame.take 6) ourMac = true →
        ∃ dst, peekDstMac rate60MHz bytes off len = .ok (some dst) ∧ macAccept dst ourMac = true) ∧
    ∀ ourMac stitchCl cursor acc stitch t p,
      scanTurn ourMac bytes stitchCl cursor acc stitch = .ok (some t) → t.publish = some p →
      ∃ off len run dst, findActiveRunFrom bytes cursor 100 = .ok (some (off, len)) ∧
        slice bytes off (off + len) = .ok run ∧
        peekDstMac rate60MHz bytes off len = .ok (some dst) ∧ macAccept dst ourMac = true ∧
        (p.take 6 = dst ↔ PeekSees run) ∧
        (PeekSees run → macAccept (p.take 6) ourMac = true) := by
  refine ⟨fun off len run frame flen hslice hdec hflen hfcs => ?_,
    fun ourMac stitchCl cursor acc stitch t p hturn hpub => ?_⟩
  · obtain ⟨hlo, hhi⟩ := verifyFcs_bounds hfcs
    have hiff := peek_eq_iff hslice hdec (by omega)
    exact ⟨hiff, fun ourMac hsees hacc => ⟨_, hiff.2 hsees, hacc⟩⟩
  · obtain ⟨off, len, hfind, hscan⟩ := scanTurn_scanned hturn
    obtain ⟨dst, frame, hp⟩ := hscan.publishedFrom hpub
    obtain ⟨run, hslice, hdec⟩ := hp.decoded
    obtain ⟨hlo, hhi⟩ := verifyFcs_bounds hp.fcs
    have htake : p.take 6 = frame.take 6 := by
      rw [hp.eq_take, List.take_take, Nat.min_eq_left (by omega)]
    have hiff : p.take 6 = dst ↔ PeekSees run := by
      rw [← peek_eq_iff hslice hdec (by omega), hp.peeked, Except.ok.injEq, Option.some_inj, htake,
        eq_comm]
    exact ⟨off, len, run, dst, hfind, hslice, hp.peeked, hp.accepted, hiff,
      fun hsees => hiff.2 hsees ▸ hp.accepted⟩

/-- The peek sees the address of a frame that is sampled ideally. -/
theorem prefilter_agrees_arp :
    ∃ off len run, FrameReceived (capturedImage 5 true arpBody []) 5 arpBody off len run ∧
      PeekSees run := by
  obtain ⟨off, len, run, h⟩ := received_capturedImage 5 true arpBody [] (by decide)
    (by unfold HeaderAgrees; decide +kernel)
  obtain ⟨hiff, -⟩ := (prefilter_agrees_iff _).1 off len run _ _ h.slice h.decoded h.frameLen h.fcs
  refine ⟨off, len, run, h, hiff.1 ?_⟩
  rw [h.dstMac, List.take_append_of_le_length (by rw [length_paddedBody]; omega)]

/-! ### Runs on which they disagree -/

/-- A header of 14 bytes, and its FCS. -/
def shortFrame (dst : List UInt8) : List UInt8 :=
  let header := dst ++ [2, 0, 0, 0, 0, 2, 0x88, 0xb5]
  header ++ toLeBytes (crc32 header)

/-- Bytes on the line, ideally sampled. -/
def lineBytes (bytes : List UInt8) : List UInt8 :=
  bytes.flatMap fun b => packBytes (manchester (bitsOfByte b))

/-- A frame behind a preamble of 160 bits. -/
def lateRun : List UInt8 :=
  lineBytes (List.replicate 20 0x55 ++ 0xd5 :: shortFrame [2, 0, 0, 0, 0, 1])

/-- A frame to the zero address; preamble and SFD are two samples late. -/
def slippedRun : List UInt8 :=
  packBytes ((true :: true :: manchester (bitsOf (List.replicate 7 0x55 ++ [0xd5]))).take 384) ++
    lineBytes (shortFrame (List.replicate 6 0))

theorem lateRun_decoded :
    decodeFrameEdgeTrack lateRun = .ok (some (shortFrame [2, 0, 0, 0, 0, 1])) := by
  decide +kernel

theorem slippedRun_published :
    (scanTurn [2, 0, 0, 0, 0, 1] slippedRun none 0 .new ⟨0, 0⟩).map (·.bind Turn.publish) =
      .ok (some (shortFrame (List.replicate 6 0))) := by
  decide +kernel

/-- **The prefilter disagrees with the decoder**: it hides an FCS-valid frame to us whose SFD is late,
and lets through one to another address when two samples are lost after the SFD. -/
theorem prefilter_disagrees :
    (∃ frame flen, findActiveRunFrom lateRun 0 100 = .ok (some (0, 234)) ∧
      slice lateRun 0 234 = .ok lateRun ∧ decodeFrameEdgeTrack lateRun = .ok (some frame) ∧
      deriveFrameLen frame = .ok flen ∧ verifyFcs frame flen = .ok true ∧
      macAccept (frame.take 6) [2, 0, 0, 0, 0, 1] = true ∧
      peekDstMac rate60MHz lateRun 0 234 = .ok none) ∧
    ∃ t p, scanTurn [2, 0, 0, 0, 0, 1] slippedRun none 0 .new ⟨0, 0⟩ = .ok (some t) ∧
      t.publish = some p ∧ macAccept (p.take 6) [2, 0, 0, 0, 0, 1] = false := by
  refine ⟨⟨_, 18, by decide +kernel, by decide +kernel, lateRun_decoded, by decide +kernel,
    by decide +kernel, by decide +kernel, by decide +kernel⟩, ?_⟩
  obtain ⟨turn, hturn, hpub⟩ := Exec.map_eq_ok.1 slippedRun_published
  obtain ⟨t, rfl, hp⟩ := Option.bind_eq_some_iff.1 hpub
  exact ⟨t, _, hturn, hp, by decide +kernel⟩

end Pico10BaseT
