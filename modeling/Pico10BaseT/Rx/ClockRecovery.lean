import Pico10BaseT.Rx.EdgeTrack

/-!
# Clock recovery

A line signal whose data edges drift: `Received` allows every mid-bit edge to come a sample early
or late with respect to the one before, without a bound on the sum.  `Received.advance_eq` is the
lock invariant: if the tracker stands on one mid-bit edge, it finds the next, because every other
edge in its window is too far away.  By induction the tracked bits are the bits sent
(`Received.trackBits_eq`), and `decode_received` reads the frame off them.
-/

namespace Pico10BaseT

/-- The bits of preamble and SFD: ones and zeros in turn, and a one at the end. -/
def preambleBit (k : ℕ) : Bool := decide (k % 2 = 0) || decide (k = 63)

/-- Where the first half of bit `i` starts: after the SFD, or after the second half of the bit
before. -/
def halfStart (n : ℕ) (m h : ℕ → ℕ) (i : ℕ) : ℕ :=
  if i = 0 then n + 384 else m (i - 1) + h (i - 1)

/-- The levels `lv`, of which there are `ns`, are an idle line for `n` samples, an ideal preamble and
SFD, and then `bits`.  Bit `i` has its mid-bit edge at `m i`, and its second half is `h i` samples
long; consecutive edges are 5 to 7 samples apart. -/
structure Received (lv : ℕ → Bool) (ns n : ℕ) (idle : Bool) (bits : List Bool) (m h : ℕ → ℕ) :
    Prop where
  fits : n + 384 ≤ ns
  idle : ∀ i < n, lv i = idle
  preamble : ∀ k < 64, ∀ j < 6, lv (n + 6 * k + j) = (preambleBit k ^^ decide (3 ≤ j))
  /-- The SFD's last mid-bit edge is at `n + 381`. -/
  firstEdge : 0 < bits.length → m 0 = n + 381 + 5 ∨ m 0 = n + 381 + 6
  edges : ∀ i < bits.length, 0 < i → m (i - 1) + 5 ≤ m i ∧ m i ≤ m (i - 1) + 7
  halves : ∀ i < bits.length, 2 ≤ h i ∧ h i ≤ 4
  firstHalf : ∀ i, ∀ hi : i < bits.length, ∀ s < ns, halfStart n m h i ≤ s → s < m i → lv s = bits[i]
  secondHalf : ∀ i, ∀ hi : i < bits.length, ∀ s < ns, m i ≤ s → s < m i + h i → lv s = !bits[i]

namespace Received

variable {lv : ℕ → Bool} {ns n : ℕ} {idle : Bool} {bits : List Bool} {m h : ℕ → ℕ}

/-- **The lock invariant.**  From one mid-bit edge the tracker moves to the next. -/
theorem advance_eq (H : Received lv ns n idle bits m h) {i : ℕ} (hi : i + 1 < bits.length)
    (hin : m (i + 1) + 3 ≤ ns) : advance lv ns (m i) = m (i + 1) := by
  obtain ⟨hlo, hhi⟩ := H.edges (i + 1) hi (by omega)
  rw [Nat.add_sub_cancel] at hlo hhi
  have hh := H.halves i (by omega)
  have hh' := H.halves (i + 1) hi
  have hfirst : ∀ s, m i + h i ≤ s → s < m (i + 1) → lv s = bits[i + 1] := fun s h1 h2 =>
    H.firstHalf (i + 1) hi s (by omega) h1 h2
  have hsecond := H.secondHalf (i + 1) hi
  -- the levels on both sides of the edge
  have hat : lv (m (i + 1)) = !bits[i + 1] := hsecond _ (by omega) le_rfl (by omega)
  have hedge : lv (m (i + 1) - 1) ≠ lv (m (i + 1)) := by
    rw [hfirst (m (i + 1) - 1) (by omega) (by omega), hat]
    exact Bool.self_ne_not _
  rw [advance, if_pos (by omega)]
  obtain he | he | he : m (i + 1) = m i + 5 ∨ m (i + 1) = m i + 6 ∨ m (i + 1) = m i + 7 := by omega
  · -- early: the second half of the bit covers the predicted edge
    rw [show m i + 6 = m (i + 1) + 1 by omega]
    refine nextEdge_of_early hedge ?_
    rw [hat, hsecond (m (i + 1) + 1) (by omega) (by omega) (by omega)]
  · rw [← he]
    exact nextEdge_of_edge hedge
  · -- late: the first half of the bit covers the rest of the window
    have hb : ∀ s, m (i + 1) - 3 ≤ s → s < m (i + 1) → lv s = bits[i + 1] := fun s h1 h2 =>
      hfirst s (by omega) h2
    rw [show m i + 6 = m (i + 1) - 1 by omega]
    refine nextEdge_of_late (by omega) hedge ?_ ?_
    · rw [hb _ (by omega) (by omega), hb _ (by omega) (by omega)]
    · rw [hb _ (by omega) (by omega), hb _ (by omega) (by omega)]

/-- The sample before the mid-bit edge is the bit. -/
theorem level_before (H : Received lv ns n idle bits m h) {i : ℕ} (hi : i < bits.length)
    (hin : m i + 3 ≤ ns) : lv (m i - 1) = bits[i] := by
  have hstart : halfStart n m h i < m i := by
    unfold halfStart
    split_ifs with h0
    · subst h0
      have := H.firstEdge hi
      omega
    · have := H.edges i hi (by omega)
      have := H.halves (i - 1) (by omega)
      omega
  exact H.firstHalf i hi _ (by omega) (by omega) (by omega)

/-- **The tracked bits** from edge `i` on begin with the bits sent from `i` on. -/
theorem trackBits_eq (H : Received lv ns n idle bits m h) {K : ℕ} (hK : K ≤ bits.length)
    (hin : ∀ i < K, m i + 3 ≤ ns) {i c : ℕ} (hi : i + c = K) (hpos : 0 < c) :
    ∃ rest, trackBits lv ns (m i) = (bits.take K).drop i ++ rest := by
  induction c generalizing i with
  | zero => omega
  | succ c ih =>
    have hi' : i < bits.length := by omega
    have hdrop : (bits.take K).drop i = bits[i] :: (bits.take K).drop (i + 1) := by
      rw [List.drop_eq_getElem_cons (by rw [List.length_take]; omega), List.getElem_take]
    have hini := hin i (by omega)
    rw [trackBits_of_le (by omega), H.level_before hi' hini, hdrop]
    cases c with
    | zero =>
      rw [List.drop_of_length_le (by rw [List.length_take]; omega)]
      exact ⟨_, rfl⟩
    | succ c =>
      obtain ⟨rest, hrest⟩ := ih (i := i + 1) (by omega) (by omega)
      rw [H.advance_eq (by omega) (hin _ (by omega)), hrest]
      exact ⟨rest, rfl⟩

/-! ### Acquisition -/

/-- The first falling edge is the mid-bit edge of the first preamble bit. -/
theorem fallsAt_first (H : Received lv ns n idle bits m h) :
    FallsAt lv (n + 3) ∧ ∀ k < n + 3, ¬ FallsAt lv k := by
  refine fallsAt_of_step H.idle (fun i h1 h2 => ?_) (by omega) ?_
  · have := H.preamble 0 (by omega) (i - n) (by omega)
    rw [Nat.mul_zero, Nat.add_zero, Nat.add_sub_cancel' h1, decide_eq_false (by omega)] at this
    exact this
  · simpa [preambleBit] using H.preamble 0 (by omega) 3 (by omega)

/-- Open-loop bit `k` is bit `k + 1` of preamble and SFD. -/
theorem level_sampleOf (H : Received lv ns n idle bits m h) {k : ℕ} (hk : k + 1 < 64) :
    lv (rate60MHz.sampleOf (n + 3) k) = preambleBit (k + 1) := by
  have := H.preamble (k + 1) hk 1 (by omega)
  rw [show n + 6 * (k + 1) + 1 = rate60MHz.sampleOf (n + 3) k by
    simp only [SampleRate.sampleOf, rate60MHz]; omega] at this
  simpa using this

/-- The SFD ends at open-loop bit 62. -/
theorem pairAt_sfd (H : Received lv ns n idle bits m h) :
    PairAt rate60MHz lv (n + 3) 62 ∧ ∀ k < 62, ¬ PairAt rate60MHz lv (n + 3) k := by
  refine ⟨⟨by omega, ?_, ?_⟩, fun k hk hp => ?_⟩
  · rw [H.level_sampleOf (by omega)]
    decide
  · rw [H.level_sampleOf (by omega)]
    decide
  · obtain ⟨h1, hprev, hcur⟩ := hp
    rw [H.level_sampleOf (by omega)] at hprev hcur
    simp only [preambleBit, Bool.or_eq_true, decide_eq_true_eq] at hprev hcur
    omega

/-- The initial anchor is the first data edge. -/
theorem anchor_eq (H : Received lv ns n idle bits m h) (hpos : 0 < bits.length)
    (hin : m 0 + 3 ≤ ns) : anchor lv ns (n + 3) 62 = m 0 := by
  have hfirst : ∀ s, n + 384 ≤ s → s < m 0 → lv s = bits[0] := fun s h1 h2 =>
    H.firstHalf 0 hpos s (by omega) h1 h2
  have hh := H.halves 0 hpos
  have he := H.firstEdge hpos
  have hedge : lv (m 0 - 1) ≠ lv (m 0) := by
    rw [hfirst (m 0 - 1) (by omega) (by omega),
      H.secondHalf 0 hpos (m 0) (by omega) le_rfl (by omega)]
    exact Bool.self_ne_not _
  rw [anchor, if_pos (by omega)]
  rcases he with he | he
  · rw [show n + 3 + (5 + 6 * (62 + 1)) = m 0 by omega]
    exact nextEdge_of_edge hedge
  · -- late: the window starts with the first half of the bit
    rw [show n + 3 + (5 + 6 * (62 + 1)) = m 0 - 1 by omega]
    have hb : ∀ s, m 0 - 3 ≤ s → s < m 0 → lv s = bits[0] := fun s h1 h2 =>
      hfirst s (by omega) h2
    refine nextEdge_of_late (by omega) hedge ?_ ?_
    · rw [hb _ (by omega) (by omega), hb _ (by omega) (by omega)]
    · rw [hb _ (by omega) (by omega), hb _ (by omega) (by omega)]

end Received

/-- **Clock recovery does not accumulate drift.**  The decoder returns a frame that begins with the
bytes sent, up to the length cap of the frame, as far as the mid-bit edges lie three samples inside
the capture. -/
theorem decode_received {buf : List UInt8} {n : ℕ} {idle : Bool} {bits : List Bool} {m h : ℕ → ℕ}
    (H : Received (level buf) (8 * buf.length) n idle bits m h) :
    ∃ frame, decodeFrameEdgeTrack buf = .ok (some frame) ∧
      ∀ K, 8 * K ≤ bits.length → (∀ i < 8 * K, m i + 3 ≤ 8 * buf.length) →
        ∃ rest, frame = capFrame (packBytes (bits.take (8 * K)) ++ rest) := by
  have hfits := H.fits
  have hlv : levelsFrom buf 0 = level buf := by
    funext i
    rw [levelsFrom, Nat.zero_add]
  obtain ⟨hfall, hffirst⟩ := H.fallsAt_first
  obtain ⟨hpair, hpfirst⟩ := H.pairAt_sfd
  rw [← hlv] at hfall hffirst hpair hpfirst
  have hf : findF buf (buf.length * 8) = .ok (some (n + 3)) :=
    findFirstFallingEdge_eq_some (by omega) (by omega) hfall hffirst
  have hsfd : findSfd buf (buf.length * 8) (n + 3) = .ok (some 62) := by
    refine findSfdEnd_eq_some (by omega) (by omega) (fun i hi => ?_) hpair hpfirst
    simp only [SampleRate.sampleOf, rate60MHz]
    omega
  have hdec := decodeFrameEdgeTrack_spec (acquire_eq_some hf hsfd) fun t ht => by
    cases ht
    exact anchor_pos _ _ _ _
  refine ⟨_, hdec, fun K hK hin => ?_⟩
  rw [finalFrame, List.nil_append]
  rcases Nat.eq_zero_or_pos K with rfl | hK0
  · rw [Nat.mul_zero, List.take_zero, packBytes_of_length_lt (by simp : ([] : List Bool).length < 8)]
    exact ⟨_, rfl⟩
  · obtain ⟨rest, hrest⟩ := H.trackBits_eq hK hin (i := 0) (Nat.zero_add _) (by omega)
    rw [H.anchor_eq (by omega) (hin 0 (by omega)), hrest, List.drop_zero,
      packBytes_append _ (by rw [List.length_take, Nat.min_eq_left hK]; exact Nat.dvd_mul_right 8 K)]
    exact ⟨_, rfl⟩

/-- The drifting byte is decoded. -/
theorem decode_received_drift :
    ∃ rest, decodeFrameEdgeTrack driftCapture = .ok (some (capFrame (0xd3 :: rest))) := by
  have H : Received (level driftCapture) 440 5 true
      [true, true, false, false, true, false, true, true]
      (fun i => [391, 396, 403, 410, 415, 421, 426, 433].getD i 0)
      (fun i => [2, 3, 4, 2, 3, 2, 4, 3].getD i 0) := by
    constructor <;> decide +kernel
  obtain ⟨frame, hdec, hframe⟩ :=
    decode_received (show Received _ (8 * driftCapture.length) _ _ _ _ _ from H)
  obtain ⟨rest, rfl⟩ := hframe 1 (by decide) (by decide +kernel)
  exact ⟨rest, hdec⟩

end Pico10BaseT
