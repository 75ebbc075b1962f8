import Pico10BaseT.Rx.Dpll

/-!
# What the edge-track decoder computes

The decoder as two pure functions.  `trackBits` follows the mid-bit edges and reads the sample
before each; `capFrame` cuts the packed bits to the length that the header declares.  Both loops
compute them (`fastLoop_spec`, `tailLoop_spec`), the fast path by a table lookup on a window that
holds the same four samples (`window_testBit`, `edgeDelta_window`).

* `finalTracker_spec` : where the decoder stops, and why.
* `decodeFrameEdgeTrack_spec` : the decoder returns, reads inside the capture, and what it returns.
* `decode_eq_tailOnly` : the fast path changes nothing.
-/

namespace Pico10BaseT

/-! ### Tracking -/

/-- The edge nearest to `center`, on levels. -/
def nextEdge (lv : ℕ → Bool) (center : ℕ) : ℕ :=
  if lv (center - 1) ≠ lv center then center
  else if lv (center - 2) ≠ lv (center - 1) then center - 1
  else if lv center ≠ lv (center + 1) then center + 1
  else center

/-- The edge after `tr`; near the end of the `ns` samples the prediction itself. -/
def advance (lv : ℕ → Bool) (ns tr : ℕ) : ℕ :=
  if tr + 7 < ns then nextEdge lv (tr + 6) else tr + 6

theorem nextEdge_bounds (lv : ℕ → Bool) (center : ℕ) :
    center - 1 ≤ nextEdge lv center ∧ nextEdge lv center ≤ center + 1 := by
  unfold nextEdge
  split_ifs <;> omega

/-- An edge where it is predicted is found. -/
theorem nextEdge_of_edge {lv : ℕ → Bool} {e : ℕ} (h : lv (e - 1) ≠ lv e) : nextEdge lv e = e :=
  if_pos h

/-- An early edge is found, if the level stays. -/
theorem nextEdge_of_early {lv : ℕ → Bool} {e : ℕ} (h : lv (e - 1) ≠ lv e)
    (hstay : lv e = lv (e + 1)) : nextEdge lv (e + 1) = e := by
  rw [nextEdge, Nat.add_sub_cancel, show e + 1 - 2 = e - 1 by omega, if_neg (by simpa using hstay),
    if_pos h]

/-- A late edge is found, if the level was there for three samples. -/
theorem nextEdge_of_late {lv : ℕ → Bool} {e : ℕ} (he : 3 ≤ e) (h : lv (e - 1) ≠ lv e)
    (h2 : lv (e - 2) = lv (e - 1)) (h3 : lv (e - 3) = lv (e - 1)) : nextEdge lv (e - 1) = e := by
  rw [nextEdge, show e - 1 - 1 = e - 2 by omega, show e - 1 - 2 = e - 3 by omega,
    Nat.sub_add_cancel (by omega), if_neg (by simpa using h2), if_neg (by simp [h2, h3]), if_pos h]

theorem advance_bounds (lv : ℕ → Bool) (ns tr : ℕ) :
    tr + 5 ≤ advance lv ns tr ∧ advance lv ns tr ≤ tr + 7 := by
  have := nextEdge_bounds lv (tr + 6)
  unfold advance
  split_ifs <;> omega

/-- The data bits from the edge `tr` on: the sample before each edge. -/
def trackBits (lv : ℕ → Bool) (ns tr : ℕ) : List Bool :=
  if tr ≤ ns then lv (tr - 1) :: trackBits lv ns (advance lv ns tr) else []
  termination_by ns + 1 - tr
  decreasing_by
    have := (advance_bounds lv ns tr).1
    omega

theorem trackBits_of_le {lv : ℕ → Bool} {ns tr : ℕ} (h : tr ≤ ns) :
    trackBits lv ns tr = lv (tr - 1) :: trackBits lv ns (advance lv ns tr) := by
  rw [trackBits, if_pos h]

theorem trackBits_of_lt {lv : ℕ → Bool} {ns tr : ℕ} (h : ns < tr) : trackBits lv ns tr = [] := by
  rw [trackBits, if_neg (by omega)]

/-! ### The length cap -/

/-- The cap that the header bytes of a frame declare. -/
def frameCap (frame : List UInt8) : ℕ :=
  if 18 ≤ frame.length ∧ wordAt frame 12 = 0x0800 then
    min (max (14 + (wordAt frame 16).toNat + 4) 64) maxFrameBytes
  else maxFrameBytes

/-- A frame cut to its cap. -/
def capFrame (frame : List UInt8) : List UInt8 := frame.take (frameCap frame)

theorem frameCap_bounds (frame : List UInt8) : 64 ≤ frameCap frame ∧ frameCap frame ≤ 1600 := by
  unfold frameCap maxFrameBytes
  split_ifs <;> omega

/-- The cap is fixed once the header is there. -/
theorem frameCap_append {a : List UInt8} (b : List UInt8) (h : 18 ≤ a.length) :
    frameCap (a ++ b) = frameCap a := by
  have hw : ∀ i, i + 1 < 18 → wordAt (a ++ b) i = wordAt a i := fun i hi => by
    rw [wordAt, wordAt, byteAt_append_left b (by omega), byteAt_append_left b (by omega)]
  simp only [frameCap, hw 12 (by omega), hw 16 (by omega), List.length_append, h,
    show 18 ≤ a.length + b.length by omega, true_and]

theorem capFrame_of_length_le {frame : List UInt8} (h : frame.length ≤ frameCap frame) :
    capFrame frame = frame :=
  List.take_of_length_le h

/-- A frame that has reached its cap is not changed by what follows. -/
theorem capFrame_append_of_length_eq {a : List UInt8} (b : List UInt8)
    (h : a.length = frameCap a) : capFrame (a ++ b) = a := by
  have hcap := frameCap_bounds a
  rw [capFrame, frameCap_append b (by omega), ← h, List.take_left]

/-! ### The frame under construction -/

/-- The packer holds the bits pushed so far, and has not reached the cap. -/
structure Packer.Holds (p : Packer) (bits : List Bool) : Prop where
  frame : p.frame = packBytes bits
  byte : p.byte = packByte (restBits bits)
  bitIdx : p.bitIdx = UInt8.ofNat (bits.length % 8)
  cap : p.capBytes = frameCap p.frame
  lt : p.frame.length < p.capBytes

theorem Packer.holds_new : Packer.new.Holds [] :=
  ⟨rfl, rfl, rfl, rfl, by decide⟩

/-- The cap is derived when the last header byte is pushed. -/
theorem Packer.deriveCap_ok {frame : List UInt8} {byte : UInt8} :
    deriveCap (frame ++ [byte]) (frameCap frame) = .ok (frameCap (frame ++ [byte])) := by
  unfold deriveCap
  by_cases h : (frame ++ [byte]).length = 18
  · have hcap : frameCap frame = maxFrameBytes := by
      have : ¬ 18 ≤ frame.length := by
        simp only [List.length_append, List.length_singleton] at h
        omega
      simp [frameCap, this]
    simp only [h, hcap, and_self, if_true, rd16_ok (show 12 + 1 < (frame ++ [byte]).length by omega),
      rd16_ok (show 16 + 1 < (frame ++ [byte]).length by omega), Exec.ok_bind, Exec.pure_eq]
    simp only [frameCap, h, le_refl, true_and]
    split_ifs <;> rfl
  · simp only [h, false_and, if_false, Exec.pure_eq]
    simp only [List.length_append, List.length_singleton] at h
    by_cases h18 : 18 ≤ frame.length
    · rw [frameCap_append _ h18]
    · have h18' : ¬ 18 ≤ frame.length + 1 := by omega
      simp [frameCap, h18, h18']

/-- A byte pushed onto a frame below its cap does not pass the cap. -/
theorem length_le_frameCap_snoc {frame : List UInt8} (byte : UInt8)
    (h : frame.length < frameCap frame) :
    (frame ++ [byte]).length ≤ frameCap (frame ++ [byte]) := by
  rw [List.length_append, List.length_singleton]
  by_cases h18 : 18 ≤ frame.length
  · rwa [frameCap_append _ h18]
  · have := frameCap_bounds (frame ++ [byte])
    omega

/-- **One data bit**: the packer holds it too, or the frame is complete. -/
theorem Packer.push_spec {p : Packer} {bits : List Bool} (h : p.Holds bits) (b : Bool) :
    ∃ p' done, p.push b.toUInt8 = .ok (p', done) ∧
      (done = false → p'.Holds (bits ++ [b])) ∧
      (done = true → 8 ∣ (bits ++ [b]).length ∧ p'.frame = packBytes (bits ++ [b]) ∧
        p'.frame.length = frameCap p'.frame) := by
  have hlt : p.frame.length < frameCap p.frame := h.cap ▸ h.lt
  have hcap := frameCap_bounds p.frame
  have hlen : (bits ++ [b]).length = bits.length + 1 := by simp
  have hbyte : p.byte ||| (b.toUInt8 <<< p.bitIdx) = packByte (restBits bits ++ [b]) := by
    rw [packByte_snoc, h.byte, h.bitIdx, length_restBits]
  have hidx : (p.bitIdx + 1).toNat = bits.length % 8 + 1 := by
    rw [h.bitIdx, UInt8.toNat_add, UInt8.toNat_ofNat', UInt8.toNat_one]
    omega
  have hidx8 : p.bitIdx + 1 = 8 ↔ bits.length % 8 = 7 := by
    rw [← UInt8.toNat_inj, hidx, show (8 : UInt8).toNat = 8 from rfl]
    omega
  simp only [push, hbyte, hidx8]
  by_cases h7 : bits.length % 8 = 7
  · have hfull : p.frame.length ≠ maxFrameBytes := by
      simp only [maxFrameBytes]
      omega
    have hle := length_le_frameCap_snoc (packByte (restBits bits ++ [b])) hlt
    simp only [h7, if_true, hfull, if_false, h.cap, deriveCap_ok, Exec.ok_bind, Exec.pure_eq]
    rw [h.frame, ← packBytes_snoc_of_mod_eq b h7] at hle ⊢
    refine ⟨_, _, rfl, fun hd => ?_, fun hd => ⟨by omega, rfl, Nat.le_antisymm hle ?_⟩⟩
    · have h0 : (bits ++ [b]).length % 8 = 0 := by omega
      have hrest : restBits (bits ++ [b]) = [] := by
        rw [← List.length_eq_zero_iff, length_restBits, h0]
      exact ⟨rfl, by rw [hrest]; rfl, by rw [h0]; rfl, rfl, by simpa using hd⟩
    · simpa using hd
  · simp only [h7, if_false]
    refine ⟨_, false, rfl, fun _ => ⟨?_, ?_, ?_, h.cap, h.lt⟩, by simp⟩
    · rw [packBytes_snoc_of_mod_ne b h7]
      exact h.frame
    · have hdiv : (bits ++ [b]).length / 8 = bits.length / 8 := by omega
      rw [restBits, restBits, hdiv, List.drop_append_of_le_length (Nat.mul_div_le _ _)]
    · apply UInt8.toNat_inj.1
      rw [hidx, UInt8.toNat_ofNat']
      omega

/-! ### The tail -/

section Loops

variable {buf : List UInt8}

theorem sampleBitUnchecked_ok {off : ℕ} (h : off < 8 * buf.length) :
    sampleBitUnchecked buf off = .ok (level buf off).toUInt8 := by
  obtain ⟨hb, hk⟩ := offset_split off
  rw [sampleBitUnchecked, hb, hk, getUnchecked_eq_byteAt (by omega), Exec.ok_bind,
    shiftRight_and_one _ (Nat.mod_lt _ (by omega))]
  rfl

theorem toUInt8_inj {a b : Bool} : a.toUInt8 = b.toUInt8 ↔ a = b := by
  cases a <;> cases b <;> decide

theorem findEdgeW1_ok {center : ℕ} (h : center + 1 < 8 * buf.length) :
    findEdgeW1 buf center = .ok (nextEdge (level buf) center) := by
  rw [findEdgeW1, sampleBitUnchecked_ok (by omega), sampleBitUnchecked_ok (by omega),
    sampleBitUnchecked_ok (by omega), sampleBitUnchecked_ok (by omega)]
  simp only [Exec.ok_bind, Exec.pure_eq, ne_eq, toUInt8_inj, nextEdge]

/-- What the tracker has pending is the sample before its edge. -/
def Dpll.Consistent (buf : List UInt8) (d : Dpll) : Prop :=
  ∀ b, d.pending = some b → b.toUInt8 = (level buf (d.tr - 1)).toUInt8

theorem Dpll.takeBit_ok {d : Dpll} (h : d.Consistent buf) (h1 : 1 ≤ d.tr)
    (hle : d.tr ≤ 8 * buf.length) : d.takeBit buf = .ok (level buf (d.tr - 1)).toUInt8 := by
  unfold takeBit
  cases hp : d.pending with
  | none => exact sampleBitUnchecked_ok (by omega)
  | some b => exact congrArg Except.ok (h b hp)

/-- The frame that the bits from `d.tr` on complete. -/
def finalFrame (buf : List UInt8) (bits : List Bool) (tr : ℕ) : List UInt8 :=
  capFrame (packBytes (bits ++ trackBits (level buf) (8 * buf.length) tr))

theorem finalFrame_of_le {bits : List Bool} {tr : ℕ} (h : tr ≤ 8 * buf.length) :
    finalFrame buf bits tr =
      finalFrame buf (bits ++ [level buf (tr - 1)]) (advance (level buf) (8 * buf.length) tr) := by
  rw [finalFrame, trackBits_of_le h, List.append_cons]
  rfl

/-- Once the packer is done, the bits that follow do not matter. -/
theorem finalFrame_of_done {bits : List Bool} {tr : ℕ} (h8 : 8 ∣ bits.length)
    (hcap : (packBytes bits).length = frameCap (packBytes bits)) :
    finalFrame buf bits tr = packBytes bits := by
  rw [finalFrame, packBytes_append _ h8, capFrame_append_of_length_eq _ hcap]

theorem finalFrame_of_lt {bits : List Bool} {tr : ℕ} (h : 8 * buf.length < tr)
    (hlt : (packBytes bits).length < frameCap (packBytes bits)) :
    finalFrame buf bits tr = packBytes bits := by
  rw [finalFrame, trackBits_of_lt h, List.append_nil, capFrame_of_length_le hlt.le]

theorem Packer.Holds.length_lt {p : Packer} {bits : List Bool} (h : p.Holds bits) :
    (packBytes bits).length < frameCap (packBytes bits) := by
  rw [← h.frame, ← h.cap]
  exact h.lt

/-- The next data bit would be read behind the last sample. -/
def Dpll.RanOut (buf : List UInt8) (d : Dpll) : Prop := 8 * buf.length < d.tr

/-- **The tail** returns the frame of the bits held and those that are still to come, when the samples
run out or the frame has reached its cap. -/
theorem tailLoop_spec {fuel : ℕ} {bits : List Bool} {d : Dpll} (hpos : 1 ≤ fuel)
    (hfuel : 8 * buf.length + 2 ≤ fuel + d.tr) (h1 : 1 ≤ d.tr) (hd : d.Consistent buf)
    (hp : d.out.Holds bits) :
    ∃ d', tailLoop buf fuel d = .ok d' ∧ d'.out.frame = finalFrame buf bits d.tr ∧
      (d'.RanOut buf ∨ d'.out.frame.length = frameCap d'.out.frame) := by
  induction fuel generalizing d bits with
  | zero => omega
  | succ fuel ih =>
    by_cases hend : 8 * buf.length < d.tr
    · refine ⟨d, ?_, ?_, .inl hend⟩
      · rw [tailLoop, if_pos (by omega)]
        rfl
      · rw [finalFrame_of_lt hend hp.length_lt, hp.frame]
    obtain ⟨out, done, hpush, hgo, hdone⟩ := Packer.push_spec hp (level buf (d.tr - 1))
    rw [tailLoop, if_neg (by omega), Dpll.takeBit_ok hd h1 (by omega), Exec.ok_bind, hpush,
      Exec.ok_bind, finalFrame_of_le (by omega)]
    cases done with
    | true =>
      obtain ⟨h8, hfr, hcap⟩ := hdone rfl
      refine ⟨_, rfl, ?_, .inr hcap⟩
      rw [finalFrame_of_done h8 (hfr ▸ hcap), ← hfr]
    | false =>
      have hadv := advance_bounds (level buf) (8 * buf.length) d.tr
      have hnone : ∀ tr, (Dpll.mk tr none out).Consistent buf := fun tr b hb => by cases hb
      have hnext := ih (d := ⟨advance (level buf) (8 * buf.length) d.tr, none, out⟩) (by omega)
        (by dsimp only; omega) (by dsimp only; omega) (hnone _) (hgo rfl)
      simp only [Bool.false_eq_true, if_false]
      -- the next edge is `advance`, by its two branches
      by_cases hcoast : d.tr + 7 < 8 * buf.length
      · rw [if_neg (by omega), findEdgeW1_ok (by omega), Exec.ok_bind]
        rwa [advance, if_pos hcoast] at hnext ⊢
      · rw [if_pos (by omega)]
        rwa [advance, if_neg hcoast] at hnext ⊢

/-! ### The fast path -/

/-- **The window** holds the samples from `lo` on. -/
theorem window_testBit {lo i : ℕ} (hi : lo % 8 + i < 16) :
    (window (byteAt buf (lo / 8)) (byteAt buf (lo / 8 + 1)) lo).toNat.testBit i =
      level buf (lo + i) := by
  have hk : (UInt32.ofNat (lo &&& 7)).toNat % 32 = lo % 8 := by
    rw [(offset_split lo).2, UInt32.toNat_ofNat']
    omega
  have hb : ((byteAt buf (lo / 8 + 1)).toUInt32 <<< (8 : UInt32)).toNat =
      (byteAt buf (lo / 8 + 1)).toNat <<< 8 := by
    have := (byteAt buf (lo / 8 + 1)).toNat_lt
    rw [UInt32.toNat_shiftLeft, UInt8.toNat_toUInt32, Nat.shiftLeft_eq, Nat.shiftLeft_eq]
    simp
    omega
  rw [window, UInt32.toNat_shiftRight, hk, UInt32.toNat_or, UInt8.toNat_toUInt32, hb,
    Nat.testBit_shiftRight, Nat.testBit_or, Nat.testBit_shiftLeft]
  by_cases hlow : lo % 8 + i < 8
  · have hdiv : (lo + i) / 8 = lo / 8 := by omega
    have hmod : (lo + i) % 8 = lo % 8 + i := by omega
    simp [level, hdiv, hmod, hlow]
  · have hdiv : (lo + i) / 8 = lo / 8 + 1 := by omega
    have hmod : (lo + i) % 8 = lo % 8 + i - 8 := by omega
    have hzero : (byteAt buf (lo / 8)).toNat.testBit (lo % 8 + i) = false :=
      Nat.testBit_lt_two_pow (lt_of_lt_of_le (byteAt buf (lo / 8)).toNat_lt
        (Nat.pow_le_pow_right (by omega) (Nat.le_of_not_lt hlow)))
    simp [level, hdiv, hmod, hzero, Nat.le_of_not_lt hlow]

/-- The table, by the bits of its index. -/
theorem edgeDelta_of_lt : ∀ e < 8, index edgeDelta e =
    .ok (if e.testBit 1 then 0 else if e.testBit 0 then -1 else if e.testBit 2 then 1 else 0) := by
  decide

/-- The table at the pairwise differences of four samples. -/
theorem edgeDelta_window {w : UInt32} {l : ℕ → Bool} (hl : ∀ i < 4, w.toNat.testBit i = l i) :
    index edgeDelta ((w ^^^ (w >>> 1)) &&& 7).toNat =
      .ok (if l 1 ≠ l 2 then 0 else if l 0 ≠ l 1 then -1 else if l 2 ≠ l 3 then 1 else 0) := by
  have he : ((w ^^^ (w >>> 1)) &&& 7).toNat = (w.toNat ^^^ w.toNat >>> 1) % 8 := by
    rw [UInt32.toNat_and, UInt32.toNat_xor, UInt32.toNat_shiftRight]
    exact Nat.and_two_pow_sub_one_eq_mod _ 3
  have hbit : ∀ j < 3, ((w.toNat ^^^ w.toNat >>> 1) % 8).testBit j = (l j ^^ l (j + 1)) := by
    intro j hj
    rw [show 8 = 2 ^ 3 from rfl, Nat.testBit_mod_two_pow, Nat.testBit_xor, Nat.testBit_shiftRight,
      Nat.add_comm 1 j, hl j (by omega), hl (j + 1) (by omega)]
    simp [hj]
  rw [he, edgeDelta_of_lt _ (Nat.mod_lt _ (by omega)), hbit 1 (by omega), hbit 0 (by omega),
    hbit 2 (by omega)]
  simp only [Bool.xor_iff_ne]

theorem toUInt8_shiftRight_and_one (w : UInt32) {k : ℕ} (hk : k < 32) :
    ((w >>> UInt32.ofNat k) &&& 1).toUInt8 = (w.toNat.testBit k).toUInt8 := by
  have hk' : (UInt32.ofNat k).toNat % 32 = k := by
    rw [UInt32.toNat_ofNat']
    omega
  apply UInt8.toNat_inj.1
  rw [UInt32.toNat_toUInt8, UInt32.toNat_and, UInt32.toNat_shiftRight, hk', UInt32.toNat_one,
    Nat.and_one_is_mod, Nat.testBit_eq_decide_div_mod_eq, Nat.shiftRight_eq_div_pow]
  rcases Nat.mod_two_eq_zero_or_one (w.toNat / 2 ^ k) with h | h <;> simp [h, Bool.toUInt8]

/-- **One step of the fast path**: the table gives the next edge, and the window its data bit. -/
theorem fastEdge_spec {tr : ℕ} (h : tr + 20 ≤ 8 * buf.length) {w : UInt32}
    (hw : w = window (byteAt buf ((tr + 4) / 8)) (byteAt buf ((tr + 4) / 8 + 1)) (tr + 4)) :
    ∃ delta, index edgeDelta ((w ^^^ (w >>> 1)) &&& 7).toNat = .ok delta ∧
      ((tr : ℤ) + 6 + delta).toNat = advance (level buf) (8 * buf.length) tr ∧
      ((w >>> UInt32.ofNat (1 + delta).toNat) &&& 1).toUInt8 =
        (level buf (advance (level buf) (8 * buf.length) tr - 1)).toUInt8 := by
  have hl : ∀ i < 4, w.toNat.testBit i = level buf (tr + 4 + i) := fun i hi => by
    rw [hw, window_testBit (by omega)]
  have hadv : advance (level buf) (8 * buf.length) tr = nextEdge (level buf) (tr + 6) :=
    if_pos (by omega)
  have hbit : ∀ k < 4, ((w >>> UInt32.ofNat k) &&& 1).toUInt8 = (level buf (tr + 4 + k)).toUInt8 :=
    fun k hk => by rw [toUInt8_shiftRight_and_one _ (by omega), hl k hk]
  rw [edgeDelta_window hl, hadv, nextEdge]
  refine ⟨_, rfl, ?_⟩
  simp only [show tr + 6 - 1 = tr + 4 + 1 by omega, show tr + 6 - 2 = tr + 4 + 0 by omega,
    show tr + 6 = tr + 4 + 2 by omega, show tr + 4 + 2 + 1 = tr + 4 + 3 by omega]
  split_ifs
  · exact ⟨by omega, hbit 1 (by omega)⟩
  · exact ⟨by omega, hbit 0 (by omega)⟩
  · exact ⟨by omega, hbit 2 (by omega)⟩
  · exact ⟨by omega, hbit 1 (by omega)⟩

/-- **The fast path** returns the frame itself, at its cap, or a tracker from which the tail completes
it. -/
theorem fastLoop_spec {fuel : ℕ} {bits : List Bool} {d : Dpll} (hpos : 1 ≤ fuel)
    (hfuel : 8 * buf.length + 2 ≤ fuel + d.tr) (h1 : 1 ≤ d.tr) (hd : d.Consistent buf)
    (hp : d.out.Holds bits) :
    ∃ d' done, fastLoop buf fuel d = .ok (d', done) ∧
      (done = true → d'.out.frame = finalFrame buf bits d.tr ∧
        d'.out.frame.length = frameCap d'.out.frame) ∧
      (done = false → ∃ bits', 1 ≤ d'.tr ∧ d'.Consistent buf ∧ d'.out.Holds bits' ∧
        finalFrame buf bits' d'.tr = finalFrame buf bits d.tr) := by
  induction fuel generalizing d bits with
  | zero => omega
  | succ fuel ih =>
    by_cases hguard : d.tr + 20 ≤ 8 * buf.length
    swap
    · refine ⟨d, false, ?_, by simp, fun _ => ⟨bits, h1, hd, hp, rfl⟩⟩
      rw [fastLoop, if_neg (by omega)]
      rfl
    obtain ⟨out, done, hpush, hgo, hdone⟩ := Packer.push_spec hp (level buf (d.tr - 1))
    rw [fastLoop, if_pos (by omega), Dpll.takeBit_ok hd h1 (by omega), Exec.ok_bind, hpush,
      Exec.ok_bind, finalFrame_of_le (by omega)]
    cases done with
    | true =>
      obtain ⟨h8, hfr, hcap⟩ := hdone rfl
      refine ⟨_, true, rfl, fun _ => ⟨?_, hcap⟩, by simp⟩
      rw [finalFrame_of_done h8 (hfr ▸ hcap), ← hfr]
    | false =>
      have hadv := advance_bounds (level buf) (8 * buf.length) d.tr
      obtain ⟨delta, hdelta, htr, hbit⟩ := fastEdge_spec hguard rfl
      simp only [Bool.false_eq_true, if_false, (offset_split (d.tr + 4)).1,
        getUnchecked_eq_byteAt (show (d.tr + 4) / 8 < buf.length by omega),
        getUnchecked_eq_byteAt (show (d.tr + 4) / 8 + 1 < buf.length by omega), Exec.ok_bind,
        hdelta, htr]
      refine ih (d := ⟨_, _, out⟩) (by omega) (by dsimp only; omega) (by dsimp only; omega) ?_
        (hgo rfl)
      rintro b ⟨rfl⟩
      exact hbit

end Loops

/-! ### The decoder -/

section Decoder

variable {buf : List UInt8}

/-- The initial anchor after the edge `f` and the SFD end `sfd`. -/
def anchor (lv : ℕ → Bool) (ns f sfd : ℕ) : ℕ :=
  if f + (5 + 6 * (sfd + 1)) + 1 < ns then nextEdge lv (f + (5 + 6 * (sfd + 1)))
  else f + (5 + 6 * (sfd + 1))

theorem anchor_pos (lv : ℕ → Bool) (ns f sfd : ℕ) : 1 ≤ anchor lv ns f sfd := by
  have := nextEdge_bounds lv (f + (5 + 6 * (sfd + 1)))
  unfold anchor
  split_ifs <;> omega

theorem acquire_eq_some {f sfd : ℕ} (hf : findF buf (buf.length * 8) = .ok (some f))
    (hsfd : findSfd buf (buf.length * 8) f = .ok (some sfd)) :
    acquire buf = .ok (some (anchor (level buf) (8 * buf.length) f sfd)) := by
  simp only [acquire, hf, hsfd, Exec.ok_bind, anchor]
  by_cases hin : f + (5 + 6 * (sfd + 1)) + 1 < 8 * buf.length
  · rw [if_pos (by omega), if_pos hin, findEdgeW1_ok hin]
    rfl
  · rw [if_neg (by omega), if_neg hin]
    rfl

/-- The acquisition stays inside the capture. -/
theorem acquire_ok (h : buf ≠ []) :
    ∃ tr, acquire buf = .ok tr ∧ ∀ t, tr = some t → 1 ≤ t := by
  have hpos : 0 < buf.length := List.length_pos_of_ne_nil h
  have hlen : 0 + buf.length * 8 ≤ 8 * buf.length := by omega
  obtain ⟨f, hf, -, -⟩ := findFirstFallingEdge_spec 0 (buf.length * 8) (by omega) hlen
  cases f with
  | none => exact ⟨none, by simp [acquire, findF, hf], by simp⟩
  | some f =>
    obtain ⟨sfd, hsfd, -, -⟩ := findSfdEnd_spec rate60MHz f hlen 1600
    cases sfd with
    | none => exact ⟨none, by simp [acquire, findF, hf, findSfd, hsfd], by simp⟩
    | some sfd =>
      refine ⟨_, acquire_eq_some hf hsfd, ?_⟩
      rintro t ⟨rfl⟩
      exact anchor_pos _ _ _ _

/-- What the decoder does from an anchor, if one was found. -/
def decodeSpec (buf : List UInt8) (tr : Option ℕ) : Option (List UInt8) :=
  tr.map (finalFrame buf [])

theorem loopFuel_le (buf : List UInt8) (tr : ℕ) :
    1 ≤ loopFuel buf ∧ 8 * buf.length + 2 ≤ loopFuel buf + tr := by
  unfold loopFuel
  omega

/-- **The tracker at the end** holds the frame of the tracked bits, and has run out of samples or
reached the cap. -/
theorem finalTracker_spec {tr : Option ℕ} (h : acquire buf = .ok tr)
    (hpos : ∀ t, tr = some t → 1 ≤ t) :
    ∃ r, finalTracker buf = .ok r ∧ r.map (·.out.frame) = decodeSpec buf tr ∧
      ∀ d, r = some d → d.RanOut buf ∨ d.out.frame.length = frameCap d.out.frame := by
  rw [finalTracker, h, Exec.ok_bind]
  cases tr with
  | none => exact ⟨none, rfl, rfl, by simp⟩
  | some t =>
    obtain ⟨h1, h2⟩ := loopFuel_le buf t
    obtain ⟨d, done, hfast, hret, hgo⟩ := fastLoop_spec (d := ⟨t, none, .new⟩) h1 h2
      (hpos t rfl) (fun b hb => by cases hb) Packer.holds_new
    simp only [hfast, Exec.ok_bind]
    cases done with
    | true =>
      obtain ⟨hfr, hcap⟩ := hret rfl
      exact ⟨some d, rfl, congrArg some hfr, by rintro _ ⟨rfl⟩; exact .inr hcap⟩
    | false =>
      obtain ⟨bits, h1', hd, hp, hsame⟩ := hgo rfl
      obtain ⟨h1, h2⟩ := loopFuel_le buf d.tr
      obtain ⟨d', htail, hfr, hstop⟩ := tailLoop_spec h1 h2 h1' hd hp
      refine ⟨some d', ?_, congrArg some (hfr.trans hsame), by rintro _ ⟨rfl⟩; exact hstop⟩
      simp [htail]

theorem decodeFrameEdgeTrack_eq_finalTracker (buf : List UInt8) :
    decodeFrameEdgeTrack buf = (finalTracker buf).map (·.map (·.out.frame)) := by
  rw [decodeFrameEdgeTrack, finalTracker]
  rcases acquire buf with e | _ | t
  · rfl
  · rfl
  · simp only [Exec.ok_bind]
    rcases fastLoop buf (loopFuel buf) ⟨t, none, .new⟩ with e | ⟨d, _ | _⟩
    · rfl
    · simp only [Exec.ok_bind, Bool.false_eq_true, if_false]
      rcases tailLoop buf (loopFuel buf) d with e | d'
      · rfl
      · rfl
    · rfl

/-- The decoder returns the frame of the tracked bits. -/
theorem decodeFrameEdgeTrack_spec {tr : Option ℕ} (h : acquire buf = .ok tr)
    (hpos : ∀ t, tr = some t → 1 ≤ t) :
    decodeFrameEdgeTrack buf = .ok (decodeSpec buf tr) := by
  obtain ⟨r, hr, hspec, -⟩ := finalTracker_spec h hpos
  rw [decodeFrameEdgeTrack_eq_finalTracker, hr, ← hspec]
  rfl

/-- So does the tail alone. -/
theorem decodeFrameTailOnly_spec {tr : Option ℕ} (h : acquire buf = .ok tr)
    (hpos : ∀ t, tr = some t → 1 ≤ t) :
    decodeFrameTailOnly buf = .ok (decodeSpec buf tr) := by
  rw [decodeFrameTailOnly, h, Exec.ok_bind]
  cases tr with
  | none => rfl
  | some t =>
    obtain ⟨h1, h2⟩ := loopFuel_le buf t
    obtain ⟨d, htail, hfr, -⟩ := tailLoop_spec (d := ⟨t, none, .new⟩) h1 h2 (hpos t rfl)
      (fun b hb => by cases hb) Packer.holds_new
    simp [htail, hfr, decodeSpec]

theorem decodeFrameEdgeTrack_total (h : buf ≠ []) : ∃ r, decodeFrameEdgeTrack buf = .ok r := by
  obtain ⟨tr, htr, hpos⟩ := acquire_ok h
  exact ⟨_, decodeFrameEdgeTrack_spec htr hpos⟩

/-- **The fast path changes nothing.**  On a capture with at least one byte both decoders return,
read inside the capture only, and return the same. -/
theorem decode_eq_tailOnly (h : buf ≠ []) :
    ∃ r, decodeFrameEdgeTrack buf = .ok r ∧ decodeFrameTailOnly buf = .ok r := by
  obtain ⟨tr, htr, hpos⟩ := acquire_ok h
  exact ⟨_, decodeFrameEdgeTrack_spec htr hpos, decodeFrameTailOnly_spec htr hpos⟩

/-- Five high idle samples, preamble and SFD, and the byte `0xd3` with edges up to four samples off
the nominal grid. -/
def driftCapture : List UInt8 :=
  0xff :: (List.replicate 15 [0xc0, 0x0f, 0xfc]).flatten ++
    [0xc0, 0x8f, 0x63, 0x0e, 0x78, 0x7c, 0xe0, 0xc3, 0xf1]

/-- Of the drifting byte the fast path takes five bits, up to the edge at 421; the tail takes
three. -/
theorem decode_eq_tailOnly_drift :
    acquire driftCapture = .ok (some 391) ∧
      (fastLoop driftCapture (loopFuel driftCapture) ⟨391, none, .new⟩).map
        (fun r => (r.1.tr, r.2)) = .ok (421, false) ∧
      decodeFrameEdgeTrack driftCapture = .ok (some [0xd3]) ∧
      decodeFrameTailOnly driftCapture = .ok (some [0xd3]) := by
  have hdec : decodeFrameEdgeTrack driftCapture = .ok (some [0xd3]) := by decide +kernel
  obtain ⟨r, hr, htail⟩ := decode_eq_tailOnly (show driftCapture ≠ [] by simp [driftCapture])
  obtain rfl := Except.ok.inj (hr.symm.trans hdec)
  exact ⟨by decide +kernel, by decide +kernel, hdec, htail⟩

end Decoder

end Pico10BaseT
