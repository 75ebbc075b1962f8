import Pico10BaseT.Rx.EdgeTrack
import Mathlib.Data.Finset.Card
import Mathlib.Order.Interval.Finset.Nat

/-!
# The open-loop decoder

`EthRx::decode_frame`.  It finds the first falling edge and the end of the SFD as the MAC peek does,
within 1600 bits, and then reads one sample a bit at a fixed stride, without bounds checks.  How
many bytes are there is computed beforehand by a division; once the header is decoded, the length
that it declares lowers that number.  Offsets and lengths are natural numbers, as for all captures:
`base * 8`, `nbytes * 8` and `bytes.len() * 8` are the same in a 32-bit `usize` below `2 ^ 29`.

Both sample rates are covered: `rate` is any with at least one sample a bit.

* `lt_availBits_iff` : the division counts the bits that are there.
* `frameLoop_ok` : the loop returns the bytes of the strided samples.
* `decodeFrame_spec` : the decoder returns, when it finds a frame, what the frame is, and that it
  starts with the address that the peek reads.
-/

namespace Pico10BaseT

/-! ### The source -/

/-- Cap on the open-loop SFD search. -/
def sfdSearchBits : ℕ := 1600

/-- Eight samples from `off` on, a stride apart: the byte, and the offset behind it. -/
def strideByte (rate : SampleRate) (bytes : List UInt8) :
    ℕ → ℕ → ℕ → UInt8 → Exec (UInt8 × ℕ)
  | 0, _, off, byte => return (byte, off)
  | n + 1, j, off, byte => do
    let s ← sampleBitUnchecked bytes off
    strideByte rate bytes n (j + 1) (off + rate.samplesPerBit) (byte ||| (s <<< UInt8.ofNat j))

/-- The length that the 18 header bytes declare; an unknown EtherType leaves it uncapped. -/
def declaredLen (frame : List UInt8) (nframeAvail : ℕ) : Exec ℕ := do
  let etype ← rd16 frame 12
  if etype = 0x0800 then
    let ipTotal ← rd16 frame 16
    return max (14 + ipTotal.toNat + 4) 64
  else if etype = 0x0806 then return 64
  else return nframeAvail

/-- The loop over the frame bytes, with `i` of them decoded. -/
def frameLoop (rate : SampleRate) (bytes : List UInt8) (nframeAvail : ℕ) :
    ℕ → ℕ → ℕ → ℕ → List UInt8 → Exec (List UInt8)
  | 0, _, _, _, _ => .error .noFuel
  | fuel + 1, nframe, off, i, frame => do
    if i < nframe then
      let (byte, off) ← strideByte rate bytes 8 0 off 0
      -- a full vector would drop the byte
      let frame := if frame.length < maxFrameBytes then frame ++ [byte] else frame
      let i := i + 1
      if i = 18 then
        let declared ← declaredLen frame nframeAvail
        frameLoop rate bytes nframeAvail fuel (min declared nframeAvail) off i frame
      else frameLoop rate bytes nframeAvail fuel nframe off i frame
    else return frame

/-- Open-loop Manchester decode: the post-SFD bytes, not verified. -/
def decodeFrame (rate : SampleRate) (bytes : List UInt8) (base nbytes : ℕ) :
    Exec (Option (List UInt8)) := do
  let baseBit := base * 8
  let bufBits := bytes.length * 8
  if bufBits ≤ baseBit then return none
  else
    let nsamples := min (nbytes * 8) (bufBits - baseBit)
    match ← findFirstFallingEdge bytes baseBit nsamples with
    | none => return none
    | some f =>
      match ← findSfdEnd rate bytes baseBit f nsamples sfdSearchBits with
      | none => return none
      | some sfdEnd =>
        let startBit := sfdEnd + 1
        let limit := baseBit + nsamples
        let firstOff := baseBit + f + rate.hb1CenterOffset + rate.samplesPerBit * startBit
        let availBits :=
          if firstOff < limit then (limit - 1 - firstOff) / rate.samplesPerBit + 1 else 0
        let nframeAvail := min (availBits / 8) maxFrameBytes
        let frame ← frameLoop rate bytes nframeAvail (nframeAvail + 1) nframeAvail firstOff 0 []
        return some frame

/-! ### The bits that are there -/

/-- Number of open-loop bits from `k` on that have their sample among the first `ns`. -/
def bitsAvailable (rate : SampleRate) (f k ns : ℕ) : ℕ :=
  ((Finset.range ns).filter fun i => rate.sampleOf f (k + i) < ns).card

section Bits

variable {rate : SampleRate} {f k ns : ℕ}

theorem sampleOf_add (rate : SampleRate) (f k i : ℕ) :
    rate.sampleOf f (k + i) = rate.sampleOf f k + rate.samplesPerBit * i := by
  rw [SampleRate.sampleOf, SampleRate.sampleOf, Nat.mul_add]
  omega

/-- The closed form of the source. -/
def availBits (rate : SampleRate) (f k ns : ℕ) : ℕ :=
  if rate.sampleOf f k < ns then (ns - 1 - rate.sampleOf f k) / rate.samplesPerBit + 1 else 0

/-- **The division counts** the bits that are there. -/
theorem lt_availBits_iff (hrate : 0 < rate.samplesPerBit) {i : ℕ} :
    i < availBits rate f k ns ↔ rate.sampleOf f (k + i) < ns := by
  rw [availBits, sampleOf_add]
  split_ifs with h
  · rw [Nat.lt_succ_iff, Nat.le_div_iff_mul_le hrate, Nat.mul_comm]
    omega
  · omega

theorem availBits_eq (hrate : 0 < rate.samplesPerBit) :
    availBits rate f k ns = bitsAvailable rate f k ns := by
  have hle : availBits rate f k ns ≤ ns := by
    by_contra hlt
    have h := (lt_availBits_iff hrate).1 (Nat.lt_of_not_le hlt)
    rw [sampleOf_add] at h
    have := Nat.le_mul_of_pos_left ns hrate
    omega
  have hset : (Finset.range ns).filter (fun i => rate.sampleOf f (k + i) < ns) =
      Finset.range (availBits rate f k ns) := by
    ext i
    rw [Finset.mem_filter, Finset.mem_range, Finset.mem_range, lt_availBits_iff hrate]
    exact ⟨fun h => h.2, fun h => ⟨((lt_availBits_iff hrate).2 h).trans_le hle, h⟩⟩
  rw [bitsAvailable, hset, Finset.card_range]

end Bits

/-! ### The length -/

/-- The length that a header declares, `avail` where it does not say. -/
def declaredOf (frame : List UInt8) (avail : ℕ) : ℕ :=
  if wordAt frame 12 = 0x0800 then max (14 + (wordAt frame 16).toNat + 4) 64
  else if wordAt frame 12 = 0x0806 then 64
  else avail

/-- The length of a frame of which `avail` bytes are there: all of them, or from 18 on what the
header declares. -/
def openLen (frame : List UInt8) (avail : ℕ) : ℕ :=
  if avail < 18 then avail else min (declaredOf frame avail) avail

theorem declaredLen_ok {frame : List UInt8} (h : 18 ≤ frame.length) (avail : ℕ) :
    declaredLen frame avail = .ok (declaredOf frame avail) := by
  rw [declaredLen, rd16_ok (by omega), rd16_ok (by omega)]
  simp only [Exec.ok_bind, Exec.pure_eq, declaredOf]
  split_ifs <;> rfl

/-- The header decides. -/
theorem openLen_append {a : List UInt8} (b : List UInt8) (h : 18 ≤ a.length) (avail : ℕ) :
    openLen (a ++ b) avail = openLen a avail := by
  have hw : ∀ i, i + 1 < 18 → wordAt (a ++ b) i = wordAt a i := fun i hi => by
    rw [wordAt, wordAt, byteAt_append_left b (by omega), byteAt_append_left b (by omega)]
  simp only [openLen, declaredOf, hw 12 (by omega), hw 16 (by omega)]

theorem openLen_bounds (frame : List UInt8) (avail : ℕ) :
    openLen frame avail ≤ avail ∧ (avail < 18 → openLen frame avail = avail) ∧
      (18 ≤ avail → 18 ≤ openLen frame avail) := by
  unfold openLen declaredOf
  split_ifs <;> omega

/-- Once the header is there the loop runs to what it declares. -/
theorem openLen_of_le {frame : List UInt8} {avail : ℕ} (h : 18 ≤ avail) :
    openLen frame avail = min (declaredOf frame avail) avail :=
  if_neg (by omega)

/-! ### The loop -/

section Loop

variable {rate : SampleRate} {bytes : List UInt8} {baseBit f k ns : ℕ}

theorem strideByte_ok (hlen : baseBit + ns ≤ 8 * bytes.length) {n j k : ℕ} {b : UInt8}
    (hin : ∀ i < n, rate.sampleOf f (k + i) < ns) :
    strideByte rate bytes n j (baseBit + rate.sampleOf f k) b =
      .ok (orBits b j (openBits rate (levelsFrom bytes baseBit) f k n),
        baseBit + rate.sampleOf f (k + n)) := by
  induction n generalizing j k b with
  | zero => rfl
  | succ n ih =>
    have h0 := hin 0 (by omega)
    rw [Nat.add_zero] at h0
    have hnext : baseBit + rate.sampleOf f k + rate.samplesPerBit =
        baseBit + rate.sampleOf f (k + 1) := by
      rw [sampleOf_add]
      omega
    rw [strideByte, sampleBitUnchecked_ok (by omega), Exec.ok_bind, hnext, ih fun i hi => ?_,
      openBits_succ, orBits]
    · rw [show k + 1 + n = k + (n + 1) by omega]
      rfl
    · rw [show k + 1 + i = k + (i + 1) by omega]
      exact hin (i + 1) (by omega)

/-- Eight bits from `k` on are a byte. -/
theorem strideByte_eight (hlen : baseBit + ns ≤ 8 * bytes.length) {k : ℕ}
    (hin : ∀ j < 8, rate.sampleOf f (k + j) < ns) :
    strideByte rate bytes 8 0 (baseBit + rate.sampleOf f k) 0 =
      .ok (packByte (openBits rate (levelsFrom bytes baseBit) f k 8),
        baseBit + rate.sampleOf f (k + 8)) := by
  rw [strideByte_ok hlen hin]
  rfl

/-- The first `n` bytes of the open-loop bits from `k` on. -/
def openBytes (rate : SampleRate) (lv : ℕ → Bool) (f k n : ℕ) : List UInt8 :=
  packBytes (openBits rate lv f k (8 * n))

@[simp] theorem length_openBytes (lv : ℕ → Bool) (n : ℕ) :
    (openBytes rate lv f k n).length = n := by
  simp [openBytes]

theorem openBytes_add (lv : ℕ → Bool) (m n : ℕ) :
    openBytes rate lv f k (m + n) =
      openBytes rate lv f k m ++ openBytes rate lv f (k + 8 * m) n := by
  rw [openBytes, Nat.mul_add, openBits_add, packBytes_append _ (by simp), openBytes, openBytes]

theorem openBytes_succ (lv : ℕ → Bool) (n : ℕ) :
    openBytes rate lv f k (n + 1) =
      openBytes rate lv f k n ++ [packByte (openBits rate lv f (k + 8 * n) 8)] := by
  have hone : openBytes rate lv f (k + 8 * n) 1 = [packByte (openBits rate lv f (k + 8 * n) 8)] :=
    packBytes_eight (length_openBits _ _ _ _ _)
  rw [openBytes_add, hone]

/-- **The loop** returns the bytes of the strided samples, as many as there are or as the header
declares. -/
theorem frameLoop_ok (hlen : baseBit + ns ≤ 8 * bytes.length) {avail n : ℕ}
    (hmax : avail ≤ maxFrameBytes) (hin : ∀ i < 8 * avail, rate.sampleOf f (k + i) < ns)
    (hn : n = openLen (openBytes rate (levelsFrom bytes baseBit) f k 18) avail)
    {fuel i nframe : ℕ} (hi : i ≤ n) (hfuel : n < fuel + i)
    (hnframe : nframe = if i < 18 then avail else n) :
    frameLoop rate bytes avail fuel nframe (baseBit + rate.sampleOf f (k + 8 * i)) i
        (openBytes rate (levelsFrom bytes baseBit) f k i) =
      .ok (openBytes rate (levelsFrom bytes baseBit) f k n) := by
  obtain ⟨hle, hshort, hlong⟩ :=
    openLen_bounds (openBytes rate (levelsFrom bytes baseBit) f k 18) avail
  rw [← hn] at hle hshort hlong
  induction fuel generalizing i nframe with
  | zero => omega
  | succ fuel ih =>
    rw [frameLoop]
    by_cases hlt : i < nframe
    swap
    · obtain rfl : i = n := by
        split_ifs at hnframe <;> omega
      rw [if_neg hlt]
      rfl
    have hin' : i < n := by
      split_ifs at hnframe <;> omega
    have hbyte := strideByte_eight (k := k + 8 * i) hlen fun j hj => by
      rw [Nat.add_assoc]
      exact hin _ (by omega)
    rw [show k + 8 * i + 8 = k + 8 * (i + 1) by omega] at hbyte
    simp only [if_pos hlt, hbyte, Exec.ok_bind, length_openBytes, show i < maxFrameBytes by omega,
      if_true, ← openBytes_succ]
    by_cases h18 : i + 1 = 18
    · rw [if_pos h18, declaredLen_ok (by rw [length_openBytes]; omega), Exec.ok_bind, h18,
        ← openLen_of_le (by omega), ← hn]
      exact ih (by omega) (by omega) (if_neg (by omega)).symm
    · rw [if_neg h18]
      refine ih (by omega) (by omega) ?_
      split_ifs at hnframe ⊢ <;> omega

/-- The loop from its start. -/
theorem frameLoop_start (hlen : baseBit + ns ≤ 8 * bytes.length) {avail n : ℕ}
    (hmax : avail ≤ maxFrameBytes) (hin : ∀ i < 8 * avail, rate.sampleOf f (k + i) < ns)
    (hn : n = openLen (openBytes rate (levelsFrom bytes baseBit) f k 18) avail) :
    frameLoop rate bytes avail (avail + 1) avail (baseBit + rate.sampleOf f k) 0 [] =
      .ok (openBytes rate (levelsFrom bytes baseBit) f k n) := by
  have hnil : openBytes rate (levelsFrom bytes baseBit) f k 0 = [] :=
    List.eq_nil_of_length_eq_zero (length_openBytes _ _)
  have hle : n ≤ avail := hn ▸ (openLen_bounds _ _).1
  rw [← hnil]
  exact frameLoop_ok hlen hmax hin hn (Nat.zero_le n) (by omega) (if_pos (by decide)).symm

end Loop

/-! ### The decoder -/

/-- Number of samples of the window, clamped to the buffer. -/
def windowLen (bytes : List UInt8) (base nbytes : ℕ) : ℕ :=
  min (nbytes * 8) (bytes.length * 8 - base * 8)

/-- The first falling edge of the levels, and the end of the SFD by the open-loop bits after it, as
far as the search goes. -/
structure Locked (rate : SampleRate) (lv : ℕ → Bool) (ns f sfd : ℕ) : Prop where
  edge_lt : f < ns
  edge : FallsAt lv f
  firstEdge : ∀ i < f, ¬FallsAt lv i
  sfd_lt : sfd < sfdSearchBits
  pair_lt : rate.sampleOf f sfd < ns
  pair : PairAt rate lv f sfd
  firstPair : ∀ i < sfd, ¬PairAt rate lv f i

/-- Number of whole bytes after the SFD, as many as a frame takes. -/
def bytesAvailable (rate : SampleRate) (ns f sfd : ℕ) : ℕ :=
  min (bitsAvailable rate f (sfd + 1) ns / 8) maxFrameBytes

theorem bytesAvailable_le (rate : SampleRate) (ns f sfd : ℕ) :
    bytesAvailable rate ns f sfd ≤ maxFrameBytes :=
  Nat.min_le_right _ _

theorem sampleOf_lt_of_available {rate : SampleRate} {ns f sfd i : ℕ}
    (hrate : 0 < rate.samplesPerBit) (h : i < 8 * bytesAvailable rate ns f sfd) :
    rate.sampleOf f (sfd + 1 + i) < ns := by
  rw [← lt_availBits_iff hrate, availBits_eq hrate]
  unfold bytesAvailable at h
  omega

/-- The frame of an edge and an SFD end. -/
def openFrame (rate : SampleRate) (lv : ℕ → Bool) (ns f sfd : ℕ) : List UInt8 :=
  openBytes rate lv f (sfd + 1)
    (openLen (openBytes rate lv f (sfd + 1) 18) (bytesAvailable rate ns f sfd))

section Decoder

variable {rate : SampleRate} {bytes : List UInt8} {base nbytes : ℕ}

theorem window_le (h : 0 < windowLen bytes base nbytes) :
    base * 8 < bytes.length * 8 ∧ base * 8 + windowLen bytes base nbytes ≤ 8 * bytes.length := by
  unfold windowLen at h ⊢
  omega

theorem sampleOf_mono {f i j : ℕ} (h : i ≤ j) : rate.sampleOf f i ≤ rate.sampleOf f j :=
  Nat.add_le_add_left (Nat.mul_le_mul_left _ h) _

/-- What the decoder does once it has the edge and the SFD end. -/
theorem decodeFrame_of_locked (hrate : 0 < rate.samplesPerBit) {f sfd : ℕ}
    (h : Locked rate (levelsFrom bytes (base * 8)) (windowLen bytes base nbytes) f sfd) :
    decodeFrame rate bytes base nbytes = .ok (some (openFrame rate (levelsFrom bytes (base * 8))
      (windowLen bytes base nbytes) f sfd)) := by
  obtain ⟨hbase, hlen⟩ := window_le (Nat.zero_lt_of_lt h.edge_lt)
  have hedge := findFirstFallingEdge_eq_some hlen h.edge_lt h.edge h.firstEdge
  have hsfd := findSfdEnd_eq_some hlen h.sfd_lt
    (fun i hi => (sampleOf_mono hi).trans_lt h.pair_lt) h.pair h.firstPair
  have hoff : base * 8 + f + rate.hb1CenterOffset + rate.samplesPerBit * (sfd + 1) =
      base * 8 + rate.sampleOf f (sfd + 1) := by
    rw [SampleRate.sampleOf]
    omega
  have havail : (if base * 8 + rate.sampleOf f (sfd + 1) <
        base * 8 + windowLen bytes base nbytes then
      (base * 8 + windowLen bytes base nbytes - 1 - (base * 8 + rate.sampleOf f (sfd + 1))) /
        rate.samplesPerBit + 1 else 0) =
      bitsAvailable rate f (sfd + 1) (windowLen bytes base nbytes) := by
    rw [← availBits_eq hrate, availBits]
    simp only [Nat.add_lt_add_iff_left]
    split_ifs
    · congr 2
      omega
    · rfl
  have hwin : min (nbytes * 8) (bytes.length * 8 - base * 8) = windowLen bytes base nbytes := rfl
  rw [decodeFrame, if_neg (by omega)]
  simp only [hwin, hedge, hsfd, Exec.ok_bind, hoff, havail]
  rw [← bytesAvailable, frameLoop_start hlen (bytesAvailable_le _ _ _ _)
    (fun i hi => sampleOf_lt_of_available hrate hi) rfl]
  rfl

/-- **The decoder** returns, reads inside the buffer, and locks where it can. -/
theorem decodeFrame_cases (hrate : 0 < rate.samplesPerBit) (bytes : List UInt8) (base nbytes : ℕ) :
    (∃ f sfd, Locked rate (levelsFrom bytes (base * 8)) (windowLen bytes base nbytes) f sfd ∧
      decodeFrame rate bytes base nbytes = .ok (some (openFrame rate
        (levelsFrom bytes (base * 8)) (windowLen bytes base nbytes) f sfd))) ∨
    ((∀ f sfd, ¬Locked rate (levelsFrom bytes (base * 8)) (windowLen bytes base nbytes) f sfd) ∧
      decodeFrame rate bytes base nbytes = .ok none) := by
  by_cases hlock : ∃ f sfd,
      Locked rate (levelsFrom bytes (base * 8)) (windowLen bytes base nbytes) f sfd
  · obtain ⟨f, sfd, h⟩ := hlock
    exact .inl ⟨f, sfd, h, decodeFrame_of_locked hrate h⟩
  refine .inr ⟨fun f sfd h => hlock ⟨f, sfd, h⟩, ?_⟩
  have hwin : min (nbytes * 8) (bytes.length * 8 - base * 8) = windowLen bytes base nbytes := rfl
  rw [decodeFrame]
  by_cases hbase : bytes.length * 8 ≤ base * 8
  · rw [if_pos hbase]
    rfl
  simp only [if_neg hbase, hwin]
  rcases Nat.eq_zero_or_pos (windowLen bytes base nbytes) with hzero | hpos
  · -- an empty window: one sample is read, and no edge found
    have hnone : findFirstFallingEdge bytes (base * 8) 0 = .ok none := by
      rw [findFirstFallingEdge, sampleBit_ok (by omega)]
      rfl
    rw [hzero, hnone]
    rfl
  obtain ⟨-, hlen⟩ := window_le hpos
  obtain ⟨f, hf, hedge, -⟩ := findFirstFallingEdge_spec _ _ hpos hlen
  rw [hf, Exec.ok_bind]
  cases f with
  | none => rfl
  | some f =>
    obtain ⟨sfd, hsfd, hpair, -⟩ := findSfdEnd_spec rate f hlen sfdSearchBits
    simp only [hsfd, Exec.ok_bind]
    cases sfd with
    | none => rfl
    | some sfd =>
      obtain ⟨hlt, hfall, hfirst⟩ := hedge f rfl
      obtain ⟨hsfdlt, hklt, hk, hkfirst⟩ := hpair sfd rfl
      exact absurd ⟨f, sfd, hlt, hfall, hfirst, hsfdlt, hklt, hk, hkfirst⟩ hlock

/-! ### The frame -/

/-- Bit `j` of byte `i` is the open-loop bit. -/
theorem testBit_openBytes {lv : ℕ → Bool} {f k n i j : ℕ} (hi : i < n) (hj : j < 8) :
    (byteAt (openBytes rate lv f k n) i).toNat.testBit j =
      lv (rate.sampleOf f (k + 8 * i + j)) := by
  have hlevel : level (openBytes rate lv f k n) (8 * i + j) =
      (byteAt (openBytes rate lv f k n) i).toNat.testBit j := by
    rw [level, show (8 * i + j) / 8 = i by omega, show (8 * i + j) % 8 = j by omega]
  rw [← hlevel, openBytes, level_packBytes (by rw [length_openBits]; omega), openBits,
    List.getElem?_map, List.getElem?_range (by omega), Nat.add_assoc]
  rfl

/-- The frame is as long as its own header says. -/
theorem length_openFrame (lv : ℕ → Bool) (ns f sfd : ℕ) :
    (openFrame rate lv ns f sfd).length =
      openLen (openFrame rate lv ns f sfd) (bytesAvailable rate ns f sfd) := by
  rw [openFrame, length_openBytes]
  generalize bytesAvailable rate ns f sfd = avail
  obtain ⟨-, hshort, hlong⟩ := openLen_bounds (openBytes rate lv f (sfd + 1) 18) avail
  by_cases h : avail < 18
  · rw [hshort h, openLen, if_pos h]
  · obtain ⟨d, hd⟩ := Nat.exists_eq_add_of_le (hlong (Nat.le_of_not_lt h))
    rw [hd, openBytes_add, openLen_append _ (by rw [length_openBytes]), ← hd]

/-- The first bytes of a frame that has them do not depend on its header. -/
theorem take_openFrame (lv : ℕ → Bool) {ns f sfd : ℕ} (h : 6 ≤ bytesAvailable rate ns f sfd) :
    (openFrame rate lv ns f sfd).take 6 = openBytes rate lv f (sfd + 1) 6 := by
  obtain ⟨-, hshort, hlong⟩ :=
    openLen_bounds (openBytes rate lv f (sfd + 1) 18) (bytesAvailable rate ns f sfd)
  obtain ⟨d, hd⟩ := Nat.exists_eq_add_of_le (show 6 ≤
    openLen (openBytes rate lv f (sfd + 1) 18) (bytesAvailable rate ns f sfd) by omega)
  rw [openFrame, hd, openBytes_add, List.take_left' (length_openBytes _ _)]

/-! ### The peek -/

theorem macByteLoop_some {baseBit f ns : ℕ} (hlen : baseBit + ns ≤ 8 * bytes.length) {n j k : ℕ}
    {b r : UInt8} (h : macByteLoop rate bytes baseBit f ns n j k b = .ok (some r)) :
    ∀ i < n, rate.sampleOf f (k + i) < ns := by
  induction n generalizing j k b with
  | zero =>
    intro i hi
    omega
  | succ n ih =>
    rw [macByteLoop, dataBit_ok hlen, Exec.ok_bind] at h
    by_cases hin : rate.sampleOf f k < ns
    · rw [if_pos hin] at h
      intro i hi
      cases i with
      | zero => exact hin
      | succ i =>
        rw [← Nat.add_assoc, Nat.add_right_comm]
        exact ih h i (by omega)
    · rw [if_neg hin] at h
      cases h

theorem macLoop_some {baseBit f ns : ℕ} (hlen : baseBit + ns ≤ 8 * bytes.length) {n k : ℕ}
    {mac r : List UInt8} (h : macLoop rate bytes baseBit f ns n k mac = .ok (some r)) :
    ∀ i < 8 * n, rate.sampleOf f (k + i) < ns := by
  induction n generalizing k mac with
  | zero =>
    intro i hi
    omega
  | succ n ih =>
    rw [macLoop, Exec.bind_eq_ok] at h
    obtain ⟨_ | b, hb, h⟩ := h
    · cases h
    · intro i hi
      by_cases h8 : i < 8
      · exact macByteLoop_some hlen hb i h8
      · obtain ⟨d, rfl⟩ := Nat.exists_eq_add_of_le (Nat.le_of_not_lt h8)
        rw [← Nat.add_assoc]
        exact ih h d (by omega)

/-- **What a peek that answers has seen**: the decoder's edge and SFD end, and 48 bits behind it. -/
theorem locked_of_peek {mac : List UInt8} (hrun : base + nbytes ≤ bytes.length)
    (h : peekDstMac rate bytes base nbytes = .ok (some mac)) :
    ∃ f sfd, Locked rate (levelsFrom bytes (base * 8)) (windowLen bytes base nbytes) f sfd ∧
      (∀ i < 48, rate.sampleOf f (sfd + 1 + i) < windowLen bytes base nbytes) ∧
      mac = openBytes rate (levelsFrom bytes (base * 8)) f (sfd + 1) 6 := by
  have hwin : nbytes * 8 = windowLen bytes base nbytes := by
    unfold windowLen
    omega
  rw [peekDstMac, hwin] at h
  rcases Nat.eq_zero_or_pos (windowLen bytes base nbytes) with hzero | hpos
  · rw [hzero, findFirstFallingEdge, bind_assoc, Exec.bind_eq_ok] at h
    obtain ⟨prev, -, h⟩ := h
    cases h
  obtain ⟨-, hlen⟩ := window_le hpos
  obtain ⟨f, hf, hedge, -⟩ := findFirstFallingEdge_spec _ _ hpos hlen
  rw [hf, Exec.ok_bind] at h
  cases f with
  | none => cases h
  | some f =>
    obtain ⟨sfd, hsfd, hpair, -⟩ := findSfdEnd_spec rate f hlen peekMaxBits
    simp only [hsfd, Exec.ok_bind] at h
    cases sfd with
    | none => cases h
    | some sfd =>
      dsimp only at h
      split_ifs at h with hlate
      · cases h
      obtain ⟨hlt, hfall, hfirst⟩ := hedge f rfl
      obtain ⟨hsfdlt, hklt, hk, hkfirst⟩ := hpair sfd rfl
      have hin := macLoop_some hlen h
      rw [macLoop_ok hlen hin, Except.ok.injEq, Option.some_inj, List.nil_append] at h
      have h1600 : sfd < sfdSearchBits := hsfdlt.trans (by decide)
      exact ⟨f, sfd, ⟨hlt, hfall, hfirst, h1600, hklt, hk, hkfirst⟩, hin, h.symm⟩

/-- **The open-loop decoder.**  For every buffer, base and length the decoder returns and reads
inside the buffer only.  It returns a frame exactly if the clamped window has a first falling edge
and an SFD end; bit `j` of byte `i` of that frame is the open-loop bit `8 * i + j` after the SFD,
and its length is the number of whole bytes that are there, at most the capacity, or what its header
declares.  Where the MAC peek answers on a run inside the buffer, the decoder returns a frame that
starts with that address. -/
theorem decodeFrame_spec (hrate : 0 < rate.samplesPerBit) (bytes : List UInt8) (base nbytes : ℕ) :
    (∃ r, decodeFrame rate bytes base nbytes = .ok r ∧
      (r.isSome = true ↔ ∃ f sfd,
        Locked rate (levelsFrom bytes (base * 8)) (windowLen bytes base nbytes) f sfd) ∧
      ∀ f sfd g, Locked rate (levelsFrom bytes (base * 8)) (windowLen bytes base nbytes) f sfd →
        r = some g →
        g.length = openLen g (bytesAvailable rate (windowLen bytes base nbytes) f sfd) ∧
        ∀ i < g.length, ∀ j < 8,
          dataBit rate bytes (base * 8) f (sfd + 1 + 8 * i + j) (windowLen bytes base nbytes) =
            .ok (some ((byteAt g i).toNat.testBit j).toUInt8)) ∧
    ∀ mac, base + nbytes ≤ bytes.length → peekDstMac rate bytes base nbytes = .ok (some mac) →
      ∃ g, decodeFrame rate bytes base nbytes = .ok (some g) ∧ g.take 6 = mac := by
  constructor
  · rcases decodeFrame_cases hrate bytes base nbytes with ⟨f, sfd, h, hdec⟩ | ⟨hno, hdec⟩
    · refine ⟨_, hdec, ⟨fun _ => ⟨f, sfd, h⟩, fun _ => rfl⟩, fun f' sfd' g h' hg => ?_⟩
      obtain ⟨-, hlen⟩ := window_le (Nat.zero_lt_of_lt h'.edge_lt)
      rw [decodeFrame_of_locked hrate h'] at hdec
      obtain rfl : openFrame rate _ _ f' sfd' = g :=
        Option.some.inj ((Except.ok.inj hdec).trans hg)
      refine ⟨length_openFrame _ _ _ _, fun i hi j hj => ?_⟩
      rw [openFrame, length_openBytes] at hi
      have hle := (openLen_bounds (openBytes rate (levelsFrom bytes (base * 8)) f' (sfd' + 1) 18)
        (bytesAvailable rate (windowLen bytes base nbytes) f' sfd')).1
      have hin := sampleOf_lt_of_available (i := 8 * i + j) hrate (show 8 * i + j <
        8 * bytesAvailable rate (windowLen bytes base nbytes) f' sfd' by omega)
      rw [← Nat.add_assoc] at hin
      rw [dataBit_ok hlen, if_pos hin, openFrame, testBit_openBytes hi hj]
    · refine ⟨_, hdec, ⟨fun h => (by cases h), ?_⟩, fun f sfd g h => absurd h (hno f sfd)⟩
      rintro ⟨f, sfd, h⟩
      exact absurd h (hno f sfd)
  · intro mac hrun hpeek
    obtain ⟨f, sfd, h, hin, rfl⟩ := locked_of_peek hrun hpeek
    refine ⟨_, decodeFrame_of_locked hrate h, ?_⟩
    have h48 : 48 ≤ bitsAvailable rate f (sfd + 1) (windowLen bytes base nbytes) := by
      rw [← availBits_eq hrate]
      exact (lt_availBits_iff hrate).2 (hin 47 (by decide))
    have h6 : 6 ≤ bytesAvailable rate (windowLen bytes base nbytes) f sfd := by
      unfold bytesAvailable maxFrameBytes
      omega
    exact take_openFrame _ h6

end Decoder

/-! ### Both rates -/

/-- An edge, and a line that stays high: the broadcast address at either rate. -/
def broadcastRun : List UInt8 := 0x1f :: 0xfe :: List.replicate 40 0xff

/-- The decoder starts with the address that the peek reads. -/
theorem decodeFrame_spec_broadcast :
    (∃ g, decodeFrame rate60MHz broadcastRun 0 42 = .ok (some g) ∧
      g.take 6 = List.replicate 6 0xff) ∧
    ∃ g, decodeFrame rate20MHz broadcastRun 0 42 = .ok (some g) ∧
      g.take 6 = List.replicate 6 0xff :=
  ⟨(decodeFrame_spec (by decide) broadcastRun 0 42).2 _ (by decide) (by decide +kernel),
    (decodeFrame_spec (by decide) broadcastRun 0 42).2 _ (by decide) (by decide +kernel)⟩

end Pico10BaseT
