import Pico10BaseT.Rx.ActiveRuns
import Pico10BaseT.Rx.ClockRecovery

/-!
# An ideally sampled frame in an image

`Sent` is a line signal without drift.  The run of its frame in an image starts and ends at a byte
boundary, so that up to three samples of the first and of the last bit are outside the run, and
the falling edge of the first preamble bit may be its first sample.  Both decoders are followed
through such a window: the levels `lw` are those of the line from sample `d` on.

* `Sent.isRun` : the run of the frame.
* `Sent.fallsAt_window`, `Sent.pairAt_window` : acquisition in a window.
* `Sent.trackBits_window` : the tracked bits are the bits sent and at most two more.
-/

namespace Pico10BaseT

/-- An idle line for `n` samples, preamble and SFD, `bits`, and 18 low samples; 3 samples a
half-bit. -/
structure Sent (lv : ℕ → Bool) (n : ℕ) (idle : Bool) (bits : List Bool) : Prop where
  idle : ∀ i < n, lv i = idle
  preamble : ∀ k < 64, ∀ j < 6, lv (n + 6 * k + j) = (preambleBit k ^^ decide (3 ≤ j))
  data : ∀ k, ∀ hk : k < bits.length, ∀ j < 6,
    lv (n + 384 + 6 * k + j) = (bits[k] ^^ decide (3 ≤ j))
  quiet : ∀ j < 18, lv (n + 384 + 6 * bits.length + j) = false

/-- `lw` holds `nw` samples of `lv` from `d` on. -/
def Windowed (lv lw : ℕ → Bool) (d nw : ℕ) : Prop := ∀ i < nw, lw i = lv (d + i)

namespace Sent

variable {lv : ℕ → Bool} {n : ℕ} {idle : Bool} {bits : List Bool}

/-- The level changes at every mid-bit edge. -/
theorem edge (H : Sent lv n idle bits) {k : ℕ} (hk : k < 64 + bits.length) :
    lv (n + 3 + 6 * k - 1) ≠ lv (n + 3 + 6 * k) := by
  rcases Nat.lt_or_ge k 64 with h | h
  · have h2 := H.preamble k h 2 (by omega)
    have h3 := H.preamble k h 3 (by omega)
    rw [show n + 3 + 6 * k - 1 = n + 6 * k + 2 by omega, show n + 3 + 6 * k = n + 6 * k + 3 by omega,
      h2, h3]
    simp
  · have h2 := H.data (k - 64) (by omega) 2 (by omega)
    have h3 := H.data (k - 64) (by omega) 3 (by omega)
    rw [show n + 3 + 6 * k - 1 = n + 384 + 6 * (k - 64) + 2 by omega,
      show n + 3 + 6 * k = n + 384 + 6 * (k - 64) + 3 by omega, h2, h3]
    simp

/-- Bit `k` of preamble, SFD and data is the level of its first half. -/
theorem firstHalf (H : Sent lv n idle bits) {k j : ℕ} (hj : j < 3) :
    (k < 64 → lv (n + 6 * k + j) = preambleBit k) ∧
      ∀ hk : k < bits.length, lv (n + 384 + 6 * k + j) = bits[k] := by
  constructor
  · intro hk
    simpa [Nat.not_le.2 hj] using H.preamble k hk j (by omega)
  · intro hk
    simpa [Nat.not_le.2 hj] using H.data k hk j (by omega)

/-! ### The run of the frame -/

/-- The first sample that differs from the idle line before it. -/
def frameStart (n : ℕ) (idle : Bool) : ℕ := if idle then n + 3 else n

/-- The sample from which on the line is low: the second half of a last bit one is part of the
low line. -/
def frameStop (n : ℕ) (bits : List Bool) : ℕ :=
  n + 384 + 6 * bits.length - if bits.getLast? = some true then 3 else 0

/-- The byte in which the run of the frame starts. -/
def runStart (n : ℕ) (idle : Bool) : ℕ := frameStart n idle / 8

/-- The byte behind the run of the frame. -/
def runStop (n : ℕ) (bits : List Bool) : ℕ := (frameStop n bits + 7) / 8

/-- A byte with an edge inside is active. -/
theorem holdsAt_of_edge {bytes : List UInt8} {j e : ℕ} (h1 : 8 * j < e) (h2 : e < 8 * j + 8)
    (he : level bytes (e - 1) ≠ level bytes e) : holdsAt isActive bytes j = true := by
  have hdiv : (e - 1) / 8 = j ∧ e / 8 = j := by omega
  have hlt : j < bytes.length := by
    by_contra hn
    refine he ?_
    simp [level, hdiv, byteAt, Nat.le_of_not_lt hn]
  rw [holdsAt_eq_byteAt hlt]
  rw [level, level, hdiv.1, hdiv.2] at he
  by_contra hn
  have hidle : byteAt bytes j = 0x00 ∨ byteAt bytes j = 0xFF := by
    simpa [isActive, isIdle, or_iff_not_imp_left] using hn
  have hones : ∀ i < 8, (0xFF : UInt8).toNat.testBit i = true := by decide
  rcases hidle with h | h
  · simp [h] at he
  · rw [h, hones _ (Nat.mod_lt _ (by omega)), hones _ (Nat.mod_lt _ (by omega))] at he
    exact he rfl

/-- A byte of eight equal samples is idle. -/
theorem holdsAt_of_level {bytes : List UInt8} {j : ℕ} {b : Bool}
    (h : ∀ i, 8 * j ≤ i → i < 8 * j + 8 → level bytes i = b) : holdsAt isActive bytes j = false := by
  rcases Nat.lt_or_ge j bytes.length with hlt | hge
  swap
  · exact holdsAt_of_length_le hge
  have hbit : ∀ i < 8, (byteAt bytes j).toNat.testBit i = b := fun i hi => by
    have := h (8 * j + i) (by omega) (by omega)
    rwa [level, show (8 * j + i) / 8 = j by omega, show (8 * j + i) % 8 = i by omega] at this
  have hall : ∀ x : Fin 256, ∀ b : Bool, (∀ i < 8, x.1.testBit i = b) →
      isActive (UInt8.ofNat x.1) = false := by
    decide +kernel
  have := hall ⟨_, (byteAt bytes j).toNat_lt⟩ b hbit
  rw [holdsAt_eq_byteAt hlt]
  rwa [UInt8.ofNat_toNat] at this

theorem frameStop_bounds (n : ℕ) (bits : List Bool) :
    n + 381 + 6 * bits.length ≤ frameStop n bits ∧
      frameStop n bits ≤ n + 384 + 6 * bits.length := by
  unfold frameStop
  split_ifs <;> omega

/-- The run starts at most at the first mid-bit edge, and cuts at most three samples of the last
bit. -/
theorem run_bounds (n : ℕ) (idle : Bool) (bits : List Bool) :
    8 * runStart n idle ≤ n + 3 ∧ n + 381 + 6 * bits.length ≤ 8 * runStop n bits ∧
      8 * runStop n bits ≤ n + 391 + 6 * bits.length := by
  have hstop := frameStop_bounds n bits
  have hstart : frameStart n idle ≤ n + 3 := by
    unfold frameStart
    split_ifs <;> omega
  unfold runStart runStop
  omega

theorem level_before_frameStart (H : Sent lv n idle bits) {i : ℕ} (hi : i < frameStart n idle) :
    lv i = idle := by
  rcases Nat.lt_or_ge i n with h | h
  · exact H.idle i h
  · cases idle with
    | false =>
      simp only [frameStart, Bool.false_eq_true, if_false] at hi
      omega
    | true =>
      simp only [frameStart, if_true] at hi
      have := (H.firstHalf (k := 0) (j := i - n) (by omega)).1 (by omega)
      rwa [Nat.mul_zero, Nat.add_zero, Nat.add_sub_cancel' h] at this

theorem level_from_frameStop (H : Sent lv n idle bits) (hpos : 0 < bits.length) {i : ℕ}
    (hlo : frameStop n bits ≤ i) (hhi : i < n + 402 + 6 * bits.length) : lv i = false := by
  rcases Nat.lt_or_ge i (n + 384 + 6 * bits.length) with h | h
  · -- the second half of a last bit one
    have hone : bits.getLast? = some true := by
      by_contra hn
      rw [frameStop, if_neg hn] at hlo
      omega
    rw [frameStop, if_pos hone] at hlo
    have hlast : bits[bits.length - 1] = true := by
      rw [List.getLast?_eq_getElem?, List.getElem?_eq_getElem (by omega)] at hone
      simpa using hone
    have := H.data (bits.length - 1) (by omega) (i - (n + 384 + 6 * (bits.length - 1))) (by omega)
    rw [Nat.add_sub_cancel' (by omega), hlast, decide_eq_true (by omega)] at this
    simpa using this
  · have := H.quiet (i - (n + 384 + 6 * bits.length)) (by omega)
    rwa [Nat.add_sub_cancel' h] at this

/-- Every byte between start and stop of the frame has an edge inside: a mid-bit edge, or the first
or the last edge of the frame. -/
theorem exists_edge (H : Sent lv n idle bits) (hpos : 0 < bits.length) {j : ℕ}
    (hlo : runStart n idle ≤ j) (hhi : j < runStop n bits) :
    ∃ e, 8 * j < e ∧ e < 8 * j + 8 ∧ lv (e - 1) ≠ lv e := by
  have hstop := frameStop_bounds n bits
  unfold runStart at hlo
  unfold runStop at hhi
  rcases Nat.lt_or_ge (8 * j + 7) (n + 3) with hfirst | hfirst
  · -- the byte ends before the first mid-bit edge: the line rises inside
    cases idle with
    | true =>
      simp only [frameStart, if_true] at hlo
      omega
    | false =>
      simp only [frameStart, Bool.false_eq_true, if_false] at hlo
      have hrise := (H.firstHalf (k := 0) (j := 0) (by omega)).1 (by omega)
      refine ⟨n, by omega, by omega, ?_⟩
      rw [H.idle (n - 1) (by omega), show lv n = true from hrise]
      exact Bool.false_ne_true
  rcases Nat.lt_or_ge (8 * j) (n + 381 + 6 * bits.length) with hmid | hlast
  · obtain ⟨k, hk⟩ : ∃ k, k = (8 * j + 6 - (n + 3)) / 6 := ⟨_, rfl⟩
    rcases Nat.lt_or_ge (8 * j) (n + 3) with h | h
    · exact ⟨n + 3, h, by omega, H.edge (k := 0) (by omega)⟩
    · exact ⟨n + 3 + 6 * k, by omega, by omega, H.edge (by omega)⟩
  · -- behind the last mid-bit edge: the last bit is a zero, and the line falls after it
    have hzero : bits.getLast? ≠ some true := by
      intro hn
      rw [frameStop, if_pos hn] at hhi
      omega
    have hfall := H.quiet 0 (by omega)
    rw [List.getLast?_eq_getElem?, List.getElem?_eq_getElem (by omega)] at hzero
    have hhigh := H.data (bits.length - 1) (by omega) 5 (by omega)
    refine ⟨n + 384 + 6 * bits.length, by omega, by omega, ?_⟩
    rw [show n + 384 + 6 * bits.length - 1 = n + 384 + 6 * (bits.length - 1) + 5 by omega, hhigh,
      show lv (n + 384 + 6 * bits.length) = false from hfall]
    simpa using hzero

/-- **The run of the frame** is a maximal run, and the bytes before it are idle. -/
theorem isRun {bytes : List UInt8} (H : Sent (level bytes) n idle bits) (hpos : 0 < bits.length) :
    IsRun isActive bytes (runStart n idle) (runStop n bits - runStart n idle) ∧
      ∀ j < runStart n idle, holdsAt isActive bytes j = false := by
  have hstop := frameStop_bounds n bits
  have hlt : runStart n idle < runStop n bits := by
    have hbounds := run_bounds n idle bits
    omega
  have hbefore : ∀ j < runStart n idle, holdsAt isActive bytes j = false := fun j hj => by
    refine holdsAt_of_level fun i h1 h2 => H.level_before_frameStart ?_
    unfold runStart at hj
    omega
  refine ⟨⟨by omega, fun j h1 h2 => ?_, ?_, ?_⟩, hbefore⟩
  · obtain ⟨e, h1, h2, he⟩ := H.exists_edge hpos h1 (by omega)
    exact holdsAt_of_edge h1 h2 he
  · rcases Nat.eq_zero_or_pos (runStart n idle) with h0 | h0
    · exact .inl h0
    · exact .inr (hbefore _ (by omega))
  · rw [Nat.add_sub_cancel' hlt.le]
    refine holdsAt_of_level fun i h1 h2 => H.level_from_frameStop hpos ?_ ?_
    · unfold runStop at h1
      omega
    · unfold runStop at h2
      omega

/-! ### Acquisition in a window -/

/-- How many pairs of preamble bits are skipped: one, when the window starts with the first falling
edge. -/
def skipped (n d : ℕ) : ℕ := if d = n + 3 then 1 else 0

/-- The first falling edge in a window. -/
def firstFall (n d : ℕ) : ℕ := n + 3 + 12 * skipped n d - d

theorem level_preamble (H : Sent lv n idle bits) {i : ℕ} (hi : i < 384) :
    lv (n + i) = (preambleBit (i / 6) ^^ decide (3 ≤ i % 6)) := by
  have := H.preamble (i / 6) (by omega) (i % 6) (by omega)
  rwa [Nat.add_assoc, Nat.div_add_mod] at this

theorem fallsAt_window (H : Sent lv n idle bits) {lw : ℕ → Bool} {d nw : ℕ}
    (hw : Windowed lv lw d nw) (hd : d ≤ n + 3) (hnw : firstFall n d < nw) :
    FallsAt lw (firstFall n d) ∧ ∀ k < firstFall n d, ¬ FallsAt lw k := by
  rcases Nat.eq_or_lt_of_le hd with hq | hq
  · have hf : firstFall n d = 12 := by
      rw [firstFall, skipped, if_pos hq]
      omega
    rw [hf] at hnw ⊢
    have hlw : ∀ i ≤ 12, lw i = (preambleBit ((3 + i) / 6) ^^ decide (3 ≤ (3 + i) % 6)) := by
      intro i hi
      rw [hw i (by omega), hq, Nat.add_assoc]
      exact H.level_preamble (by omega)
    -- low to the middle of the second preamble bit, then high to the middle of the third
    have hlevels : (∀ i < 6, (preambleBit ((3 + i) / 6) ^^ decide (3 ≤ (3 + i) % 6)) = false) ∧
        ∀ i < 6, (preambleBit ((3 + (6 + i)) / 6) ^^ decide (3 ≤ (3 + (6 + i)) % 6)) = true := by
      decide
    refine fallsAt_of_step (r := 6) (fun i hi => (hlw i (by omega)).trans (hlevels.1 i hi))
      (fun i h6 hi => ?_) (by omega) (hlw 12 le_rfl)
    have := hlevels.2 (i - 6) (by omega)
    rw [Nat.add_sub_cancel' h6] at this
    exact (hlw i (by omega)).trans this
  · have hf : firstFall n d = n + 3 - d := by
      rw [firstFall, skipped, if_neg (by omega)]
    rw [hf] at hnw ⊢
    have hfall : lv (n + 3) = false := H.level_preamble (by omega)
    refine fallsAt_of_step (b := idle) (r := n - d) (fun i hi => ?_) (fun i h1 h2 => ?_) (by omega) ?_
    · rw [hw i (by omega)]
      exact H.idle _ (by omega)
    · have := (H.firstHalf (k := 0) (j := d + i - n) (by omega)).1 (by omega)
      rw [Nat.mul_zero, Nat.add_zero, Nat.add_sub_cancel' (by omega)] at this
      rw [hw i (by omega), this]
      rfl
    · rw [hw _ hnw, Nat.add_sub_cancel' hd, hfall]

/-- Open-loop bit `k` of a window is bit `k + 1` of the frame, or two bits more. -/
theorem sampleOf_window {d : ℕ} (hd : d ≤ n + 3) (k : ℕ) :
    d + rate60MHz.sampleOf (firstFall n d) k = n + 6 * (k + 1 + 2 * skipped n d) + 1 := by
  simp only [SampleRate.sampleOf, rate60MHz, firstFall]
  omega

theorem pairAt_window (H : Sent lv n idle bits) {lw : ℕ → Bool} {d nw : ℕ}
    (hw : Windowed lv lw d nw) (hd : d ≤ n + 3)
    (hnw : rate60MHz.sampleOf (firstFall n d) (62 - 2 * skipped n d) < nw) :
    PairAt rate60MHz lw (firstFall n d) (62 - 2 * skipped n d) ∧
      ∀ k < 62 - 2 * skipped n d, ¬ PairAt rate60MHz lw (firstFall n d) k := by
  have hq : skipped n d ≤ 1 := by
    unfold skipped
    split_ifs <;> omega
  have hbit : ∀ k ≤ 62 - 2 * skipped n d,
      lw (rate60MHz.sampleOf (firstFall n d) k) = preambleBit (k + 1 + 2 * skipped n d) := by
    intro k hk
    have hlt : rate60MHz.sampleOf (firstFall n d) k < nw := by
      simp only [SampleRate.sampleOf, rate60MHz] at hnw ⊢
      omega
    rw [hw _ hlt, sampleOf_window hd]
    exact (H.firstHalf (by omega)).1 (by omega)
  refine ⟨⟨by omega, ?_, ?_⟩, fun k hk hp => ?_⟩
  · rw [hbit _ (by omega), show 62 - 2 * skipped n d - 1 + 1 + 2 * skipped n d = 62 by omega]
    rfl
  · rw [hbit _ le_rfl, show 62 - 2 * skipped n d + 1 + 2 * skipped n d = 63 by omega]
    rfl
  · obtain ⟨h1, hprev, hcur⟩ := hp
    rw [hbit _ (by omega)] at hprev hcur
    simp only [preambleBit, Bool.or_eq_true, decide_eq_true_eq] at hprev hcur
    omega

/-! ### Tracking in a window -/

/-- Bits that the tracker can still read from `tr` on. -/
theorem length_trackBits_le (lv : ℕ → Bool) (ns tr : ℕ) :
    5 * (trackBits lv ns tr).length ≤ ns + 5 - tr := by
  induction hm : ns + 1 - tr using Nat.strongRecOn generalizing tr with
  | ind m ih =>
    rcases Nat.lt_or_ge ns tr with h | h
    · rw [trackBits_of_lt h]
      exact Nat.zero_le _
    · have hadv := advance_bounds lv ns tr
      have := ih _ (by omega) (advance lv ns tr) rfl
      rw [trackBits_of_le h, List.length_cons]
      omega

theorem trackBits_window (H : Sent lv n idle bits) {lw : ℕ → Bool} {d nw : ℕ}
    (hw : Windowed lv lw d nw) (hd : d ≤ n + 3)
    (hlast : n + 381 + 6 * bits.length ≤ d + nw) (hend : d + nw ≤ n + 391 + 6 * bits.length)
    {i c : ℕ} (hi : i + c = bits.length) (hc : 0 < c) :
    ∃ extra, trackBits lw nw (n + 387 + 6 * i - d) = bits.drop i ++ extra ∧ extra.length ≤ 2 := by
  induction c generalizing i with
  | zero => omega
  | succ c ih =>
    have hlt : i < bits.length := by omega
    have hbit : lw (n + 387 + 6 * i - d - 1) = bits[i] := by
      rw [hw _ (by omega), show d + (n + 387 + 6 * i - d - 1) = n + 384 + 6 * i + 2 by omega]
      exact (H.firstHalf (by omega)).2 hlt
    rw [trackBits_of_le (by omega), hbit, List.drop_eq_getElem_cons hlt]
    rcases Nat.eq_zero_or_pos c with rfl | hc
    · -- the last bit: two more edges at most
      refine ⟨trackBits lw nw (advance lw nw (n + 387 + 6 * i - d)), ?_, ?_⟩
      · rw [List.drop_of_length_le (by omega)]
        rfl
      · have hadv := advance_bounds lw nw (n + 387 + 6 * i - d)
        have := length_trackBits_le lw nw (advance lw nw (n + 387 + 6 * i - d))
        omega
    · have hadv : advance lw nw (n + 387 + 6 * i - d) = n + 387 + 6 * (i + 1) - d := by
        have hnext : n + 387 + 6 * i - d + 6 = n + 387 + 6 * (i + 1) - d := by omega
        rw [advance, hnext]
        split_ifs with hin
        · refine nextEdge_of_edge ?_
          have := H.edge (k := 64 + (i + 1)) (by omega)
          rwa [hw _ (by omega), hw _ (by omega),
            show d + (n + 387 + 6 * (i + 1) - d - 1) = n + 3 + 6 * (64 + (i + 1)) - 1 by omega,
            show d + (n + 387 + 6 * (i + 1) - d) = n + 3 + 6 * (64 + (i + 1)) by omega]
        · rfl
      obtain ⟨extra, hextra, hle⟩ := ih (i := i + 1) (by omega) hc
      exact ⟨extra, by rw [hadv, hextra]; rfl, hle⟩

/-- The initial anchor of a window is the first data edge. -/
theorem anchor_window (H : Sent lv n idle bits) {lw : ℕ → Bool} {d nw : ℕ}
    (hw : Windowed lv lw d nw) (hd : d ≤ n + 3) (hpos : 0 < bits.length)
    (hnw : n + 388 ≤ d + nw) :
    anchor lw nw (firstFall n d) (62 - 2 * skipped n d) = n + 387 - d := by
  have hq : skipped n d ≤ 1 := by
    unfold skipped
    split_ifs <;> omega
  have hcenter : firstFall n d + (5 + 6 * (62 - 2 * skipped n d + 1)) = n + 387 - d - 1 := by
    unfold firstFall
    omega
  have hfirst : ∀ j < 3, lw (n + 384 + j - d) = bits[0] := by
    intro j hj
    rw [hw _ (by omega), show d + (n + 384 + j - d) = n + 384 + 6 * 0 + j by omega]
    exact (H.firstHalf hj).2 hpos
  rw [anchor, hcenter, if_pos (by omega)]
  refine nextEdge_of_late (by omega) ?_ ?_ ?_
  · have := H.edge (k := 64) (by omega)
    rwa [hw _ (by omega), hw _ (by omega),
      show d + (n + 387 - d - 1) = n + 3 + 6 * 64 - 1 by omega,
      show d + (n + 387 - d) = n + 3 + 6 * 64 by omega]
  · rw [show n + 387 - d - 2 = n + 384 + 1 - d by omega,
      show n + 387 - d - 1 = n + 384 + 2 - d by omega, hfirst 1 (by omega), hfirst 2 (by omega)]
  · rw [show n + 387 - d - 3 = n + 384 + 0 - d by omega,
      show n + 387 - d - 1 = n + 384 + 2 - d by omega, hfirst 0 (by omega), hfirst 2 (by omega)]

end Sent

end Pico10BaseT
