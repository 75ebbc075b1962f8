import Pico10BaseT.Rust.Exec
import Pico10BaseT.Bits.Pack
import Mathlib.Tactic.Ring

/-!
# Captured samples

A capture is a byte list, one bit a sample, packed LSB-first.  Offsets and lengths of slices are
natural numbers: a slice on the target is an image slot of a few KiB, far from the end of `usize`.

`level` is the sample as a truth value, for statements; `sampleBit` reads it.  The searches for the
first falling edge and for the end of the SFD are shared by the MAC peek and the decoders.

* `findFirstFallingEdge_spec`, `findSfdEnd_spec` : the searches stay inside the capture, and what
  they return.
* `peekDstMac_eq_some` : the MAC peek returns the 48 open-loop bits after the SFD.
-/

namespace Pico10BaseT

/-- Sample bit at `off`, packed LSB-first per byte. -/
def sampleBit (bytes : List UInt8) (off : ℕ) : Exec UInt8 := do
  let b ← index bytes (off >>> 3)
  return (b >>> UInt8.ofNat (off &&& 7)) &&& 1

/-- The level of sample `i`, low outside the capture. -/
def level (bytes : List UInt8) (i : ℕ) : Bool := (byteAt bytes (i / 8)).toNat.testBit (i % 8)

theorem level_eq_getElem (bytes : List UInt8) (i : ℕ) :
    level bytes i = ((bitsOf bytes)[i]?).getD false := by
  rw [getElem?_bitsOf, level, byteAt, List.getD_eq_getElem?_getD]
  cases bytes[i / 8]? <;> simp

/-- Packed samples are read back. -/
theorem level_packBytes {samples : List Bool} {i : ℕ} (h : i < 8 * (samples.length / 8)) :
    level (packBytes samples) i = samples[i]?.getD false := by
  rw [level_eq_getElem, bitsOf_packBytes, List.getElem?_take_of_lt h]

theorem shiftRight_and_one (b : UInt8) {k : ℕ} (hk : k < 8) :
    (b >>> UInt8.ofNat k) &&& 1 = (b.toNat.testBit k).toUInt8 := by
  apply UInt8.toNat_inj.1
  have hk' : (UInt8.ofNat k).toNat % 8 = k := by
    rw [UInt8.toNat_ofNat']
    omega
  rw [UInt8.toNat_and, UInt8.toNat_shiftRight, hk', UInt8.toNat_one, Nat.and_one_is_mod,
    Nat.testBit_eq_decide_div_mod_eq, Nat.shiftRight_eq_div_pow]
  rcases Nat.mod_two_eq_zero_or_one (b.toNat / 2 ^ k) with h | h <;> simp [h, Bool.toUInt8]

theorem offset_split (off : ℕ) : off >>> 3 = off / 8 ∧ off &&& 7 = off % 8 :=
  ⟨Nat.shiftRight_eq_div_pow off 3, Nat.and_two_pow_sub_one_eq_mod off 3⟩

theorem sampleBit_ok {bytes : List UInt8} {off : ℕ} (h : off < 8 * bytes.length) :
    sampleBit bytes off = .ok (level bytes off).toUInt8 := by
  obtain ⟨hb, hk⟩ := offset_split off
  rw [sampleBit, hb, hk, index_eq_byteAt (by omega), Exec.ok_bind,
    shiftRight_and_one _ (Nat.mod_lt _ (by norm_num))]
  rfl

@[simp] theorem toUInt8_eq_one {b : Bool} : b.toUInt8 = 1 ↔ b = true := by cases b <;> decide

@[simp] theorem toUInt8_eq_zero {b : Bool} : b.toUInt8 = 0 ↔ b = false := by cases b <;> decide

/-! ### The first falling edge -/

/-- The samples from `i` on, `n` of them, after the sample `prev`. -/
def fallingEdgeLoop (bytes : List UInt8) (baseBit : ℕ) : ℕ → ℕ → UInt8 → Exec (Option ℕ)
  | 0, _, _ => return none
  | n + 1, i, prev => do
    let s ← sampleBit bytes (baseBit + i)
    if prev = 1 ∧ s = 0 then return some i
    else fallingEdgeLoop bytes baseBit n (i + 1) s

/-- Offset of the first H→L edge, if any. -/
def findFirstFallingEdge (bytes : List UInt8) (baseBit nsamples : ℕ) : Exec (Option ℕ) := do
  let prev ← sampleBit bytes baseBit
  fallingEdgeLoop bytes baseBit (nsamples - 1) 1 prev

/-- The level falls between the samples `i - 1` and `i` of a level function. -/
def FallsAt (lv : ℕ → Bool) (i : ℕ) : Prop := 1 ≤ i ∧ lv (i - 1) = true ∧ lv i = false

/-- A constant level, then a high one that falls at `f`: this is the first falling edge. -/
theorem fallsAt_of_step {lv : ℕ → Bool} {b : Bool} {r f : ℕ} (hflat : ∀ i < r, lv i = b)
    (hhigh : ∀ i, r ≤ i → i < f → lv i = true) (hr : r < f) (hf : lv f = false) :
    FallsAt lv f ∧ ∀ k < f, ¬ FallsAt lv k := by
  refine ⟨⟨by omega, hhigh _ (by omega) (by omega), hf⟩, ?_⟩
  rintro k hk ⟨h1, hprev, hcur⟩
  rcases Nat.lt_or_ge k r with h | h
  · rw [hflat (k - 1) (by omega), ← hflat k h, hcur] at hprev
    exact Bool.noConfusion hprev
  · rw [hhigh k h hk] at hcur
    exact Bool.noConfusion hcur

/-- The levels of a capture from `baseBit` on. -/
def levelsFrom (bytes : List UInt8) (baseBit i : ℕ) : Bool := level bytes (baseBit + i)

theorem fallingEdgeLoop_spec (bytes : List UInt8) (baseBit n : ℕ) {i : ℕ} (hi : 1 ≤ i)
    (hlen : n = 0 ∨ baseBit + i + n ≤ 8 * bytes.length) :
    ∃ r, fallingEdgeLoop bytes baseBit n i (levelsFrom bytes baseBit (i - 1)).toUInt8 = .ok r ∧
      (∀ j, r = some j → i ≤ j ∧ j < i + n ∧ FallsAt (levelsFrom bytes baseBit) j ∧
        ∀ k, i ≤ k → k < j → ¬ FallsAt (levelsFrom bytes baseBit) k) ∧
      (r = none → ∀ k, i ≤ k → k < i + n → ¬ FallsAt (levelsFrom bytes baseBit) k) := by
  induction n generalizing i with
  | zero => exact ⟨none, rfl, by simp, fun _ k hk hk' => by omega⟩
  | succ n ih =>
    have hread : sampleBit bytes (baseBit + i) = .ok (levelsFrom bytes baseBit i).toUInt8 :=
      sampleBit_ok (by omega)
    simp only [fallingEdgeLoop, hread, Exec.ok_bind, toUInt8_eq_one, toUInt8_eq_zero,
      Exec.pure_eq]
    by_cases hf : levelsFrom bytes baseBit (i - 1) = true ∧ levelsFrom bytes baseBit i = false
    · rw [if_pos hf]
      refine ⟨some i, rfl, ?_, by simp⟩
      rintro _ ⟨rfl⟩
      exact ⟨le_rfl, by omega, ⟨hi, hf⟩, fun k hk hk' => by omega⟩
    · rw [if_neg hf]
      obtain ⟨r, hr, hsome, hnone⟩ := ih (i := i + 1) (by omega) (by omega)
      refine ⟨r, hr, ?_, ?_⟩
      · intro j hj
        obtain ⟨h1, h2, h3, h4⟩ := hsome j hj
        refine ⟨by omega, by omega, h3, fun k hk hkj hfk => ?_⟩
        rcases Nat.eq_or_lt_of_le hk with rfl | hk
        · exact hf hfk.2
        · exact h4 k hk hkj hfk
      · intro hr k hk hkn hfk
        rcases Nat.eq_or_lt_of_le hk with rfl | hk
        · exact hf hfk.2
        · exact hnone hr k hk (by omega) hfk

/-- **The search for the first falling edge** stays inside the capture and returns it. -/
theorem findFirstFallingEdge_spec {bytes : List UInt8} (baseBit nsamples : ℕ) (hn : 0 < nsamples)
    (hlen : baseBit + nsamples ≤ 8 * bytes.length) :
    ∃ r, findFirstFallingEdge bytes baseBit nsamples = .ok r ∧
      (∀ j, r = some j → j < nsamples ∧ FallsAt (levelsFrom bytes baseBit) j ∧
        ∀ k < j, ¬ FallsAt (levelsFrom bytes baseBit) k) ∧
      (r = none → ∀ k < nsamples, ¬ FallsAt (levelsFrom bytes baseBit) k) := by
  obtain ⟨r, hr, hsome, hnone⟩ :=
    fallingEdgeLoop_spec bytes baseBit (nsamples - 1) le_rfl (by omega)
  refine ⟨r, ?_, ?_, ?_⟩
  · rw [findFirstFallingEdge, sampleBit_ok (by omega)]
    exact hr
  · intro j hj
    obtain ⟨h1, h2, h3, h4⟩ := hsome j hj
    exact ⟨by omega, h3, fun k hk hf => h4 k hf.1 hk hf⟩
  · intro hr k hk hf
    exact hnone hr k hf.1 (by omega) hf

theorem findFirstFallingEdge_eq_some {bytes : List UInt8} {baseBit nsamples f : ℕ}
    (hlen : baseBit + nsamples ≤ 8 * bytes.length) (hf : f < nsamples)
    (hfall : FallsAt (levelsFrom bytes baseBit) f)
    (hfirst : ∀ k < f, ¬ FallsAt (levelsFrom bytes baseBit) k) :
    findFirstFallingEdge bytes baseBit nsamples = .ok (some f) := by
  obtain ⟨r, hr, hsome, hnone⟩ := findFirstFallingEdge_spec baseBit nsamples (by omega) hlen
  cases r with
  | none => exact absurd hfall (hnone rfl f hf)
  | some j =>
    obtain ⟨-, hj, hmin⟩ := hsome j rfl
    rcases Nat.lt_trichotomy j f with h | rfl | h
    · exact absurd hj (hfirst j h)
    · exact hr
    · exact absurd hfall (hmin f h)

/-! ### Open-loop bits -/

/-- Samples per data bit, and offset from bit start to mid second half-bit. -/
structure SampleRate where
  samplesPerBit : ℕ
  hb1CenterOffset : ℕ

/-- 60 MHz: 3 samples per half-bit. -/
def rate60MHz : SampleRate := ⟨6, 4⟩

/-- 20 MHz: 1 sample per half-bit. -/
def rate20MHz : SampleRate := ⟨2, 1⟩

/-- The sample that holds open-loop data bit `k` after the edge `f`. -/
def SampleRate.sampleOf (rate : SampleRate) (f k : ℕ) : ℕ :=
  f + rate.hb1CenterOffset + rate.samplesPerBit * k

/-- Open-loop data bit `k`, `none` once past `nsamples`. -/
def dataBit (rate : SampleRate) (bytes : List UInt8) (baseBit f k nsamples : ℕ) :
    Exec (Option UInt8) := do
  let idx := rate.sampleOf f k
  if nsamples ≤ idx then return none
  else
    let s ← sampleBit bytes (baseBit + idx)
    return some s

/-- The bits from `k` on, `n` of them, after the bit `prev`. -/
def sfdEndLoop (rate : SampleRate) (bytes : List UInt8) (baseBit f nsamples : ℕ) :
    ℕ → ℕ → UInt8 → Exec (Option ℕ)
  | 0, _, _ => return none
  | n + 1, k, prev => do
    match ← dataBit rate bytes baseBit f k nsamples with
    | none => return none
    | some cur =>
      if cur = 1 ∧ prev = 1 then return some k
      else sfdEndLoop rate bytes baseBit f nsamples n (k + 1) cur

/-- Bit index ending the SFD: the second bit of the first `1, 1` pair within `maxBits`. -/
def findSfdEnd (rate : SampleRate) (bytes : List UInt8) (baseBit f nsamples maxBits : ℕ) :
    Exec (Option ℕ) := do
  match ← dataBit rate bytes baseBit f 0 nsamples with
  | none => return none
  | some prev => sfdEndLoop rate bytes baseBit f nsamples (maxBits - 1) 1 prev

/-- `k` is the second bit of a `1, 1` pair among the open-loop bits. -/
def PairAt (rate : SampleRate) (lv : ℕ → Bool) (f k : ℕ) : Prop :=
  1 ≤ k ∧ lv (rate.sampleOf f (k - 1)) = true ∧ lv (rate.sampleOf f k) = true

section Sfd

variable {rate : SampleRate} {bytes : List UInt8} {baseBit f nsamples : ℕ}

theorem dataBit_ok (hlen : baseBit + nsamples ≤ 8 * bytes.length) (k : ℕ) :
    dataBit rate bytes baseBit f k nsamples =
      .ok (if rate.sampleOf f k < nsamples then
        some (levelsFrom bytes baseBit (rate.sampleOf f k)).toUInt8 else none) := by
  rw [dataBit]
  split_ifs with h1 h2
  · omega
  · rfl
  · rw [sampleBit_ok (by omega)]
    rfl
  · omega

theorem sfdEndLoop_spec (rate : SampleRate) (f : ℕ) (hlen : baseBit + nsamples ≤ 8 * bytes.length)
    {n k : ℕ} (hk : 1 ≤ k) :
    ∃ r, sfdEndLoop rate bytes baseBit f nsamples n k
        (levelsFrom bytes baseBit (rate.sampleOf f (k - 1))).toUInt8 = .ok r ∧
      (∀ j, r = some j → k ≤ j ∧ j < k + n ∧ rate.sampleOf f j < nsamples ∧
        PairAt rate (levelsFrom bytes baseBit) f j ∧
        ∀ i, k ≤ i → i < j → ¬ PairAt rate (levelsFrom bytes baseBit) f i) ∧
      (r = none → ∀ i, k ≤ i → i < k + n → (∀ i', k ≤ i' → i' ≤ i → rate.sampleOf f i' < nsamples) →
        ¬ PairAt rate (levelsFrom bytes baseBit) f i) := by
  induction n generalizing k with
  | zero => exact ⟨none, rfl, by simp, fun _ i hi hi' => by omega⟩
  | succ n ih =>
    rw [sfdEndLoop, dataBit_ok hlen, Exec.ok_bind]
    by_cases hin : rate.sampleOf f k < nsamples
    swap
    · rw [if_neg hin]
      exact ⟨none, rfl, by simp, fun _ i hi _ hall => absurd (hall k le_rfl hi) hin⟩
    simp only [if_pos hin, toUInt8_eq_one]
    by_cases hp : levelsFrom bytes baseBit (rate.sampleOf f k) = true ∧
        levelsFrom bytes baseBit (rate.sampleOf f (k - 1)) = true
    · rw [if_pos hp]
      refine ⟨some k, rfl, ?_, by simp⟩
      rintro _ ⟨rfl⟩
      exact ⟨le_rfl, by omega, hin, ⟨hk, hp.2, hp.1⟩, fun i hi hi' => by omega⟩
    · rw [if_neg hp]
      obtain ⟨r, hr, hsome, hnone⟩ := ih (k := k + 1) (by omega)
      refine ⟨r, hr, ?_, ?_⟩
      · intro j hj
        obtain ⟨h1, h2, h3, h4, h5⟩ := hsome j hj
        refine ⟨by omega, by omega, h3, h4, fun i hi hij hpi => ?_⟩
        rcases Nat.eq_or_lt_of_le hi with rfl | hi
        · exact hp ⟨hpi.2.2, hpi.2.1⟩
        · exact h5 i hi hij hpi
      · intro hr i hi hin' hall hpi
        rcases Nat.eq_or_lt_of_le hi with rfl | hi
        · exact hp ⟨hpi.2.2, hpi.2.1⟩
        · exact hnone hr i hi (by omega) (fun i' h1 h2 => hall i' (by omega) h2) hpi

/-- **The search for the end of the SFD** stays inside the capture and returns the first `1, 1`
pair among the bits that are there. -/
theorem findSfdEnd_spec (rate : SampleRate) (f : ℕ) (hlen : baseBit + nsamples ≤ 8 * bytes.length)
    (maxBits : ℕ) :
    ∃ r, findSfdEnd rate bytes baseBit f nsamples maxBits = .ok r ∧
      (∀ j, r = some j → j < maxBits ∧ rate.sampleOf f j < nsamples ∧
        PairAt rate (levelsFrom bytes baseBit) f j ∧
        ∀ i < j, ¬ PairAt rate (levelsFrom bytes baseBit) f i) ∧
      (r = none → ∀ i < maxBits, (∀ i' ≤ i, rate.sampleOf f i' < nsamples) →
        ¬ PairAt rate (levelsFrom bytes baseBit) f i) := by
  rw [findSfdEnd, dataBit_ok hlen, Exec.ok_bind]
  by_cases hin : rate.sampleOf f 0 < nsamples
  swap
  · rw [if_neg hin]
    exact ⟨none, rfl, by simp, fun _ i _ hall => absurd (hall 0 (by omega)) hin⟩
  simp only [if_pos hin]
  obtain ⟨r, hr, hsome, hnone⟩ :=
    sfdEndLoop_spec rate f hlen (n := maxBits - 1) le_rfl
  refine ⟨r, hr, ?_, ?_⟩
  · intro j hj
    obtain ⟨h1, h2, h3, h4, h5⟩ := hsome j hj
    exact ⟨by omega, h3, h4, fun i hi hpi => h5 i hpi.1 hi hpi⟩
  · intro hr i hi hall hpi
    exact hnone hr i hpi.1 (by omega) (fun i' _ h2 => hall i' h2) hpi

theorem findSfdEnd_eq_some (hlen : baseBit + nsamples ≤ 8 * bytes.length) {k maxBits : ℕ}
    (hk : k < maxBits) (hin : ∀ i ≤ k, rate.sampleOf f i < nsamples)
    (hpair : PairAt rate (levelsFrom bytes baseBit) f k)
    (hfirst : ∀ i < k, ¬ PairAt rate (levelsFrom bytes baseBit) f i) :
    findSfdEnd rate bytes baseBit f nsamples maxBits = .ok (some k) := by
  obtain ⟨r, hr, hsome, hnone⟩ := findSfdEnd_spec rate f hlen maxBits
  cases r with
  | none => exact absurd hpair (hnone rfl k hk hin)
  | some j =>
    obtain ⟨-, -, hj, hmin⟩ := hsome j rfl
    rcases Nat.lt_trichotomy j k with h | rfl | h
    · exact absurd hj (hfirst j h)
    · exact hr
    · exact absurd hpair (hmin k h)

end Sfd

/-! ### The destination MAC -/

/-- The byte of the open-loop bits from `k` on, `n` of them, the first at position `j`. -/
def macByteLoop (rate : SampleRate) (bytes : List UInt8) (baseBit f nsamples : ℕ) :
    ℕ → ℕ → ℕ → UInt8 → Exec (Option UInt8)
  | 0, _, _, b => return some b
  | n + 1, j, k, b => do
    match ← dataBit rate bytes baseBit f k nsamples with
    | none => return none
    | some s =>
      macByteLoop rate bytes baseBit f nsamples n (j + 1) (k + 1) (b ||| (s <<< UInt8.ofNat j))

/-- The bytes of the open-loop bits from `k` on, `n` of them. -/
def macLoop (rate : SampleRate) (bytes : List UInt8) (baseBit f nsamples : ℕ) :
    ℕ → ℕ → List UInt8 → Exec (Option (List UInt8))
  | 0, _, mac => return some mac
  | n + 1, k, mac => do
    match ← macByteLoop rate bytes baseBit f nsamples 8 0 k 0 with
    | none => return none
    | some b => macLoop rate bytes baseBit f nsamples n (k + 8) (mac ++ [b])

/-- Cap on the SFD search of the peek. -/
def peekMaxBits : ℕ := 200

/-- Open-loop decode of just the destination MAC. -/
def peekDstMac (rate : SampleRate) (bytes : List UInt8) (base nbytes : ℕ) :
    Exec (Option (List UInt8)) := do
  let nsamples := nbytes * 8
  let baseBit := base * 8
  match ← findFirstFallingEdge bytes baseBit nsamples with
  | none => return none
  | some f =>
    match ← findSfdEnd rate bytes baseBit f nsamples peekMaxBits with
    | none => return none
    | some sfdEnd =>
      let startBit := sfdEnd + 1
      if peekMaxBits < startBit + 48 then return none
      else macLoop rate bytes baseBit f nsamples 6 startBit []

section Peek

variable {rate : SampleRate} {bytes : List UInt8} {baseBit f nsamples : ℕ}

/-- `n` open-loop bits from bit `k` on. -/
def openBits (rate : SampleRate) (lv : ℕ → Bool) (f k n : ℕ) : List Bool :=
  (List.range n).map fun i => lv (rate.sampleOf f (k + i))

theorem openBits_succ (lv : ℕ → Bool) (k n : ℕ) :
    openBits rate lv f k (n + 1) =
      lv (rate.sampleOf f k) :: openBits rate lv f (k + 1) n := by
  simp only [openBits, List.range_succ_eq_map, List.map_cons, List.map_map, Nat.add_zero]
  refine congrArg _ (List.map_congr_left fun i _ => ?_)
  rw [Function.comp_apply, Nat.succ_eq_add_one, Nat.add_right_comm, Nat.add_assoc]

theorem openBits_add (lv : ℕ → Bool) (k m n : ℕ) :
    openBits rate lv f k (m + n) =
      openBits rate lv f k m ++ openBits rate lv f (k + m) n := by
  simp only [openBits, List.range_add, List.map_append, List.map_map]
  congr 1
  refine List.map_congr_left fun i _ => ?_
  rw [Function.comp_apply, Nat.add_assoc]

@[simp] theorem length_openBits (rate : SampleRate) (lv : ℕ → Bool) (f k n : ℕ) :
    (openBits rate lv f k n).length = n := by
  simp [openBits]

theorem macByteLoop_ok (hlen : baseBit + nsamples ≤ 8 * bytes.length) {n j k : ℕ} {b : UInt8}
    (hin : ∀ i < n, rate.sampleOf f (k + i) < nsamples) :
    macByteLoop rate bytes baseBit f nsamples n j k b =
      .ok (some (orBits b j (openBits rate (levelsFrom bytes baseBit) f k n))) := by
  induction n generalizing j k b with
  | zero => rfl
  | succ n ih =>
    have h0 := hin 0 (by omega)
    rw [Nat.add_zero] at h0
    rw [macByteLoop, dataBit_ok hlen, Exec.ok_bind, if_pos h0, openBits_succ, orBits]
    refine ih fun i hi => ?_
    rw [Nat.add_assoc, Nat.add_comm 1]
    exact hin (i + 1) (by omega)

theorem macLoop_ok (hlen : baseBit + nsamples ≤ 8 * bytes.length) {n k : ℕ} {mac : List UInt8}
    (hin : ∀ i < 8 * n, rate.sampleOf f (k + i) < nsamples) :
    macLoop rate bytes baseBit f nsamples n k mac =
      .ok (some (mac ++ packBytes (openBits rate (levelsFrom bytes baseBit) f k (8 * n)))) := by
  induction n generalizing k mac with
  | zero => simp [macLoop, packBytes, openBits]
  | succ n ih =>
    rw [macLoop, macByteLoop_ok hlen (fun i hi => hin i (by omega)), Exec.ok_bind]
    have h8 := packBytes_eight (length_openBits rate (levelsFrom bytes baseBit) f k 8)
    dsimp only
    rw [ih fun i hi => ?_]
    · rw [show 8 * (n + 1) = 8 + 8 * n by ring, openBits_add, packBytes_append _ (by simp), h8,
        List.append_assoc]
      rfl
    · rw [Nat.add_assoc]
      exact hin (8 + i) (by omega)

/-- Where bits are missing, no byte is returned. -/
theorem macByteLoop_total (hlen : baseBit + nsamples ≤ 8 * bytes.length) (n j k : ℕ) (b : UInt8) :
    ∃ r, macByteLoop rate bytes baseBit f nsamples n j k b = .ok r := by
  induction n generalizing j k b with
  | zero => exact ⟨_, rfl⟩
  | succ n ih =>
    rw [macByteLoop, dataBit_ok hlen, Exec.ok_bind]
    split_ifs
    · exact ih _ _ _
    · exact ⟨_, rfl⟩

theorem macLoop_total (hlen : baseBit + nsamples ≤ 8 * bytes.length) (n k : ℕ) (mac : List UInt8) :
    ∃ r, macLoop rate bytes baseBit f nsamples n k mac = .ok r := by
  induction n generalizing k mac with
  | zero => exact ⟨_, rfl⟩
  | succ n ih =>
    obtain ⟨b, hb⟩ : ∃ b, macByteLoop rate bytes baseBit f nsamples 8 0 k 0 = .ok b :=
      macByteLoop_total hlen 8 0 k 0
    rw [macLoop, hb, Exec.ok_bind]
    cases b with
    | none => exact ⟨_, rfl⟩
    | some b => exact ih _ _

/-- The peek stays inside the capture. -/
theorem peekDstMac_total (rate : SampleRate) {base nbytes : ℕ} (hn : 0 < nbytes)
    (hlen : base + nbytes ≤ bytes.length) : ∃ r, peekDstMac rate bytes base nbytes = .ok r := by
  have hlen' : base * 8 + nbytes * 8 ≤ 8 * bytes.length := by omega
  obtain ⟨f, hf, -, -⟩ := findFirstFallingEdge_spec (base * 8) (nbytes * 8) (by omega) hlen'
  rw [peekDstMac, hf, Exec.ok_bind]
  cases f with
  | none => exact ⟨_, rfl⟩
  | some f =>
    obtain ⟨k, hk, -, -⟩ := findSfdEnd_spec rate f hlen' peekMaxBits
    simp only [hk, Exec.ok_bind]
    cases k with
    | none => exact ⟨_, rfl⟩
    | some k =>
      dsimp only
      split_ifs
      · exact ⟨_, rfl⟩
      · exact macLoop_total hlen' _ _ _

/-- **The MAC peek** returns the 48 open-loop bits after the SFD, when they are all there. -/
theorem peekDstMac_eq_some {base nbytes k : ℕ} (hlen : base + nbytes ≤ bytes.length)
    (hf : f < nbytes * 8) (hfall : FallsAt (levelsFrom bytes (base * 8)) f)
    (hffirst : ∀ i < f, ¬ FallsAt (levelsFrom bytes (base * 8)) i) (hk : k + 49 ≤ peekMaxBits)
    (hin : ∀ i < k + 49, rate.sampleOf f i < nbytes * 8)
    (hpair : PairAt rate (levelsFrom bytes (base * 8)) f k)
    (hkfirst : ∀ i < k, ¬ PairAt rate (levelsFrom bytes (base * 8)) f i) :
    peekDstMac rate bytes base nbytes =
      .ok (some (packBytes (openBits rate (levelsFrom bytes (base * 8)) f (k + 1) 48))) := by
  have hlen' : base * 8 + nbytes * 8 ≤ 8 * bytes.length := by omega
  simp only [peekDstMac, findFirstFallingEdge_eq_some hlen' hf hfall hffirst, Exec.ok_bind,
    findSfdEnd_eq_some hlen' (show k < peekMaxBits by omega) (fun i hi => hin i (by omega)) hpair
      hkfirst]
  rw [if_neg (by omega), macLoop_ok hlen' fun i hi => hin _ (by omega)]
  rfl

end Peek

end Pico10BaseT
