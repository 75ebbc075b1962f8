import Pico10BaseT.Crc.Basic

/-!
# The checks of the tools

`harness.py` computes the CRC with a table of 256 words, `dpll-rust` bit by bit as the firmware does;
both take the length of a frame from its IPv4 header, and check an FCS of their own.

* `harness_crc32_eq` : the CRC by the table is that of the firmware.
* `fcsOk_spec` : the tools accept the same frames; they agree with the firmware but for ARP frames
  longer than the minimum and for IPv4 frames that are cut short.
-/

namespace Pico10BaseT

open ShiftRegister

/-! ### The source -/

/-- The length that both tools take: an IPv4 frame has the one of its header. -/
def fcsFrameLen (frame : List UInt8) : Exec ℕ := do
  let ethertype ← rd16 frame 12
  if ethertype = 0x0800 then
    let ipTotal ← rd16 frame 16
    return max (14 + ipTotal.toNat + 4) 64
  else return frame.length

namespace Harness

/-- `_T`. -/
def crcTable : List UInt32 := (List.range 256).map fun n => crcBit^[8] (UInt32.ofNat n)

/-- A turn of the loop of `crc32(d)`. -/
def crcStep (c : UInt32) (x : UInt8) : Exec UInt32 := do
  let t ← index crcTable ((c ^^^ x.toUInt32) &&& 0xFF).toNat
  return (c >>> 8) ^^^ t

/-- `crc32(d)`. -/
def crc32 (d : List UInt8) : Exec UInt32 := do
  let c ← d.foldlM crcStep 0xFFFFFFFF
  return c ^^^ 0xFFFFFFFF

/-- `fcs_ok(f)`. -/
def fcsOk (f : List UInt8) : Exec Bool := do
  if f.length < 18 then return false
  else
    let fl ← fcsFrameLen f
    if fl < 18 ∨ f.length < fl then return false
    else
      let c ← crc32 (f.take (fl - 4))
      let b₀ ← index f (fl - 4)
      let b₁ ← index f (fl - 3)
      let b₂ ← index f (fl - 2)
      let b₃ ← index f (fl - 1)
      return decide (c = fromLeBytes b₀ b₁ b₂ b₃)

end Harness

/-- `fcs_ok` of `dpll-rust`. -/
def Validator.fcsOk (frame : List UInt8) : Exec Bool := do
  if frame.length < 18 then return false
  else
    let frameLen ← fcsFrameLen frame
    if frameLen < 18 ∨ frame.length < frameLen then return false
    else
      let data ← slice frame 0 (frameLen - 4)
      let b₀ ← index frame (frameLen - 4)
      let b₁ ← index frame (frameLen - 3)
      let b₂ ← index frame (frameLen - 2)
      let b₃ ← index frame (frameLen - 1)
      return decide (Pico10BaseT.crc32 data = fromLeBytes b₀ b₁ b₂ b₃)

/-! ### The table -/

theorem index_crcTable {i : ℕ} (h : i < 256) :
    index Harness.crcTable i = .ok (crcBit^[8] (UInt32.ofNat i)) := by
  simp [index, Harness.crcTable, h]

theorem iterate_crcBit_eq (c : UInt32) : crcBit^[8] c = (c >>> 8) ^^^ crcBit^[8] (c &&& 0xFF) := by
  apply UInt32.toBitVec_inj.1
  rw [UInt32.toBitVec_xor, toBitVec_iterate_crcBit, toBitVec_iterate_crcBit, iterate_shift_eq]
  rfl

/-- A byte is gone after eight shifts. -/
theorem xor_toUInt32_shiftRight (c : UInt32) (x : UInt8) : (c ^^^ x.toUInt32) >>> 8 = c >>> 8 := by
  have hby : (UInt32.toNat 8) % 32 = 8 := rfl
  have hx : x.toUInt32.toNat >>> 8 = 0 := by
    rw [Nat.shiftRight_eq_div_pow, UInt8.toNat_toUInt32]
    exact Nat.div_eq_of_lt x.toNat_lt
  apply UInt32.toNat_inj.1
  rw [UInt32.toNat_shiftRight, UInt32.toNat_shiftRight, hby, UInt32.toNat_xor,
    Nat.shiftRight_xor_distrib, hx, Nat.xor_zero]

/-- A look-up is eight shifts. -/
theorem crcStep_eq (c : UInt32) (x : UInt8) : Harness.crcStep c x = .ok (stepByte c x) := by
  have hlt : ((c ^^^ x.toUInt32) &&& 0xFF).toNat < 256 := by
    rw [UInt32.toNat_and]
    exact Nat.lt_of_le_of_lt Nat.and_le_right (by decide)
  have hstep := iterate_crcBit_eq (c ^^^ x.toUInt32)
  rw [xor_toUInt32_shiftRight] at hstep
  rw [Harness.crcStep, index_crcTable hlt, UInt32.ofNat_toNat, stepByte, hstep]
  rfl

/-- **The CRC by the table** is the CRC bit by bit. -/
theorem harness_crc32_eq (d : List UInt8) : Harness.crc32 d = .ok (crc32 d) := by
  have hfold : ∀ c, d.foldlM Harness.crcStep c = .ok (crcUpdate c d) := by
    induction d with
    | nil => exact fun c => rfl
    | cons x d ih =>
      intro c
      rw [List.foldlM_cons, crcStep_eq, Exec.ok_bind, ih]
      rfl
  rw [Harness.crc32, hfold]
  rfl

/-! ### The length -/

/-- The length that the tools take. -/
def toolLen (frame : List UInt8) : ℕ :=
  if wordAt frame 12 = 0x0800 then max (14 + (wordAt frame 16).toNat + 4) 64 else frame.length

/-- An IPv4 frame that is shorter than its header says. -/
def CutShort (frame : List UInt8) : Prop :=
  wordAt frame 12 = 0x0800 ∧ frame.length < max (14 + (wordAt frame 16).toNat + 4) 64

/-- An ARP frame with more than the padding. -/
def LongArp (frame : List UInt8) : Prop := wordAt frame 12 = 0x0806 ∧ 64 < frame.length

section Length

variable {frame : List UInt8}

theorem fcsFrameLen_eq (h : 18 ≤ frame.length) : fcsFrameLen frame = .ok (toolLen frame) := by
  rw [fcsFrameLen, rd16_ok (by omega), rd16_ok (by omega), toolLen]
  simp only [Exec.ok_bind, Exec.pure_eq]
  split_ifs <;> rfl

theorem harness_fcsOk_eq (h : 18 ≤ frame.length) :
    Harness.fcsOk frame = verifyFcs frame (toolLen frame) := by
  rw [Harness.fcsOk, if_neg (by omega), fcsFrameLen_eq h, Exec.ok_bind, verifyFcs]
  by_cases hb : toolLen frame < 18 ∨ frame.length < toolLen frame
  · rw [if_pos hb, if_pos hb]
  · rw [if_neg hb, if_neg hb, harness_crc32_eq, slice_zero (by omega)]
    simp only [Exec.ok_bind]

theorem validator_fcsOk_eq (h : 18 ≤ frame.length) :
    Validator.fcsOk frame = verifyFcs frame (toolLen frame) := by
  rw [Validator.fcsOk, if_neg (by omega), fcsFrameLen_eq h, Exec.ok_bind, verifyFcs]

/-- The firmware takes the same length, but for the two kinds. -/
theorem deriveFrameLen_eq_toolLen (hcut : ¬CutShort frame) (harp : ¬LongArp frame) :
    deriveFrameLen frame = .ok (if frame.length < 18 then frame.length else toolLen frame) := by
  by_cases hlen : frame.length < 18
  · rw [deriveFrameLen, if_pos hlen, if_pos hlen]
    rfl
  rw [if_neg hlen]
  by_cases hip : wordAt frame 12 = 0x0800
  · rw [deriveFrameLen_ipv4 (by omega) hip, toolLen, if_pos hip,
      Nat.min_eq_left (Nat.le_of_not_lt fun h => hcut ⟨hip, h⟩)]
  · rw [deriveFrameLen, if_neg hlen, rd16_ok (by omega), rd16_ok (by omega), toolLen, if_neg hip]
    simp only [Exec.ok_bind, Exec.pure_eq, hip, if_false]
    split_ifs with h64
    · have hle : frame.length ≤ 64 := Nat.le_of_not_lt fun h => harp ⟨h64.1, h⟩
      rw [Nat.le_antisymm h64.2 hle]
    · rfl

theorem deriveFrameLen_of_longArp (h : LongArp frame) : deriveFrameLen frame = .ok 64 := by
  obtain ⟨harp, hlen⟩ := h
  have hip : wordAt frame 12 ≠ 0x0800 := by rw [harp]; decide
  rw [deriveFrameLen, if_neg (by omega), rd16_ok (by omega), rd16_ok (by omega)]
  simp only [Exec.ok_bind, Exec.pure_eq, if_neg hip]
  rw [if_pos ⟨harp, hlen.le⟩]

theorem verifyFcs_of_length_lt {n : ℕ} (h : n < 18 ∨ frame.length < n) :
    verifyFcs frame n = .ok false := if_pos h

end Length

/-- **The checks.**  The CRC by the table is that of the firmware, and both tools accept the same
frames.  They accept what the firmware accepts, unless the frame is an IPv4 frame that is cut short,
which the tools refuse and the firmware checks as a whole, or an ARP frame with more than the
padding, which the tools check as a whole and the firmware up to the padding. -/
theorem fcsOk_spec (frame : List UInt8) :
    Harness.crc32 frame = .ok (crc32 frame) ∧ Harness.fcsOk frame = Validator.fcsOk frame ∧
      (¬CutShort frame → ¬LongArp frame →
        Harness.fcsOk frame = deriveFrameLen frame >>= verifyFcs frame) ∧
      (CutShort frame → Harness.fcsOk frame = .ok false ∧
        deriveFrameLen frame >>= verifyFcs frame = verifyFcs frame frame.length) ∧
      (LongArp frame → Harness.fcsOk frame = verifyFcs frame frame.length ∧
        deriveFrameLen frame >>= verifyFcs frame = verifyFcs frame 64) := by
  refine ⟨harness_crc32_eq frame, ?_, fun hcut harp => ?_, fun hcut => ?_, fun harp => ?_⟩
  · by_cases hlen : frame.length < 18
    · rw [Harness.fcsOk, Validator.fcsOk, if_pos hlen, if_pos hlen]
    · rw [harness_fcsOk_eq (by omega), validator_fcsOk_eq (by omega)]
  · rw [deriveFrameLen_eq_toolLen hcut harp, Exec.ok_bind]
    by_cases hlen : frame.length < 18
    · rw [if_pos hlen, Harness.fcsOk, if_pos hlen, verifyFcs_of_length_lt (.inl hlen)]
      rfl
    · rw [if_neg hlen, harness_fcsOk_eq (by omega)]
  · rcases Nat.lt_or_ge frame.length 18 with hlen | h18
    · rw [Harness.fcsOk, if_pos hlen, deriveFrameLen, if_pos hlen]
      exact ⟨rfl, rfl⟩
    · rw [harness_fcsOk_eq h18, toolLen, if_pos hcut.1, verifyFcs_of_length_lt (.inr hcut.2),
        deriveFrameLen_ipv4 h18 hcut.1, Exec.ok_bind, Nat.min_eq_right hcut.2.le]
      exact ⟨rfl, rfl⟩
  · have hlen := harp.2
    have hip : wordAt frame 12 ≠ 0x0800 := by rw [harp.1]; decide
    rw [harness_fcsOk_eq (by omega), toolLen, if_neg hip, deriveFrameLen_of_longArp harp]
    exact ⟨rfl, rfl⟩

end Pico10BaseT
