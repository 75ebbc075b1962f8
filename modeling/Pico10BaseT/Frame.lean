import Pico10BaseT.Rust.Exec
import Mathlib.Tactic.Ring

/-!
# Frames and their check sequence

The CRC-32 of `crc.rs`, bitwise as in the source, and the two functions by which the receiver finds
the length of a decoded frame and checks its FCS.

* `crc32Padded_eq` : the padded CRC is the CRC of the padded bytes.
* `verifyFcs_append` : a frame followed by its FCS is accepted.
-/

namespace Pico10BaseT

/-! ### CRC-32 -/

/-- One bit of the reflected CRC. -/
def crcBit (crc : UInt32) : UInt32 :=
  if crc &&& 1 ≠ 0 then (crc >>> 1) ^^^ 0xEDB88320 else crc >>> 1

def stepByte (crc : UInt32) (b : UInt8) : UInt32 := crcBit^[8] (crc ^^^ b.toUInt32)

def crcUpdate (crc : UInt32) (data : List UInt8) : UInt32 := data.foldl stepByte crc

def crcFinalize (crc : UInt32) : UInt32 := crc ^^^ 0xFFFFFFFF

/-- CRC-32 of `data`. -/
def crc32 (data : List UInt8) : UInt32 := crcFinalize (crcUpdate 0xFFFFFFFF data)

/-- CRC-32 of `data` followed by `padLen` zero bytes. -/
def crc32Padded (data : List UInt8) (padLen : ℕ) : UInt32 :=
  crcFinalize ((fun crc => stepByte crc 0)^[padLen] (crcUpdate 0xFFFFFFFF data))

theorem crcUpdate_append (crc : UInt32) (a b : List UInt8) :
    crcUpdate crc (a ++ b) = crcUpdate (crcUpdate crc a) b :=
  List.foldl_append

theorem crcUpdate_replicate (crc : UInt32) (n : ℕ) :
    crcUpdate crc (List.replicate n 0) = (fun crc => stepByte crc 0)^[n] crc := by
  induction n generalizing crc with
  | zero => rfl
  | succ n ih =>
    rw [List.replicate_succ, Function.iterate_succ_apply, ← ih]
    rfl

/-- **The padded CRC** is the CRC of the padded bytes. -/
theorem crc32Padded_eq (data : List UInt8) (padLen : ℕ) :
    crc32Padded data padLen = crc32 (data ++ List.replicate padLen 0) := by
  rw [crc32Padded, crc32, crcUpdate_append, crcUpdate_replicate]

/-! ### Little-endian 32-bit words -/

/-- `v.to_le_bytes()`. -/
def toLeBytes (v : UInt32) : List UInt8 :=
  [v.toUInt8, (v >>> 8).toUInt8, (v >>> 16).toUInt8, (v >>> 24).toUInt8]

/-- `u32::from_le_bytes([b₀, b₁, b₂, b₃])`. -/
def fromLeBytes (b₀ b₁ b₂ b₃ : UInt8) : UInt32 :=
  b₀.toUInt32 ||| (b₁.toUInt32 <<< 8) ||| (b₂.toUInt32 <<< 16) ||| (b₃.toUInt32 <<< 24)

theorem toNat_toUInt8_shift (v : UInt32) {k : ℕ} (hk : k < 32) :
    (v >>> UInt32.ofNat k).toUInt8.toNat = v.toNat / 2 ^ k % 256 := by
  have hk' : (UInt32.ofNat k).toNat % 32 = k := by
    rw [UInt32.toNat_ofNat']
    omega
  rw [UInt32.toNat_toUInt8, UInt32.toNat_shiftRight, hk', Nat.shiftRight_eq_div_pow]

theorem toNat_shift_toUInt32 (b : UInt8) {k : ℕ} (hk : k ≤ 24) :
    (b.toUInt32 <<< UInt32.ofNat k).toNat = b.toNat * 2 ^ k := by
  have hk' : (UInt32.ofNat k).toNat % 32 = k := by
    rw [UInt32.toNat_ofNat']
    omega
  have hb := b.toNat_lt
  rw [UInt32.toNat_shiftLeft, hk', UInt8.toNat_toUInt32, Nat.shiftLeft_eq, Nat.mod_eq_of_lt]
  calc b.toNat * 2 ^ k < 2 ^ 8 * 2 ^ k := Nat.mul_lt_mul_of_pos_right hb (Nat.two_pow_pos k)
    _ = 2 ^ (8 + k) := (Nat.pow_add 2 8 k).symm
    _ ≤ 2 ^ 32 := Nat.pow_le_pow_right (by omega) (by omega)

theorem toNat_fromLeBytes (b₀ b₁ b₂ b₃ : UInt8) :
    (fromLeBytes b₀ b₁ b₂ b₃).toNat =
      b₀.toNat + b₁.toNat * 2 ^ 8 + b₂.toNat * 2 ^ 16 + b₃.toNat * 2 ^ 24 := by
  have h0 := b₀.toNat_lt
  have h1 := b₁.toNat_lt
  have h2 := b₂.toNat_lt
  have e1 := toNat_shift_toUInt32 b₁ (k := 8) (by omega)
  have e2 := toNat_shift_toUInt32 b₂ (k := 16) (by omega)
  have e3 := toNat_shift_toUInt32 b₃ (k := 24) (by omega)
  -- each byte is below the place of the next
  have hor : ∀ {x y k : ℕ}, x < 2 ^ k → x ||| y * 2 ^ k = x + y * 2 ^ k := by
    intro x y k hx
    rw [Nat.or_comm, Nat.mul_comm, ← Nat.two_pow_add_eq_or_of_lt hx, Nat.add_comm]
  simp only [fromLeBytes, UInt32.toNat_or, UInt8.toNat_toUInt32]
  rw [show (8 : UInt32) = UInt32.ofNat 8 from rfl, show (16 : UInt32) = UInt32.ofNat 16 from rfl,
    show (24 : UInt32) = UInt32.ofNat 24 from rfl, e1, e2, e3, hor h0,
    hor (show b₀.toNat + b₁.toNat * 2 ^ 8 < 2 ^ 16 by omega),
    hor (show b₀.toNat + b₁.toNat * 2 ^ 8 + b₂.toNat * 2 ^ 16 < 2 ^ 24 by omega)]

theorem fromLeBytes_toLeBytes (v : UInt32) :
    fromLeBytes v.toUInt8 (v >>> 8).toUInt8 (v >>> 16).toUInt8 (v >>> 24).toUInt8 = v := by
  have hv := v.toNat_lt
  apply UInt32.toNat_inj.1
  rw [toNat_fromLeBytes, UInt32.toNat_toUInt8]
  have e1 := toNat_toUInt8_shift v (k := 8) (by omega)
  have e2 := toNat_toUInt8_shift v (k := 16) (by omega)
  have e3 := toNat_toUInt8_shift v (k := 24) (by omega)
  rw [show UInt32.ofNat 8 = (8 : UInt32) from rfl] at e1
  rw [show UInt32.ofNat 16 = (16 : UInt32) from rfl] at e2
  rw [show UInt32.ofNat 24 = (24 : UInt32) from rfl] at e3
  rw [e1, e2, e3]
  omega

/-! ### Length and FCS of a received frame -/

/-- Frame length including FCS, from EtherType and IP length. -/
def deriveFrameLen (frame : List UInt8) : Exec ℕ := do
  if frame.length < 18 then return frame.length
  else
    let etype ← rd16 frame 12
    if etype = 0x0800 then
      let ipTotalLen ← rd16 frame 16
      let computed := max (14 + ipTotalLen.toNat + 4) 64
      return if computed ≤ frame.length then computed else frame.length
    else if etype = 0x0806 ∧ 64 ≤ frame.length then return 64
    else return frame.length

/-- True if the trailing 4-byte FCS (little-endian) matches. -/
def verifyFcs (frame : List UInt8) (frameLen : ℕ) : Exec Bool := do
  if frameLen < 14 + 4 ∨ frame.length < frameLen then return false
  else
    let data ← slice frame 0 (frameLen - 4)
    let b₀ ← index frame (frameLen - 4)
    let b₁ ← index frame (frameLen - 3)
    let b₂ ← index frame (frameLen - 2)
    let b₃ ← index frame (frameLen - 1)
    return decide (crc32 data = fromLeBytes b₀ b₁ b₂ b₃)

theorem deriveFrameLen_total (frame : List UInt8) : ∃ n, deriveFrameLen frame = .ok n := by
  rw [deriveFrameLen]
  by_cases h : frame.length < 18
  · exact ⟨_, if_pos h⟩
  · rw [if_neg h, rd16_ok (by omega), rd16_ok (by omega)]
    simp only [Exec.ok_bind, Exec.pure_eq]
    split_ifs <;> exact ⟨_, rfl⟩

theorem deriveFrameLen_le {frame : List UInt8} {n : ℕ} (h : deriveFrameLen frame = .ok n) :
    n ≤ frame.length := by
  rw [deriveFrameLen] at h
  by_cases hlen : frame.length < 18
  · rw [if_pos hlen] at h
    cases h
    exact le_rfl
  · rw [if_neg hlen, rd16_ok (by omega), rd16_ok (by omega)] at h
    simp only [Exec.ok_bind, Exec.pure_eq] at h
    split_ifs at h <;> cases h <;> omega

/-- The length of an IPv4 frame is what its header says, clamped to the buffer. -/
theorem deriveFrameLen_ipv4 {frame : List UInt8} (hlen : 18 ≤ frame.length)
    (hip : wordAt frame 12 = 0x0800) :
    deriveFrameLen frame =
      .ok (min (max (14 + (wordAt frame 16).toNat + 4) 64) frame.length) := by
  rw [deriveFrameLen, if_neg (by omega), rd16_ok (by omega), rd16_ok (by omega)]
  simp only [Exec.ok_bind, Exec.pure_eq, hip, if_true]
  split_ifs with hle
  · rw [Nat.min_eq_left hle]
  · rw [Nat.min_eq_right (by omega)]

theorem verifyFcs_total (frame : List UInt8) (frameLen : ℕ) :
    ∃ b, verifyFcs frame frameLen = .ok b := by
  rw [verifyFcs]
  by_cases h : frameLen < 14 + 4 ∨ frame.length < frameLen
  · exact ⟨_, if_pos h⟩
  · rw [if_neg h, slice_zero (by omega), index_eq_byteAt (by omega), index_eq_byteAt (by omega),
      index_eq_byteAt (by omega), index_eq_byteAt (by omega)]
    exact ⟨_, rfl⟩

theorem verifyFcs_bounds {frame : List UInt8} {frameLen : ℕ}
    (h : verifyFcs frame frameLen = .ok true) : 18 ≤ frameLen ∧ frameLen ≤ frame.length := by
  rw [verifyFcs] at h
  by_cases hb : frameLen < 14 + 4 ∨ frame.length < frameLen
  · rw [if_pos hb] at h
    cases h
  · omega

/-- **A frame followed by its FCS** is accepted. -/
theorem verifyFcs_append {data : List UInt8} (h : 14 ≤ data.length) :
    verifyFcs (data ++ toLeBytes (crc32 data)) (data.length + 4) = .ok true := by
  obtain ⟨c, hc⟩ : ∃ c, c = crc32 data := ⟨_, rfl⟩
  have hlen : (data ++ toLeBytes c).length = data.length + 4 := by
    rw [List.length_append]
    rfl
  have hslice : slice (data ++ toLeBytes c) 0 data.length = .ok data := by
    rw [slice_zero (by omega), List.take_left]
  have hb : ∀ i < 4, index (data ++ toLeBytes c) (data.length + i) = .ok (byteAt (toLeBytes c) i) :=
    fun i hi => by rw [index_eq_byteAt (by omega), byteAt_append_right]
  have h0 := hb 0 (by omega)
  rw [Nat.add_zero] at h0
  rw [← hc, verifyFcs, if_neg (by omega), show data.length + 4 - 4 = data.length by omega,
    show data.length + 4 - 3 = data.length + 1 by omega,
    show data.length + 4 - 2 = data.length + 2 by omega,
    show data.length + 4 - 1 = data.length + 3 by omega, hslice, h0, hb 1 (by omega),
    hb 2 (by omega), hb 3 (by omega)]
  simp only [Exec.ok_bind, Exec.pure_eq, ← hc]
  have := fromLeBytes_toLeBytes c
  simp [toLeBytes, byteAt, this]

end Pico10BaseT
