import Pico10BaseT.Bits.Pack
import Pico10BaseT.Frame
import Mathlib.Tactic.IntervalCases

/-!
# Sending a frame

`MANCHESTER_TABLE` and the words that `send_raw_frame` writes to the transmit FIFO: preamble, SFD,
body, padding, FCS, TP_IDL and idle words.  A word is 16 half-bit codes, least significant first.

`lineSamples` are the levels a receiver samples from the words, three a half-bit.
`lineSamples_sendRawFrame` says that they are the Manchester code of the frame.
-/

namespace Pico10BaseT

set_option maxRecDepth 4000 in
/-- Data byte → 32-bit PIO instruction stream: 16 half-bits per byte, LSB-first, `0b00` idle,
`0b01` low, `0b10` high. -/
def manchesterTable : Vector UInt32 256 :=
  #v[0x66666666, 0x66666669, 0x66666696, 0x66666699, 0x66666966, 0x66666969, 0x66666996, 0x66666999,
    0x66669666, 0x66669669, 0x66669696, 0x66669699, 0x66669966, 0x66669969, 0x66669996, 0x66669999,
    0x66696666, 0x66696669, 0x66696696, 0x66696699, 0x66696966, 0x66696969, 0x66696996, 0x66696999,
    0x66699666, 0x66699669, 0x66699696, 0x66699699, 0x66699966, 0x66699969, 0x66699996, 0x66699999,
    0x66966666, 0x66966669, 0x66966696, 0x66966699, 0x66966966, 0x66966969, 0x66966996, 0x66966999,
    0x66969666, 0x66969669, 0x66969696, 0x66969699, 0x66969966, 0x66969969, 0x66969996, 0x66969999,
    0x66996666, 0x66996669, 0x66996696, 0x66996699, 0x66996966, 0x66996969, 0x66996996, 0x66996999,
    0x66999666, 0x66999669, 0x66999696, 0x66999699, 0x66999966, 0x66999969, 0x66999996, 0x66999999,
    0x69666666, 0x69666669, 0x69666696, 0x69666699, 0x69666966, 0x69666969, 0x69666996, 0x69666999,
    0x69669666, 0x69669669, 0x69669696, 0x69669699, 0x69669966, 0x69669969, 0x69669996, 0x69669999,
    0x69696666, 0x69696669, 0x69696696, 0x69696699, 0x69696966, 0x69696969, 0x69696996, 0x69696999,
    0x69699666, 0x69699669, 0x69699696, 0x69699699, 0x69699966, 0x69699969, 0x69699996, 0x69699999,
    0x69966666, 0x69966669, 0x69966696, 0x69966699, 0x69966966, 0x69966969, 0x69966996, 0x69966999,
    0x69969666, 0x69969669, 0x69969696, 0x69969699, 0x69969966, 0x69969969, 0x69969996, 0x69969999,
    0x69996666, 0x69996669, 0x69996696, 0x69996699, 0x69996966, 0x69996969, 0x69996996, 0x69996999,
    0x69999666, 0x69999669, 0x69999696, 0x69999699, 0x69999966, 0x69999969, 0x69999996, 0x69999999,
    0x96666666, 0x96666669, 0x96666696, 0x96666699, 0x96666966, 0x96666969, 0x96666996, 0x96666999,
    0x96669666, 0x96669669, 0x96669696, 0x96669699, 0x96669966, 0x96669969, 0x96669996, 0x96669999,
    0x96696666, 0x96696669, 0x96696696, 0x96696699, 0x96696966, 0x96696969, 0x96696996, 0x96696999,
    0x96699666, 0x96699669, 0x96699696, 0x96699699, 0x96699966, 0x96699969, 0x96699996, 0x96699999,
    0x96966666, 0x96966669, 0x96966696, 0x96966699, 0x96966966, 0x96966969, 0x96966996, 0x96966999,
    0x96969666, 0x96969669, 0x96969696, 0x96969699, 0x96969966, 0x96969969, 0x96969996, 0x96969999,
    0x96996666, 0x96996669, 0x96996696, 0x96996699, 0x96996966, 0x96996969, 0x96996996, 0x96996999,
    0x96999666, 0x96999669, 0x96999696, 0x96999699, 0x96999966, 0x96999969, 0x96999996, 0x96999999,
    0x99666666, 0x99666669, 0x99666696, 0x99666699, 0x99666966, 0x99666969, 0x99666996, 0x99666999,
    0x99669666, 0x99669669, 0x99669696, 0x99669699, 0x99669966, 0x99669969, 0x99669996, 0x99669999,
    0x99696666, 0x99696669, 0x99696696, 0x99696699, 0x99696966, 0x99696969, 0x99696996, 0x99696999,
    0x99699666, 0x99699669, 0x99699696, 0x99699699, 0x99699966, 0x99699969, 0x99699996, 0x99699999,
    0x99966666, 0x99966669, 0x99966696, 0x99966699, 0x99966966, 0x99966969, 0x99966996, 0x99966999,
    0x99969666, 0x99969669, 0x99969696, 0x99969699, 0x99969966, 0x99969969, 0x99969996, 0x99969999,
    0x99996666, 0x99996669, 0x99996696, 0x99996699, 0x99996966, 0x99996969, 0x99996996, 0x99996999,
    0x99999666, 0x99999669, 0x99999696, 0x99999699, 0x99999966, 0x99999969, 0x99999996, 0x99999999]

/-- `MANCHESTER_TABLE[b as usize]`. -/
def manchesterWord (b : UInt8) : UInt32 := manchesterTable.get ⟨b.toNat, b.toNat_lt⟩

/-- The words that `send_raw_frame` writes for a frame body (dst MAC..payload). -/
def sendRawFrame (body : List UInt8) : List UInt32 :=
  let padLen := 60 - body.length
  let crc := if padLen = 0 then crc32 body else crc32Padded body padLen
  let crcBytes := toLeBytes crc
  List.replicate 7 (manchesterWord 0x55) ++ [manchesterWord 0xD5] ++
    body.map manchesterWord ++ List.replicate padLen (manchesterWord 0x00) ++
    crcBytes.map manchesterWord ++
    -- TP_IDL, then 12 idle words
    [0x00000AAA] ++ List.replicate 12 0

/-! ### The frame on the wire -/

/-- The body padded to its minimal length. -/
def paddedBody (body : List UInt8) : List UInt8 := body ++ List.replicate (60 - body.length) 0

/-- The padded body followed by its FCS. -/
def wireFrame (body : List UInt8) : List UInt8 :=
  paddedBody body ++ toLeBytes (crc32 (paddedBody body))

/-- Preamble and SFD. -/
def preambleBytes : List UInt8 := List.replicate 7 0x55 ++ [0xD5]

theorem length_paddedBody (body : List UInt8) :
    (paddedBody body).length = max body.length 60 := by
  simp only [paddedBody, List.length_append, List.length_replicate]
  omega

theorem length_wireFrame (body : List UInt8) :
    (wireFrame body).length = max body.length 60 + 4 := by
  rw [wireFrame, List.length_append, length_paddedBody]
  rfl

/-- The words are those of the bytes on the wire, then the end of the frame. -/
theorem sendRawFrame_eq (body : List UInt8) :
    sendRawFrame body =
      (preambleBytes ++ wireFrame body).map manchesterWord ++ 0x00000AAA :: List.replicate 12 0 := by
  have hcrc : (if 60 - body.length = 0 then crc32 body else crc32Padded body (60 - body.length)) =
      crc32 (paddedBody body) := by
    split_ifs with h
    · simp [paddedBody, h]
    · exact crc32Padded_eq body _
  simp only [sendRawFrame, hcrc, wireFrame, preambleBytes, paddedBody, List.map_append,
    List.map_replicate, List.append_assoc]
  rfl

/-! ### Sampling the line -/

/-- The level sampled during half-bit `i` of a word: the inverse of the driven level, which is high
for code 2 only. -/
def halfLevel (w : UInt32) (i : ℕ) : Bool := decide ((w >>> UInt32.ofNat (2 * i)) &&& 3 ≠ 2)

/-- The levels sampled during a word, three a half-bit. -/
def wordSamples (w : UInt32) : List Bool :=
  ((List.range 16).map (halfLevel w)).flatMap fun level => [level, level, level]

/-- The levels sampled during the words. -/
def lineSamples (words : List UInt32) : List Bool := words.flatMap wordSamples

/-- Ideally sampled Manchester bits: the level of the first half is the bit. -/
def manchester (bits : List Bool) : List Bool := bits.flatMap fun b => [b, b, b, !b, !b, !b]

/-- The word of up to eight bits: code pairs 1, 2 for a one and 2, 1 for a zero. -/
def manchesterCode : List Bool → ℕ
  | [] => 0
  | b :: bits => (if b then 9 else 6) + 16 * manchesterCode bits

/-- The table holds the Manchester codes. -/
theorem manchesterTable_eq : manchesterTable.toList.map UInt32.toNat =
    (List.range 256).map fun i => manchesterCode (bitsOfByte (UInt8.ofNat i)) := by
  decide +kernel

theorem toNat_manchesterWord (b : UInt8) :
    (manchesterWord b).toNat = manchesterCode (bitsOfByte b) := by
  have hb := b.toNat_lt
  have h := congrArg (fun l => l[b.toNat]?) manchesterTable_eq
  simp only [List.getElem?_map, List.getElem?_range hb, Option.map_some, UInt8.ofNat_toNat] at h
  rw [List.getElem?_eq_getElem (by simpa using hb)] at h
  simpa [manchesterWord, Vector.get] using h

theorem halfLevel_eq (w : UInt32) {i : ℕ} (hi : i < 16) :
    halfLevel w i = decide (w.toNat / 4 ^ i % 4 ≠ 2) := by
  have hk : (UInt32.ofNat (2 * i)).toNat % 32 = 2 * i := by
    rw [UInt32.toNat_ofNat']
    omega
  have h : ((w >>> UInt32.ofNat (2 * i)) &&& 3).toNat = w.toNat / 4 ^ i % 4 := by
    rw [UInt32.toNat_and, UInt32.toNat_shiftRight, hk, Nat.shiftRight_eq_div_pow, Nat.pow_mul]
    exact Nat.and_two_pow_sub_one_eq_mod _ 2
  rw [halfLevel, ← h]
  exact decide_eq_decide.2 (not_congr UInt32.toNat_inj.symm)

/-- The half-bit levels of a code are the bits, each followed by its inverse. -/
theorem halfLevels_manchesterCode (bits : List Bool) :
    ((List.range (2 * bits.length)).map fun i => decide (manchesterCode bits / 4 ^ i % 4 ≠ 2)) =
      bits.flatMap fun b => [b, !b] := by
  induction bits with
  | nil => rfl
  | cons b bits ih =>
    have hrest : ∀ i, manchesterCode (b :: bits) / 4 ^ (i + 1 + 1) = manchesterCode bits / 4 ^ i := by
      intro i
      rw [Nat.pow_succ', Nat.pow_succ', ← Nat.div_div_eq_div_mul, ← Nat.div_div_eq_div_mul,
        manchesterCode]
      congr 1
      split_ifs <;> omega
    rw [List.length_cons, show 2 * (bits.length + 1) = 2 * bits.length + 1 + 1 by ring,
      List.range_succ_eq_map, List.range_succ_eq_map, List.flatMap_cons, ← ih]
    simp only [List.map_cons, List.map_map, Function.comp_def, Nat.succ_eq_add_one, hrest]
    have h0 : decide (manchesterCode (b :: bits) / 4 ^ 0 % 4 ≠ 2) = b := by
      cases b <;> simp [manchesterCode] <;> omega
    have h1 : decide (manchesterCode (b :: bits) / 4 ^ (0 + 1) % 4 ≠ 2) = !b := by
      cases b <;> simp [manchesterCode] <;> omega
    rw [h0, h1]
    rfl

theorem wordSamples_manchesterWord (b : UInt8) :
    wordSamples (manchesterWord b) = manchester (bitsOfByte b) := by
  have h : (List.range 16).map (halfLevel (manchesterWord b)) =
      (bitsOfByte b).flatMap fun b => [b, !b] := by
    rw [← halfLevels_manchesterCode, length_bitsOfByte, ← toNat_manchesterWord]
    exact List.map_congr_left fun i hi => halfLevel_eq _ (List.mem_range.1 hi)
  rw [wordSamples, h, List.flatMap_assoc]
  rfl

/-- **The sampled line** of a frame: its bits, 18 low samples of TP_IDL, and a high idle line. -/
theorem lineSamples_sendRawFrame (body : List UInt8) :
    lineSamples (sendRawFrame body) =
      manchester (bitsOf (preambleBytes ++ wireFrame body)) ++
        (List.replicate 18 false ++ List.replicate 606 true) := by
  have hbytes : ∀ bytes : List UInt8,
      lineSamples (bytes.map manchesterWord) = manchester (bitsOf bytes) := by
    intro bytes
    rw [lineSamples, List.flatMap_map, bitsOf, manchester, List.flatMap_assoc]
    exact List.flatMap_congr fun b _ => wordSamples_manchesterWord b
  have hend : lineSamples (0x00000AAA :: List.replicate 12 0) =
      List.replicate 18 false ++ List.replicate 606 true := by
    decide +kernel
  rw [sendRawFrame_eq, ← hbytes, ← hend, lineSamples, List.flatMap_append]
  rfl

@[simp] theorem length_manchester (bits : List Bool) :
    (manchester bits).length = 6 * bits.length := by
  induction bits with
  | nil => rfl
  | cons b bits ih =>
    simp only [manchester, List.flatMap_cons, List.length_append, List.length_cons,
      List.length_nil] at ih ⊢
    omega

/-- Sample `j` of bit `i`. -/
theorem getElem?_manchester (bits : List Bool) {i j : ℕ} (hj : j < 6) :
    (manchester bits)[6 * i + j]? = bits[i]?.map (· ^^ decide (3 ≤ j)) := by
  induction bits generalizing i with
  | nil => simp [manchester]
  | cons b bits ih =>
    rw [manchester, List.flatMap_cons]
    cases i with
    | zero =>
      rw [Nat.mul_zero, Nat.zero_add, List.getElem?_append_left (by simpa using hj)]
      interval_cases j <;> simp
    | succ i =>
      rw [List.getElem?_append_right (by simp; omega), List.getElem?_cons_succ, ← ih (i := i)]
      congr 1
      simp
      omega

end Pico10BaseT
