import Pico10BaseT.Rx.Samples

/-!
# The edge-track decoder

`decode_frame_edge_track` and what it calls.  The decoder anchors to the mid-bit edge of every bit,
at most one sample away from where the last edge predicts it; the data bit is the sample before the
edge.  It has two loops: a fast path that loads the four samples around the next edge at once, and
a per-sample tail for the last bits.  The tail alone is `decodeFrameTailOnly`.

Unchecked reads are `getUnchecked`, which faults outside the capture.  The loops take fuel; that
they return is proved, not assumed.  The sums that the source casts to `i32` and back are below
`2^31` for any capture that fits the target's memory.
-/

namespace Pico10BaseT

/-- Capacity of a decoded frame. -/
def maxFrameBytes : ℕ := 1600

/-- Bit at `off` without a bounds check. -/
def sampleBitUnchecked (buf : List UInt8) (off : ℕ) : Exec UInt8 := do
  let b ← getUnchecked buf (off >>> 3)
  return (b >>> UInt8.ofNat (off &&& 7)) &&& 1

/-- First H→L edge (the F anchor), if any. -/
def findF (buf : List UInt8) (ns : ℕ) : Exec (Option ℕ) := findFirstFallingEdge buf 0 ns

/-- End of the SFD: first two consecutive 1 bits sampled at `F + 4 + 6k`. -/
def findSfd (buf : List UInt8) (ns f : ℕ) : Exec (Option ℕ) := findSfdEnd rate60MHz buf 0 f ns 1600

/-- Nearest edge to `center` within one sample, ties low; `center` if none. -/
def findEdgeW1 (buf : List UInt8) (center : ℕ) : Exec ℕ := do
  let sM2 ← sampleBitUnchecked buf (center - 2)
  let sM1 ← sampleBitUnchecked buf (center - 1)
  let s0 ← sampleBitUnchecked buf center
  let sP1 ← sampleBitUnchecked buf (center + 1)
  return if sM1 ≠ s0 then center
    else if sM2 ≠ sM1 then center - 1
    else if s0 ≠ sP1 then center + 1
    else center

/-- Edge offset indexed by the three pairwise differences of a window. -/
def edgeDelta : List ℤ := [0, -1, 0, 0, 1, -1, 0, 0]

/-! ### The frame under construction -/

/-- The whole bytes, the bits of the next one, and the length cap. -/
structure Packer where
  frame : List UInt8
  byte : UInt8
  bitIdx : UInt8
  capBytes : ℕ

/-- Nothing decoded yet. -/
def Packer.new : Packer where
  frame := []
  byte := 0
  bitIdx := 0
  capBytes := maxFrameBytes

/-- The length cap from the 18 header bytes. -/
def Packer.deriveCap (frame : List UInt8) (capBytes : ℕ) : Exec ℕ := do
  if frame.length = 18 ∧ capBytes = maxFrameBytes then
    let ethertype ← rd16 frame 12
    if ethertype = 0x0800 then
      let ipTotal ← rd16 frame 16
      return min (max (14 + ipTotal.toNat + 4) 64) maxFrameBytes
    else return capBytes
  else return capBytes

/-- One data bit; `true` when the decoder returns the frame.  The source has this body in both
loops. -/
def Packer.push (p : Packer) (bit : UInt8) : Exec (Packer × Bool) := do
  let byte := p.byte ||| (bit <<< p.bitIdx)
  let bitIdx := p.bitIdx + 1
  if bitIdx = 8 then
    if p.frame.length = maxFrameBytes then return ({ p with byte, bitIdx }, true)
    else
      let frame := p.frame ++ [byte]
      let capBytes ← deriveCap frame p.capBytes
      return ({ frame, byte := 0, bitIdx := 0, capBytes }, decide (capBytes ≤ frame.length))
  else return ({ p with byte, bitIdx }, false)

/-! ### The two loops -/

/-- The tracker: the last mid-bit edge, the next data bit if already extracted, and the frame. -/
structure Dpll where
  tr : ℕ
  pending : Option UInt32
  out : Packer

/-- The next data bit. -/
def Dpll.takeBit (buf : List UInt8) (d : Dpll) : Exec UInt8 :=
  match d.pending with
  | some b => pure b.toUInt8
  | none => sampleBitUnchecked buf (d.tr - 1)

/-- The samples from `lo` on, two bytes of them. -/
def window (b₀ b₁ : UInt8) (lo : ℕ) : UInt32 :=
  (b₀.toUInt32 ||| (b₁.toUInt32 <<< 8)) >>> UInt32.ofNat (lo &&& 7)

/-- Fast path; `true` when the decoder returned from it. -/
def fastLoop (buf : List UInt8) : ℕ → Dpll → Exec (Dpll × Bool)
  | 0, _ => .error .noFuel
  | fuel + 1, d => do
    if 1 ≤ d.tr ∧ d.tr + 20 ≤ buf.length * 8 then
      let bit ← d.takeBit buf
      let (out, done) ← d.out.push bit
      if done then return ({ d with out }, true)
      else
        -- window `lo..lo + 3` around the predicted edge `tr + 6`
        let lo := d.tr + 4
        let b₀ ← getUnchecked buf (lo >>> 3)
        let b₁ ← getUnchecked buf ((lo >>> 3) + 1)
        let w := window b₀ b₁ lo
        let e := ((w ^^^ (w >>> 1)) &&& 7).toNat
        let delta ← index edgeDelta e
        fastLoop buf fuel
          { tr := ((d.tr : ℤ) + 6 + delta).toNat
            pending := some ((w >>> UInt32.ofNat (1 + delta).toNat) &&& 1)
            out }
    else return (d, false)

/-- Tail: per-sample loop for the last bits near the buffer end. -/
def tailLoop (buf : List UInt8) : ℕ → Dpll → Exec Dpll
  | 0, _ => .error .noFuel
  | fuel + 1, d => do
    if d.tr = 0 ∨ buf.length * 8 < d.tr then return d
    else
      let bit ← d.takeBit buf
      let (out, done) ← d.out.push bit
      if done then return { d with pending := none, out }
      else
        let nextCenter := d.tr + 6
        if nextCenter < 2 ∨ buf.length * 8 ≤ nextCenter + 1 then
          tailLoop buf fuel { tr := nextCenter, pending := none, out }
        else
          let tr ← findEdgeW1 buf nextCenter
          tailLoop buf fuel { tr, pending := none, out }

/-- The initial mid-bit-edge anchor. -/
def acquire (buf : List UInt8) : Exec (Option ℕ) := do
  let ns := buf.length * 8
  match ← findF buf ns with
  | none => return none
  | some f =>
    match ← findSfd buf ns f with
    | none => return none
    | some sfd =>
      let start := sfd + 1
      let initialCenter := f + (5 + 6 * start)
      if 2 ≤ initialCenter ∧ initialCenter + 1 < ns then
        let tr ← findEdgeW1 buf initialCenter
        return some tr
      else return some initialCenter

/-- Iterations that either loop can make: every one moves on by five samples or more. -/
def loopFuel (buf : List UInt8) : ℕ := buf.length * 8 + 2

/-- Decode a frame from `buf`: bytes LSB-first, capped by IP length. -/
def decodeFrameEdgeTrack (buf : List UInt8) : Exec (Option (List UInt8)) := do
  match ← acquire buf with
  | none => return none
  | some tr =>
    let (d, done) ← fastLoop buf (loopFuel buf) { tr, pending := none, out := .new }
    if done then return some d.out.frame
    else
      let d ← tailLoop buf (loopFuel buf) d
      return some d.out.frame

/-- The tracker when the decoder returns. -/
def finalTracker (buf : List UInt8) : Exec (Option Dpll) := do
  match ← acquire buf with
  | none => return none
  | some tr =>
    let (d, done) ← fastLoop buf (loopFuel buf) { tr, pending := none, out := .new }
    if done then return some d
    else
      let d ← tailLoop buf (loopFuel buf) d
      return some d

/-- The decoder without its fast path. -/
def decodeFrameTailOnly (buf : List UInt8) : Exec (Option (List UInt8)) := do
  match ← acquire buf with
  | none => return none
  | some tr =>
    let d ← tailLoop buf (loopFuel buf) { tr, pending := none, out := .new }
    return some d.out.frame

end Pico10BaseT
