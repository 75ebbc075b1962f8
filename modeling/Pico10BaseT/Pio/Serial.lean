import Mathlib.Algebra.Order.Group.Nat
import Mathlib.Data.BitVec
import Mathlib.Data.List.Basic
import Mathlib.Logic.Function.Iterate
import Mathlib.Tactic.Common

/-!
# A programmable I/O state machine that shifts

The part of a PIO state machine that moves words between its FIFOs and a pin.  The output shift
register is filled from the TX FIFO when 32 bits have been shifted out of it, and the input shift
register goes to the RX FIFO when 32 bits have been shifted into it.  An instruction that finds no
word, or no room, is repeated in the next cycle, its side-set level standing all the while.

* `stream` : what is still to be shifted out, in pieces of `n` bits.
* `stream_refill`, `stream_shift` : an `out` takes the first piece of the stream, and to fill the
  register changes nothing.
-/

namespace Pico10BaseT

namespace PioSerial

inductive ShiftDir
  /-- Most significant bit first. -/
  | left
  /-- Least significant bit first. -/
  | right
  deriving DecidableEq, Repr

/-- Where `out` moves the bits. -/
inductive Dest
  | pins
  | x
  | y
  | pc
  deriving DecidableEq, Repr

inductive Op
  /-- `jmp x-- target` -/
  | jmpXDec (target : ℕ)
  /-- `jmp y-- target` -/
  | jmpYDec (target : ℕ)
  /-- `out dest, n` -/
  | out (dest : Dest) (n : ℕ)
  /-- `in pins, 1` -/
  | inPin
  /-- `set pindirs, v` -/
  | setPindirs (output : Bool)
  | nop
  deriving DecidableEq, Repr

structure Instr where
  op : Op
  /-- The level of the side-set pin while the instruction is executed or repeated. -/
  side : Bool
  deriving DecidableEq, Repr

/-- A program and its configuration, autopull and autopush being on at 32 bits. -/
structure Machine where
  outDir : ShiftDir
  inDir : ShiftDir
  /-- How many words the FIFOs hold. -/
  txDepth : ℕ
  rxDepth : ℕ
  code : List Instr

structure State where
  pc : ℕ
  x : BitVec 32
  y : BitVec 32
  osr : BitVec 32
  /-- How many bits have been shifted out. -/
  osrCount : ℕ
  isr : BitVec 32
  /-- How many bits have been shifted in. -/
  isrCount : ℕ
  tx : List UInt32
  rx : List UInt32
  /-- The level and the direction of the data pin. -/
  data : Bool
  output : Bool
  deriving DecidableEq, Repr

/-- As it is started: both registers and both FIFOs are empty. -/
def State.start (data output : Bool) : State where
  pc := 0
  x := 0
  y := 0
  osr := 0
  osrCount := 32
  isr := 0
  isrCount := 0
  tx := []
  rx := []
  data := data
  output := output

/-- The next `n` bits of the output shift register. -/
def outValue (dir : ShiftDir) (n : ℕ) (osr : BitVec 32) : BitVec 32 :=
  match dir with
  | .left => osr >>> (32 - n)
  | .right => osr &&& (BitVec.allOnes 32 >>> (32 - n))

/-- The output shift register behind them. -/
def outRest (dir : ShiftDir) (n : ℕ) (osr : BitVec 32) : BitVec 32 :=
  match dir with
  | .left => osr <<< n
  | .right => osr >>> n

/-- The input shift register with one bit more. -/
def inBit (dir : ShiftDir) (isr : BitVec 32) (b : Bool) : BitVec 32 :=
  match dir with
  | .left => (isr <<< 1) ||| (BitVec.ofBool b).setWidth 32
  | .right => (isr >>> 1) ||| ((BitVec.ofBool b).setWidth 32 <<< 31)

/-- An empty output shift register takes the oldest word of the TX FIFO. -/
def State.refill (s : State) : State :=
  if 32 ≤ s.osrCount then
    match s.tx with
    | [] => s
    | w :: tx => { s with osr := w.toBitVec, osrCount := 0, tx }
  else s

namespace Machine

variable (M : Machine)

/-- The program counter after an instruction that does not jump; the program wraps around. -/
def wrap (pc : ℕ) : ℕ := if pc + 1 = M.code.length then 0 else pc + 1

/-- `out dest, n` with bits in the register. -/
def shift (dest : Dest) (n : ℕ) (s : State) : State :=
  let v := outValue M.outDir n s.osr
  let s' : State :=
    { s with osr := outRest M.outDir n s.osr, osrCount := min 32 (s.osrCount + n) }
  match dest with
  | .pins => { s'.refill with data := v.getLsbD 0, pc := M.wrap s.pc }
  | .x => { s'.refill with x := v, pc := M.wrap s.pc }
  | .y => { s'.refill with y := v, pc := M.wrap s.pc }
  | .pc => { s'.refill with pc := v.toNat }

/-- `in pins, 1` with the pin at level `pin`. -/
def sample (pin : Bool) (s : State) : State :=
  let isr := inBit M.inDir s.isr pin
  if s.isrCount + 1 < 32 then
    { s.refill with isr, isrCount := s.isrCount + 1, pc := M.wrap s.pc }
  else if s.rx.length < M.rxDepth then
    { s.refill with
      isr := 0, isrCount := 0, rx := s.rx ++ [UInt32.ofBitVec isr], pc := M.wrap s.pc }
  else s.refill

/-- One cycle, with the data pin at level `pin` from outside. -/
def cycle (pin : Bool) (s : State) : State :=
  match M.code[s.pc]? with
  | none => s
  | some instr =>
    match instr.op with
    | .jmpXDec target =>
      { s.refill with x := s.x - 1, pc := if s.x = 0 then M.wrap s.pc else target }
    | .jmpYDec target =>
      { s.refill with y := s.y - 1, pc := if s.y = 0 then M.wrap s.pc else target }
    | .out dest n => if s.osrCount < 32 then M.shift dest n s else s.refill
    | .inPin => M.sample pin s
    | .setPindirs output => { s.refill with output, pc := M.wrap s.pc }
    | .nop => { s.refill with pc := M.wrap s.pc }

/-- The level of the side-set pin in the cycle. -/
def side (s : State) : Bool := (M.code[s.pc]?.map Instr.side).getD false

/-- What the cycle shifts out. -/
def shifted (s : State) : Option (BitVec 32) :=
  match M.code[s.pc]? with
  | some ⟨.out _ n, _⟩ => if s.osrCount < 32 then some (outValue M.outDir n s.osr) else none
  | _ => none

/-- The word that the cycle takes from the TX FIFO. -/
def pulled (pin : Bool) (s : State) : Option UInt32 :=
  if (M.cycle pin s).tx.length < s.tx.length then s.tx.head? else none

/-- `Tx::write`, when there is room. -/
def write (w : UInt32) (s : State) : Option State :=
  if s.tx.length < M.txDepth then some { s with tx := s.tx ++ [w] } else none

end Machine

/-- `Rx::read` -/
def State.read (s : State) : Option (UInt32 × State) :=
  match s.rx with
  | [] => none
  | w :: rx => some (w, { s with rx })

/-! ### What is still to be shifted out -/

/-- The pieces of `n` bits in the register after `count` bits. -/
def osrChunks (dir : ShiftDir) (n : ℕ) (osr : BitVec 32) (count : ℕ) : List (BitVec 32) :=
  (List.range ((32 - count) / n)).map fun i => outValue dir n ((outRest dir n)^[i] osr)

/-- The pieces of a word. -/
def wordChunks (dir : ShiftDir) (n : ℕ) (w : UInt32) : List (BitVec 32) :=
  osrChunks dir n w.toBitVec 0

/-- The pieces in the register and in the FIFO. -/
def stream (dir : ShiftDir) (n : ℕ) (s : State) : List (BitVec 32) :=
  osrChunks dir n s.osr s.osrCount ++ s.tx.flatMap (wordChunks dir n)

variable {dir : ShiftDir} {n : ℕ}

@[simp] theorem length_osrChunks (osr : BitVec 32) (count : ℕ) :
    (osrChunks dir n osr count).length = (32 - count) / n := by
  rw [osrChunks, List.length_map, List.length_range]

@[simp] theorem length_wordChunks (w : UInt32) : (wordChunks dir n w).length = 32 / n :=
  length_osrChunks _ _

theorem osrChunks_of_le (osr : BitVec 32) {count : ℕ} (h : 32 ≤ count) :
    osrChunks dir n osr count = [] := by
  rw [osrChunks, Nat.sub_eq_zero_of_le h, Nat.zero_div]
  rfl

theorem osrChunks_cons (hn : 0 < n) (osr : BitVec 32) {count : ℕ} (h : count + n ≤ 32) :
    osrChunks dir n osr count =
      outValue dir n osr :: osrChunks dir n (outRest dir n osr) (count + n) := by
  have hlen : (32 - count) / n = (32 - (count + n)) / n + 1 := by
    rw [Nat.div_eq_sub_div hn (by omega), show 32 - count - n = 32 - (count + n) by omega]
  rw [osrChunks, hlen, List.range_succ_eq_map, List.map_cons, List.map_map]
  rfl

theorem refill_cases (s : State) : s.refill = s ∧ (32 ≤ s.osrCount → s.tx = []) ∨
    ∃ w tx, 32 ≤ s.osrCount ∧ s.tx = w :: tx ∧
      s.refill = { s with osr := w.toBitVec, osrCount := 0, tx } := by
  rw [State.refill]
  split_ifs with h
  · cases htx : s.tx with
    | nil => exact .inl ⟨rfl, fun _ => rfl⟩
    | cons w tx => exact .inr ⟨w, tx, h, rfl, rfl⟩
  · exact .inl ⟨rfl, fun h' => absurd h' h⟩

/-- To fill the register changes nothing. -/
@[simp] theorem stream_refill (s : State) : stream dir n s.refill = stream dir n s := by
  rcases refill_cases s with ⟨heq, -⟩ | ⟨w, tx, hempty, htx, heq⟩
  · rw [heq]
  · rw [heq, stream, stream, osrChunks_of_le s.osr hempty, htx]
    rfl

section

variable (s : State)

@[simp] theorem pc_refill : s.refill.pc = s.pc := by
  rcases refill_cases s with ⟨heq, -⟩ | ⟨w, tx, -, -, heq⟩ <;> rw [heq]

@[simp] theorem x_refill : s.refill.x = s.x := by
  rcases refill_cases s with ⟨heq, -⟩ | ⟨w, tx, -, -, heq⟩ <;> rw [heq]

@[simp] theorem y_refill : s.refill.y = s.y := by
  rcases refill_cases s with ⟨heq, -⟩ | ⟨w, tx, -, -, heq⟩ <;> rw [heq]

@[simp] theorem rx_refill : s.refill.rx = s.rx := by
  rcases refill_cases s with ⟨heq, -⟩ | ⟨w, tx, -, -, heq⟩ <;> rw [heq]

@[simp] theorem isr_refill : s.refill.isr = s.isr := by
  rcases refill_cases s with ⟨heq, -⟩ | ⟨w, tx, -, -, heq⟩ <;> rw [heq]

@[simp] theorem isrCount_refill : s.refill.isrCount = s.isrCount := by
  rcases refill_cases s with ⟨heq, -⟩ | ⟨w, tx, -, -, heq⟩ <;> rw [heq]

@[simp] theorem data_refill : s.refill.data = s.data := by
  rcases refill_cases s with ⟨heq, -⟩ | ⟨w, tx, -, -, heq⟩ <;> rw [heq]

@[simp] theorem output_refill : s.refill.output = s.output := by
  rcases refill_cases s with ⟨heq, -⟩ | ⟨w, tx, -, -, heq⟩ <;> rw [heq]

end

/-- Every cycle fills the register when it has done its work. -/
theorem exists_refill (M : Machine) (pin : Bool) {s : State} (h : M.code[s.pc]? ≠ none) :
    ∃ t : State, t.tx = s.tx ∧ (M.cycle pin s).osrCount = t.refill.osrCount ∧
      (M.cycle pin s).tx = t.refill.tx := by
  rw [Machine.cycle]
  split
  case h_1 hnone => exact absurd hnone h
  case h_2 =>
    split
    case h_3 _ dest n _ =>
      split_ifs
      · refine ⟨{ s with
          osr := outRest M.outDir n s.osr, osrCount := min 32 (s.osrCount + n) }, rfl, ?_⟩
        cases dest <;> exact ⟨rfl, rfl⟩
      · exact ⟨s, rfl, rfl, rfl⟩
    case h_4 =>
      rw [Machine.sample]
      split_ifs <;> exact ⟨s, rfl, rfl, rfl⟩
    all_goals exact ⟨s, rfl, rfl, rfl⟩

theorem tx_cycle (M : Machine) (pin : Bool) (s : State) :
    (M.cycle pin s).tx = s.tx ∨ ∃ w, s.tx = w :: (M.cycle pin s).tx := by
  cases hcode : M.code[s.pc]? with
  | none =>
    refine .inl ?_
    rw [Machine.cycle, hcode]
  | some instr =>
    obtain ⟨t, ht, -, heq⟩ := exists_refill M pin (hcode ▸ Option.some_ne_none instr)
    rw [heq, ← ht]
    rcases refill_cases t with ⟨hfill, -⟩ | ⟨w, tx, -, htx, hfill⟩
    · exact .inl (by rw [hfill])
    · exact .inr ⟨w, by rw [hfill, htx]⟩

/-- After a cycle the register is empty only with an empty FIFO. -/
theorem tx_of_cycle (M : Machine) (pin : Bool) {s : State} (h : M.code[s.pc]? ≠ none)
    (hempty : 32 ≤ (M.cycle pin s).osrCount) : (M.cycle pin s).tx = [] := by
  obtain ⟨t, -, hcount, htx⟩ := exists_refill M pin h
  rw [hcount] at hempty
  rw [htx]
  rcases refill_cases t with ⟨heq, ht⟩ | ⟨w, tx, -, -, heq⟩
  · rw [heq] at hempty ⊢
    exact ht hempty
  · rw [heq] at hempty
    simp at hempty

/-- The words leave the FIFO from the front. -/
theorem tx_eq_pulled (M : Machine) (pin : Bool) (s : State) :
    s.tx = (M.pulled pin s).toList ++ (M.cycle pin s).tx := by
  rw [Machine.pulled]
  rcases tx_cycle M pin s with heq | ⟨w, heq⟩
  · rw [heq, if_neg (Nat.lt_irrefl _)]
    rfl
  · have hlen := congrArg List.length heq
    rw [List.length_cons] at hlen
    rw [if_pos (by omega), heq]
    rfl

/-- A word written comes after what is there. -/
theorem stream_write (s : State) (w : UInt32) :
    stream dir n { s with tx := s.tx ++ [w] } = stream dir n s ++ wordChunks dir n w := by
  rw [stream, stream, List.flatMap_append, List.flatMap_singleton, List.append_assoc]

theorem osrCount_refill (s : State) : s.refill.osrCount = s.osrCount ∨ s.refill.osrCount = 0 := by
  rcases refill_cases s with ⟨heq, -⟩ | ⟨w, tx, -, -, heq⟩
  · exact .inl (by rw [heq])
  · exact .inr (by rw [heq])

theorem osrCount_shift (M : Machine) (dest : Dest) (s : State) :
    (M.shift dest n s).osrCount = min 32 (s.osrCount + n) ∨
      (M.shift dest n s).osrCount = 0 := by
  have h := osrCount_refill { s with
    osr := outRest M.outDir n s.osr, osrCount := min 32 (s.osrCount + n) }
  cases dest <;> exact h

section

variable (M : Machine) (n : ℕ) (s : State) {dest : Dest}

theorem pc_shift (h : dest ≠ .pc) : (M.shift dest n s).pc = M.wrap s.pc := by
  cases dest
  case pc => exact absurd rfl h
  all_goals rfl

theorem x_shift (h : dest ≠ .x) : (M.shift dest n s).x = s.x := by
  cases dest
  case x => exact absurd rfl h
  all_goals simp [Machine.shift]

theorem y_shift (h : dest ≠ .y) : (M.shift dest n s).y = s.y := by
  cases dest
  case y => exact absurd rfl h
  all_goals simp [Machine.shift]

theorem output_shift : (M.shift dest n s).output = s.output := by
  cases dest <;> simp [Machine.shift]

end

/-- An `out` takes the first piece of the stream. -/
theorem stream_shift (M : Machine) (dest : Dest) (hn : 0 < n) (s : State)
    (h : s.osrCount + n ≤ 32) :
    stream M.outDir n s = outValue M.outDir n s.osr :: stream M.outDir n (M.shift dest n s) := by
  have hrest : stream M.outDir n (M.shift dest n s) =
      osrChunks M.outDir n (outRest M.outDir n s.osr) (s.osrCount + n) ++
        s.tx.flatMap (wordChunks M.outDir n) := by
    have hfill : stream M.outDir n (State.refill
        { s with osr := outRest M.outDir n s.osr, osrCount := s.osrCount + n }) = _ :=
      stream_refill _
    refine Eq.trans ?_ hfill
    cases dest <;> simp [Machine.shift, Nat.min_eq_right h, stream]
  rw [hrest, stream, osrChunks_cons hn s.osr h]
  rfl

end PioSerial

end Pico10BaseT
