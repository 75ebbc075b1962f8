import Pico10BaseT.LTS.Basic
import Pico10BaseT.Pio.Serial

/-!
# The gSPI transport

A transaction of `cmd_write` or `cmd_read` pushes the two bit counts and the words to the state
machine, which clocks the bits out, turns DATA around and clocks the answer in, while the CPU pulls
it.  Both run at their own pace and wait for each other on the FIFOs.

* `At` : how far the state machine is in a transaction, as the bus has seen it.
* `gspi_correct` : on the bus every transaction stands by itself between CS low and CS high, with
  exactly the bits of its words, and returns exactly the bits that were sampled.
-/

namespace Pico10BaseT

namespace Gspi

open PioSerial

/-! ### The program -/

abbrev wloop : ℕ := 3
abbrev rloop : ℕ := 7

/-- Clocks writes out MSB-first, turns DATA around, then samples reads while CLK is high. -/
def machine : Machine where
  outDir := .left
  inDir := .left
  txDepth := 4
  rxDepth := 4
  code :=
    [ ⟨.out .x 32, false⟩,        -- X = write_bits-1  (autopull from FIFO)
      ⟨.out .y 32, false⟩,        -- Y = read_bits-1
      ⟨.setPindirs true, false⟩,  -- DATA = output
      -- wloop
      ⟨.out .pins 1, false⟩,      -- drive DATA bit (MSB first), CLK low
      ⟨.jmpXDec wloop, true⟩,     -- CLK high → chip latches on rising edge
      ⟨.setPindirs false, false⟩, -- turnaround: DATA = input, CLK low
      ⟨.nop, false⟩,              -- CLK stays LOW through turnaround
      -- rloop
      ⟨.inPin, true⟩,             -- CLK high → sample chip's DATA
      ⟨.jmpYDec rloop, false⟩ ]   -- CLK low; loop

/-! ### The transactions -/

/-- A call of the transport. -/
inductive Txn
  | cmdWrite (write : List UInt32)
  /-- `cmd_read` into a slice of `n` words. -/
  | cmdRead (write : UInt32) (n : ℕ)
  deriving DecidableEq

/-- `u32::MAX` -/
def maxU32 : ℕ := 2 ^ 32 - 1

/-- `(n as u32)`, then `saturating_mul(32).saturating_sub(1)`. -/
def bitCount (n : ℕ) : UInt32 := UInt32.ofNat (min (n * 32) maxU32 - 1)

namespace Txn

/-- The words that are pushed: the write bits, the read bits, and the words to be written. -/
def pushes : Txn → List UInt32
  | cmdWrite write => bitCount (write.length % 2 ^ 32) :: 31 :: write
  | cmdRead write n => 31 :: bitCount (min (n % 2 ^ 32 + 1) maxU32) :: [write]

/-- How many words are pulled, the last one being the status. -/
def pulls : Txn → ℕ
  | cmdWrite _ => 1
  | cmdRead _ n => n + 1

/-- The words to be written. -/
def words : Txn → List UInt32
  | cmdWrite write => write
  | cmdRead write _ => [write]

/-- There is something to write, and both bit counts fit. -/
def Valid (t : Txn) : Prop := t.words ≠ [] ∧ t.words.length * 32 < 2 ^ 32 ∧ t.pulls * 32 < 2 ^ 32

theorem pushes_eq {t : Txn} (h : t.Valid) : t.pushes =
    UInt32.ofNat (t.words.length * 32 - 1) :: UInt32.ofNat (t.pulls * 32 - 1) :: t.words := by
  have hcount : ∀ n, n * 32 < 2 ^ 32 → bitCount n = UInt32.ofNat (n * 32 - 1) := by
    intro n hn
    rw [bitCount, Nat.min_eq_left (by unfold maxU32; omega)]
  obtain ⟨-, hwords, hpulls⟩ := h
  cases t with
  | cmdWrite write =>
    simp only [words, pulls] at hwords hpulls
    rw [pushes, Nat.mod_eq_of_lt (by omega), hcount _ hwords]
    rfl
  | cmdRead write n =>
    simp only [words, pulls] at hwords hpulls
    rw [pushes, Nat.mod_eq_of_lt (by omega), Nat.min_eq_left (by unfold maxU32; omega),
      hcount _ hpulls]
    rfl

end Txn

/-! ### The bus -/

inductive BusEvent
  /-- CS changes. -/
  | cs (level : Bool)
  /-- CLK rises while DATA is driven. -/
  | latch (b : Bool)
  /-- CLK rises while DATA is an input. -/
  | clock
  /-- DATA is sampled. -/
  | sample (b : Bool)
  deriving DecidableEq

/-- The bits of a word, MSB first. -/
def msbBits (w : UInt32) : List Bool := (List.range 32).map w.toBitVec.getMsbD

/-- How bits read show on the bus. -/
def reads (bs : List Bool) : List BusEvent := bs.flatMap fun b => [.clock, .sample b]

/-- The bits a transaction writes. -/
def Txn.bits (t : Txn) : List Bool := t.words.flatMap msbBits

/-- What a transaction that returns `result` shows on the bus. -/
def Txn.trace (t : Txn) (result : List UInt32) : List BusEvent :=
  [.cs false] ++ t.bits.map .latch ++ reads (result.flatMap msbBits) ++ [.cs true]

/-! ### The CPU -/

inductive Op
  /-- `drain_rx` -/
  | drain
  | cs (level : Bool)
  | push (w : UInt32)
  | pull
  deriving DecidableEq

/-- The steps of a call. -/
def Txn.script (t : Txn) : List Op :=
  [.drain, .cs false] ++ t.pushes.map .push ++ List.replicate t.pulls .pull ++ [.cs true]

/-- How often a FIFO is tried again. -/
def maxSpins : ℕ := 8000000

/-- The state machine, the level CLK had last, and the call that is under way. -/
structure State where
  sm : PioSerial.State
  clk : Bool
  txn : Option Txn
  ops : List Op
  spins : ℕ
  /-- The words that the call has pulled. -/
  result : List UInt32

inductive Label
  | start (t : Txn)
  /-- A step of the call that does not end it. -/
  | cpu (events : List BusEvent)
  /-- A FIFO was tried too often: a word is not pushed, or 0 is returned for one. -/
  | timeout
  /-- The call returns. -/
  | done (t : Txn) (result : List UInt32)
  /-- A cycle of the state machine, with the chip's DATA at a level. -/
  | cycle (pin : Bool) (events : List BusEvent)
  deriving DecidableEq

/-- What the bus sees of a cycle, CLK having been at the level `clk` before. -/
def busEvents (clk pin : Bool) (sm : PioSerial.State) : List BusEvent :=
  let edge := if machine.side sm && !clk then
      if sm.output then [BusEvent.latch sm.data] else [BusEvent.clock]
    else []
  let taken := match machine.code[sm.pc]? with
    | some ⟨.inPin, _⟩ =>
      if sm.isrCount + 1 < 32 ∨ sm.rx.length < machine.rxDepth then [BusEvent.sample pin] else []
    | _ => []
  edge ++ taken

/-- The CPU's step, and its label. -/
def cpuNext (s : State) : Option (Label × State) :=
  match s.ops with
  | [] => none
  | .drain :: ops =>
    match s.sm.read with
    | some (_, sm) => some (.cpu [], { s with sm })
    | none => some (.cpu [], { s with ops })
  | .cs level :: ops =>
    match ops, s.txn with
    | [], some t => some (.done t s.result, { s with ops := [], txn := none })
    | _, _ => some (.cpu [.cs level], { s with ops })
  | .push w :: ops =>
    match machine.write w s.sm with
    | some sm => some (.cpu [], { s with sm, ops, spins := 0 })
    | none =>
      if maxSpins < s.spins + 1 then some (.timeout, { s with ops, spins := 0 })
      else some (.cpu [], { s with spins := s.spins + 1 })
  | .pull :: ops =>
    match s.sm.read with
    | some (w, sm) => some (.cpu [], { s with sm, ops, spins := 0, result := s.result ++ [w] })
    | none =>
      if maxSpins < s.spins + 1 then
        some (.timeout, { s with ops, spins := 0, result := s.result ++ [0] })
      else some (.cpu [], { s with spins := s.spins + 1 })

/-- The bus idles with CLK and DATA low. -/
def system : System State Label where
  init s := s = ⟨.start false true, false, none, [], 0, []⟩
  step s l s' :=
    match l with
    | .start t =>
      s.txn = none ∧ s' = { s with txn := some t, ops := t.script, spins := 0, result := [] }
    | .cycle pin events =>
      events = busEvents s.clk pin s.sm ∧
        s' = { s with sm := machine.cycle pin s.sm, clk := machine.side s.sm }
    | l => cpuNext s = some (l, s')

namespace Label

/-- What the bus sees. -/
def events : Label → List BusEvent
  | cpu events => events
  | done _ _ => [.cs true]
  | cycle _ events => events
  | _ => []

/-- The calls that have returned. -/
def returned (ls : List Label) : List (Txn × List UInt32) :=
  ls.filterMap fun
    | done t result => some (t, result)
    | _ => none

end Label

/-! ### Words and bits -/

theorem wordChunks_32 (w : UInt32) : wordChunks .left 32 w = [w.toBitVec] := by
  rw [wordChunks, osrChunks_cons (by decide) _ (by decide), osrChunks_of_le _ (by decide), outValue]
  exact congrArg (fun v => [v]) (BitVec.ushiftRight_zero w.toBitVec)

theorem wordChunks_1 (w : UInt32) :
    (wordChunks .left 1 w).map (fun v => v.getLsbD 0) = msbBits w := by
  have hrest : ∀ i, (outRest .left 1)^[i] w.toBitVec = w.toBitVec <<< i := by
    intro i
    induction i with
    | zero => exact (BitVec.shiftLeft_zero _).symm
    | succ i ih => rw [Function.iterate_succ_apply', ih, outRest, BitVec.shiftLeft_add]
  rw [wordChunks, osrChunks, List.map_map, msbBits]
  refine List.map_congr_left fun i _ => ?_
  rw [Function.comp_apply, hrest, outValue, BitVec.getLsbD_ushiftRight]
  have hmsb := BitVec.getMsbD_eq_getLsbD (w.toBitVec <<< i) 0
  rw [BitVec.getMsbD_shiftLeft] at hmsb
  simpa using hmsb.symm

/-- What was shifted in last, `k` bits of it. -/
def shiftedIn (isr : BitVec 32) (k : ℕ) : List Bool :=
  (List.range k).map fun j => isr.getLsbD (k - 1 - j)

theorem shiftedIn_inBit (isr : BitVec 32) {k : ℕ} (hk : k < 32) (b : Bool) :
    shiftedIn (inBit .left isr b) (k + 1) = shiftedIn isr k ++ [b] := by
  have hbit : ∀ i < 32, (inBit .left isr b).getLsbD i =
      if i = 0 then b else isr.getLsbD (i - 1) := by
    intro i hi
    rw [inBit, BitVec.getLsbD_or, BitVec.getLsbD_shiftLeft, BitVec.getLsbD_setWidth,
      BitVec.getLsbD_ofBool]
    split_ifs with h
    · simp [h]
    · simp [h, hi]
  rw [shiftedIn, List.range_succ, List.map_append, List.map_singleton, shiftedIn]
  congr 1
  · refine List.map_congr_left fun j hj => ?_
    have hj := List.mem_range.1 hj
    rw [hbit _ (by omega), if_neg (by omega), show k + 1 - 1 - j - 1 = k - 1 - j by omega]
  · rw [hbit _ (by omega), if_pos (by omega)]

theorem msbBits_ofBitVec (isr : BitVec 32) : msbBits (UInt32.ofBitVec isr) = shiftedIn isr 32 := by
  refine List.map_congr_left fun j hj => ?_
  have hj := List.mem_range.1 hj
  rw [BitVec.getMsbD_eq_getLsbD, decide_eq_true hj, Bool.true_and]

@[simp] theorem length_msbBits (w : UInt32) : (msbBits w).length = 32 := by
  rw [msbBits, List.length_map, List.length_range]

@[simp] theorem length_flatMap_msbBits (ws : List UInt32) :
    (ws.flatMap msbBits).length = ws.length * 32 := by
  induction ws with
  | nil => rfl
  | cons w ws ih =>
    rw [List.flatMap_cons, List.length_append, ih, length_msbBits, List.length_cons]
    omega

/-! ### What the state machine is fed -/

/-- In the state machine and still to be pushed are exactly the words `ws`. -/
structure FedWords (sm : PioSerial.State) (rest ws : List UInt32) : Prop where
  count : sm.osrCount = 0 ∨ sm.osrCount = 32
  words : stream .left 32 sm ++ rest.map UInt32.toBitVec = ws.map UInt32.toBitVec

/-- They are exactly the bits `bs`. -/
structure FedBits (sm : PioSerial.State) (rest : List UInt32) (bs : List Bool) : Prop where
  count : sm.osrCount ≤ 32
  bits : (stream .left 1 sm).map (fun v => v.getLsbD 0) ++ rest.flatMap msbBits = bs

variable {sm : PioSerial.State} {rest ws : List UInt32} {bs : List Bool}

theorem FedWords.push {w : UInt32} (h : FedWords sm (w :: rest) ws) :
    FedWords { sm with tx := sm.tx ++ [w] } rest ws := by
  refine ⟨h.count, ?_⟩
  rw [stream_write, wordChunks_32, List.append_assoc]
  exact h.words

theorem FedBits.push {w : UInt32} (h : FedBits sm (w :: rest) bs) :
    FedBits { sm with tx := sm.tx ++ [w] } rest bs := by
  refine ⟨h.count, ?_⟩
  rw [stream_write, List.map_append, wordChunks_1, List.append_assoc]
  exact h.bits

theorem FedWords.refill (h : FedWords sm rest ws) : FedWords sm.refill rest ws := by
  refine ⟨?_, by rw [stream_refill]; exact h.words⟩
  have hcount := h.count
  rcases osrCount_refill sm with heq | heq <;> omega

theorem FedBits.refill (h : FedBits sm rest bs) : FedBits sm.refill rest bs := by
  refine ⟨?_, by rw [stream_refill]; exact h.bits⟩
  have hcount := h.count
  rcases osrCount_refill sm with heq | heq <;> omega

/-- Words are bits. -/
theorem FedWords.toBits (h : FedWords sm rest ws) : FedBits sm rest (ws.flatMap msbBits) := by
  have hinj : Function.Injective UInt32.toBitVec := fun _ _ => UInt32.toBitVec_inj.1
  obtain ⟨held, hheld, hbits⟩ : ∃ held : List UInt32,
      stream .left 32 sm = held.map UInt32.toBitVec ∧
      (stream .left 1 sm).map (fun v => v.getLsbD 0) = held.flatMap msbBits := by
    have htx32 : sm.tx.flatMap (wordChunks .left 32) = sm.tx.map UInt32.toBitVec := by
      rw [List.map_eq_flatMap]
      exact List.flatMap_congr fun w _ => wordChunks_32 w
    have htx1 : (sm.tx.flatMap (wordChunks .left 1)).map (fun v => v.getLsbD 0) =
        sm.tx.flatMap msbBits := by
      rw [List.map_flatMap]
      exact List.flatMap_congr fun w _ => wordChunks_1 w
    rcases h.count with hcount | hcount
    · refine ⟨UInt32.ofBitVec sm.osr :: sm.tx, ?_, ?_⟩
      · rw [stream, htx32, hcount]
        exact congrArg (· ++ _) (wordChunks_32 (UInt32.ofBitVec sm.osr))
      · rw [stream, List.map_append, htx1, hcount]
        exact congrArg (· ++ _) (wordChunks_1 (UInt32.ofBitVec sm.osr))
    · refine ⟨sm.tx, ?_, ?_⟩
      · rw [stream, htx32, osrChunks_of_le _ (by omega), List.nil_append]
      · rw [stream, List.map_append, htx1, osrChunks_of_le _ (by omega), List.map_nil,
          List.nil_append]
  refine ⟨by rcases h.count with hcount | hcount <;> omega, ?_⟩
  have hwords := h.words
  rw [hheld, ← List.map_append] at hwords
  rw [hbits, ← List.map_injective_iff.2 hinj hwords, List.flatMap_append]

/-- An `out` of a whole word. -/
theorem FedWords.shift {w : UInt32} (h : FedWords sm rest (w :: ws)) (hfull : sm.osrCount < 32)
    (dest : Dest) : outValue .left 32 sm.osr = w.toBitVec ∧
      FedWords (machine.shift dest 32 sm) rest ws := by
  have hcount := h.count
  have hwords := h.words
  rw [show ShiftDir.left = machine.outDir from rfl,
    stream_shift machine dest (by decide) sm (by omega)] at hwords
  obtain ⟨hhead, htail⟩ := List.cons.inj hwords
  refine ⟨hhead, ?_, htail⟩
  rcases osrCount_shift (n := 32) machine dest sm with heq | heq <;> omega

/-- An `out` of a bit. -/
theorem FedBits.shift {b : Bool} (h : FedBits sm rest (b :: bs)) (hfull : sm.osrCount < 32)
    (dest : Dest) : (outValue .left 1 sm.osr).getLsbD 0 = b ∧
      FedBits (machine.shift dest 1 sm) rest bs := by
  have hbits := h.bits
  rw [show ShiftDir.left = machine.outDir from rfl,
    stream_shift machine dest (by decide) sm (by omega), List.map_cons] at hbits
  obtain ⟨hhead, htail⟩ := List.cons.inj hbits
  refine ⟨hhead, ?_, htail⟩
  rcases osrCount_shift (n := 1) machine dest sm with heq | heq <;> omega

/-- With nothing to come the register stays empty. -/
theorem FedWords.count_of_nil (h : FedWords sm [] []) : sm.osrCount = 32 := by
  rcases h.count with hcount | hcount
  · have hwords := h.words
    rw [stream, hcount, osrChunks_cons (by decide) _ (by decide)] at hwords
    simp at hwords
  · exact hcount

/-! ### How far the state machine is -/

/-- A bit count, one less for the loop. -/
def counter (n : ℕ) : BitVec 32 := BitVec.ofNat 32 (n - 1)

theorem counter_eq_zero_iff {n : ℕ} (h : n < 2 ^ 32) : counter n = 0 ↔ n ≤ 1 := by
  rw [← BitVec.toNat_inj, counter, BitVec.toNat_ofNat, Nat.mod_eq_of_lt (by omega)]
  change n - 1 = 0 ↔ _
  omega

theorem counter_sub_one {n : ℕ} (h : n < 2 ^ 32) (hn : 1 < n) :
    counter n - 1 = counter (n - 1) := by
  obtain ⟨m, rfl⟩ : ∃ m, n = m + 2 := ⟨n - 2, by omega⟩
  have hadd : counter (m + 2) = BitVec.ofNat 32 m + 1 := BitVec.ofNat_add m 1
  rw [hadd, BitVec.add_sub_cancel]
  rfl

/-- The state machine in a transaction, of which the bus has seen `ev` since CS went low, `got`
being the bits sampled. -/
inductive At (t : Txn) (clk : Bool) (sm : PioSerial.State) (rest : List UInt32) :
    List Bool → List BusEvent → Prop
  /-- At `out x, 32`, or still at the end of the loop of the transaction before. -/
  | loadX (hpc : sm.pc = 0 ∨ sm.pc = 8 ∧ sm.y = 0) (hfed : FedWords sm rest t.pushes) :
      At t clk sm rest [] []
  | loadY (hpc : sm.pc = 1) (hx : sm.x = counter t.bits.length)
      (hfed : FedWords sm rest (UInt32.ofNat (t.pulls * 32 - 1) :: t.words)) :
      At t clk sm rest [] []
  | dir (hpc : sm.pc = 2) (hx : sm.x = counter t.bits.length) (hy : sm.y = counter (t.pulls * 32))
      (hfed : FedWords sm rest t.words) : At t clk sm rest [] []
  /-- At `out pins, 1` of bit `k`. -/
  | drive (k : ℕ) (hk : k < t.bits.length) (hpc : sm.pc = 3) (hdir : sm.output = true)
      (hx : sm.x = counter (t.bits.length - k)) (hy : sm.y = counter (t.pulls * 32))
      (hfed : FedBits sm rest (t.bits.drop k)) :
      At t clk sm rest [] ((t.bits.take k).map .latch)
  /-- At `jmp x--`, bit `k` being on DATA. -/
  | latch (k : ℕ) (b : Bool) (hk : t.bits[k]? = some b) (hpc : sm.pc = 4) (hdir : sm.output = true)
      (hx : sm.x = counter (t.bits.length - k)) (hy : sm.y = counter (t.pulls * 32))
      (hclk : clk = false) (hdata : sm.data = b) (hfed : FedBits sm rest (t.bits.drop (k + 1))) :
      At t clk sm rest [] ((t.bits.take k).map .latch)
  | turn (hpc : sm.pc = 5 ∨ sm.pc = 6 ∧ sm.output = false) (hy : sm.y = counter (t.pulls * 32))
      (hfed : FedBits sm rest []) : At t clk sm rest [] (t.bits.map .latch)
  /-- At `in pins, 1`, with CLK high already if it has been repeated. -/
  | sample (got : List Bool) (hgot : got.length < t.pulls * 32) (hpc : sm.pc = 7)
      (hdir : sm.output = false) (hy : sm.y = counter (t.pulls * 32 - got.length))
      (hfed : FedBits sm rest []) :
      At t clk sm rest got
        (t.bits.map .latch ++ reads got ++ if clk then [BusEvent.clock] else [])
  /-- At `jmp y--`. -/
  | next (got : List Bool) (hgot : got.length < t.pulls * 32) (b : Bool) (hpc : sm.pc = 8)
      (hdir : sm.output = false) (hy : sm.y = counter (t.pulls * 32 - got.length))
      (hfed : FedBits sm rest []) :
      At t clk sm rest (got ++ [b]) (t.bits.map .latch ++ reads (got ++ [b]))
  | stop (got : List Bool) (hgot : got.length = t.pulls * 32) (hpc : sm.pc = 0)
      (hfed : FedBits sm rest []) : At t clk sm rest got (t.bits.map .latch ++ reads got)

/-- The bits sampled are in what the call has pulled, the RX FIFO and the input shift register. -/
structure Sampled (got : List Bool) (result : List UInt32) (sm : PioSerial.State) : Prop where
  count_lt : sm.isrCount < 32
  bits : got = (result ++ sm.rx).flatMap msbBits ++ shiftedIn sm.isr sm.isrCount

section

variable (pin : Bool)

theorem cycle_outX (hpc : sm.pc = 0) : machine.cycle pin sm =
    if sm.osrCount < 32 then machine.shift .x 32 sm else sm.refill := by
  rw [Machine.cycle, hpc]
  rfl

theorem cycle_outY (hpc : sm.pc = 1) : machine.cycle pin sm =
    if sm.osrCount < 32 then machine.shift .y 32 sm else sm.refill := by
  rw [Machine.cycle, hpc]
  rfl

theorem cycle_pindirs (hpc : sm.pc = 2) :
    machine.cycle pin sm = { sm.refill with output := true, pc := 3 } := by
  rw [Machine.cycle, hpc]
  rfl

theorem cycle_outPins (hpc : sm.pc = 3) : machine.cycle pin sm =
    if sm.osrCount < 32 then machine.shift .pins 1 sm else sm.refill := by
  rw [Machine.cycle, hpc]
  rfl

theorem cycle_jmpX (hpc : sm.pc = 4) : machine.cycle pin sm =
    { sm.refill with x := sm.x - 1, pc := if sm.x = 0 then 5 else wloop } := by
  rw [Machine.cycle, hpc]
  rfl

theorem cycle_turn (hpc : sm.pc = 5) :
    machine.cycle pin sm = { sm.refill with output := false, pc := 6 } := by
  rw [Machine.cycle, hpc]
  rfl

theorem cycle_nop (hpc : sm.pc = 6) : machine.cycle pin sm = { sm.refill with pc := 7 } := by
  rw [Machine.cycle, hpc]
  rfl

theorem cycle_in (hpc : sm.pc = 7) : machine.cycle pin sm = machine.sample pin sm := by
  rw [Machine.cycle, hpc]
  rfl

theorem cycle_jmpY (hpc : sm.pc = 8) : machine.cycle pin sm =
    { sm.refill with y := sm.y - 1, pc := if sm.y = 0 then 0 else rloop } := by
  rw [Machine.cycle, hpc]
  rfl

/-- Nothing happens on the bus but at `jmp x--` and `in pins, 1`. -/
theorem busEvents_quiet (clk : Bool) (hpc : sm.pc ≤ 8) (h4 : sm.pc ≠ 4) (h7 : sm.pc ≠ 7) :
    machine.side sm = false ∧ busEvents clk pin sm = [] := by
  have hpcs : sm.pc = 0 ∨ sm.pc = 1 ∨ sm.pc = 2 ∨ sm.pc = 3 ∨ sm.pc = 5 ∨ sm.pc = 6 ∨
      sm.pc = 8 := by
    omega
  rcases hpcs with hpc | hpc | hpc | hpc | hpc | hpc | hpc
  all_goals
    rw [busEvents, Machine.side, hpc]
    exact ⟨rfl, rfl⟩

theorem busEvents_jmpX (hpc : sm.pc = 4) (hdir : sm.output = true) :
    machine.side sm = true ∧ busEvents false pin sm = [.latch sm.data] := by
  rw [busEvents, Machine.side, hpc, hdir]
  exact ⟨rfl, rfl⟩

theorem busEvents_in (clk : Bool) (hpc : sm.pc = 7) (hdir : sm.output = false) :
    machine.side sm = true ∧ busEvents clk pin sm = (if clk then [] else [.clock]) ++
      if sm.isrCount + 1 < 32 ∨ sm.rx.length < 4 then [.sample pin] else [] := by
  rw [busEvents, Machine.side, hpc, hdir]
  cases clk <;> exact ⟨rfl, rfl⟩

end

theorem length_bits (t : Txn) : t.bits.length = t.words.length * 32 := length_flatMap_msbBits _

theorem Txn.Valid.bits_pos {t : Txn} (ht : t.Valid) : 0 < t.bits.length := by
  have hwords := List.length_pos_iff.2 ht.1
  rw [length_bits]
  omega

theorem reads_snoc (bs : List Bool) (b : Bool) :
    reads (bs ++ [b]) = reads bs ++ [.clock, .sample b] :=
  List.flatMap_append

/-- Only `in` touches what has been sampled. -/
theorem Sampled.cycle_of_ne {got : List Bool} {result : List UInt32} (h : Sampled got result sm)
    (pin : Bool) (hpc : sm.pc ≤ 8) (h7 : sm.pc ≠ 7) :
    Sampled got result (machine.cycle pin sm) := by
  have hsame : (machine.cycle pin sm).rx = sm.rx ∧ (machine.cycle pin sm).isr = sm.isr ∧
      (machine.cycle pin sm).isrCount = sm.isrCount := by
    have hpcs : sm.pc = 0 ∨ sm.pc = 1 ∨ sm.pc = 2 ∨ sm.pc = 3 ∨ sm.pc = 4 ∨ sm.pc = 5 ∨ sm.pc = 6 ∨
        sm.pc = 8 := by omega
    rcases hpcs with hpc | hpc | hpc | hpc | hpc | hpc | hpc | hpc
    · rw [cycle_outX pin hpc]
      split_ifs <;> simp [Machine.shift]
    · rw [cycle_outY pin hpc]
      split_ifs <;> simp [Machine.shift]
    · simp [cycle_pindirs pin hpc]
    · rw [cycle_outPins pin hpc]
      split_ifs <;> simp [Machine.shift]
    · simp [cycle_jmpX pin hpc]
    · simp [cycle_turn pin hpc]
    · simp [cycle_nop pin hpc]
    · simp [cycle_jmpY pin hpc]
  obtain ⟨hrx, hisr, hcount⟩ := hsame
  exact ⟨hcount ▸ h.count_lt, by rw [hrx, hisr, hcount]; exact h.bits⟩

/-- An `in` that is not repeated takes the level of the pin. -/
theorem Sampled.sample {got : List Bool} {result : List UInt32} (h : Sampled got result sm)
    (pin : Bool) (hroom : sm.isrCount + 1 < 32 ∨ sm.rx.length < 4) :
    Sampled (got ++ [pin]) result (machine.sample pin sm) := by
  have hcount := h.count_lt
  have hbits := shiftedIn_inBit sm.isr hcount pin
  rw [Machine.sample]
  rcases Nat.lt_or_ge (sm.isrCount + 1) 32 with hlt | hge
  · rw [if_pos hlt]
    refine ⟨hlt, ?_⟩
    rw [h.bits, List.append_assoc, ← hbits]
    simp [machine]
  · have hrx : sm.rx.length < machine.rxDepth := hroom.resolve_left (by omega)
    rw [if_neg (by omega), if_pos hrx]
    refine ⟨by simp, ?_⟩
    rw [show sm.isrCount + 1 = 32 by omega, ← msbBits_ofBitVec] at hbits
    rw [h.bits, List.append_assoc, ← hbits]
    simp [machine, shiftedIn]

variable {t : Txn} {clk : Bool} {got : List Bool} {ev : List BusEvent} {result : List UInt32}

theorem At.pc_le (h : At t clk sm rest got ev) : sm.pc ≤ 8 := by cases h <;> omega

/-! One cycle from each place. -/

section

variable (ht : t.Valid) (pin : Bool)

include ht

theorem at_cycle_loadX (clk : Bool) (hpc : sm.pc = 0 ∨ sm.pc = 8 ∧ sm.y = 0)
    (hfed : FedWords sm rest t.pushes) : At t clk (machine.cycle pin sm) rest [] [] := by
  rcases hpc with hpc | ⟨hpc, hy⟩
  · rw [cycle_outX pin hpc]
    split_ifs with hfull
    · rw [Txn.pushes_eq ht] at hfed
      obtain ⟨hx, hfed⟩ := hfed.shift hfull .x
      rw [← length_bits] at hx
      exact .loadY (by rw [pc_shift _ _ _ (by decide), hpc]; rfl) hx hfed
    · exact .loadX (.inl (by rw [pc_refill, hpc])) hfed.refill
  · rw [cycle_jmpY pin hpc, hy, if_pos rfl]
    exact .loadX (.inl rfl) ⟨hfed.refill.count, hfed.refill.words⟩

omit ht in
theorem at_cycle_loadY (clk : Bool) (hpc : sm.pc = 1) (hx : sm.x = counter t.bits.length)
    (hfed : FedWords sm rest (UInt32.ofNat (t.pulls * 32 - 1) :: t.words)) :
    At t clk (machine.cycle pin sm) rest [] [] := by
  rw [cycle_outY pin hpc]
  split_ifs with hfull
  · obtain ⟨hy, hfed⟩ := hfed.shift hfull .y
    exact .dir (by rw [pc_shift _ _ _ (by decide), hpc]; rfl)
      (by rw [x_shift _ _ _ (by decide), hx]) hy hfed
  · exact .loadY (by rw [pc_refill, hpc]) (by rw [x_refill, hx]) hfed.refill

theorem at_cycle_dir (clk : Bool) (hpc : sm.pc = 2) (hx : sm.x = counter t.bits.length)
    (hy : sm.y = counter (t.pulls * 32)) (hfed : FedWords sm rest t.words) :
    At t clk (machine.cycle pin sm) rest [] [] := by
  rw [cycle_pindirs pin hpc]
  have hbits := hfed.refill.toBits
  exact .drive 0 ht.bits_pos rfl rfl (by simpa using hx) (by simpa using hy)
    ⟨hbits.count, hbits.bits⟩

omit ht in
theorem at_cycle_drive (k : ℕ) (hk : k < t.bits.length) (hpc : sm.pc = 3)
    (hdir : sm.output = true) (hx : sm.x = counter (t.bits.length - k))
    (hy : sm.y = counter (t.pulls * 32)) (hfed : FedBits sm rest (t.bits.drop k)) :
    At t false (machine.cycle pin sm) rest [] ((t.bits.take k).map .latch) := by
  rw [cycle_outPins pin hpc]
  split_ifs with hfull
  · rw [List.drop_eq_getElem_cons hk] at hfed
    obtain ⟨hdata, hfed⟩ := hfed.shift hfull .pins
    exact .latch k _ (List.getElem?_eq_getElem hk) (by rw [pc_shift _ _ _ (by decide), hpc]; rfl)
      (by rw [output_shift, hdir]) (by rw [x_shift _ _ _ (by decide), hx])
      (by rw [y_shift _ _ _ (by decide), hy]) rfl hdata hfed
  · exact .drive k hk (by rw [pc_refill, hpc]) (by rw [output_refill, hdir])
      (by rw [x_refill, hx]) (by rw [y_refill, hy]) hfed.refill

theorem at_cycle_latch (k : ℕ) (b : Bool) (hk : t.bits[k]? = some b) (hpc : sm.pc = 4)
    (hdir : sm.output = true) (hx : sm.x = counter (t.bits.length - k))
    (hy : sm.y = counter (t.pulls * 32)) (hfed : FedBits sm rest (t.bits.drop (k + 1))) :
    At t true (machine.cycle pin sm) rest [] ((t.bits.take k).map .latch ++ [.latch b]) := by
  have hlt : k < t.bits.length := (List.getElem?_eq_some_iff.1 hk).1
  have hlong : t.bits.length < 2 ^ 32 := by
    rw [length_bits]
    exact ht.2.1
  have hev : (t.bits.take k).map .latch ++ [BusEvent.latch b] =
      (t.bits.take (k + 1)).map .latch := by
    rw [List.take_add_one, hk, List.map_append]
    rfl
  rw [cycle_jmpX pin hpc, hev]
  by_cases hlast : k + 1 = t.bits.length
  · rw [if_pos (by rw [hx, counter_eq_zero_iff (by omega)]; omega), hlast, List.take_length]
    rw [hlast, List.drop_length] at hfed
    exact .turn (.inl rfl) (by simpa using hy) ⟨hfed.refill.count, hfed.refill.bits⟩
  · rw [if_neg (by rw [hx, counter_eq_zero_iff (by omega)]; omega)]
    refine .drive (k + 1) (by omega) rfl (by simpa using hdir) ?_ (by simpa using hy)
      ⟨hfed.refill.count, hfed.refill.bits⟩
    rw [hx, counter_sub_one (by omega) (by omega), Nat.sub_sub]

theorem at_cycle_turn (hpc : sm.pc = 5 ∨ sm.pc = 6 ∧ sm.output = false)
    (hy : sm.y = counter (t.pulls * 32)) (hfed : FedBits sm rest []) :
    At t false (machine.cycle pin sm) rest [] (t.bits.map .latch) := by
  rcases hpc with hpc | ⟨hpc, hdir⟩
  · rw [cycle_turn pin hpc]
    exact .turn (.inr ⟨rfl, rfl⟩) (by simpa using hy) ⟨hfed.refill.count, hfed.refill.bits⟩
  · rw [cycle_nop pin hpc]
    have hpulls : 0 < t.pulls := by
      cases t
      · exact Nat.one_pos
      · exact Nat.succ_pos _
    have hat : At t false { sm.refill with pc := 7 } rest []
        (t.bits.map .latch ++ reads [] ++ if false then [BusEvent.clock] else []) :=
      .sample [] (by simp; omega) rfl (by simpa using hdir) (by simpa using hy)
        ⟨hfed.refill.count, hfed.refill.bits⟩
    simpa [reads] using hat

theorem at_cycle_next (got : List Bool) (hgot : got.length < t.pulls * 32) (b : Bool)
    (hpc : sm.pc = 8) (hdir : sm.output = false) (hy : sm.y = counter (t.pulls * 32 - got.length))
    (hfed : FedBits sm rest []) :
    At t false (machine.cycle pin sm) rest (got ++ [b])
      (t.bits.map .latch ++ reads (got ++ [b])) := by
  have hlong := ht.2.2
  rw [cycle_jmpY pin hpc]
  by_cases hlast : got.length + 1 = t.pulls * 32
  · rw [if_pos (by rw [hy, counter_eq_zero_iff (by omega)]; omega)]
    exact .stop _ (by simpa using hlast) rfl ⟨hfed.refill.count, hfed.refill.bits⟩
  · rw [if_neg (by rw [hy, counter_eq_zero_iff (by omega)]; omega)]
    have hcounter : sm.y - 1 = counter (t.pulls * 32 - (got ++ [b]).length) := by
      rw [hy, counter_sub_one (by omega) (by omega), Nat.sub_sub, List.length_append]
      rfl
    have hat : At t false { sm.refill with y := sm.y - 1, pc := rloop } rest (got ++ [b])
        (t.bits.map .latch ++ reads (got ++ [b]) ++ if false then [BusEvent.clock] else []) :=
      .sample _ (by simp; omega) rfl (by simpa using hdir) hcounter
        ⟨hfed.refill.count, hfed.refill.bits⟩
    simpa using hat

omit ht in
theorem at_cycle_sample (clk : Bool) (got : List Bool) (hgot : got.length < t.pulls * 32)
    (hpc : sm.pc = 7) (hdir : sm.output = false)
    (hy : sm.y = counter (t.pulls * 32 - got.length)) (hfed : FedBits sm rest [])
    (hs : Sampled got result sm) :
    ∃ got', At t true (machine.cycle pin sm) rest got' (t.bits.map .latch ++ reads got ++
      (if clk then [BusEvent.clock] else []) ++ busEvents clk pin sm) ∧
        Sampled got' result (machine.cycle pin sm) := by
  rw [(busEvents_in pin clk hpc hdir).2, cycle_in pin hpc]
  by_cases hroom : sm.isrCount + 1 < 32 ∨ sm.rx.length < 4
  · have hev : t.bits.map .latch ++ reads got ++ (if clk then [BusEvent.clock] else []) ++
        ((if clk then [] else [.clock]) ++ [.sample pin]) =
          t.bits.map .latch ++ reads (got ++ [pin]) := by
      rw [reads_snoc]
      cases clk <;> simp
    rw [if_pos hroom, hev]
    refine ⟨got ++ [pin], ?_, hs.sample pin hroom⟩
    rw [Machine.sample]
    have hwrap : machine.wrap sm.pc = 8 := by
      rw [hpc]
      rfl
    rcases Nat.lt_or_ge (sm.isrCount + 1) 32 with hlt | hge
    · rw [if_pos hlt, hwrap]
      exact .next got hgot pin rfl (by simpa using hdir) (by simpa using hy)
        ⟨hfed.refill.count, hfed.refill.bits⟩
    · have hrx : sm.rx.length < machine.rxDepth := hroom.resolve_left (by omega)
      rw [if_neg (by omega), if_pos hrx, hwrap]
      exact .next got hgot pin rfl (by simpa using hdir) (by simpa using hy)
        ⟨hfed.refill.count, hfed.refill.bits⟩
  · have hev : t.bits.map .latch ++ reads got ++ (if clk then [BusEvent.clock] else []) ++
        ((if clk then [] else [.clock]) ++ []) =
          t.bits.map .latch ++ reads got ++ if true then [BusEvent.clock] else [] := by
      cases clk <;> simp
    have hstall : machine.sample pin sm = sm.refill := by
      have hrx : ¬sm.rx.length < machine.rxDepth := fun h => hroom (.inr h)
      rw [Machine.sample, if_neg (fun h => hroom (.inl h)), if_neg hrx]
    rw [if_neg hroom, hev, hstall]
    refine ⟨got, .sample got hgot (by simpa using hpc) (by simpa using hdir) (by simpa using hy)
      hfed.refill, ?_⟩
    exact ⟨by simpa using hs.count_lt, by simpa using hs.bits⟩

end

/-- With no bits to come the state machine is out of words. -/
theorem FedBits.of_nil (h : FedBits sm rest []) : rest = [] ∧ sm.osrCount = 32 ∧ sm.tx = [] := by
  obtain ⟨hstream, hrest⟩ := List.append_eq_nil_iff.1 h.bits
  have hcount := h.count
  rw [List.map_eq_nil_iff, stream, List.append_eq_nil_iff] at hstream
  refine ⟨?_, ?_, ?_⟩
  · cases rest with
    | nil => rfl
    | cons w rest =>
      have hlen := congrArg List.length hrest
      simp at hlen
  · by_contra hne
    rw [osrChunks_cons (by decide) _ (by omega)] at hstream
    cases hstream.1
  · cases htx : sm.tx with
    | nil => rfl
    | cons w tx =>
      have hlen := congrArg List.length hstream.2
      rw [htx] at hlen
      simp at hlen

/-- **One cycle**, wherever the state machine is. -/
theorem At.cycle (ht : t.Valid) (h : At t clk sm rest got ev) (hs : Sampled got result sm)
    (pin : Bool) : ∃ got', At t (machine.side sm) (machine.cycle pin sm) rest got'
      (ev ++ busEvents clk pin sm) ∧ Sampled got' result (machine.cycle pin sm) := by
  have hle := h.pc_le
  by_cases h7 : sm.pc = 7
  · cases h with
    | sample got hgot hpc hdir hy hfed =>
      rw [(busEvents_in pin clk hpc hdir).1]
      exact at_cycle_sample pin clk got hgot hpc hdir hy hfed hs
    | loadX hpc => omega
    | loadY hpc => omega
    | dir hpc => omega
    | drive k hk hpc => omega
    | latch k b hk hpc => omega
    | turn hpc => omega
    | next got hgot b hpc => omega
    | stop got hgot hpc => omega
  refine ⟨got, ?_, hs.cycle_of_ne pin hle h7⟩
  by_cases h4 : sm.pc = 4
  · cases h with
    | latch k b hk hpc hdir hx hy hclk hdata hfed =>
      obtain ⟨hside, hev⟩ := busEvents_jmpX pin hpc hdir
      rw [hclk, hside, hev, hdata]
      exact at_cycle_latch ht pin k b hk hpc hdir hx hy hfed
    | loadX hpc => omega
    | loadY hpc => omega
    | dir hpc => omega
    | drive k hk hpc => omega
    | turn hpc => omega
    | sample got hgot hpc => omega
    | next got hgot b hpc => omega
    | stop got hgot hpc => omega
  obtain ⟨hside, hev⟩ := busEvents_quiet pin clk hle h4 h7
  rw [hside, hev, List.append_nil]
  cases h with
  | loadX hpc hfed => exact at_cycle_loadX ht pin false hpc hfed
  | loadY hpc hx hfed => exact at_cycle_loadY pin false hpc hx hfed
  | dir hpc hx hy hfed => exact at_cycle_dir ht pin false hpc hx hy hfed
  | drive k hk hpc hdir hx hy hfed => exact at_cycle_drive pin k hk hpc hdir hx hy hfed
  | latch k b hk hpc => exact absurd hpc h4
  | turn hpc hy hfed => exact at_cycle_turn ht pin hpc hy hfed
  | sample got hgot hpc => exact absurd hpc h7
  | next got hgot b hpc hdir hy hfed => exact at_cycle_next ht pin got hgot b hpc hdir hy hfed
  | stop got hgot hpc hfed =>
    have hcount := hfed.of_nil.2.1
    rw [cycle_outX pin hpc, if_neg (by omega)]
    exact .stop got hgot (by simpa using hpc) hfed.refill

/-- A word pushed is a word less to push. -/
theorem At.push {w : UInt32} (h : At t clk sm (w :: rest) got ev) :
    At t clk { sm with tx := sm.tx ++ [w] } rest got ev := by
  have hnone : ∀ {P : Prop}, FedBits sm (w :: rest) [] → P := fun hfed =>
    absurd hfed.of_nil.1 (List.cons_ne_nil _ _)
  cases h with
  | loadX hpc hfed => exact .loadX hpc hfed.push
  | loadY hpc hx hfed => exact .loadY hpc hx hfed.push
  | dir hpc hx hy hfed => exact .dir hpc hx hy hfed.push
  | drive k hk hpc hdir hx hy hfed => exact .drive k hk hpc hdir hx hy hfed.push
  | latch k b hk hpc hdir hx hy hclk hdata hfed =>
    exact .latch k b hk hpc hdir hx hy hclk hdata hfed.push
  | turn hpc hy hfed => exact hnone hfed
  | sample got hgot hpc hdir hy hfed => exact hnone hfed
  | next got hgot b hpc hdir hy hfed => exact hnone hfed
  | stop got hgot hpc hfed => exact hnone hfed

/-- To pull a word does not move the state machine. -/
theorem At.pull (h : At t clk sm rest got ev) (rx : List UInt32) :
    At t clk { sm with rx } rest got ev := by
  cases h with
  | loadX hpc hfed => exact .loadX hpc ⟨hfed.count, hfed.words⟩
  | loadY hpc hx hfed => exact .loadY hpc hx ⟨hfed.count, hfed.words⟩
  | dir hpc hx hy hfed => exact .dir hpc hx hy ⟨hfed.count, hfed.words⟩
  | drive k hk hpc hdir hx hy hfed => exact .drive k hk hpc hdir hx hy ⟨hfed.count, hfed.bits⟩
  | latch k b hk hpc hdir hx hy hclk hdata hfed =>
    exact .latch k b hk hpc hdir hx hy hclk hdata ⟨hfed.count, hfed.bits⟩
  | turn hpc hy hfed => exact .turn hpc hy ⟨hfed.count, hfed.bits⟩
  | sample got hgot hpc hdir hy hfed => exact .sample got hgot hpc hdir hy ⟨hfed.count, hfed.bits⟩
  | next got hgot b hpc hdir hy hfed => exact .next got hgot b hpc hdir hy ⟨hfed.count, hfed.bits⟩
  | stop got hgot hpc hfed => exact .stop got hgot hpc ⟨hfed.count, hfed.bits⟩

theorem Sampled.pull {w : UInt32} {rx : List UInt32} (h : Sampled got result sm)
    (hrx : sm.rx = w :: rx) : Sampled got (result ++ [w]) { sm with rx } := by
  refine ⟨h.count_lt, ?_⟩
  rw [h.bits, hrx, List.append_assoc]
  rfl

theorem At.length_got_le (h : At t clk sm rest got ev) : got.length ≤ t.pulls * 32 := by
  cases h with
  | sample got hgot => omega
  | next got hgot b =>
    rw [List.length_append]
    exact hgot
  | stop got hgot => omega
  | _ => exact Nat.zero_le _

/-! ### Between two transactions -/

/-- The state machine waits for the next transaction. -/
structure Idle (sm : PioSerial.State) : Prop where
  pc : sm.pc = 0 ∨ sm.pc = 8 ∧ sm.y = 0
  fed : FedWords sm [] []
  rx : sm.rx = []
  isrCount : sm.isrCount = 0

theorem Idle.cycle (h : Idle sm) (clk pin : Bool) :
    Idle (machine.cycle pin sm) ∧ busEvents clk pin sm = [] := by
  have hcount := h.fed.count_of_nil
  have hquiet : sm.pc ≤ 8 → sm.pc ≠ 4 → sm.pc ≠ 7 →
      machine.side sm = false ∧ busEvents clk pin sm = [] := busEvents_quiet pin clk
  rcases h.pc with hpc | ⟨hpc, hy⟩
  · refine ⟨?_, (hquiet (by omega) (by omega) (by omega)).2⟩
    rw [cycle_outX pin hpc, if_neg (by omega)]
    exact ⟨.inl (by simpa using hpc), h.fed.refill, by simpa using h.rx, by simpa using h.isrCount⟩
  · refine ⟨?_, (hquiet (by omega) (by omega) (by omega)).2⟩
    rw [cycle_jmpY pin hpc, hy, if_pos rfl]
    exact ⟨.inl rfl, ⟨h.fed.refill.count, h.fed.refill.words⟩, by simpa using h.rx,
      by simpa using h.isrCount⟩

/-- When all words have been pulled, the bus has seen all of the transaction. -/
theorem At.finished (ht : t.Valid) (h : At t clk sm [] got ev) (hs : Sampled got result sm)
    (hresult : result.length = t.pulls) :
    Idle sm ∧ ev = t.bits.map .latch ++ reads (result.flatMap msbBits) := by
  have hle := h.length_got_le
  have hpulls : 0 < t.pulls := by
    cases t
    · exact Nat.one_pos
    · exact Nat.succ_pos _
  have hlen := congrArg List.length hs.bits
  rw [List.length_append, length_flatMap_msbBits, List.length_append, shiftedIn, List.length_map,
    List.length_range] at hlen
  have hrx : sm.rx = [] := List.length_eq_zero_iff.1 (by omega)
  have hisr : sm.isrCount = 0 := by omega
  have hgot : got = result.flatMap msbBits := by
    rw [hs.bits, hrx, hisr, List.append_nil]
    exact List.append_nil _
  have hfull : got.length = t.pulls * 32 := by
    rw [hgot, length_flatMap_msbBits, hresult]
  have hfed : FedBits sm [] [] → FedWords sm [] [] := by
    intro hfed
    obtain ⟨-, hcount, htx⟩ := hfed.of_nil
    refine ⟨.inr hcount, ?_⟩
    rw [stream, osrChunks_of_le _ (by omega), htx]
    rfl
  have hlong := ht.2.2
  rw [← hgot]
  cases h with
  | next got hlt b hpc hdir hy hbits =>
    rw [List.length_append, List.length_singleton] at hfull
    have hy0 : sm.y = 0 := by
      rw [hy, counter_eq_zero_iff (by omega)]
      omega
    exact ⟨⟨.inr ⟨hpc, hy0⟩, hfed hbits, hrx, hisr⟩, rfl⟩
  | stop got hlt hpc hbits => exact ⟨⟨.inl hpc, hfed hbits, hrx, hisr⟩, rfl⟩
  | sample got hlt => omega
  | loadX => simp at hfull; omega
  | loadY => simp at hfull; omega
  | dir => simp at hfull; omega
  | drive => simp at hfull; omega
  | latch => simp at hfull; omega
  | turn => simp at hfull; omega

/-! ### The calls -/

/-- Where the CPU is, the bus having seen the events behind those of the calls that returned. -/
inductive Standing (s : State) : List BusEvent → Prop
  | free (htxn : s.txn = none) (hops : s.ops = []) (hidle : Idle s.sm) : Standing s []
  | drain (t : Txn) (ht : t.Valid) (htxn : s.txn = some t) (hops : s.ops = t.script)
      (hresult : s.result = []) (hidle : Idle s.sm) : Standing s []
  | select (t : Txn) (ht : t.Valid) (htxn : s.txn = some t) (hops : s.ops = t.script.tail)
      (hresult : s.result = []) (hidle : Idle s.sm) : Standing s []
  | busy (t : Txn) (rest : List UInt32) (got : List Bool) (ev : List BusEvent) (ht : t.Valid)
      (htxn : s.txn = some t)
      (hops : s.ops = rest.map .push ++ List.replicate (t.pulls - s.result.length) .pull ++
        [.cs true])
      (hresult : s.result.length ≤ t.pulls) (hat : At t s.clk s.sm rest got ev)
      (hsampled : Sampled got s.result s.sm) : Standing s (.cs false :: ev)

/-- What a step of the CPU makes of it. -/
def Advances (part : List BusEvent) (s' : State) (l : Label) : Prop :=
  (∃ events, l = .cpu events ∧ Standing s' (part ++ events)) ∨
    ∃ t result, l = .done t result ∧ part ++ [.cs true] = t.trace result ∧
      result.length = t.pulls ∧ Standing s' []

theorem Standing.cpu {s s' : State} {l : Label} {part : List BusEvent} (h : Standing s part)
    (hst : cpuNext s = some (l, s')) (hl : l ≠ .timeout) : Advances part s' l := by
  cases h with
  | free htxn hops hidle => simp [cpuNext, hops] at hst
  | drain t ht htxn hops hresult hidle =>
    have hread : s.sm.read = none := by rw [PioSerial.State.read, hidle.rx]
    rw [cpuNext, hops] at hst
    simp only [Txn.script, List.cons_append, hread, Option.some.injEq, Prod.mk.injEq] at hst
    obtain ⟨rfl, rfl⟩ := hst
    exact .inl ⟨[], rfl, .select t ht htxn rfl hresult hidle⟩
  | select t ht htxn hops hresult hidle =>
    have hpushes := Txn.pushes_eq ht
    rw [cpuNext, hops] at hst
    simp only [Txn.script, List.cons_append, List.nil_append, List.tail_cons, hpushes,
      List.map_cons, Option.some.injEq, Prod.mk.injEq] at hst
    obtain ⟨rfl, rfl⟩ := hst
    refine .inl ⟨[.cs false], rfl, .busy t t.pushes [] [] ht htxn ?_ ?_ (.loadX hidle.pc ?_) ?_⟩
    · rw [hpushes, hresult]
      rfl
    · rw [hresult]
      exact Nat.zero_le _
    · refine ⟨hidle.fed.count, ?_⟩
      have hnone := (List.append_eq_nil_iff.1 hidle.fed.words).1
      change stream .left 32 s.sm ++ _ = _
      rw [hnone, List.nil_append]
    · refine ⟨by simp [hidle.isrCount], ?_⟩
      simp [hresult, hidle.rx, hidle.isrCount, shiftedIn]
  | busy t rest got ev ht htxn hops hresult hat hsampled =>
    cases rest with
    | cons w rest =>
      rw [cpuNext, hops] at hst
      simp only [List.map_cons, List.cons_append, Machine.write] at hst
      by_cases hroom : s.sm.tx.length < machine.txDepth
      · simp only [if_pos hroom, Option.some.injEq, Prod.mk.injEq] at hst
        obtain ⟨rfl, rfl⟩ := hst
        refine .inl ⟨[], rfl, ?_⟩
        rw [List.append_nil]
        exact .busy t rest got ev ht htxn rfl hresult hat.push ⟨hsampled.count_lt, hsampled.bits⟩
      · simp only [if_neg hroom] at hst
        split_ifs at hst
        · cases hst
          exact absurd rfl hl
        · cases hst
          refine .inl ⟨[], rfl, ?_⟩
          rw [List.append_nil]
          exact .busy t (w :: rest) got ev ht htxn rfl hresult hat hsampled
    | nil =>
      rcases Nat.eq_or_lt_of_le hresult with hall | hmore
      · rw [cpuNext, hops, hall, Nat.sub_self] at hst
        simp only [List.map_nil, List.replicate_zero, List.nil_append, htxn, Option.some.injEq,
          Prod.mk.injEq] at hst
        obtain ⟨rfl, rfl⟩ := hst
        obtain ⟨hidle, hev⟩ := hat.finished ht hsampled hall
        refine .inr ⟨t, s.result, rfl, ?_, hall, .free rfl rfl hidle⟩
        rw [hev, Txn.trace]
        simp
      · obtain ⟨m, hm⟩ : ∃ m, t.pulls - s.result.length = m + 1 :=
          ⟨t.pulls - s.result.length - 1, by omega⟩
        rw [cpuNext, hops, hm] at hst
        simp only [List.map_nil, List.replicate_succ, List.nil_append, List.cons_append] at hst
        cases hrx : s.sm.rx with
        | nil =>
          have hread : s.sm.read = none := by rw [PioSerial.State.read, hrx]
          simp only [hread] at hst
          split_ifs at hst
          · cases hst
            exact absurd rfl hl
          · cases hst
            refine .inl ⟨[], rfl, ?_⟩
            rw [List.append_nil]
            exact .busy t [] got ev ht htxn (by simp [hm, List.replicate_succ]) hresult hat hsampled
        | cons w rx =>
          have hread : s.sm.read = some (w, { s.sm with rx }) := by
            rw [PioSerial.State.read, hrx]
          simp only [hread, Option.some.injEq, Prod.mk.injEq] at hst
          obtain ⟨rfl, rfl⟩ := hst
          refine .inl ⟨[], rfl, ?_⟩
          rw [List.append_nil]
          refine .busy t [] got ev ht htxn ?_ ?_ (hat.pull rx) (hsampled.pull hrx)
          · have hm' : t.pulls - (s.result ++ [w]).length = m := by
              rw [List.length_append, List.length_singleton]
              omega
            rw [hm']
            rfl
          · rw [List.length_append, List.length_singleton]
            exact hmore

/-- A cycle shows on the bus what the place of the state machine says. -/
theorem Standing.cycle {s : State} {part : List BusEvent} (h : Standing s part) (pin : Bool) :
    Standing { s with sm := machine.cycle pin s.sm, clk := machine.side s.sm }
      (part ++ busEvents s.clk pin s.sm) := by
  cases h with
  | free htxn hops hidle =>
    obtain ⟨hidle', hev⟩ := hidle.cycle s.clk pin
    rw [hev]
    exact .free htxn hops hidle'
  | drain t ht htxn hops hresult hidle =>
    obtain ⟨hidle', hev⟩ := hidle.cycle s.clk pin
    rw [hev]
    exact .drain t ht htxn hops hresult hidle'
  | select t ht htxn hops hresult hidle =>
    obtain ⟨hidle', hev⟩ := hidle.cycle s.clk pin
    rw [hev]
    exact .select t ht htxn hops hresult hidle'
  | busy t rest got ev ht htxn hops hresult hat hsampled =>
    obtain ⟨got', hat', hsampled'⟩ := hat.cycle ht hsampled pin
    exact .busy t rest got' _ ht htxn hops hresult hat' hsampled'

variable {ls : List Label} {s : State}

theorem returned_snoc (ls : List Label) (l : Label) :
    Label.returned (ls ++ [l]) = Label.returned ls ++ Label.returned [l] := List.filterMap_append

/-- What every run without a timeout keeps. -/
theorem exists_standing (h : system.Run ls s) (hvalid : ∀ t, .start t ∈ ls → t.Valid)
    (hspins : .timeout ∉ ls) :
    ∃ part, ls.flatMap Label.events =
        (Label.returned ls).flatMap (fun p => p.1.trace p.2) ++ part ∧
      (∀ p ∈ Label.returned ls, p.2.length = p.1.pulls) ∧ Standing s part := by
  refine h.induction (J := fun ls s => (∀ t, .start t ∈ ls → t.Valid) → .timeout ∉ ls →
    ∃ part, ls.flatMap Label.events =
        (Label.returned ls).flatMap (fun p => p.1.trace p.2) ++ part ∧
      (∀ p ∈ Label.returned ls, p.2.length = p.1.pulls) ∧ Standing s part)
    (fun s hs _ _ => ?_) (fun ls s l s' _ ih hst hvalid hspins => ?_) hvalid hspins
  · rw [show s = ⟨.start false true, false, none, [], 0, []⟩ from hs]
    exact ⟨[], rfl, fun p hp => absurd hp List.not_mem_nil,
      .free rfl rfl ⟨.inl rfl, ⟨.inr rfl, rfl⟩, rfl, rfl⟩⟩
  · obtain ⟨part, hevents, hlen, hstand⟩ := ih (fun t ht => hvalid t (List.mem_append_left _ ht))
      fun ht => hspins (List.mem_append_left _ ht)
    have hcpu : ∀ l, cpuNext s = some (l, s') → l ≠ .timeout → ∃ part,
        (ls ++ [l]).flatMap Label.events =
          (Label.returned (ls ++ [l])).flatMap (fun p => p.1.trace p.2) ++ part ∧
        (∀ p ∈ Label.returned (ls ++ [l]), p.2.length = p.1.pulls) ∧ Standing s' part := by
      intro l hst hl
      rw [returned_snoc, List.flatMap_append, List.flatMap_append, hevents]
      rcases hstand.cpu hst hl with ⟨events, rfl, hnext⟩ | ⟨t, result, rfl, htrace, hpulls, hnext⟩
      · exact ⟨_, by simp [Label.events, Label.returned],
          by simpa [Label.returned] using hlen, hnext⟩
      · refine ⟨[], ?_, ?_, hnext⟩
        · simp only [Label.events, Label.returned, List.flatMap_cons, List.flatMap_nil,
            List.filterMap_cons, List.filterMap_nil, List.append_nil, List.append_assoc]
          rw [htrace]
        · intro p hp
          rcases List.mem_append.1 hp with hp | hp
          · exact hlen p hp
          · obtain rfl : p = (t, result) := by simpa [Label.returned] using hp
            exact hpulls
    cases l with
    | start t =>
      obtain ⟨htxn, rfl⟩ := hst
      have ht := hvalid t (List.mem_append_right _ (List.mem_singleton_self _))
      cases hstand with
      | free _ hops hidle =>
        exact ⟨[], by simpa [Label.events, Label.returned] using hevents,
          by simpa [Label.returned] using hlen, .drain t ht rfl rfl rfl hidle⟩
      | drain t' _ htxn' => simp [htxn] at htxn'
      | select t' _ htxn' => simp [htxn] at htxn'
      | busy t' rest got ev _ htxn' => simp [htxn] at htxn'
    | cycle pin events =>
      obtain ⟨rfl, rfl⟩ := hst
      refine ⟨_, ?_, by simpa [Label.returned] using hlen, hstand.cycle pin⟩
      rw [returned_snoc, List.flatMap_append, hevents]
      simp [Label.events, Label.returned]
    | cpu events => exact hcpu _ hst (by simp)
    | timeout => exact absurd (List.mem_append_right _ (List.mem_singleton_self _)) hspins
    | done t result => exact hcpu _ hst (by simp)

/-- **The gSPI transport.**  In every run of valid transactions in which no FIFO is waited for too
long, however the CPU, the state machine and the chip's answers fall: the bus has seen the
transactions that returned, one after the other, each between CS low and CS high, with the bits of
its words MSB first and then as many samples as it returned bits, which are the bits it returned;
and of the transaction under way the bits of its words, in order, and then samples. -/
theorem gspi_correct (h : system.Run ls s) (hvalid : ∀ t, .start t ∈ ls → t.Valid)
    (hspins : .timeout ∉ ls) :
    ∃ part, ls.flatMap Label.events =
        (Label.returned ls).flatMap (fun p => p.1.trace p.2) ++ part ∧
      (∀ p ∈ Label.returned ls, p.2.length = p.1.pulls) ∧
      (part = [] ∨ ∃ t bs, s.txn = some t ∧ s.result.flatMap msbBits <+: bs ∧
        part <+: [.cs false] ++ t.bits.map .latch ++ reads bs) := by
  obtain ⟨part, hevents, hlen, hstand⟩ := exists_standing h hvalid hspins
  refine ⟨part, hevents, hlen, ?_⟩
  cases hstand with
  | free => exact .inl rfl
  | drain => exact .inl rfl
  | select => exact .inl rfl
  | busy t rest got ev ht htxn hops hresult hat hsampled =>
    refine .inr ⟨t, got ++ [false], htxn, ?_, ?_⟩
    · rw [hsampled.bits, List.flatMap_append, List.append_assoc, List.append_assoc]
      exact List.prefix_append _ _
    · have htake : ∀ k, (t.bits.take k).map BusEvent.latch <+:
          t.bits.map .latch ++ reads (got ++ [false]) := fun k =>
        ((List.take_prefix k _).map _).trans (List.prefix_append _ _)
      rw [List.append_assoc]
      refine (List.prefix_append_right_inj [BusEvent.cs false]).2 ?_
      have hmore : ∀ tail, tail <+: [BusEvent.clock, .sample false] →
          t.bits.map .latch ++ reads got ++ tail <+:
            t.bits.map .latch ++ reads (got ++ [false]) := by
        intro tail htail
        rw [reads_snoc, ← List.append_assoc]
        exact (List.prefix_append_right_inj _).2 htail
      cases hat with
      | loadX => exact List.nil_prefix
      | loadY => exact List.nil_prefix
      | dir => exact List.nil_prefix
      | drive k => exact htake k
      | latch k => exact htake k
      | turn => exact List.prefix_append _ _
      | sample got =>
        refine hmore _ ?_
        split_ifs
        · exact ⟨[.sample false], rfl⟩
        · exact List.nil_prefix
      | next got hgot b => simpa using hmore [] List.nil_prefix
      | stop got => simpa using hmore [] List.nil_prefix

/-! ### Runs from a schedule -/

/-- Whose turn it is, the chip driving a level in the state machine's. -/
inductive BusTurn
  | cpu
  | sm (pin : Bool)
  deriving DecidableEq

/-- What a turn leads to. -/
def State.turn (s : State) : BusTurn → List Label × State
  | .cpu => (cpuNext s).elim ([], s) fun next => ([next.1], next.2)
  | .sm pin => ([.cycle pin (busEvents s.clk pin s.sm)],
      { s with sm := machine.cycle pin s.sm, clk := machine.side s.sm })

/-- The labels of a schedule, and where it leads. -/
def State.turns : List BusTurn → State → List Label × State
  | [], s => ([], s)
  | t :: ts, s =>
    let rest := State.turns ts (s.turn t).2
    ((s.turn t).1 ++ rest.1, rest.2)

theorem cpuNext_step {s s' : State} {l : Label} (h : cpuNext s = some (l, s')) :
    system.step s l s' ∧ ∀ t, l ≠ .start t := by
  have hlabel : (∀ t, l ≠ .start t) ∧ ∀ pin events, l ≠ .cycle pin events := by
    unfold cpuNext at h
    split at h <;> (try split at h) <;> (try split_ifs at h) <;> cases h <;> simp
  obtain ⟨hstart, hcycle⟩ := hlabel
  cases l with
  | start t => exact absurd rfl (hstart t)
  | cycle pin events => exact absurd rfl (hcycle pin events)
  | _ => exact ⟨h, hstart⟩

theorem path_turn (s : State) (t : BusTurn) :
    system.Path s (s.turn t).1 (s.turn t).2 ∧ ∀ t', Label.start t' ∉ (s.turn t).1 := by
  cases t with
  | cpu =>
    rw [State.turn]
    cases h : cpuNext s with
    | none => exact ⟨.nil, fun _ => List.not_mem_nil⟩
    | some next =>
      obtain ⟨hst, hstart⟩ := cpuNext_step h
      exact ⟨.one hst, fun t' ht' => hstart t' (List.mem_singleton.1 ht').symm⟩
  | sm pin => exact ⟨.one ⟨rfl, rfl⟩, fun t' ht' => by simp [State.turn] at ht'⟩

theorem path_turns (ts : List BusTurn) (s : State) :
    system.Path s (s.turns ts).1 (s.turns ts).2 ∧ ∀ t', Label.start t' ∉ (s.turns ts).1 := by
  induction ts generalizing s with
  | nil => exact ⟨.nil, fun _ => List.not_mem_nil⟩
  | cons t ts ih =>
    obtain ⟨hturn, hstart⟩ := path_turn s t
    obtain ⟨hturns, hstarts⟩ := ih (s.turn t).2
    refine ⟨hturn.append hturns, fun t' ht' => ?_⟩
    exact (List.mem_append.1 ht').elim (hstart t') (hstarts t')

/-- The state after a first call. -/
def State.called (t : Txn) : State := ⟨.start false true, false, some t, t.script, 0, []⟩

/-- A call that pushes `n` words: `m` cycles with DATA high, then `k` steps of the CPU. -/
def oneCall (n m k : ℕ) : List BusTurn :=
  List.replicate (n + 2) .cpu ++ List.replicate m (.sm true) ++ List.replicate k .cpu

theorem run_called {t : Txn} (ts : List BusTurn) :
    system.Run (.start t :: ((State.called t).turns ts).1) ((State.called t).turns ts).2 := by
  have hinit : system.Run [] ⟨.start false true, false, none, [], 0, []⟩ := .init rfl
  have hstart : system.Run [.start t] (State.called t) := hinit.snoc ⟨rfl, rfl⟩
  exact hstart.append (path_turns ts _).1

/-- A word is written, and the chip's answer is returned. -/
theorem gspi_correct_status : ∃ ls s part, system.Run ls s ∧
    ls.flatMap Label.events = (Label.returned ls).flatMap (fun p => p.1.trace p.2) ++ part ∧
    (part = [] ∨ ∃ t bs, s.txn = some t ∧ s.result.flatMap msbBits <+: bs ∧
      part <+: [.cs false] ++ t.bits.map .latch ++ reads bs) ∧
    Label.returned ls = [(.cmdWrite [0x12345678], [0xFFFFFFFF])] := by
  have hnostart := (path_turns (oneCall 3 133 2) (State.called (.cmdWrite [0x12345678]))).2
  have hvalid : (Txn.cmdWrite [0x12345678]).Valid := ⟨by decide, by decide, by decide⟩
  have hrun := run_called (t := .cmdWrite [0x12345678]) (oneCall 3 133 2)
  obtain ⟨part, hevents, -, hpart⟩ := gspi_correct hrun
    (fun t ht => (List.mem_cons.1 ht).elim (fun heq => Label.start.inj heq ▸ hvalid)
      fun ht => absurd ht (hnostart t)) (by decide +kernel)
  exact ⟨_, _, part, hrun, hevents, hpart, by decide +kernel⟩

end Gspi

end Pico10BaseT
