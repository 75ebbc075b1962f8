import Pico10BaseT.Pio.Serial
import Pico10BaseT.Tx.Fifo

/-!
# From the transmit FIFO to the line

The transmitting state machine takes the words of the FIFO two bits at a time: a code is the address
of the next instruction, whose side-set level is the level of DI.  The CPU writes while the state
machine runs, in any order.

* `executed_append_left` : whatever the order, the codes executed are those of the words accepted.
* `levels_eq_held` : DI follows the codes, one cycle behind, and stands still while none is taken.
* `stalls_iff` : a cycle takes no code exactly when all words accepted before it have gone out.
-/

namespace Pico10BaseT

open PioSerial

/-- `out pc, 2` jumps to address 0/1/2 (IDLE/LOW/HIGH). -/
def txMachine : Machine where
  outDir := .right
  inDir := .right
  txDepth := txFifoDepth
  rxDepth := 0
  code :=
    [ ⟨.out .pc 2, false⟩,   -- 0 = IDLE (DI=0, line idle)
      ⟨.out .pc 2, false⟩,   -- 1 = LOW  (DI=0, negative half-bit)
      ⟨.out .pc 2, true⟩ ]   -- 2 = HIGH (DI=1, positive half-bit)

/-- The codes of a word. -/
def wordCodes (w : UInt32) : List ℕ := (wordChunks .right 2 w).map BitVec.toNat

/-! ### The words of the calls -/

theorem wordCodes_eq (w : UInt32) :
    wordCodes w = (List.range 16).map fun i => w.toNat / 4 ^ i % 4 := by
  have hrest : ∀ i, ((outRest .right 2)^[i] w.toBitVec).toNat = w.toNat / 4 ^ i := by
    intro i
    induction i with
    | zero => exact (Nat.div_one _).symm
    | succ i ih =>
      rw [Function.iterate_succ_apply', outRest, BitVec.toNat_ushiftRight, ih,
        Nat.shiftRight_eq_div_pow, Nat.div_div_eq_div_mul, Nat.pow_succ 4 i]
  rw [wordCodes, wordChunks, osrChunks, List.map_map]
  refine List.map_congr_left fun i _ => ?_
  rw [Function.comp_apply, outValue, BitVec.toNat_and, hrest]
  exact Nat.and_two_pow_sub_one_eq_mod _ 2

@[simp] theorem length_wordCodes (w : UInt32) : (wordCodes w).length = 16 := by
  rw [wordCodes, List.length_map, length_wordChunks]

@[simp] theorem length_flatMap_wordCodes (ws : List UInt32) :
    (ws.flatMap wordCodes).length = 16 * ws.length := by
  induction ws with
  | nil => rfl
  | cons w ws ih =>
    rw [List.flatMap_cons, List.length_append, ih, length_wordCodes, List.length_cons]
    omega

/-- The word stays inside the program. -/
def Codes (w : UInt32) : Prop := ∀ c ∈ wordCodes w, c ≤ 2

theorem manchesterCode_div_le (bits : List Bool) (i : ℕ) : manchesterCode bits / 4 ^ i % 4 ≤ 2 := by
  induction bits generalizing i with
  | nil => simp [manchesterCode]
  | cons b bits ih =>
    rw [manchesterCode]
    rcases i with _ | _ | i
    · split_ifs <;> omega
    · split_ifs <;> omega
    · have hhead : ((if b = true then 9 else 6) + 16 * manchesterCode bits) / 4 ^ 2 =
          manchesterCode bits := by
        split_ifs <;> omega
      rw [show i + 1 + 1 = 2 + i by omega, Nat.pow_add, ← Nat.div_div_eq_div_mul, hhead]
      exact ih i

theorem codes_manchesterWord (b : UInt8) : Codes (manchesterWord b) := by
  intro c hc
  rw [wordCodes_eq] at hc
  obtain ⟨i, -, rfl⟩ := List.mem_map.1 hc
  rw [toNat_manchesterWord]
  exact manchesterCode_div_le _ i

/-- Behind the bytes of a frame. -/
theorem codes_endOfFrame : ∀ w ∈ 0x00000AAA :: List.replicate 12 (0 : UInt32), Codes w := by
  have hidl : Codes 0x00000AAA := by
    unfold Codes
    decide +kernel
  have hzero : Codes 0 := by
    unfold Codes
    decide +kernel
  intro w hw
  rcases List.mem_cons.1 hw with rfl | hw
  · exact hidl
  · rw [List.eq_of_mem_replicate hw]
    exact hzero

theorem codes_linkPulse : Codes linkPulse := by
  unfold Codes
  decide +kernel

/-- No call writes a word that leaves the program. -/
theorem TxCall.codes_words {c : TxCall} {tx tx' : EthTx} {ws : List UInt32}
    (h : c.words tx = .ok (ws, tx')) : ∀ w ∈ ws, Codes w := by
  have hbytes : ∀ bytes : List UInt8, ∀ w ∈ bytes.map manchesterWord, Codes w := by
    intro bytes w hw
    obtain ⟨b, -, rfl⟩ := List.mem_map.1 hw
    exact codes_manchesterWord b
  have hframe : ∀ bytes : List UInt8,
      ∀ w ∈ bytes.map manchesterWord ++ 0x00000AAA :: List.replicate 12 0, Codes w := by
    intro bytes w hw
    rcases List.mem_append.1 hw with hw | hw
    · exact hbytes bytes w hw
    · exact codes_endOfFrame w hw
  cases c with
  | sendNlp =>
    cases h
    intro w hw
    rcases List.mem_cons.1 hw with rfl | hw
    · exact codes_linkPulse
    · exact codes_endOfFrame w (List.mem_cons_of_mem _ hw)
  | sendRawFrame body =>
    cases h
    rw [sendRawFrame_eq]
    exact hframe _
  | sendUdpBroadcast ep payload =>
    rw [words, Pico10BaseT.sendUdpBroadcast, Exec.bind_eq_ok] at h
    obtain ⟨⟨rawFrame, totalBytes⟩, -, h⟩ := h
    obtain ⟨bytes, -, h⟩ := Exec.bind_eq_ok.1 h
    cases h
    rw [List.append_assoc]
    exact hframe bytes

/-! ### The state machine -/

/-- A cycle takes a code or fills the register. -/
theorem txMachine_cycle {s : PioSerial.State} (h : s.pc ≤ 2) :
    txMachine.code[s.pc]? ≠ none ∧ txMachine.side s = decide (s.pc = 2) ∧
      (s.osrCount < 32 → txMachine.cycle false s = txMachine.shift .pc 2 s ∧
        txMachine.shifted s = some (outValue .right 2 s.osr)) ∧
      (32 ≤ s.osrCount → txMachine.cycle false s = s.refill ∧ txMachine.shifted s = none) := by
  have hcode : ∃ side, txMachine.code[s.pc]? = some ⟨.out .pc 2, side⟩ ∧
      side = decide (s.pc = 2) := by
    obtain hpc | hpc | hpc : s.pc = 0 ∨ s.pc = 1 ∨ s.pc = 2 := by omega
    all_goals
      rw [hpc]
      exact ⟨_, rfl, rfl⟩
  obtain ⟨side, hcode, hside⟩ := hcode
  refine ⟨hcode ▸ Option.some_ne_none _, ?_, fun hlt => ⟨?_, ?_⟩, fun hge => ⟨?_, ?_⟩⟩
  · rw [Machine.side, hcode]
    exact hside
  · simp only [Machine.cycle, hcode, if_pos hlt]
  · simp only [Machine.shifted, hcode, if_pos hlt]
    rfl
  · simp only [Machine.cycle, hcode, if_neg (Nat.not_lt.2 hge)]
  · simp only [Machine.shifted, hcode, if_neg (Nat.not_lt.2 hge)]

/-! ### The transmitter with its state machine -/

/-- The transmitter, what it has still to write, and the state machine. -/
structure TxPio where
  tx : EthTx
  pending : List (Write UInt32)
  sm : PioSerial.State

/-- The transmitter and its FIFO. -/
def TxPio.line (s : TxPio) : TxLine := ⟨s.tx, ⟨s.sm.tx, s.pending⟩⟩

inductive DiLabel
  /-- A call, and its words. -/
  | call (c : TxCall) (ws : List UInt32)
  /-- `Tx::write`, and whether the FIFO was full. -/
  | attempt (w : Write UInt32) (full : Bool)
  /-- A cycle of the state machine: the code it takes, the word it pulls, and the level of DI. -/
  | cycle (code : Option ℕ) (word : Option UInt32) (di : Bool)
  deriving DecidableEq

namespace DiLabel

/-- What happens to the FIFO. -/
def toTx : DiLabel → List TxLabel
  | call c ws => [.call c ws]
  | attempt w full => [.attempt w full]
  | cycle _ word _ => word.toList.map .pull

/-- What each cycle takes. -/
def codes (ls : List DiLabel) : List (Option ℕ) :=
  ls.filterMap fun
    | cycle code _ _ => some code
    | _ => none

/-- The codes taken. -/
def executed (ls : List DiLabel) : List ℕ := (codes ls).filterMap id

/-- The level of DI in each cycle. -/
def levels (ls : List DiLabel) : List Bool :=
  ls.filterMap fun
    | cycle _ _ di => some di
    | _ => none

/-- The words that found room in the FIFO. -/
def accepted (ls : List DiLabel) : List UInt32 :=
  ls.filterMap fun
    | attempt w false => some w.elem
    | _ => none

section

variable (ls ls' : List DiLabel)

theorem codes_append : codes (ls ++ ls') = codes ls ++ codes ls' := List.filterMap_append

theorem executed_append : executed (ls ++ ls') = executed ls ++ executed ls' := by
  rw [executed, codes_append, List.filterMap_append]
  rfl

theorem levels_append : levels (ls ++ ls') = levels ls ++ levels ls' := List.filterMap_append

theorem length_levels : (levels ls).length = (codes ls).length := by
  induction ls with
  | nil => rfl
  | cons l ls ih => cases l <;> simpa [levels, codes] using ih

theorem accepted_append : accepted (ls ++ ls') = accepted ls ++ accepted ls' :=
  List.filterMap_append

end

end DiLabel

open DiLabel

/-- The CPU and the state machine, in any order. -/
def diSystem : System TxPio DiLabel where
  init s := s.pending = [] ∧ s.sm = .start false true
  step s l s' :=
    match l with
    | .call c ws => (txSystem []).step s.line (.call c ws) s'.line ∧ s'.sm = s.sm
    | .attempt w full =>
      (txSystem []).step s.line (.attempt w full) s'.line ∧ s'.sm = { s.sm with tx := s'.sm.tx }
    | .cycle code word di =>
      s'.tx = s.tx ∧ s'.pending = s.pending ∧ s'.sm = txMachine.cycle false s.sm ∧
        code = (txMachine.shifted s.sm).map BitVec.toNat ∧ word = txMachine.pulled false s.sm ∧
        di = txMachine.side s.sm

variable {ls : List DiLabel} {s : TxPio}

/-- The FIFO is that of the transmitter. -/
theorem diSystem_toTx (h : diSystem.Run ls s) : (txSystem []).Run (ls.flatMap toTx) s.line := by
  induction h with
  | init h =>
    refine .init ?_
    rw [TxPio.line, h.1, h.2]
    rfl
  | @snoc ls s s' l _ hst ih =>
    rw [List.flatMap_append, List.flatMap_singleton]
    cases l with
    | call c ws => exact ih.snoc hst.1
    | attempt w full => exact ih.snoc hst.1
    | cycle code word di =>
      obtain ⟨htx, hpending, hsm, -, hword, -⟩ := hst
      have hfifo := tx_eq_pulled txMachine false s.sm
      rw [← hword, ← hsm] at hfifo
      cases word with
      | none =>
        have hline : s'.line = s.line := by
          rw [TxPio.line, TxPio.line, htx, hpending, hfifo]
          rfl
        rw [hline, toTx, Option.toList_none, List.map_nil, List.append_nil]
        exact ih
      | some w =>
        refine ih.snoc ⟨?_, htx⟩
        simp [TxPio.line, TxLabel.toWriter, Writer.next, hfifo, hpending]

/-! ### What a run keeps -/

/-- The codes that are still to be taken. -/
def TxPio.left (s : TxPio) : List ℕ := (stream .right 2 s.sm).map BitVec.toNat

/-- The code taken last, behind `c`. -/
def lastCode (c : ℕ) (cs : List (Option ℕ)) : ℕ := cs.foldl (fun c o => o.getD c) c

/-- The levels of DI while the codes `cs` are taken, behind the code `c`: high during code 2. -/
def held (c : ℕ) : List (Option ℕ) → List Bool
  | [] => []
  | o :: cs => decide (c = 2) :: held (o.getD c) cs

theorem held_append (c : ℕ) (cs cs' : List (Option ℕ)) :
    held c (cs ++ cs') = held c cs ++ held (lastCode c cs) cs' := by
  induction cs generalizing c with
  | nil => rfl
  | cons o cs ih => exact congrArg (decide (c = 2) :: ·) (ih (o.getD c))

theorem lastCode_append (c : ℕ) (cs cs' : List (Option ℕ)) :
    lastCode c (cs ++ cs') = lastCode (lastCode c cs) cs' := List.foldl_append

/-- The invariant of the transmitter. -/
structure DiInv (ls : List DiLabel) (s : TxPio) : Prop where
  pc_le : s.sm.pc ≤ 2
  even : s.sm.osrCount % 2 = 0
  count_le : s.sm.osrCount ≤ 32
  left_le : ∀ c ∈ s.left, c ≤ 2
  pending : ∀ w ∈ s.pending, Codes w.elem
  executed : executed ls ++ s.left = (accepted ls).flatMap wordCodes
  pc : s.sm.pc = lastCode 0 (codes ls)
  levels : levels ls = held 0 (codes ls)

variable {s' : TxPio}

/-- Calls and attempts take no code. -/
theorem DiInv.of_sm {l : DiLabel} (h : DiInv ls s) (cs : List ℕ) (hl : codes [l] = [])
    (hlevels : DiLabel.levels [l] = []) (hcs : ∀ c ∈ cs, c ≤ 2)
    (hacc : (accepted [l]).flatMap wordCodes = cs)
    (hpc : s'.sm.pc = s.sm.pc) (hcount : s'.sm.osrCount = s.sm.osrCount)
    (hleft : s'.left = s.left ++ cs) (hpending : ∀ w ∈ s'.pending, Codes w.elem) :
    DiInv (ls ++ [l]) s' where
  pc_le := hpc ▸ h.pc_le
  even := hcount ▸ h.even
  count_le := hcount ▸ h.count_le
  left_le c hc := by
    rw [hleft] at hc
    exact (List.mem_append.1 hc).elim (h.left_le c) (hcs c)
  pending := hpending
  executed := by
    rw [executed_append, accepted_append, List.flatMap_append, hacc, hleft, ← h.executed,
      DiLabel.executed, DiLabel.executed, hl]
    simp
  pc := by rw [codes_append, hl, List.append_nil, hpc, h.pc]
  levels := by
    rw [codes_append, levels_append, hl, hlevels, List.append_nil, List.append_nil, h.levels]

theorem DiInv.attempt {w : Write UInt32} {full : Bool} (h : DiInv ls s)
    (hst : diSystem.step s (.attempt w full) s') : DiInv (ls ++ [.attempt w full]) s' := by
  obtain ⟨⟨hnext, -⟩, hsm⟩ := hst
  have hsmtx : ∀ tx, s'.sm.tx = tx → s'.sm = { s.sm with tx := tx } := fun tx htx => htx ▸ hsm
  rcases Writer.next_cases hnext with ⟨_, hl, -⟩ | ⟨w', rest, hl, hpending, -, hs'⟩ |
    ⟨a, hl, hs'⟩ | ⟨a, rest, hl, hpending, -, hs'⟩ | ⟨_, _, hl, -⟩
  · cases hl
  · cases hl
    obtain ⟨hfifo, hrest⟩ := Writer.mk.inj hs'
    have hpending : s.pending = w :: rest := hpending
    refine h.of_sm (wordCodes w.elem) rfl rfl ?_ ?_ ?_ ?_ ?_ fun w' hw' => ?_
    · exact h.pending w (hpending ▸ List.mem_cons_self)
    · exact List.flatMap_singleton ..
    · rw [hsmtx _ hfifo]
    · rw [hsmtx _ hfifo]
    · rw [TxPio.left, TxPio.left, wordCodes, ← List.map_append, hsmtx _ hfifo]
      exact congrArg _ (stream_write s.sm w.elem)
    · exact h.pending w' (hpending ▸ List.mem_cons_of_mem _ (hrest ▸ hw'))
  · cases hl
    obtain ⟨hfifo, hrest⟩ := Writer.mk.inj hs'
    have hsm : s'.sm = s.sm := hsmtx _ hfifo
    exact h.of_sm [] rfl rfl (fun _ h => absurd h List.not_mem_nil) rfl (by rw [hsm])
      (by rw [hsm]) (by rw [TxPio.left, TxPio.left, hsm, List.append_nil])
      fun w' hw' => h.pending w' (hrest ▸ hw')
  · cases hl
    obtain ⟨hfifo, hrest⟩ := Writer.mk.inj hs'
    have hsm : s'.sm = s.sm := hsmtx _ hfifo
    have hpending : s.pending = .once a :: rest := hpending
    exact h.of_sm [] rfl rfl (fun _ h => absurd h List.not_mem_nil) rfl (by rw [hsm])
      (by rw [hsm]) (by rw [TxPio.left, TxPio.left, hsm, List.append_nil])
      fun w' hw' => h.pending w' (hpending ▸ List.mem_cons_of_mem _ (hrest ▸ hw'))
  · cases hl

theorem DiInv.call {c : TxCall} {ws : List UInt32} (h : DiInv ls s)
    (hst : diSystem.step s (.call c ws) s') : DiInv (ls ++ [.call c ws]) s' := by
  obtain ⟨⟨hnext, hwords⟩, hsm⟩ := hst
  rcases Writer.next_cases hnext with ⟨writes, hl, -, hs'⟩ | ⟨_, _, hl, -⟩ | ⟨_, hl, -⟩ |
    ⟨_, _, hl, -⟩ | ⟨_, _, hl, -⟩
  · cases hl
    obtain ⟨-, hrest⟩ := Writer.mk.inj hs'
    refine h.of_sm [] rfl rfl (fun _ h => absurd h List.not_mem_nil) rfl (by rw [hsm])
      (by rw [hsm]) (by rw [TxPio.left, TxPio.left, hsm, List.append_nil]) fun w hw => ?_
    have hmem := List.mem_map_of_mem (f := Write.elem) (hrest ▸ hw)
    rw [c.map_elem_writes] at hmem
    exact TxCall.codes_words hwords _ hmem
  all_goals cases hl

theorem DiInv.cycle {code : Option ℕ} {word : Option UInt32} {di : Bool} (h : DiInv ls s)
    (hst : diSystem.step s (.cycle code word di) s') : DiInv (ls ++ [.cycle code word di]) s' := by
  obtain ⟨htx, hpending, hsm, hcode, -, hdi⟩ := hst
  obtain ⟨-, hside, hshift, hstall⟩ := txMachine_cycle h.pc_le
  have hlevels : DiLabel.levels (ls ++ [.cycle code word di]) =
      held 0 (codes (ls ++ [.cycle code word di])) := by
    rw [levels_append, codes_append, held_append, ← h.levels, ← h.pc, hdi, hside]
    rfl
  have hpend : ∀ w ∈ s'.pending, Codes w.elem := hpending ▸ h.pending
  rcases Nat.lt_or_ge s.sm.osrCount 32 with hlt | hge
  · obtain ⟨hcycle, hout⟩ := hshift hlt
    rw [hcycle] at hsm
    rw [hout, Option.map_some] at hcode
    have heven := h.even
    have hleft : s.left = (outValue .right 2 s.sm.osr).toNat :: s'.left := by
      rw [TxPio.left, TxPio.left, hsm, ← List.map_cons]
      exact congrArg _ (stream_shift txMachine .pc (by decide) s.sm (by omega))
    have hle := h.left_le
    rw [hleft] at hle
    have hpc : s'.sm.pc = (outValue .right 2 s.sm.osr).toNat := by
      rw [hsm]
      rfl
    have hcount := osrCount_shift txMachine .pc (n := 2) s.sm
    rw [← hsm] at hcount
    refine ⟨hpc ▸ hle _ List.mem_cons_self, by omega, by omega,
      fun c hc => hle c (List.mem_cons_of_mem _ hc), hpend, ?_, ?_, hlevels⟩
    · have hexec := h.executed
      rw [hleft] at hexec
      rw [executed_append, accepted_append, List.flatMap_append, ← hexec, hcode]
      simp [DiLabel.executed, codes, accepted]
    · rw [codes_append, lastCode_append, hpc, hcode]
      rfl
  · obtain ⟨hcycle, hout⟩ := hstall hge
    rw [hcycle] at hsm
    rw [hout, Option.map_none] at hcode
    have hleft : s'.left = s.left := by
      rw [TxPio.left, TxPio.left, hsm, stream_refill]
    have hcount := osrCount_refill s.sm
    rw [← hsm] at hcount
    have heven := h.even
    have hle := h.count_le
    refine ⟨?_, by omega, by omega, hleft ▸ h.left_le, hpend, ?_, ?_, hlevels⟩
    · rw [hsm, pc_refill]
      exact h.pc_le
    · rw [executed_append, accepted_append, List.flatMap_append, hleft, ← h.executed, hcode]
      simp [DiLabel.executed, codes, accepted]
    · rw [codes_append, lastCode_append, hsm, pc_refill, h.pc, hcode]
      rfl

theorem diInv (h : diSystem.Run ls s) : DiInv ls s := by
  refine h.induction (J := DiInv) (fun s hs => ?_) fun ls s l s' _ ih hst => ?_
  · obtain ⟨hpending, hsm⟩ := hs
    have hleft : s.left = [] := by
      rw [TxPio.left, hsm]
      rfl
    exact ⟨by simp [hsm, PioSerial.State.start], by simp [hsm, PioSerial.State.start],
      by simp [hsm, PioSerial.State.start],
      fun c hc => absurd (hleft ▸ hc) List.not_mem_nil, fun w hw => absurd (hpending ▸ hw)
      List.not_mem_nil, by simp [hleft, DiLabel.executed, codes, accepted],
      by simp [hsm, PioSerial.State.start, lastCode, codes], rfl⟩
  · cases l with
    | call c ws => exact ih.call hst
    | attempt w full => exact ih.attempt hst
    | cycle code word di => exact ih.cycle hst

/-- **Nothing is lost between the FIFO and the line**: the codes taken are those of the words
accepted, in order, up to what the state machine still holds. -/
theorem executed_append_left (h : diSystem.Run ls s) :
    executed ls ++ s.left = (accepted ls).flatMap wordCodes := (diInv h).executed

/-- **DI follows the codes**, one cycle behind, and stands still while none is taken. -/
theorem levels_eq_held (h : diSystem.Run ls s) : levels ls = held 0 (codes ls) := (diInv h).levels

/-- With a cycle behind it the register is empty only if the FIFO was. -/
theorem left_eq_nil_iff {code : Option ℕ} {word : Option UInt32} {di : Bool}
    (h : diSystem.Run (ls ++ [.cycle code word di]) s) : 32 ≤ s.sm.osrCount ↔ s.left = [] := by
  constructor
  · intro hempty
    obtain ⟨s₁, hrun, -, -, hsm, -⟩ := h.last
    have htx := tx_of_cycle txMachine false (txMachine_cycle (diInv hrun).pc_le).1 (hsm ▸ hempty)
    rw [← hsm] at htx
    rw [TxPio.left, stream, osrChunks_of_le _ hempty, htx]
    rfl
  · intro hleft
    have heven := (diInv h).even
    by_contra hlt
    rw [TxPio.left, stream, osrChunks_cons (by decide) _ (by omega)] at hleft
    simp at hleft

/-- **Underrun.**  A cycle takes no code exactly when everything accepted up to the cycle before has
gone out. -/
theorem stalls_iff {pre mid : List DiLabel} {code code' : Option ℕ} {word word' : Option UInt32}
    {di di' : Bool} (hmid : codes mid = [])
    (h : diSystem.Run (pre ++ [.cycle code word di] ++ mid ++ [.cycle code' word' di']) s) :
    code' = none ↔ executed (pre ++ [.cycle code word di]) =
      (accepted (pre ++ [.cycle code word di])).flatMap wordCodes := by
  obtain ⟨s₂, hrun₂, -, -, -, hcode, -⟩ := h.last
  obtain ⟨s₁, hrun₁, hpath⟩ := hrun₂.exists_path
  have hexec := executed_append_left hrun₁
  have hiff := left_eq_nil_iff hrun₁
  -- what is between the cycles leaves the register alone
  have hcount : s₂.sm.osrCount = s₁.sm.osrCount := by
    clear h hrun₂ hcode
    induction hpath with
    | nil => rfl
    | @snoc mid s' s'' l _ hst ih =>
      rw [codes_append, List.append_eq_nil_iff] at hmid
      rw [← ih hmid.1]
      cases l with
      | call c ws => rw [hst.2]
      | attempt w full => rw [hst.2]
      | cycle => cases hmid.2
  obtain ⟨-, -, hshift, hstall⟩ := txMachine_cycle (diInv hrun₂).pc_le
  rw [← hexec]
  rcases Nat.lt_or_ge s₂.sm.osrCount 32 with hlt | hge
  · rw [(hshift hlt).2] at hcode
    have hleft : s₁.left ≠ [] := fun heq => absurd (hiff.2 heq) (by omega)
    simp [hcode, hleft]
  · rw [(hstall hge).2] at hcode
    simp [hcode, hiff.1 (by omega)]

/-- The words accepted are those pulled and those in the FIFO. -/
theorem pulled_append_tx (h : diSystem.Run ls s) :
    TxLabel.pulled (ls.flatMap toTx) ++ s.sm.tx = accepted ls := by
  refine h.induction (J := fun ls s => TxLabel.pulled (ls.flatMap toTx) ++ s.sm.tx = accepted ls)
    (fun s hs => ?_) fun ls s l s' _ ih hst => ?_
  · rw [hs.2]
    rfl
  · rw [List.flatMap_append, List.flatMap_singleton, TxLabel.pulled, List.filterMap_append,
      accepted_append, ← ih]
    cases l with
    | call c ws =>
      rw [hst.2]
      simp [accepted, toTx, TxLabel.pulled]
    | attempt w full =>
      obtain ⟨⟨hnext, -⟩, -⟩ := hst
      rcases Writer.next_cases hnext with ⟨_, hl, -⟩ | ⟨w', rest, hl, -, -, hs'⟩ | ⟨a, hl, hs'⟩ |
        ⟨a, rest, hl, -, -, hs'⟩ | ⟨_, _, hl, -⟩
      all_goals cases hl
      all_goals
        have hfifo : s'.sm.tx = _ := (Writer.mk.inj hs').1
        rw [hfifo]
        simp [accepted, toTx, TxLabel.pulled, TxPio.line]
    | cycle code word di =>
      obtain ⟨-, -, hsm, -, hword, -⟩ := hst
      have hfifo := tx_eq_pulled txMachine false s.sm
      rw [← hword, ← hsm] at hfifo
      rw [hfifo]
      cases word <;> simp [accepted, toTx, TxLabel.pulled]

/-- **The line carries what the calls wrote.**  In every run of the CPU and the state machine: the
codes taken are those of the words accepted, in order; these are the words of the calls exactly when
no link pulse was written to a full FIFO; DI follows the codes one cycle behind; the program is not
left; and a cycle takes no code exactly when all words accepted up to the cycle before are out. -/
theorem diSystem_correct (h : diSystem.Run ls s) :
    executed ls ++ s.left = (accepted ls).flatMap wordCodes ∧
    (accepted ls ++ s.pending.map Write.elem = TxLabel.intended (ls.flatMap toTx) ↔
      .attempt (.once linkPulse) true ∉ ls) ∧
    levels ls = held 0 (codes ls) ∧ s.sm.pc ≤ 2 ∧
    ∀ pre mid post code word di code' word' di', codes mid = [] →
      ls = pre ++ [.cycle code word di] ++ mid ++ [.cycle code' word' di'] ++ post →
      (code' = none ↔ executed (pre ++ [.cycle code word di]) =
        (accepted (pre ++ [.cycle code word di])).flatMap wordCodes) := by
  refine ⟨executed_append_left h, ?_, levels_eq_held h, (diInv h).pc_le, ?_⟩
  · have hiff := pulled_eq_intended_iff (diSystem_toTx h)
    rw [List.nil_append] at hiff
    have hmem : TxLabel.attempt (.once linkPulse) true ∈ ls.flatMap toTx ↔
        DiLabel.attempt (.once linkPulse) true ∈ ls := by
      rw [List.mem_flatMap]
      constructor
      · rintro ⟨l, hl, hmem⟩
        cases l with
        | call c ws => simp [toTx] at hmem
        | attempt w full =>
          simp only [toTx, List.mem_singleton, TxLabel.attempt.injEq] at hmem
          obtain ⟨rfl, rfl⟩ := hmem
          exact hl
        | cycle code word di => simp [toTx] at hmem
      · exact fun hl => ⟨_, hl, List.mem_singleton_self _⟩
    rw [← not_congr hmem, ← hiff, ← pulled_append_tx h]
    rfl
  · rintro pre mid post code word di code' word' di' hmid rfl
    obtain ⟨s₁, hrun, -⟩ := h.exists_path
    exact stalls_iff hmid hrun

/-! ### Runs from a schedule -/

/-- Whose turn it is. -/
inductive LineTurn
  | cpu
  | sm
  deriving DecidableEq

/-- What an attempt leads to. -/
def TxPio.attempted (s : TxPio) : List DiLabel × TxPio :=
  match s.pending with
  | [] => ([], s)
  | w :: rest =>
    if s.sm.tx.length < txFifoDepth then
      ([.attempt w false],
        { s with pending := rest, sm := { s.sm with tx := s.sm.tx ++ [w.elem] } })
    else ([.attempt w true], { s with pending := (s.line.line.afterFull w rest).pending })

/-- What a cycle leads to. -/
def TxPio.cycled (s : TxPio) : List DiLabel × TxPio :=
  ([.cycle ((txMachine.shifted s.sm).map BitVec.toNat) (txMachine.pulled false s.sm)
    (txMachine.side s.sm)], { s with sm := txMachine.cycle false s.sm })

/-- The labels of a schedule, and where it leads. -/
def TxPio.turns : List LineTurn → TxPio → List DiLabel × TxPio
  | [], s => ([], s)
  | t :: ts, s =>
    let next := if t = .cpu then s.attempted else s.cycled
    let rest := TxPio.turns ts next.2
    (next.1 ++ rest.1, rest.2)

theorem path_attempted (s : TxPio) : diSystem.Path s s.attempted.1 s.attempted.2 := by
  rw [TxPio.attempted]
  cases hpending : s.pending with
  | nil => exact .nil
  | cons w rest =>
    split_ifs with hroom
    · refine .one ⟨⟨?_, rfl⟩, rfl⟩
      simp [TxPio.line, TxLabel.toWriter, Writer.next, hpending, hroom]
    · have hfull : txFifoDepth ≤ s.sm.tx.length := Nat.le_of_not_lt hroom
      refine .one ⟨⟨?_, rfl⟩, rfl⟩
      cases w <;>
        simp [TxPio.line, TxLabel.toWriter, Writer.next, hpending, hfull, Writer.afterFull]

theorem path_cycled (s : TxPio) : diSystem.Path s s.cycled.1 s.cycled.2 :=
  .one ⟨rfl, rfl, rfl, rfl, rfl, rfl⟩

theorem path_turns (ts : List LineTurn) (s : TxPio) :
    diSystem.Path s (s.turns ts).1 (s.turns ts).2 := by
  induction ts generalizing s with
  | nil => exact .nil
  | cons t ts ih =>
    refine System.Path.append ?_ (ih _)
    split_ifs
    · exact path_attempted s
    · exact path_cycled s

theorem turns_append (ts ts' : List LineTurn) (s : TxPio) :
    s.turns (ts ++ ts') = ((s.turns ts).1 ++ ((s.turns ts).2.turns ts').1,
      ((s.turns ts).2.turns ts').2) := by
  induction ts generalizing s with
  | nil => rfl
  | cons t ts ih => simp [TxPio.turns, ih]

/-- The state machine holds the rest of a word, and the next one if there is `next`. -/
structure Loaded (n : ℕ) (cs : List ℕ) (next : Option UInt32) (s : TxPio) : Prop where
  pc_le : s.sm.pc ≤ 2
  count : s.sm.osrCount + 2 * n = 32
  codes : (osrChunks .right 2 s.sm.osr s.sm.osrCount).map BitVec.toNat = cs
  tx : s.sm.tx = next.toList

/-- While it holds the rest of a word, every cycle takes a code. -/
theorem Loaded.cycled {n : ℕ} {c : ℕ} {cs : List ℕ} {next : Option UInt32} {s : TxPio}
    (h : Loaded (n + 1) (c :: cs) next s) (hc : c ≤ 2) :
    DiLabel.codes s.cycled.1 = [some c] ∧ s.cycled.2.pending = s.pending ∧
      if n = 0 then Loaded (if next.isSome then 16 else 0)
        (next.toList.flatMap wordCodes) none s.cycled.2
      else Loaded n cs next s.cycled.2 := by
  have hcount := h.count
  have hchunks := h.codes
  obtain ⟨-, -, hshift, -⟩ := txMachine_cycle h.pc_le
  obtain ⟨hcycle, hout⟩ := hshift (by omega)
  rw [osrChunks_cons (by decide) _ (by omega), List.map_cons] at hchunks
  obtain ⟨hhead, htail⟩ := List.cons.inj hchunks
  have hrefill : s.cycled.2.sm = { (PioSerial.State.refill { s.sm with
      osr := outRest .right 2 s.sm.osr, osrCount := s.sm.osrCount + 2 }) with pc := c } := by
    rw [TxPio.cycled, hcycle, Machine.shift, Nat.min_eq_right (by omega), ← hhead]
    rfl
  refine ⟨?_, rfl, ?_⟩
  · rw [TxPio.cycled, hout, Option.map_some]
    exact congrArg (fun c => [some c]) hhead
  · by_cases hn : n = 0
    · -- the last code of the word
      subst hn
      rw [if_pos rfl]
      cases next with
      | none =>
        have hsm : s.cycled.2.sm = { s.sm with
            osr := outRest .right 2 s.sm.osr, osrCount := s.sm.osrCount + 2, pc := c } := by
          rw [hrefill, PioSerial.State.refill, h.tx]
          split_ifs <;> rfl
        rw [if_neg (by simp)]
        refine ⟨by rw [hsm]; exact hc, by rw [hsm]; simp; omega, ?_, by rw [hsm]; exact h.tx⟩
        rw [hsm, osrChunks_of_le _ (by simp; omega)]
        rfl
      | some w =>
        have hsm : s.cycled.2.sm = { s.sm with
            osr := w.toBitVec, osrCount := 0, tx := [], pc := c } := by
          rw [hrefill, PioSerial.State.refill, h.tx, if_pos (by simp; omega)]
          rfl
        rw [if_pos (by simp)]
        exact ⟨by rw [hsm]; exact hc, by rw [hsm], by rw [hsm]; simp [wordCodes, wordChunks],
          by rw [hsm]; rfl⟩
    · have hsm : s.cycled.2.sm = { s.sm with
          osr := outRest .right 2 s.sm.osr, osrCount := s.sm.osrCount + 2, pc := c } := by
        rw [hrefill, PioSerial.State.refill, if_neg (by simp; omega)]
      rw [if_neg hn]
      exact ⟨by rw [hsm]; exact hc, by rw [hsm]; simp; omega, by rw [hsm]; exact htail,
        by rw [hsm]; exact h.tx⟩

/-- As many cycles as there are codes take all of them. -/
theorem Loaded.turns {n : ℕ} {cs : List ℕ} {next : Option UInt32} {s : TxPio}
    (h : Loaded (n + 1) cs next s) (hlen : cs.length = n + 1) (hcs : ∀ c ∈ cs, c ≤ 2) :
    DiLabel.codes (s.turns (List.replicate (n + 1) .sm)).1 = cs.map some ∧
      (s.turns (List.replicate (n + 1) .sm)).2.pending = s.pending ∧
      Loaded (if next.isSome then 16 else 0) (next.toList.flatMap wordCodes) none
        (s.turns (List.replicate (n + 1) .sm)).2 := by
  induction n generalizing s cs with
  | zero =>
    obtain ⟨c, rfl⟩ := List.length_eq_one_iff.1 hlen
    obtain ⟨hcodes, hpending, hloaded⟩ := h.cycled (hcs c List.mem_cons_self)
    simp only [if_true] at hloaded
    exact ⟨by simpa [TxPio.turns] using hcodes, hpending, hloaded⟩
  | succ n ih =>
    obtain ⟨c, cs, rfl⟩ := List.exists_cons_of_length_eq_add_one hlen
    obtain ⟨hcodes, hpending, hloaded⟩ := h.cycled (hcs c List.mem_cons_self)
    rw [if_neg (by omega)] at hloaded
    obtain ⟨hcodes', hpending', hloaded'⟩ := ih hloaded (by simpa using hlen)
      fun c hc => hcs c (List.mem_cons_of_mem _ hc)
    rw [List.replicate_succ]
    refine ⟨?_, hpending'.trans hpending, hloaded'⟩
    rw [TxPio.turns, codes_append]
    exact congrArg₂ (· ++ ·) hcodes hcodes'

theorem Loaded.attempted {cs : List ℕ} {w : UInt32} {rest : List (Write UInt32)} {n : ℕ}
    {s : TxPio} (h : Loaded n cs none s) (hpending : s.pending = .retry w :: rest) :
    DiLabel.codes s.attempted.1 = [] ∧ s.attempted.2.pending = rest ∧
      Loaded n cs (some w) s.attempted.2 := by
  have hroom : s.sm.tx.length < txFifoDepth := by
    rw [h.tx]
    decide
  have heq : s.attempted = ([.attempt (.retry w) false],
      { s with pending := rest, sm := { s.sm with tx := s.sm.tx ++ [w] } }) := by
    rw [TxPio.attempted, hpending]
    exact if_pos hroom
  rw [heq]
  exact ⟨rfl, rfl, h.pc_le, h.count, h.codes, by rw [h.tx]; rfl⟩

/-- With nothing left a cycle takes no code. -/
theorem Loaded.idle {s : TxPio} (h : Loaded 0 [] none s) (n : ℕ) :
    DiLabel.codes (s.turns (List.replicate n .sm)).1 = List.replicate n none := by
  induction n generalizing s with
  | zero => rfl
  | succ n ih =>
    have hcount := h.count
    obtain ⟨-, -, -, hstall⟩ := txMachine_cycle h.pc_le
    obtain ⟨hcycle, hout⟩ := hstall (by omega)
    have hrefill : s.sm.refill = s.sm := by
      rw [PioSerial.State.refill, h.tx]
      split_ifs <;> rfl
    have hnext : Loaded 0 [] none s.cycled.2 := by
      rw [TxPio.cycled, hcycle, hrefill]
      exact h
    have hcode : DiLabel.codes s.cycled.1 = [none] := by
      rw [TxPio.cycled, hout]
      rfl
    rw [List.replicate_succ, List.replicate_succ, TxPio.turns, codes_append]
    exact congrArg₂ (· ++ ·) hcode (ih hnext)

/-- A write every 16 cycles, for `n` words. -/
def wordPerCode : ℕ → List LineTurn
  | 0 => []
  | n + 1 => .cpu :: List.replicate 16 .sm ++ wordPerCode n

/-- **A word in time.**  A word written every 16 cycles is enough: all codes are taken, one a
cycle. -/
theorem Loaded.wordPerCode {w : UInt32} {ws : List UInt32} {s : TxPio}
    (h : Loaded 16 (wordCodes w) none s) (hpending : s.pending = ws.map .retry)
    (hcodes : ∀ w' ∈ w :: ws, Codes w') (n : ℕ) :
    DiLabel.codes
        (s.turns (wordPerCode ws.length ++ (List.replicate 16 .sm ++ List.replicate n .sm))).1 =
      ((w :: ws).flatMap wordCodes).map some ++ List.replicate n none := by
  induction ws generalizing w s with
  | nil =>
    obtain ⟨htaken, -, hloaded⟩ := h.turns (length_wordCodes w) (hcodes w List.mem_cons_self)
    rw [if_neg (by simp)] at hloaded
    have hidle := hloaded.idle n
    rw [List.length_nil, Pico10BaseT.wordPerCode, List.nil_append, turns_append, codes_append,
      htaken, hidle, List.flatMap_singleton]
  | cons w' ws ih =>
    obtain ⟨hnone, hrest, hfed⟩ := h.attempted hpending
    obtain ⟨htaken, hpending', hloaded⟩ := hfed.turns (length_wordCodes w)
      (hcodes w List.mem_cons_self)
    rw [if_pos (by simp), Option.toList_some, List.flatMap_singleton] at hloaded
    have hih := ih hloaded (hpending'.trans hrest) fun v hv => hcodes v (List.mem_cons_of_mem _ hv)
    rw [List.length_cons, Pico10BaseT.wordPerCode, List.cons_append, List.cons_append,
      List.append_assoc, TxPio.turns, codes_append, turns_append, codes_append]
    simp only [if_true]
    rw [hnone, htaken, hih, List.nil_append, ← List.append_assoc, ← List.map_append]
    rfl

/-- The state after a first call. -/
def TxPio.called (tx : EthTx) (c : TxCall) (ws : List UInt32) : TxPio :=
  ⟨tx, c.writes ws, .start false true⟩

theorem run_called {tx : EthTx} {c : TxCall} {ws : List UInt32} (h : c.words tx = .ok (ws, tx)) :
    diSystem.Run [.call c ws] (.called tx c ws) := by
  have hinit : diSystem.Run [] ⟨tx, [], .start false true⟩ := .init ⟨rfl, rfl⟩
  refine hinit.snoc ⟨⟨?_, h⟩, rfl⟩
  simp [TxPio.line, TxLabel.toWriter, Writer.next, TxPio.called]

/-- The first write, then one every 16 cycles for `m` words in all, and `n` cycles more. -/
def steadyTurns (m n : ℕ) : List LineTurn :=
  [.cpu, .sm] ++ (wordPerCode (m - 1) ++ (List.replicate 16 .sm ++ List.replicate n .sm))

/-- From the first call on: one cycle to fill the register, then a code in every cycle. -/
theorem codes_called {tx : EthTx} {body : List UInt8} {ws : List UInt32}
    (h : (TxCall.sendRawFrame body).words tx = .ok (ws, tx)) (n : ℕ) :
    DiLabel.codes ((TxPio.called tx (.sendRawFrame body) ws).turns (steadyTurns ws.length n)).1 =
      List.replicate 1 none ++ ((ws.flatMap wordCodes).map some ++ List.replicate n none) := by
  have hcodes := TxCall.codes_words h
  cases ws with
  | nil =>
    have hne : sendRawFrame body = [] := congrArg Prod.fst (Except.ok.inj h)
    simp [sendRawFrame] at hne
  | cons w ws =>
    obtain ⟨s, hs⟩ : ∃ s, s = ((TxPio.called tx (.sendRawFrame body) (w :: ws)).turns
      [.cpu, .sm]).2 := ⟨_, rfl⟩
    have hloaded : Loaded 16 (wordCodes w) none s := by
      rw [hs]
      exact ⟨Nat.zero_le _, rfl, rfl, rfl⟩
    have hpending : s.pending = ws.map .retry := by
      rw [hs]
      rfl
    rw [steadyTurns, turns_append, codes_append, ← hs, List.length_cons, Nat.add_sub_cancel,
      hloaded.wordPerCode hpending hcodes]
    rfl

/-- A link pulse, its first word written and four cycles gone: DI is high in the last two. -/
theorem diSystem_correct_nlp : ∃ ls s, diSystem.Run ls s ∧
    executed ls ++ s.left = (accepted ls).flatMap wordCodes ∧ executed ls = [2, 2, 0] ∧
      levels ls = [false, false, true, true] := by
  have hcall : diSystem.Run _ _ :=
    run_called (show TxCall.sendNlp.words ⟨0, Bytes.zero maxTxFrame⟩ = .ok (_, _) from rfl)
  have hrun := hcall.append (path_turns [.cpu, .sm, .sm, .sm, .sm] _)
  exact ⟨_, _, hrun, (diSystem_correct hrun).1, by decide +kernel, by decide +kernel⟩

end Pico10BaseT
