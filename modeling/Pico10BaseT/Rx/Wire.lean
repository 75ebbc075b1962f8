import Pico10BaseT.Rx.RoundTrip
import Pico10BaseT.Tx.Line

/-!
# Over the wire

The sampler shifts in the level of RO in every cycle and pushes 32 samples at a time, which DMA
writes to memory.  RO is the inverse of DI and three cycles of the sampler are one of the
transmitter.

* `sampler_correct` : memory holds the samples taken, in order, and a sample is lost exactly when
  DMA is eight words behind at the end of a ninth.
* `sent_over_wire` : a frame that goes out without an underrun and is sampled without a loss is
  received, wherever in the idle line before it the capture begins.
-/

namespace Pico10BaseT

open PioSerial

/-! ### The sampler -/

/-- `in pins, 1`, for ever. -/
def samplerMachine : Machine where
  outDir := .right
  inDir := .right
  txDepth := 0
  rxDepth := 8
  code := [⟨.inPin, false⟩]

inductive SamplerLabel
  /-- A cycle with RO at a level, and whether the sample was taken. -/
  | cycle (level : Bool) (taken : Bool)
  /-- DMA takes a word. -/
  | dma (w : UInt32)
  deriving DecidableEq

namespace SamplerLabel

/-- The samples taken. -/
def samples (ls : List SamplerLabel) : List Bool :=
  ls.filterMap fun
    | cycle level true => some level
    | _ => none

/-- The words in memory. -/
def words (ls : List SamplerLabel) : List UInt32 :=
  ls.filterMap fun
    | dma w => some w
    | _ => none

/-- Memory, byte by byte. -/
def memory (ls : List SamplerLabel) : List UInt8 := (words ls).flatMap toLeBytes

variable (ls ls' : List SamplerLabel)

theorem samples_append : samples (ls ++ ls') = samples ls ++ samples ls' := List.filterMap_append

theorem words_append : words (ls ++ ls') = words ls ++ words ls' := List.filterMap_append

end SamplerLabel

open SamplerLabel

/-- The state machine and DMA, in any order. -/
def samplerSystem : System PioSerial.State SamplerLabel where
  init s := s = .start false false
  step s l s' :=
    match l with
    | .cycle level taken =>
      s' = samplerMachine.cycle level s ∧
        taken = decide (s.isrCount + 1 < 32 ∨ s.rx.length < samplerMachine.rxDepth)
    | .dma w => s.read = some (w, s')

/-- The bits of a word, in the order they were sampled. -/
def wordBits (w : UInt32) : List Bool := (List.range 32).map w.toBitVec.getLsbD

/-- The last `k` bits shifted in. -/
def isrBits (isr : BitVec 32) (k : ℕ) : List Bool :=
  (List.range k).map fun j => isr.getLsbD (32 - k + j)

theorem bitsOf_toLeBytes (w : UInt32) : bitsOf (toLeBytes w) = wordBits w := by
  have hbit : ∀ n < 256 * 256 * 256 * 256, ∀ k j, j < 8 →
      (n / 2 ^ (8 * k) % 256).testBit j = n.testBit (8 * k + j) := by
    intro n _ k j hj
    rw [show 256 = 2 ^ 8 by rfl, Nat.testBit_mod_two_pow, decide_eq_true hj, Bool.true_and,
      Nat.testBit_div_two_pow, Nat.add_comm]
  have hbyte : ∀ k < 4, (toLeBytes w)[k]?.map UInt8.toNat = some (w.toNat / 2 ^ (8 * k) % 256) := by
    intro k hk
    have h₁ := toNat_toUInt8_shift w (k := 8) (by omega)
    have h₂ := toNat_toUInt8_shift w (k := 16) (by omega)
    have h₃ := toNat_toUInt8_shift w (k := 24) (by omega)
    match k with
    | 0 => simp [toLeBytes]
    | 1 => exact congrArg some h₁
    | 2 => exact congrArg some h₂
    | 3 => exact congrArg some h₃
  refine List.ext_getElem? fun i => ?_
  rw [getElem?_bitsOf]
  rcases Nat.lt_or_ge i 32 with hi | hi
  · have h := congrArg (Option.map (Nat.testBit · (i % 8))) (hbyte (i / 8) (by omega))
    rw [Option.map_map, Option.map_some, hbit _ w.toNat_lt _ _ (by omega),
      show 8 * (i / 8) + i % 8 = i by omega] at h
    rw [wordBits, List.getElem?_map, List.getElem?_range hi]
    exact h
  · rw [List.getElem?_eq_none (by simp [toLeBytes]; omega),
      List.getElem?_eq_none (by simp [wordBits]; omega)]
    rfl

theorem isrBits_inBit (isr : BitVec 32) {k : ℕ} (hk : k < 32) (b : Bool) :
    isrBits (inBit .right isr b) (k + 1) = isrBits isr k ++ [b] := by
  have hbit : ∀ i < 32, (inBit .right isr b).getLsbD i =
      if i < 31 then isr.getLsbD (i + 1) else b := by
    intro i hi
    have hlast : ((BitVec.ofBool b).setWidth 32 <<< 31).getLsbD i = (decide (i = 31) && b) := by
      rw [BitVec.getLsbD_shiftLeft, BitVec.getLsbD_setWidth, BitVec.getLsbD_ofBool]
      rcases Nat.lt_or_ge i 31 with h | h
      · simp [h, Nat.ne_of_lt h]
      · obtain rfl : i = 31 := by omega
        simp
    rw [inBit, BitVec.getLsbD_or, BitVec.getLsbD_ushiftRight, hlast, Nat.add_comm]
    split_ifs with h
    · simp [Nat.ne_of_lt h]
    · obtain rfl : i = 31 := by omega
      simp
  rw [isrBits, List.range_succ, List.map_append, List.map_singleton, isrBits]
  congr 1
  · refine List.map_congr_left fun j hj => ?_
    have hj := List.mem_range.1 hj
    rw [hbit _ (by omega), if_pos (by omega), show 32 - (k + 1) + j + 1 = 32 - k + j by omega]
  · rw [hbit _ (by omega), if_neg (by omega)]

/-- The invariant of the sampler. -/
structure SamplerInv (ls : List SamplerLabel) (s : PioSerial.State) : Prop where
  pc : s.pc = 0
  count_lt : s.isrCount < 32
  rx_le : s.rx.length ≤ 8
  taken : samples ls = (words ls ++ s.rx).flatMap wordBits ++ isrBits s.isr s.isrCount

variable {ls : List SamplerLabel} {s s' : PioSerial.State}

theorem SamplerInv.cycle {level taken : Bool} (h : SamplerInv ls s)
    (hst : samplerSystem.step s (.cycle level taken) s') :
    SamplerInv (ls ++ [.cycle level taken]) s' := by
  obtain ⟨hs', htaken⟩ := hst
  have hpc := h.pc
  have hcount := h.count_lt
  have hrx := h.rx_le
  have hcode : samplerMachine.code[s.pc]? = some ⟨.inPin, false⟩ := hpc ▸ rfl
  have hwrap : samplerMachine.wrap s.pc = 0 := by
    rw [hpc]
    rfl
  have hdepth : samplerMachine.rxDepth = 8 := rfl
  have hdir : samplerMachine.inDir = .right := rfl
  have hbits := isrBits_inBit s.isr hcount level
  have hwords : words (ls ++ [.cycle level taken]) = words ls := by simp [words]
  simp only [Machine.cycle, hcode, Machine.sample, hwrap, hdepth, hdir] at hs' htaken
  rcases Nat.lt_or_ge (s.isrCount + 1) 32 with hlt | hge
  · rw [if_pos hlt] at hs'
    obtain rfl : taken = true := by simp [htaken, hlt]
    rw [hs']
    refine ⟨rfl, hlt, by simpa using hrx, ?_⟩
    rw [samples_append, h.taken, hwords, hbits]
    simp [samples]
  · rw [if_neg (by omega)] at hs'
    rcases Nat.lt_or_ge s.rx.length 8 with hroom | hfull
    · rw [if_pos hroom] at hs'
      obtain rfl : taken = true := by simp [htaken, hroom]
      have hword : wordBits (UInt32.ofBitVec (inBit .right s.isr level)) =
          isrBits (inBit .right s.isr level) 32 := by simp [wordBits, isrBits]
      rw [show s.isrCount + 1 = 32 by omega, ← hword] at hbits
      rw [hs']
      refine ⟨rfl, by simp, by simp; omega, ?_⟩
      rw [samples_append, h.taken, hwords, List.append_assoc, ← List.append_assoc,
        List.flatMap_append, List.flatMap_append, List.flatMap_append, List.flatMap_singleton,
        hbits]
      simp [samples, isrBits]
    · rw [if_neg (by omega)] at hs'
      obtain rfl : taken = false := by simp [htaken]; omega
      rw [hs']
      refine ⟨by simpa using hpc, by simpa using hcount, by simpa using hrx, ?_⟩
      rw [samples_append, h.taken, hwords]
      simp [samples]

theorem samplerInv (h : samplerSystem.Run ls s) : SamplerInv ls s := by
  refine h.induction (J := SamplerInv) (fun s hs => ?_) fun ls s l s' _ ih hst => ?_
  · rw [show s = .start false false from hs]
    exact ⟨rfl, by decide, by decide, rfl⟩
  · cases l with
    | cycle level taken => exact ih.cycle hst
    | dma w =>
      have hread : s.read = some (w, s') := hst
      have hsamples := ih.taken
      rw [PioSerial.State.read] at hread
      cases hrx : s.rx with
      | nil => simp [hrx] at hread
      | cons w' rx =>
        simp only [hrx, Option.some.injEq, Prod.mk.injEq] at hread
        obtain ⟨rfl, rfl⟩ := hread
        have hle := ih.rx_le
        rw [hrx] at hsamples hle
        refine ⟨ih.pc, ih.count_lt, Nat.le_of_succ_le hle, ?_⟩
        rw [samples_append, hsamples, words_append]
        simp [samples, words]

/-- **Memory holds the samples taken**, in order, up to those that the state machine still has; and
a sample is lost exactly when it would end a ninth word before DMA took the first. -/
theorem sampler_correct (h : samplerSystem.Run ls s) :
    memory ls = packBytes ((samples ls).take (32 * (words ls).length)) ∧
    (samples ls).length = 32 * ((words ls).length + s.rx.length) + s.isrCount ∧
    s.rx.length ≤ 8 ∧ s.isrCount < 32 ∧
    ∀ pre post level taken, ls = pre ++ [.cycle level taken] ++ post →
      (taken = false ↔ (samples pre).length = 32 * (words pre).length + 287) := by
  have hlen : ∀ ws : List UInt32, (ws.flatMap wordBits).length = 32 * ws.length := by
    intro ws
    induction ws with
    | nil => rfl
    | cons w ws ih =>
      rw [List.flatMap_cons, List.length_append, ih, List.length_cons]
      simp [wordBits]
      omega
  have hcount : ∀ {ls s}, samplerSystem.Run ls s →
      (samples ls).length = 32 * ((words ls).length + s.rx.length) + s.isrCount := by
    intro ls s h
    rw [(samplerInv h).taken, List.length_append, hlen, List.length_append]
    simp [isrBits]
  have hinv := samplerInv h
  refine ⟨?_, hcount h, hinv.rx_le, hinv.count_lt, ?_⟩
  · have hbits : bitsOf (memory ls) = (words ls).flatMap wordBits := by
      rw [memory, bitsOf, List.flatMap_assoc]
      exact List.flatMap_congr fun w _ => bitsOf_toLeBytes w
    rw [hinv.taken, List.flatMap_append, List.append_assoc, ← hlen, List.take_left, ← hbits,
      packBytes_bitsOf]
  · rintro pre post level taken rfl
    obtain ⟨s₁, hrun, -⟩ := h.exists_path
    obtain ⟨s₀, hpre, -, htaken⟩ := hrun.last
    have hlen₀ := hcount hpre
    have hrx := (samplerInv hpre).rx_le
    have hisr := (samplerInv hpre).count_lt
    rw [htaken, decide_eq_false_iff_not, hlen₀]
    change ¬(s₀.isrCount + 1 < 32 ∨ s₀.rx.length < 8) ↔ _
    omega

/-- Sampling may go without a loss: DMA takes each word at once. -/
theorem exists_run_samples (levels : List Bool) :
    ∃ ls s, samplerSystem.Run ls s ∧ samples ls = levels ∧ s.rx = [] := by
  induction levels using List.reverseRecOn with
  | nil => exact ⟨[], _, .init rfl, rfl, rfl⟩
  | append_singleton levels level ih =>
    obtain ⟨ls, s, hrun, hsamples, hrx⟩ := ih
    have htaken : samplerSystem.step s (.cycle level true) (samplerMachine.cycle level s) := by
      refine ⟨rfl, ?_⟩
      rw [hrx]
      simp [samplerMachine]
    have hnext := hrun.snoc htaken
    have hlevels : samples (ls ++ [.cycle level true]) = levels ++ [level] := by
      rw [samples_append, hsamples]
      rfl
    cases hword : (samplerMachine.cycle level s).rx with
    | nil => exact ⟨_, _, hnext, hlevels, hword⟩
    | cons w rx =>
      have hdma : samplerSystem.step (samplerMachine.cycle level s) (.dma w)
          { samplerMachine.cycle level s with rx } := by
        change PioSerial.State.read _ = _
        rw [PioSerial.State.read, hword]
      have hlen := (sampler_correct hnext).2.1
      have hlen₀ := (sampler_correct hrun).2.1
      have hlt := (samplerInv hnext).count_lt
      refine ⟨_, _, hnext.snoc hdma, ?_, ?_⟩
      · rw [samples_append, hlevels]
        simp [samples]
      · rw [hlevels, List.length_append, ← hsamples, hlen₀, hword, hrx, words_append] at hlen
        simp [words] at hlen
        have hzero : rx.length = 0 := by
          have := (samplerInv hrun).count_lt
          omega
        exact List.length_eq_zero_iff.1 hzero

/-- 40 samples, of which 32 are in memory. -/
theorem sampler_correct_40 : ∃ ls s, samplerSystem.Run ls s ∧
    memory ls = packBytes (List.replicate 32 true) := by
  obtain ⟨ls, s, hrun, hsamples, hrx⟩ := exists_run_samples (List.replicate 40 true)
  obtain ⟨hmemory, hlen, -, hlt, -⟩ := sampler_correct hrun
  rw [hsamples, hrx, List.length_replicate, List.length_nil] at hlen
  have hwords : (words ls).length = 1 := by omega
  rw [hsamples, hwords] at hmemory
  exact ⟨ls, s, hrun, hmemory⟩

/-! ### The frame on the wire -/

/-- RO is the inverse of DI, sampled three times a cycle of the transmitter. -/
def roSamples (levels : List Bool) : List Bool := levels.flatMap fun di => [!di, !di, !di]

theorem roSamples_append (a b : List Bool) : roSamples (a ++ b) = roSamples a ++ roSamples b :=
  List.flatMap_append

theorem roSamples_replicate (n : ℕ) (di : Bool) :
    roSamples (List.replicate n di) = List.replicate (3 * n) (!di) := by
  induction n with
  | zero => rfl
  | succ n ih =>
    rw [List.replicate_succ, roSamples, List.flatMap_cons, ← roSamples, ih, Nat.mul_succ,
      Nat.add_comm, List.replicate_add]
    rfl

@[simp] theorem length_roSamples (levels : List Bool) :
    (roSamples levels).length = 3 * levels.length := by
  induction levels with
  | nil => rfl
  | cons di levels ih =>
    rw [roSamples, List.flatMap_cons, ← roSamples, List.length_append, ih]
    simp
    omega

/-- The codes of the words drive the line that is sampled. -/
theorem roSamples_wordCodes (ws : List UInt32) :
    roSamples ((ws.flatMap wordCodes).map fun c => decide (c = 2)) = lineSamples ws := by
  rw [roSamples, List.map_flatMap, List.flatMap_assoc, lineSamples]
  refine List.flatMap_congr fun w _ => ?_
  rw [wordSamples, wordCodes_eq, List.map_map, List.flatMap_map, List.flatMap_map]
  refine List.flatMap_congr fun i hi => ?_
  rw [halfLevel_eq w (List.mem_range.1 hi)]
  simp

theorem held_replicate_none (c n : ℕ) (cs : List (Option ℕ)) :
    held c (List.replicate n none ++ cs) = List.replicate n (decide (c = 2)) ++ held c cs := by
  induction n with
  | zero => rfl
  | succ n ih => exact congrArg (decide (c = 2) :: ·) ih

/-- While no cycle is lost, DI shows the codes, one cycle behind. -/
theorem held_map_some (c : ℕ) (es : List ℕ) (o : Option ℕ) (cs : List (Option ℕ)) :
    ∃ more, held c (es.map some ++ o :: cs) =
      decide (c = 2) :: (es.map fun e => decide (e = 2)) ++ more := by
  induction es generalizing c with
  | nil => exact ⟨_, rfl⟩
  | cons e es ih =>
    obtain ⟨more, hmore⟩ := ih e
    exact ⟨more, congrArg (decide (c = 2) :: ·) hmore⟩

/-- A call is written out before any other: what is accepted behind it begins with its words, or is
the beginning of them. -/
theorem accepted_of_retry {s s' : TxPio} {mid : List DiLabel} {ws : List UInt32}
    (hpending : s.pending = ws.map .retry) (h : diSystem.Path s mid s') :
    (∃ rest, DiLabel.accepted mid ++ rest = ws ∧ s'.pending = rest.map .retry) ∨
      ws <+: DiLabel.accepted mid := by
  induction h with
  | nil => exact .inl ⟨ws, rfl, hpending⟩
  | @snoc mid s₁ s₂ l _ hst ih =>
    rw [DiLabel.accepted_append]
    rcases ih with ⟨rest, hws, hrest⟩ | hall
    · cases l with
      | call c ws' =>
        obtain ⟨⟨hnext, -⟩, -⟩ := hst
        rcases Writer.next_cases hnext with ⟨_, -, hnone, -⟩ | ⟨_, _, hl, -⟩ | ⟨_, hl, -⟩ |
          ⟨_, _, hl, -⟩ | ⟨_, _, hl, -⟩
        · have hnone : s₁.pending = [] := hnone
          obtain rfl : rest = [] := by simpa [hrest] using hnone
          exact .inr ⟨_, by rw [← hws]; simp [DiLabel.accepted]; rfl⟩
        all_goals cases hl
      | attempt w full =>
        obtain ⟨⟨hnext, -⟩, -⟩ := hst
        rcases Writer.next_cases hnext with ⟨_, hl, -⟩ | ⟨w', rest', hl, hhead, -, hs'⟩ |
          ⟨a, hl, hs'⟩ | ⟨a, rest', hl, hhead, -, hs'⟩ | ⟨_, _, hl, -⟩
        all_goals cases hl
        · have hhead : s₁.pending = w :: rest' := hhead
          have hs₂ : s₂.pending = rest' := (Writer.mk.inj hs').2
          rw [hrest] at hhead
          cases rest with
          | nil => cases hhead
          | cons r rest =>
            obtain ⟨rfl, rfl⟩ := List.cons.inj hhead
            exact .inl ⟨rest, by rw [← hws]; simp [DiLabel.accepted, Write.elem], hs₂⟩
        · have hs₂ : s₂.pending = s₁.pending := (Writer.mk.inj hs').2
          exact .inl ⟨rest, by rw [← hws]; simp [DiLabel.accepted], hs₂.trans hrest⟩
        · have hhead : s₁.pending = .once a :: rest' := hhead
          rw [hrest] at hhead
          cases rest <;> simp at hhead
      | cycle code word di =>
        exact .inl ⟨rest, by rw [← hws]; simp [DiLabel.accepted], hst.2.1.trans hrest⟩
    · exact .inr (hall.trans (List.prefix_append _ _))

/-- What a cycle takes after a call on an idle line, and what DI shows of it. -/
theorem exists_levels_of_gapless {pre mid : List DiLabel} {body : List UInt8} {ws : List UInt32}
    {s : TxPio} (h : diSystem.Run (pre ++ [.call (.sendRawFrame body) ws] ++ mid) s)
    (hidle : DiLabel.executed pre = (DiLabel.accepted pre).flatMap wordCodes) {i : ℕ}
    {es : List ℕ} {o : Option ℕ} {cs : List (Option ℕ)}
    (hcodes : DiLabel.codes mid = List.replicate i none ++ (es.map some ++ o :: cs))
    (hes : es.length = 16 * ws.length) :
    ws = sendRawFrame body ∧ ∃ idle more, roSamples (DiLabel.levels mid) =
      List.replicate (3 * (i + 1)) idle ++ lineSamples ws ++ more := by
  obtain ⟨s₁, hcall, hpath⟩ := h.exists_path
  obtain ⟨s₀, hpre, ⟨hnext, hwords⟩, -⟩ := hcall.last
  have hwords : TxCall.words s₀.tx (.sendRawFrame body) = .ok (ws, s₁.tx) := hwords
  have hws : ws = sendRawFrame body := (congrArg Prod.fst (Except.ok.inj hwords)).symm
  have hpending : s₁.pending = ws.map .retry := by
    rcases Writer.next_cases hnext with ⟨_, hl, -, hs'⟩ | ⟨_, _, hl, -⟩ | ⟨_, hl, -⟩ |
      ⟨_, _, hl, -⟩ | ⟨_, _, hl, -⟩
    all_goals cases hl
    exact (Writer.mk.inj hs').2
  -- what is taken behind the call is of its words
  have hbehind : DiLabel.executed mid ++ s.left = (DiLabel.accepted mid).flatMap wordCodes := by
    have hall := executed_append_left h
    rw [DiLabel.executed_append, DiLabel.executed_append, DiLabel.accepted_append,
      DiLabel.accepted_append, List.flatMap_append, List.flatMap_append, hidle, List.append_assoc,
      List.append_assoc, List.append_assoc] at hall
    exact List.append_cancel_left (List.append_cancel_left hall)
  obtain ⟨tail, htail⟩ : ∃ tail, DiLabel.executed mid = es ++ tail := by
    refine ⟨(o :: cs).filterMap id, ?_⟩
    rw [DiLabel.executed, hcodes, List.filterMap_append, List.filterMap_append]
    simp
  have hall : ws <+: DiLabel.accepted mid := by
    rcases accepted_of_retry hpending hpath with ⟨rest, hrest, -⟩ | hall
    · have hlong := congrArg List.length hbehind
      rw [htail, length_flatMap_wordCodes, List.length_append, List.length_append, hes, ← hrest,
        List.length_append] at hlong
      obtain rfl : rest = [] := List.length_eq_zero_iff.1 (by omega)
      rw [← hrest, List.append_nil]
    · exact hall
  obtain ⟨later, hlater⟩ := hall
  have hexec : es = ws.flatMap wordCodes := by
    rw [htail, ← hlater, List.flatMap_append, List.append_assoc] at hbehind
    exact (List.append_inj hbehind (by rw [hes, length_flatMap_wordCodes])).1
  -- and DI shows it
  have hlevels :
      DiLabel.levels mid = held (lastCode 0 (DiLabel.codes pre)) (DiLabel.codes mid) := by
    have hall := levels_eq_held h
    rw [DiLabel.levels_append, DiLabel.levels_append, DiLabel.codes_append, DiLabel.codes_append,
      levels_eq_held hpre, List.append_assoc, List.append_assoc, held_append] at hall
    exact List.append_cancel_left hall
  obtain ⟨more, hmore⟩ := held_map_some (lastCode 0 (DiLabel.codes pre)) es o cs
  refine ⟨hws, !decide (lastCode 0 (DiLabel.codes pre) = 2), roSamples more, ?_⟩
  have hfirst : ∀ b bs, List.replicate i b ++ (b :: bs ++ more) =
      List.replicate (i + 1) b ++ bs ++ more := by
    intro b bs
    rw [List.replicate_succ']
    simp
  rw [hlevels, hcodes, held_replicate_none, hmore, hfirst, roSamples_append, roSamples_append,
    roSamples_replicate, hexec, roSamples_wordCodes]

/-- **Sent over the wire.**  Let a frame be sent on an idle line, the state machine taking a code in
every cycle from the first of the frame to the last, and let RO be sampled without a loss from
somewhere in the idle line on.  What DMA has brought to memory, as soon as it holds the frame, is an
image in which the frame is found and decoded as it was sent. -/
theorem sent_over_wire {pre mid : List DiLabel} {body : List UInt8} {ws : List UInt32}
    {s : TxPio} (h : diSystem.Run (pre ++ [.call (.sendRawFrame body) ws] ++ mid) s)
    (hidle : DiLabel.executed pre = (DiLabel.accepted pre).flatMap wordCodes) {i : ℕ}
    {es : List ℕ} {o : Option ℕ} {cs : List (Option ℕ)}
    (hcodes : DiLabel.codes mid = List.replicate i none ++ (es.map some ++ o :: cs))
    (hes : es.length = 16 * ws.length) {m : PioSerial.State}
    (hsampled : samplerSystem.Run ls m) {k : ℕ} (hk : k ≤ 3 * (i + 1))
    (hro : samples ls = (roSamples (DiLabel.levels mid)).drop k)
    (hmem : 3 * (i + 1) - k + 48 * ws.length ≤ 32 * (words ls).length)
    (hmax : max body.length 60 + 4 ≤ 1600) (hheader : HeaderAgrees body) :
    ∃ off len run, FrameReceived (memory ls) (3 * (i + 1) - k) body off len run := by
  obtain ⟨hws, idle, more, hlevels⟩ := exists_levels_of_gapless h hidle hcodes hes
  have hfront : (List.replicate (3 * (i + 1) - k) idle ++ lineSamples ws).length ≤
      32 * (words ls).length := by
    rw [List.length_append, List.length_replicate, ← roSamples_wordCodes, length_roSamples,
      List.length_map, length_flatMap_wordCodes]
    omega
  obtain ⟨rest, hrest⟩ : ∃ rest, (samples ls).take (32 * (words ls).length) =
      List.replicate (3 * (i + 1) - k) idle ++ lineSamples ws ++ rest := by
    rw [hro, hlevels, List.append_assoc, List.drop_append_of_le_length (by simpa using hk),
      List.drop_replicate, ← List.append_assoc, List.take_append, List.take_of_length_le hfront]
    exact ⟨_, rfl⟩
  rw [(sampler_correct hsampled).1, hrest, hws]
  exact (frame_roundTrip _ idle body rest hmax hheader).1

/-- The ARP packet, its words written one every 16 cycles and DMA taking each word at once. -/
theorem sent_over_wire_arp : ∃ ls m off len run,
    samplerSystem.Run ls m ∧ FrameReceived (memory ls) 6 arpBody off len run := by
  obtain ⟨tx, htx⟩ : ∃ tx : EthTx, tx = ⟨0, Bytes.zero maxTxFrame⟩ := ⟨_, rfl⟩
  have hwords : (TxCall.sendRawFrame arpBody).words tx = .ok (sendRawFrame arpBody, tx) := rfl
  have hcall : diSystem.Run ([] ++ [_]) _ := run_called hwords
  have hcodes := codes_called hwords 17
  have hrun := hcall.append (path_turns (steadyTurns (sendRawFrame arpBody).length 17) _)
  obtain ⟨mid, hmid⟩ : ∃ mid, mid = ((TxPio.called tx (.sendRawFrame arpBody)
    (sendRawFrame arpBody)).turns (steadyTurns (sendRawFrame arpBody).length 17)).1 := ⟨_, rfl⟩
  rw [← hmid] at hrun hcodes
  obtain ⟨ls, m, hsampled, hro, hrx⟩ := exists_run_samples ((roSamples (DiLabel.levels mid)).drop 0)
  have h85 : (sendRawFrame arpBody).length = 85 := by decide +kernel
  have hlt := (samplerInv hsampled).count_lt
  have hlen := (sampler_correct hsampled).2.1
  rw [hro, hrx, List.drop_zero, length_roSamples, DiLabel.length_levels, hcodes] at hlen
  simp [h85] at hlen
  obtain ⟨off, len, run, hreceived⟩ := sent_over_wire hrun rfl hcodes
    (length_flatMap_wordCodes _) hsampled (Nat.zero_le _) hro (by omega) (by decide)
    (by unfold HeaderAgrees; decide +kernel)
  exact ⟨ls, m, off, len, run, hsampled, hreceived⟩

end Pico10BaseT
