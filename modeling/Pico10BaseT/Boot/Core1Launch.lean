import Mathlib.Data.List.Count
import Pico10BaseT.LTS.Driven

/-!
# The launch of core 1

Core 0 sends the six words of `cmdSeq` to core 1 over the SIO FIFOs and waits for the echo of each
before it sends the next; a wrong echo, or none in time, starts the sequence again, at most
`maxFails` times.  Core 1 does as it likes: it pops words or not, and sends any words back.

## Main results

* `launch_returns_iff` : the handshake returns, after at most six words a try and `Ok` exactly for a
  full echo, exactly when core 1 pops a word whenever core 0 waits to write one.
* `launch_hangs` : with a dead core 1 it does not return.

The reads are bounded, so only `write_blocking` can hold the handshake up.
-/

namespace Pico10BaseT

/-- Entries of an SIO FIFO. -/
def sioDepth : ℕ := 4

/-- One direction of the SIO FIFOs, oldest word first. -/
structure SioFifo where
  words : List UInt32
  length_le : words.length ≤ sioDepth

namespace SioFifo

def empty : SioFifo := ⟨[], Nat.zero_le _⟩

def full (f : SioFifo) : Prop := f.words.length = sioDepth

instance (f : SioFifo) : Decidable f.full := inferInstanceAs (Decidable (_ = _))

/-- A word that finds the FIFO full is lost. -/
def push (f : SioFifo) (w : UInt32) : SioFifo :=
  if h : f.full then f
  else
    { words := f.words ++ [w]
      length_le := by
        rw [List.length_append, List.length_singleton]
        exact lt_of_le_of_ne f.length_le h }

def drop (f : SioFifo) : SioFifo where
  words := f.words.tail
  length_le := by
    rw [List.length_tail]
    exact (Nat.sub_le _ _).trans f.length_le

theorem not_full_drop (f : SioFifo) : ¬ f.drop.full := by
  intro h
  have hlen := f.length_le
  rw [full, drop, List.length_tail, sioDepth] at h
  rw [sioDepth] at hlen
  omega

end SioFifo

/-- The addresses core 1 starts with. -/
structure Core1Image where
  mtvec : UInt32
  sp : UInt32
  core1Trampoline : UInt32

/-- The words of the handshake. -/
def Core1Image.cmdSeq (img : Core1Image) : List UInt32 :=
  [0, 0, 1, img.mtvec, img.sp, img.core1Trampoline]

/-- Polls of one read. -/
def readSpins : ℕ := 2000000

def maxFails : ℕ := 16

inductive LaunchError
  | unresponsive
  deriving DecidableEq, Repr

/-- Where core 0 is in the loop. -/
inductive LaunchPhase
  /-- At the head of the loop. -/
  | top
  /-- In `write_blocking`. -/
  | write
  /-- In `read_with_timeout`, with so many polls left. -/
  | read (spins : ℕ)
  | done (result : Except LaunchError Unit)

/-- What core 0 did. -/
inductive LaunchEvent
  | sent (cmd : UInt32)
  /-- The end of a read: the word that came, if one did, for the word sent. -/
  | response (cmd : UInt32) (resp : Option UInt32)
  deriving DecidableEq

/-- Core 0 in the handshake, the FIFOs, and the events so far. -/
structure Launch where
  phase : LaunchPhase
  seq : Fin 6
  fails : ℕ
  fails_le : fails ≤ maxFails
  toCore1 : SioFifo
  fromCore1 : SioFifo
  log : List LaunchEvent

inductive Core1Action
  | pop
  | send (w : UInt32)
  deriving DecidableEq

namespace Launch

variable (img : Core1Image)

/-- The loop is entered with what the FIFOs then hold. -/
def start (toCore1 fromCore1 : SioFifo) : Launch :=
  { phase := .top, seq := 0, fails := 0, fails_le := Nat.zero_le _, toCore1, fromCore1, log := [] }

def cmd (s : Launch) : UInt32 := img.cmdSeq[s.seq]

/-- The arms of `match read_with_timeout(..)`. -/
def respond (s : Launch) (resp : Option UInt32) : Launch :=
  let log := s.log ++ [LaunchEvent.response (s.cmd img) resp]
  if resp = some (s.cmd img) then
    if h : s.seq.val + 1 < 6 then { s with phase := .top, seq := ⟨s.seq + 1, h⟩, log }
    else { s with phase := .done (.ok ()), log }
  else
    if h : s.fails + 1 > maxFails then { s with phase := .done (.error .unresponsive), log }
    else
      { s with
        phase := .top, seq := 0, fails := s.fails + 1, fails_le := Nat.le_of_not_lt h, log }

/-- One step of core 0: at the head of the loop, one poll of the outgoing FIFO, or one of the
incoming FIFO. -/
def step (s : Launch) : Launch :=
  match s.phase with
  | .top =>
    let s := { s with phase := .write }
    if s.cmd img = 0 then { s with fromCore1 := .empty } else s
  | .write =>
    if s.toCore1.full then s
    else
      { s with
        phase := .read readSpins, toCore1 := s.toCore1.push (s.cmd img)
        log := s.log ++ [.sent (s.cmd img)] }
  | .read 0 => s.respond img none
  | .read (spins + 1) =>
    match s.fromCore1.words with
    | [] => { s with phase := .read spins }
    | w :: _ => { s with fromCore1 := s.fromCore1.drop }.respond img (some w)
  | .done _ => s

def act (s : Launch) : Core1Action → Launch
  | .pop => { s with toCore1 := s.toCore1.drop }
  | .send w => { s with fromCore1 := s.fromCore1.push w }

/-- The handshake. -/
def machine : Driven Launch Core1Action where
  step := step img
  act := act

/-- The loop was left. -/
def Done (s : Launch) : Prop := ∃ r, s.phase = .done r

/-- Core 0 waits for room in the outgoing FIFO. -/
def Blocked (s : Launch) : Prop := s.phase = .write ∧ s.toCore1.full

/-- The words sent. -/
def sentWords (s : Launch) : List UInt32 :=
  s.log.filterMap fun
    | .sent cmd => some cmd
    | .response _ _ => none

/-- The words of the reads, each with the word that came for it. -/
def responses (s : Launch) : List (UInt32 × Option UInt32) :=
  s.log.filterMap fun
    | .sent _ => none
    | .response cmd resp => some (cmd, resp)

/-- The reads of a full echo. -/
def echoes : List (UInt32 × Option UInt32) := img.cmdSeq.map fun w => (w, some w)

/-- The last words were those of `cmdSeq`, and all were echoed. -/
def Echoed (s : Launch) : Prop := echoes img <:+ s.responses

variable {img}

/-- What the end of a read does. -/
theorem respond_cases (s : Launch) (resp : Option UInt32) :
    ∃ log, log = s.log ++ [LaunchEvent.response (s.cmd img) resp] ∧
    ((resp = some (s.cmd img) ∧ ∃ h : s.seq.val + 1 < 6,
        s.respond img resp = { s with phase := .top, seq := ⟨s.seq + 1, h⟩, log }) ∨
      (resp = some (s.cmd img) ∧ s.seq.val = 5 ∧
        s.respond img resp = { s with phase := .done (.ok ()), log }) ∨
      (resp ≠ some (s.cmd img) ∧ ∃ h : s.fails + 1 ≤ maxFails,
        s.respond img resp = { s with
          phase := .top, seq := 0, fails := s.fails + 1, fails_le := h, log }) ∨
      (resp ≠ some (s.cmd img) ∧
        s.respond img resp = { s with phase := .done (.error .unresponsive), log })) := by
  refine ⟨_, rfl, ?_⟩
  by_cases hresp : resp = some (s.cmd img)
  · by_cases hseq : s.seq.val + 1 < 6
    · exact .inl ⟨hresp, hseq, by simp [respond, hresp, hseq]⟩
    · exact .inr (.inl ⟨hresp, by omega, by simp [respond, hresp, hseq]⟩)
  · by_cases hfails : s.fails + 1 > maxFails
    · exact .inr (.inr (.inr ⟨hresp, by simp [respond, hresp, hfails]⟩))
    · refine .inr (.inr (.inl ⟨hresp, Nat.le_of_not_lt hfails, ?_⟩))
      simp [respond, hresp, hfails]

/-- What a step does. -/
theorem step_cases (s : Launch) :
    (s.Done ∧ s.step img = s) ∨ (s.Blocked ∧ s.step img = s) ∨
    (s.phase = .top ∧ ∃ f, s.step img = { s with phase := .write, fromCore1 := f }) ∨
    (s.phase = .write ∧ ¬ s.toCore1.full ∧ s.step img = { s with
      phase := .read readSpins, toCore1 := s.toCore1.push (s.cmd img)
      log := s.log ++ [.sent (s.cmd img)] }) ∨
    (∃ spins, s.phase = .read (spins + 1) ∧ s.step img = { s with phase := .read spins }) ∨
    (∃ spins f resp, s.phase = .read spins ∧
      s.step img = { s with fromCore1 := f }.respond img resp) := by
  obtain ⟨phase, seq, fails, fails_le, toCore1, fromCore1, log⟩ := s
  cases phase with
  | top =>
    refine .inr (.inr (.inl ⟨rfl, ?_⟩))
    simp only [step]
    split
    · exact ⟨_, rfl⟩
    · exact ⟨_, rfl⟩
  | write =>
    by_cases hfull : toCore1.full
    · exact .inr (.inl ⟨⟨rfl, hfull⟩, if_pos hfull⟩)
    · exact .inr (.inr (.inr (.inl ⟨rfl, hfull, if_neg hfull⟩)))
  | read spins =>
    cases spins with
    | zero => exact .inr (.inr (.inr (.inr (.inr ⟨0, fromCore1, none, rfl, rfl⟩))))
    | succ spins =>
      cases hwords : fromCore1.words with
      | nil =>
        refine .inr (.inr (.inr (.inr (.inl ⟨spins, rfl, ?_⟩))))
        simp [step, hwords]
      | cons w ws =>
        refine .inr (.inr (.inr (.inr (.inr ⟨_, fromCore1.drop, some w, rfl, ?_⟩))))
        simp [step, hwords]
  | done r => exact .inl ⟨⟨r, rfl⟩, rfl⟩

/-! ### Core 1 -/

section

variable (s : Launch) (a : Core1Action)

@[simp] theorem phase_act : (s.act a).phase = s.phase := by cases a <;> rfl

@[simp] theorem seq_act : (s.act a).seq = s.seq := by cases a <;> rfl

@[simp] theorem fails_act : (s.act a).fails = s.fails := by cases a <;> rfl

@[simp] theorem log_act : (s.act a).log = s.log := by cases a <;> rfl

end

/-! ### Progress -/

/-- The words that can still be sent. -/
def wordsLeft (s : Launch) : ℕ := 6 * (maxFails + 1 - s.fails) - s.seq

/-- The steps that can still be taken, waits apart. -/
def stepsLeft (s : Launch) : ℕ :=
  match s.phase with
  | .top => s.wordsLeft * (readSpins + 4) + (readSpins + 3)
  | .write => s.wordsLeft * (readSpins + 4) + (readSpins + 2)
  | .read spins => s.wordsLeft * (readSpins + 4) + (spins + 1)
  | .done _ => 0

theorem stepsLeft_act (s : Launch) (a : Core1Action) : (s.act a).stepsLeft = s.stepsLeft := by
  simp [stepsLeft, wordsLeft]

theorem stepsLeft_respond_lt {s : Launch} {spins : ℕ} (resp : Option UInt32)
    (h : s.phase = .read spins) : (s.respond img resp).stepsLeft < s.stepsLeft := by
  -- a word less can be sent, whether the sequence goes on or starts again
  have hlt : ∀ s' : Launch, s'.phase = .top → s'.wordsLeft < s.wordsLeft →
      s'.stepsLeft < s.stepsLeft := by
    intro s' htop hlt
    have hmul := Nat.mul_le_mul_right (readSpins + 4) (Nat.succ_le_of_lt hlt)
    rw [Nat.succ_mul] at hmul
    simp only [stepsLeft, htop, h]
    omega
  have hseq := s.seq.isLt
  have hfails := s.fails_le
  obtain ⟨log, -, ⟨-, hnext, heq⟩ | ⟨-, -, heq⟩ | ⟨-, hnext, heq⟩ | ⟨-, heq⟩⟩ :=
    @respond_cases img s resp
  · refine heq ▸ hlt _ rfl ?_
    simp only [wordsLeft]
    omega
  · rw [heq]
    simp [stepsLeft, h]
  · refine heq ▸ hlt _ rfl ?_
    simp only [wordsLeft, Fin.val_zero]
    omega
  · rw [heq]
    simp [stepsLeft, h]

theorem stepsLeft_step_lt {s : Launch} (hdone : ¬ s.Done) (hblocked : ¬ s.Blocked) :
    (s.step img).stepsLeft < s.stepsLeft := by
  rcases @step_cases img s with ⟨h, -⟩ | ⟨h, -⟩ | ⟨h, f, heq⟩ | ⟨h, -, heq⟩ |
    ⟨spins, h, heq⟩ | ⟨spins, f, resp, h, heq⟩
  · exact absurd h hdone
  · exact absurd h hblocked
  · rw [heq]
    simp [stepsLeft, wordsLeft, h]
  · rw [heq]
    simp [stepsLeft, wordsLeft, h]
  · rw [heq]
    simp [stepsLeft, wordsLeft, h]
  · rw [heq]
    exact stepsLeft_respond_lt (s := { s with fromCore1 := f }) resp h

/-- Only a full outgoing FIFO holds the handshake up. -/
theorem waits (img : Core1Image) : (machine img).Waits Done Blocked (· = .pop) stepsLeft where
  done_step {s} h := by
    obtain ⟨r, hr⟩ := h
    have hstep : s.step img = s := by simp [step, hr]
    exact ⟨r, (congrArg phase hstep).trans hr⟩
  done_act {s a} := by simp [Done, machine]
  not_blocked_of_done := by
    rintro s ⟨r, hr⟩ ⟨hwrite, -⟩
    cases hr.symm.trans hwrite
  step_of_blocked {s} h := by simp [machine, step, h.1, h.2]
  measure_step hdone hblocked := stepsLeft_step_lt hdone hblocked
  measure_act {s a} := s.stepsLeft_act a
  blocked_of_act {s a} h := by
    obtain ⟨hphase, hfull⟩ := h
    cases a with
    | pop => exact absurd hfull s.toCore1.not_full_drop
    | send w => exact ⟨⟨hphase, hfull⟩, Core1Action.noConfusion⟩
  blocked_act {s a} h hpop := by
    cases a with
    | pop => exact absurd rfl hpop
    | send w => exact h

/-! ### What was sent and what came back -/

/-- How many words were sent at most. -/
def sentBound (s : Launch) : ℕ :=
  match s.phase with
  | .top | .write => s.fails * 6 + s.seq
  | .read _ => s.fails * 6 + s.seq + 1
  | .done _ => (maxFails + 1) * 6

/-- The words before `seq` were echoed in order, and the result is that of the last reads. -/
def Answered (img : Core1Image) (s : Launch) : Prop :=
  match s.phase with
  | .done (.ok ()) => s.Echoed img
  | .done (.error _) => ∃ cmd resp, resp ≠ some cmd ∧ [(cmd, resp)] <:+ s.responses
  | _ => (echoes img).take s.seq <:+ s.responses

/-- The log agrees with the state. -/
structure Consistent (img : Core1Image) (s : Launch) : Prop where
  sent_le : s.sentWords.length ≤ s.sentBound
  answered : s.Answered img

variable {s : Launch}

/-- One more echo. -/
theorem take_echoes_succ (hs : (echoes img).take s.seq <:+ s.responses) :
    (echoes img).take (s.seq + 1) <:+ s.responses ++ [(s.cmd img, some (s.cmd img))] := by
  have hlt : s.seq < (echoes img).length := s.seq.isLt
  obtain ⟨pre, hpre⟩ := hs
  refine ⟨pre, ?_⟩
  rw [List.take_succ_eq_append_getElem hlt, ← List.append_assoc, hpre]
  simp [echoes, cmd]

theorem Consistent.respond {spins : ℕ} (h : s.Consistent img) (hread : s.phase = .read spins)
    (resp : Option UInt32) : (s.respond img resp).Consistent img := by
  obtain ⟨hsent, hans⟩ := h
  have hseq := s.seq.isLt
  have hfails := s.fails_le
  simp only [sentBound, hread] at hsent
  simp only [Answered, hread] at hans
  obtain ⟨log, rfl, ⟨rfl, hnext, heq⟩ | ⟨rfl, hlast, heq⟩ | ⟨hne, hnext, heq⟩ | ⟨hne, heq⟩⟩ :=
    @respond_cases img s resp
  · rw [heq]
    refine ⟨?_, ?_⟩
    · have hle : s.sentWords.length ≤ s.fails * 6 + (s.seq + 1) := hsent
      simpa [sentBound, sentWords] using hle
    · simpa [Answered, responses] using take_echoes_succ hans
  · rw [heq]
    refine ⟨?_, ?_⟩
    · have hle : s.sentWords.length ≤ (maxFails + 1) * 6 := by omega
      simpa [sentBound, sentWords] using hle
    · have htake := take_echoes_succ hans
      rw [List.take_of_length_le (by rw [hlast]; exact le_rfl)] at htake
      simpa [Answered, Echoed, responses] using htake
  · rw [heq]
    refine ⟨?_, ?_⟩
    · have hle : s.sentWords.length ≤ (s.fails + 1) * 6 := by omega
      simpa [sentBound, sentWords] using hle
    · simp [Answered]
  · rw [heq]
    refine ⟨?_, ?_⟩
    · have hle : s.sentWords.length ≤ (maxFails + 1) * 6 := by omega
      simpa [sentBound, sentWords] using hle
    · exact ⟨s.cmd img, resp, hne, by simp [responses]⟩

theorem Consistent.step (h : s.Consistent img) : (s.step img).Consistent img := by
  obtain ⟨hsent, hans⟩ := h
  rcases @step_cases img s with ⟨-, heq⟩ | ⟨-, heq⟩ | ⟨htop, f, heq⟩ | ⟨hwrite, -, heq⟩ |
    ⟨spins, hread, heq⟩ | ⟨spins, f, resp, hread, heq⟩
  · rw [heq]
    exact ⟨hsent, hans⟩
  · rw [heq]
    exact ⟨hsent, hans⟩
  · simp only [sentBound, Answered, htop] at hsent hans
    exact heq ▸ ⟨hsent, hans⟩
  · simp only [sentBound, Answered, hwrite] at hsent hans
    rw [heq]
    refine ⟨?_, ?_⟩
    · simpa [sentBound, sentWords] using hsent
    · simpa [Answered, responses] using hans
  · simp only [sentBound, Answered, hread] at hsent hans
    exact heq ▸ ⟨hsent, hans⟩
  · rw [heq]
    exact Consistent.respond (s := { s with fromCore1 := f }) ⟨hsent, hans⟩ hread resp

theorem Consistent.act (h : s.Consistent img) (a : Core1Action) : (s.act a).Consistent img := by
  cases a <;> exact ⟨h.sent_le, h.answered⟩

/-- The result is `Ok` for a full echo, and for nothing else. -/
theorem Consistent.ok_iff {r : Except LaunchError Unit} (h : s.Consistent img)
    (hr : s.phase = .done r) : r = .ok () ↔ s.Echoed img := by
  have hans := h.answered
  simp only [Answered, hr] at hans
  cases r with
  | ok u => exact ⟨fun _ => hans, fun _ => rfl⟩
  | error e =>
    obtain ⟨cmd, resp, hne, pre, hpre⟩ := hans
    refine ⟨fun herr => absurd herr (by simp), fun hecho => ?_⟩
    -- the last read is an echo, and it is not
    obtain ⟨pre', hpre'⟩ := hecho
    have hlast := congrArg List.getLast? (hpre.trans hpre'.symm)
    simp only [echoes, Core1Image.cmdSeq, List.map_cons, List.map_nil, List.getLast?_append,
      List.getLast?_cons_cons, List.getLast?_singleton, Option.some_or, Option.some.injEq,
      Prod.mk.injEq] at hlast
    exact absurd (hlast.1 ▸ hlast.2) hne

variable (img) (env : ℕ → List Core1Action) (toCore1 fromCore1 : SioFifo)

/-- The handshake after `n` steps of core 0, before the actions `env n` of core 1. -/
def run (n : ℕ) : Launch := (machine img).state env (start toCore1 fromCore1) n

/-- The handshake when core 0 takes step `n`. -/
def polled (n : ℕ) : Launch := (machine img).polled env (start toCore1 fromCore1) n

/-- The log agrees with the state in every run. -/
theorem consistent_run (n : ℕ) : (run img env toCore1 fromCore1 n).Consistent img := by
  refine Driven.invariant ⟨Nat.zero_le _, ?_⟩ (fun _ h => h.step) (fun _ a h => h.act a) n
  exact List.nil_suffix

/-- **The handshake returns**, after at most six words a try and `Ok` exactly for a full echo,
exactly when core 1 pops a word whenever core 0 waits for room. -/
theorem launch_returns_iff :
    (∃ n r, (run img env toCore1 fromCore1 n).phase = .done r ∧
      (run img env toCore1 fromCore1 n).sentWords.length ≤ (maxFails + 1) * 6 ∧
      (r = .ok () ↔ (run img env toCore1 fromCore1 n).Echoed img)) ↔
    ∀ n, (polled img env toCore1 fromCore1 n).Blocked → ∃ m > n, .pop ∈ env m := by
  have hiff : (∃ n, (run img env toCore1 fromCore1 n).Done) ↔
      ∀ n, (polled img env toCore1 fromCore1 n).Blocked → ∃ m > n, ∃ a ∈ env m, a = .pop :=
    (waits img).eventually_done_iff
  simp only [exists_eq_right] at hiff
  rw [← hiff]
  constructor
  · rintro ⟨n, r, hr, -⟩
    exact ⟨n, r, hr⟩
  · rintro ⟨n, r, hr⟩
    have hcons := consistent_run img env toCore1 fromCore1 n
    have hsent := hcons.sent_le
    rw [sentBound, hr] at hsent
    exact ⟨n, r, hr, hsent, hcons.ok_iff hr⟩

/-! ### A dead core 1 -/

/-- The handshake with a core 1 that does nothing: every word sent stays in the FIFO. -/
def Stuck (s : Launch) : Prop :=
  s.seq = 0 ∧ s.fromCore1.words = [] ∧
    match s.phase with
    | .top | .write => s.toCore1.words.length = s.fails
    | .read _ => s.toCore1.words.length = s.fails + 1
    | .done _ => False

variable {img}

theorem Stuck.step (h : s.Stuck) : (s.step img).Stuck := by
  obtain ⟨phase, seq, fails, fails_le, toCore1, fromCore1, log⟩ := s
  obtain ⟨rfl, hfrom, hphase⟩ := h
  cases phase with
  | top => exact ⟨rfl, rfl, hphase⟩
  | write =>
    by_cases hfull : toCore1.full
    · simp only [Launch.step, if_pos hfull]
      exact ⟨rfl, hfrom, hphase⟩
    · simp only [Launch.step, if_neg hfull]
      refine ⟨rfl, hfrom, ?_⟩
      have hlen : toCore1.words.length = fails := hphase
      simp [SioFifo.push, hfull, hlen]
  | read spins =>
    have hlen : toCore1.words.length = fails + 1 := hphase
    cases spins with
    | zero =>
      -- the retries are not used up, since each has left its word in the FIFO
      have hfails : ¬ fails + 1 > maxFails := by
        have hle := toCore1.length_le
        rw [hlen, sioDepth] at hle
        rw [maxFails]
        omega
      simp only [Launch.step, respond, reduceCtorEq, if_false, dif_neg hfails]
      exact ⟨rfl, hfrom, hlen⟩
    | succ spins =>
      have hfrom' : fromCore1.words = [] := hfrom
      simp only [Launch.step, hfrom']
      exact ⟨rfl, hfrom, hlen⟩
  | done r => exact absurd hphase not_false

/-- With a dead core 1 the loop is not left, whatever the image. -/
theorem not_done_of_dead (n : ℕ) : ¬ (run img (fun _ => []) .empty .empty n).Done := by
  have hstuck : (run img (fun _ => []) .empty .empty n).Stuck := by
    induction n with
    | zero => exact ⟨rfl, rfl, rfl⟩
    | succ n ih => exact ih.step
  rintro ⟨r, hr⟩
  have hphase := hstuck.2.2
  rw [hr] at hphase
  exact hphase

/-- **A dead core 1 hangs core 0**: it waits to write the fifth word. -/
theorem launch_hangs :
    ¬ ∃ n r, (run ⟨0x20000001, 0x20081FF0, 0x10000100⟩ (fun _ => []) .empty .empty n).phase =
      .done r := by
  rintro ⟨n, hdone⟩
  exact not_done_of_dead n hdone

end Launch

end Pico10BaseT
