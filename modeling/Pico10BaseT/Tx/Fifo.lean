import Pico10BaseT.Queue.Writer
import Pico10BaseT.Tx.UdpFrame

/-!
# The transmit FIFO

The CPU writes the words of a call into the FIFO of the transmitting state machine, which pulls them
at its own pace.  All writes are repeated until there is room, but for the first of `send_nlp`.

* `pulled_eq_intended_iff` : the words pulled are those of the calls, in order, exactly when no link
  pulse is written to a full FIFO.
* `linkPulse_lost` : two link pulses close together lose the second.
-/

namespace Pico10BaseT

/-- The TX FIFO is 8 words deep. -/
def txFifoDepth : ℕ := 8

/-- A Normal Link Pulse, 100 ns high. -/
def linkPulse : UInt32 := 0x0000000A

/-- What the device transmits. -/
inductive TxCall
  | sendNlp
  | sendRawFrame (body : List UInt8)
  | sendUdpBroadcast (ep : UdpEndpoint) (payload : List UInt8)
  deriving DecidableEq

namespace TxCall

/-- The words of a call. -/
def words (tx : EthTx) : TxCall → Exec (List UInt32 × EthTx)
  | sendNlp => .ok (linkPulse :: List.replicate 12 0, tx)
  | sendRawFrame body => .ok (Pico10BaseT.sendRawFrame body, tx)
  | sendUdpBroadcast ep payload => Pico10BaseT.sendUdpBroadcast tx ep payload

/-- How they are written: `while !self.tx.write(w) {}`, and once `let _ = self.tx.write(w)`. -/
def writes : TxCall → List UInt32 → List (Write UInt32)
  | sendNlp, w :: ws => .once w :: ws.map .retry
  | _, ws => ws.map .retry

theorem map_elem_writes (c : TxCall) (ws : List UInt32) : (c.writes ws).map Write.elem = ws := by
  have hretry : ∀ ws : List UInt32, (ws.map Write.retry).map Write.elem = ws := by
    intro ws
    rw [List.map_map]
    exact List.map_id ws
  cases c with
  | sendNlp =>
    cases ws with
    | nil => rfl
    | cons w ws => exact congrArg (w :: ·) (hretry ws)
  | sendRawFrame body => exact hretry ws
  | sendUdpBroadcast ep payload => exact hretry ws

/-- The one word that is not repeated is a link pulse. -/
theorem eq_linkPulse_of_once {c : TxCall} {tx tx' : EthTx} {ws : List UInt32} {a : UInt32}
    (h : c.words tx = .ok (ws, tx')) (ha : Write.once a ∈ c.writes ws) : a = linkPulse := by
  have hretry : ∀ ws : List UInt32, Write.once a ∉ ws.map Write.retry := by simp
  cases c with
  | sendNlp =>
    cases h
    rcases List.mem_cons.1 ha with heq | hmem
    · exact Write.once.inj heq
    · exact absurd hmem (hretry _)
  | sendRawFrame body => exact absurd ha (hretry ws)
  | sendUdpBroadcast ep payload => exact absurd ha (hretry ws)

end TxCall

/-- The transmitter and its FIFO. -/
structure TxLine where
  tx : EthTx
  line : Writer UInt32

inductive TxLabel
  /-- A call, and its words. -/
  | call (c : TxCall) (ws : List UInt32)
  /-- `Tx::write`, and whether the FIFO was full. -/
  | attempt (w : Write UInt32) (full : Bool)
  /-- The state machine pulls a word. -/
  | pull (a : UInt32)
  deriving DecidableEq

namespace TxLabel

def toWriter : TxLabel → WriterLabel UInt32
  | call c ws => .start (c.writes ws)
  | attempt w full => .attempt w full
  | pull a => .pull a

/-- The words the state machine pulls. -/
def pulled (ls : List TxLabel) : List UInt32 :=
  ls.filterMap fun
    | pull a => some a
    | _ => none

/-- The words of the calls, in call order. -/
def intended (ls : List TxLabel) : List UInt32 :=
  ls.flatMap fun
    | call _ ws => ws
    | _ => []

theorem pulled_toWriter (ls : List TxLabel) : Writer.pulled (ls.map toWriter) = pulled ls := by
  rw [Writer.pulled, pulled, List.filterMap_map]
  refine List.filterMap_congr fun l _ => ?_
  cases l <;> rfl

theorem intended_toWriter (ls : List TxLabel) :
    Writer.intended (ls.map toWriter) = intended ls := by
  rw [Writer.intended, intended, List.flatMap_map]
  refine List.flatMap_congr fun l _ => ?_
  cases l with
  | call c ws => exact c.map_elem_writes ws
  | attempt w full => rfl
  | pull a => rfl

theorem lost_toWriter {ls : List TxLabel}
    (h : ∀ a, attempt (.once a) true ∈ ls → a = linkPulse) :
    Writer.lost (ls.map toWriter) = [] ↔ attempt (.once linkPulse) true ∉ ls := by
  rw [Writer.lost, List.filterMap_eq_nil_iff]
  constructor
  · intro hnone hmem
    exact Option.some_ne_none _ (hnone _ (List.mem_map_of_mem hmem))
  · intro hnot l hl
    obtain ⟨l', hl', rfl⟩ := List.mem_map.1 hl
    cases l' with
    | call => rfl
    | pull => rfl
    | attempt w full =>
      cases w with
      | retry => rfl
      | once a =>
        cases full with
        | false => rfl
        | true => exact absurd (h a hl' ▸ hl') hnot

end TxLabel

open TxLabel

/-- The transmitter, with words in the FIFO that an earlier call left there. -/
def txSystem (fifo₀ : List UInt32) : System TxLine TxLabel where
  init s := s.line = ⟨fifo₀, []⟩
  step s l s' := s.line.next txFifoDepth l.toWriter = some s'.line ∧
    match l with
    | .call c ws => c.words s.tx = .ok (ws, s'.tx)
    | _ => s'.tx = s.tx

variable {fifo₀ : List UInt32} {ls : List TxLabel} {s : TxLine}

/-- The transmitter is a writer. -/
theorem txSystem_toWriter (h : (txSystem fifo₀).Run ls s) :
    (Writer.system txFifoDepth fifo₀).Run (ls.map toWriter) s.line := by
  induction h with
  | init h => exact .init h
  | snoc _ hst ih =>
    rw [List.map_append]
    exact ih.snoc hst.1

/-- Only link pulses are not repeated. -/
theorem eq_linkPulse_of_attempt {a : UInt32} {full : Bool} (h : (txSystem fifo₀).Run ls s)
    (ha : attempt (.once a) full ∈ ls) : a = linkPulse := by
  suffices hinv : (∀ a, Write.once a ∈ s.line.pending → a = linkPulse) ∧
      ∀ a full, attempt (.once a) full ∈ ls → a = linkPulse from hinv.2 a full ha
  refine h.induction (J := fun ls s => (∀ a, Write.once a ∈ s.line.pending → a = linkPulse) ∧
    ∀ a full, attempt (.once a) full ∈ ls → a = linkPulse) (fun s hs => ?_)
    fun ls s l s' _ ih hst => ?_
  · have hline : s.line = ⟨fifo₀, []⟩ := hs
    rw [hline]
    exact ⟨fun a ha => absurd ha List.not_mem_nil, fun a full ha => absurd ha List.not_mem_nil⟩
  · obtain ⟨hnext, htx⟩ := hst
    constructor
    · intro a ha
      rcases Writer.next_cases hnext with ⟨_, hl, -, hs'⟩ | ⟨w, rest, -, hpending, -, hs'⟩ |
        ⟨_, -, hs'⟩ | ⟨_, rest, -, hpending, -, hs'⟩ | ⟨_, _, -, -, hs'⟩
      · cases l with
        | call c ws =>
          obtain rfl := WriterLabel.start.inj hl
          rw [hs'] at ha
          exact TxCall.eq_linkPulse_of_once htx ha
        | attempt w full => cases hl
        | pull a => cases hl
      · rw [hs'] at ha
        exact ih.1 a (hpending ▸ List.mem_cons_of_mem _ ha)
      · rw [hs'] at ha
        exact ih.1 a ha
      · rw [hs'] at ha
        exact ih.1 a (hpending ▸ List.mem_cons_of_mem _ ha)
      · rw [hs'] at ha
        exact ih.1 a ha
    · intro a full ha
      rcases List.mem_append.1 ha with hmem | hmem
      · exact ih.2 a full hmem
      · obtain rfl := List.mem_singleton.1 hmem
        rcases Writer.next_cases hnext with ⟨_, hl, -, -⟩ | ⟨w, rest, hl, hpending, -, -⟩ |
          ⟨_, hl, -⟩ | ⟨_, rest, hl, hpending, -, -⟩ | ⟨_, _, hl, -, -⟩
        · cases hl
        · cases hl
          exact ih.1 a (hpending ▸ List.mem_cons_self)
        · cases hl
        · cases hl
          exact ih.1 _ (hpending ▸ List.mem_cons_self)
        · cases hl

/-- **The words of the calls are pulled in order**, none missing and none repeated, exactly when no
link pulse is written to a full FIFO. -/
theorem pulled_eq_intended_iff (h : (txSystem fifo₀).Run ls s) :
    pulled ls ++ s.line.fifo ++ s.line.pending.map Write.elem = fifo₀ ++ intended ls ↔
      attempt (.once linkPulse) true ∉ ls := by
  have hiff := Writer.conserved_iff (txSystem_toWriter h)
  rw [Writer.accounted, pulled_toWriter, intended_toWriter] at hiff
  exact hiff.trans (lost_toWriter fun a ha => eq_linkPulse_of_attempt h ha)

/-- Link pulses and frames leave the transmitter as it is. -/
def TxLabel.KeepsTx : TxLabel → Prop
  | call c ws => ∀ tx, c.words tx = .ok (ws, tx)
  | _ => True

/-- A run is given by its labels. -/
theorem txSystem_run_of_labels (tx : EthTx) {line : Writer UInt32} (hkeep : ∀ l ∈ ls, l.KeepsTx)
    (h : (ls.map toWriter).foldlM (Writer.next txFifoDepth) ⟨fifo₀, []⟩ = some line) :
    (txSystem fifo₀).Run ls ⟨tx, line⟩ := by
  induction ls using List.reverseRecOn generalizing line with
  | nil =>
    obtain rfl : ⟨fifo₀, []⟩ = line := Option.some.inj h
    exact .init rfl
  | append_singleton ls l ih =>
    rw [List.map_append, List.foldlM_append] at h
    obtain ⟨line', hline', hnext⟩ := Option.bind_eq_some_iff.1 h
    have hrun := ih (fun l hl => hkeep l (List.mem_append_left _ hl)) hline'
    have hkeep' := hkeep l (by simp)
    refine hrun.snoc ⟨by simpa using hnext, ?_⟩
    cases l with
    | call c ws => exact hkeep' tx
    | attempt w full => rfl
    | pull a => rfl

/-- Two link pulses, the state machine having pulled only five words of the first when the second
is written. -/
def twoPulses : List TxLabel :=
  let pulse := linkPulse :: List.replicate 12 0
  [call .sendNlp pulse, attempt (.once linkPulse) false] ++
    List.replicate 7 (attempt (.retry 0) false) ++
    [pull linkPulse, attempt (.retry 0) false] ++
    (List.replicate 4 [pull 0, attempt (.retry 0) false]).flatten ++
    [call .sendNlp pulse, attempt (.once linkPulse) true] ++
    (List.replicate 12 [pull 0, attempt (.retry 0) false]).flatten ++ List.replicate 8 (pull 0)

theorem run_twoPulses (tx : EthTx) : (txSystem []).Run twoPulses ⟨tx, ⟨[], []⟩⟩ := by
  refine txSystem_run_of_labels tx (fun l hl => ?_) (by decide)
  have hcall : ∀ l ∈ twoPulses, ∀ c ws, l = call c ws →
      c = .sendNlp ∧ ws = linkPulse :: List.replicate 12 0 := by
    simp [twoPulses]
  cases l with
  | call c ws =>
    obtain ⟨rfl, rfl⟩ := hcall _ hl c ws rfl
    exact fun tx => rfl
  | attempt w full => trivial
  | pull a => trivial

theorem pulled_eq_intended_iff_twoPulses :
    pulled twoPulses ++ [] ++ [] = [] ++ intended twoPulses ↔
      attempt (.once linkPulse) true ∉ twoPulses :=
  pulled_eq_intended_iff (run_twoPulses ⟨0, Bytes.zero maxTxFrame⟩)

/-- **A link pulse is lost**: all words were pulled, and the second pulse was not among them. -/
theorem linkPulse_lost : ∃ ls s, (txSystem []).Run ls s ∧ s.line = ⟨[], []⟩ ∧
    intended ls = linkPulse :: List.replicate 12 0 ++ linkPulse :: List.replicate 12 0 ∧
    pulled ls = linkPulse :: List.replicate 24 0 ∧ pulled ls ≠ intended ls :=
  ⟨twoPulses, ⟨⟨0, Bytes.zero maxTxFrame⟩, ⟨[], []⟩⟩, run_twoPulses _, rfl, by decide, by decide,
    by decide⟩

end Pico10BaseT
