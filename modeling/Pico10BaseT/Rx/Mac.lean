import Pico10BaseT.Frame
import Pico10BaseT.Locks.Spinlock
import Pico10BaseT.Rx.Dpll
import Pico10BaseT.Rx.Stitch

/-!
# The receive side of `EthMac`

Two cores share the inbox and the stats under `Spinlock<0>`.  On core 1 `DMA_IRQ_0` copies captured
halves into the image ring and the thread drains it; the IRQ preempts the thread at any point and
runs to completion.  Core 0 pops the inbox and takes the stats.

`Mac.Step` is one atomic action of one of the three contexts: the IRQ up to its call of
`with_rx_shared`, one load or store of the drain loop or one turn of `scan_runs`, a claim of the
lock, or a critical section.  Loads and stores of the ring are those of one core.  The engine is
installed.  An image is read anew in every turn.

* `Mac.processCompletedHalf`, `Mac.drainStep`, `SharedCall.run` : the code of the contexts.
* `macSystem` : all their interleavings.
-/

namespace Pico10BaseT

/-- Slots of the image ring. -/
def imgSlots : ℕ := 6

/-- Inbox depth.  The oldest frame drops when full. -/
def inboxSlots : ℕ := 4

/-- Bytes of each decoded frame kept for the log dump. -/
def frameSnapBytes : ℕ := 128

/-! ### Shared state -/

structure EthRxStats where
  framesDecoded : UInt32
  fcsOk : UInt32
  fcsFail : UInt32
  framesFiltered : UInt32
  inboxDropped : UInt32
  inboxHighWater : UInt8
  carryCapped : UInt32
  lastFrameLen : ℕ
  lastFrameWasOk : Bool
  lastFrameSnapshot : Bytes frameSnapBytes
  lastFrameSnapshotLen : ℕ

def EthRxStats.new : EthRxStats := ⟨0, 0, 0, 0, 0, 0, 0, 0, false, .zero _, 0⟩

structure RxShared where
  inbox : List (List UInt8)
  stats : EthRxStats

/-- Stat deltas of one image.  The snapshot is inside its array. -/
structure StatsDelta where
  decoded : UInt32
  ok : UInt32
  fail : UInt32
  filtered : UInt32
  carry : UInt32
  lastSnap : Bytes frameSnapBytes
  lastSnapLen : ℕ
  lastLen : ℕ
  lastOk : Bool
  haveLast : Bool
  snapFits : lastSnapLen ≤ frameSnapBytes

def StatsDelta.new : StatsDelta :=
  ⟨0, 0, 0, 0, 0, .zero _, 0, 0, false, false, Nat.zero_le _⟩

/-- `STITCH_DEC`, `STITCH_FAIL`: decodes and FCS fails of carry-prefixed images. -/
structure StitchCounters where
  dec : UInt32
  fail : UInt32

/-! ### Scanning an image -/

/-- Accept unicast to us, broadcast, and multicast. -/
def macAccept (dst our : List UInt8) : Bool := dst = our || byteAt dst 0 &&& 0x01 ≠ 0

/-- A decoded frame, of which `n` bytes count, in the deltas. -/
def StatsDelta.record (acc : StatsDelta) (frame : List UInt8) (n : ℕ) (ok : Bool) :
    Exec StatsDelta := do
  let head ← slice frame 0 (min n frameSnapBytes)
  let lastSnap ← acc.lastSnap.copyFromSlice 0 head
  return { acc with
    decoded := acc.decoded + 1
    ok := if ok then acc.ok + 1 else acc.ok
    fail := if ok then acc.fail else acc.fail + 1
    lastSnap
    lastSnapLen := min n frameSnapBytes
    lastLen := n
    lastOk := ok
    haveLast := true
    snapFits := Nat.min_le_right _ _ }

/-- The provenance counters after a decode. -/
def StitchCounters.count (st : StitchCounters) (stitchCl : Option ℕ) (ok : Bool) :
    StitchCounters :=
  match stitchCl with
  | none => st
  | some _ => ⟨st.dec + 1, if ok then st.fail else st.fail + 1⟩

/-- What a turn of `scan_runs` leaves, and the frame that it publishes. -/
structure Turn where
  cursor : ℕ
  acc : StatsDelta
  stitch : StitchCounters
  publish : Option (List UInt8)

/-- One turn of `while let` in `scan_runs`; `none` ends the scan. -/
def scanTurn (ourMac bytes : List UInt8) (stitchCl : Option ℕ) (cursor : ℕ) (acc : StatsDelta)
    (stitch : StitchCounters) : Exec (Option Turn) := do
  match ← findActiveRunFrom bytes cursor 100 with
  | none => return none
  | some (off, len) =>
    let cursor := off + len
    match ← peekDstMac rate60MHz bytes off len with
    | none => return some ⟨cursor, acc, stitch, none⟩
    | some dst =>
      if macAccept dst ourMac = false then
        return some ⟨cursor, { acc with filtered := acc.filtered + 1 }, stitch, none⟩
      else
        let run ← slice bytes off (off + len)
        match ← decodeFrameEdgeTrack run with
        | none => return some ⟨cursor, acc, stitch, none⟩
        | some frame =>
          let flen ← deriveFrameLen frame
          let ok ← verifyFcs frame flen
          let n := min flen frame.length
          let acc ← acc.record frame n ok
          return some ⟨cursor, acc, stitch.count stitchCl ok, if ok then some (frame.take n) else none⟩

/-! ### Critical sections -/

/-- Publish a frame: the oldest drops from a full inbox. -/
def publishFrame (shared : RxShared) (frame : List UInt8) : RxShared :=
  let shared : RxShared :=
    if shared.inbox.length = inboxSlots then
      { inbox := shared.inbox.tail
        stats := { shared.stats with inboxDropped := shared.stats.inboxDropped + 1 } }
    else shared
  let inbox :=
    if shared.inbox.length < inboxSlots then shared.inbox ++ [frame] else shared.inbox
  let depth := UInt8.ofNat inbox.length
  { inbox
    stats :=
      if shared.stats.inboxHighWater < depth then { shared.stats with inboxHighWater := depth }
      else shared.stats }

/-- Merge stat deltas and the last-frame snapshot. -/
def mergeStats (shared : RxShared) (acc : StatsDelta) : Exec RxShared := do
  let s := shared.stats
  let s : EthRxStats := { s with
    framesDecoded := s.framesDecoded + acc.decoded
    fcsOk := s.fcsOk + acc.ok
    fcsFail := s.fcsFail + acc.fail
    framesFiltered := s.framesFiltered + acc.filtered
    carryCapped := s.carryCapped + acc.carry }
  if acc.haveLast then
    let snap ← slice acc.lastSnap.data 0 acc.lastSnapLen
    let lastFrameSnapshot ← s.lastFrameSnapshot.copyFromSlice 0 snap
    return { shared with stats := { s with
      lastFrameSnapshot
      lastFrameSnapshotLen := acc.lastSnapLen
      lastFrameLen := acc.lastLen
      lastFrameWasOk := acc.lastOk } }
  else return { shared with stats := s }

/-- The image that the producer stores or the consumer reads. -/
structure Image where
  bytes : List UInt8
  carryPrefix : ℕ

/-- What a step of the thread shows. -/
inductive DrainEvent
  /-- A turn of `scan_runs`, with the image it reads. -/
  | turn (image : Image)
  /-- The store of `IMG_R`. -/
  | consumed
  | silent

/-- What a critical section shows. -/
inductive SharedEvent
  /-- A frame is published. -/
  | published (frame : List UInt8)
  /-- `EthMac::receive`. -/
  | popped (frame : Option (List UInt8))
  /-- `snapshot_rx_stats`. -/
  | snapshot (stats : EthRxStats)
  /-- Counts are merged into the stats. -/
  | merged

/-- What an action shows. -/
inductive MacEvent
  /-- `DMA_IRQ_0`, with the half it services, if one is done, and the image it stores. -/
  | dmaIrq (half : Option (Bytes bufBytes)) (stored : Option Image)
  | drain (ev : DrainEvent)
  | shared (ev : SharedEvent)
  /-- A context starts to wait for the lock, or takes it. -/
  | silent

/-- The closures given to `with_rx_shared`. -/
inductive SharedCall
  | receive
  | snapshot
  | publish (frame : List UInt8)
  | merge (acc : StatsDelta)
  | addCapped (capped : UInt32)

/-- The critical section of a closure. -/
def SharedCall.run (shared : RxShared) : SharedCall → Exec (RxShared × SharedEvent)
  | .receive => return ({ shared with inbox := shared.inbox.tail }, .popped shared.inbox.head?)
  | .snapshot => return ({ shared with stats := .new }, .snapshot shared.stats)
  | .publish frame => return (publishFrame shared frame, .published frame)
  | .merge acc => do
    let shared ← mergeStats shared acc
    return (shared, .merged)
  | .addCapped capped =>
    return ({ shared with
      stats := { shared.stats with carryCapped := shared.stats.carryCapped + capped } }, .merged)

/-! ### The contexts -/

/-- The three contexts. -/
inductive Ctx
  | core0
  | thread
  | irq
  deriving DecidableEq

/-- The IRQ runs to completion before the thread resumes; core 0 runs besides both. -/
def suspends (c c' : Ctx) : Prop := c = .irq ∧ c' = .thread

/-- `IMG_RING`, `IMG_LEN` and `IMG_CL` of one slot. -/
structure ImgSlot where
  data : Bytes stitchBufBytes
  len : UInt32
  cl : UInt32

/-- Where the thread is in `drain_rx_images`, outside its calls of `with_rx_shared`. -/
inductive DrainPc
  | loadR
  | loadW (r : UInt32)
  | loadLen (r w : UInt32)
  | loadCl (r : UInt32) (len : ℕ)
  | scan (r : UInt32) (len cl cursor : ℕ) (acc : StatsDelta)
  | storeR (r : UInt32)

structure Mac where
  rx : EthRx
  ourMac : Bytes 6
  ring : Fin imgSlots → ImgSlot
  discard : Bytes stitchBufBytes
  imgW : UInt32
  imgR : UInt32
  imgDrop : UInt32
  stitch : StitchCounters
  shared : RxShared
  lock : Lock Ctx SharedCall
  drain : DrainPc

/-- `seq % IMG_SLOTS`. -/
def slotOf (seq : UInt32) : Fin imgSlots := ⟨seq.toNat % imgSlots, Nat.mod_lt _ (by decide)⟩

/-- `core::slice::from_raw_parts(slot.as_ptr(), len)`. -/
def rawParts {n : ℕ} (b : Bytes n) (len : ℕ) : Exec (List UInt8) :=
  if len ≤ n then .ok (b.data.take len) else .error .outOfBounds

namespace Mac

/-- All statics zero, and the engine installed. -/
def boot (ourMac : Bytes 6) : Mac where
  rx := .new
  ourMac
  ring _ := ⟨.zero _, 0, 0⟩
  discard := .zero _
  imgW := 0
  imgR := 0
  imgDrop := 0
  stitch := ⟨0, 0⟩
  shared := ⟨[], .new⟩
  lock := .free
  drain := .loadR

/-- The image ring is full. -/
def ringFull (s : Mac) : Bool := UInt32.ofNat imgSlots ≤ s.imgW - s.imgR

/-- The stores of `process_completed_half` into the slot of `IMG_W`. -/
def store (s : Mac) (data : Bytes stitchBufBytes) : PollOutcome → Mac
  | .nothing =>
    { s with ring := Function.update s.ring (slotOf s.imgW) { s.ring (slotOf s.imgW) with data } }
  | .image len carryPrefix =>
    { s with
      ring := Function.update s.ring (slotOf s.imgW)
        ⟨data, UInt32.ofNat len, UInt32.ofNat carryPrefix⟩
      imgW := s.imgW + 1 }

/-- Merge the carry-cap count: the call of `with_rx_shared`, if there is something to merge. -/
def mergeCapped (s : Mac) : Mac :=
  let (rx, capped) := s.rx.takeCarryCapped
  if capped ≠ 0 then { s with rx, lock := s.lock.enter .irq (.addCapped capped) }
  else { s with rx }

/-- The image that is stored. -/
def storedImage (data : Bytes stitchBufBytes) : PollOutcome → Option Image
  | .nothing => none
  | .image len carryPrefix => some ⟨data.data.take len, carryPrefix⟩

/-- `DMA_IRQ_0`, up to its call of `with_rx_shared` or its end, and the image it stores. -/
def processCompletedHalf (s : Mac) (half : Option (Bytes bufBytes)) : Exec (Mac × Option Image) := do
  if s.ringFull then
    -- ring full: still service the DMA, then drop the image
    let (rx, discard, out) ← s.rx.pollInto half s.discard
    let imgDrop := if out = .nothing then s.imgDrop else s.imgDrop + 1
    return ({ s with rx, discard, imgDrop }, none)
  else
    let (rx, data, out) ← s.rx.pollInto half (s.ring (slotOf s.imgW)).data
    return (({ s with rx }.store data out).mergeCapped, storedImage data out)

/-- What follows a turn of `scan_runs`: another turn, perhaps after a publish, or the merge. -/
def afterTurn (s : Mac) (r : UInt32) (len cl : ℕ) (acc : StatsDelta) : Option Turn → Mac
  | none => { s with drain := .storeR r, lock := s.lock.enter .thread (.merge acc) }
  | some t =>
    { s with
      drain := .scan r len cl t.cursor t.acc
      stitch := t.stitch
      lock := match t.publish with
        | none => s.lock
        | some frame => s.lock.enter .thread (.publish frame) }

/-- One step of the thread outside its critical sections. -/
def drainStep (s : Mac) : Exec (DrainEvent × Mac) :=
  match s.drain with
  | .loadR => return (.silent, { s with drain := .loadW s.imgR })
  | .loadW r => return (.silent, { s with drain := .loadLen r s.imgW })
  | .loadLen r w =>
    if r = w then return (.silent, { s with drain := .loadR })
    else return (.silent, { s with drain := .loadCl r (s.ring (slotOf r)).len.toNat })
  | .loadCl r len =>
    return (.silent, { s with drain := .scan r len (s.ring (slotOf r)).cl.toNat 0 .new })
  | .scan r len cl cursor acc => do
    let bytes ← rawParts (s.ring (slotOf r)).data len
    let turn ← scanTurn s.ourMac.data bytes (if 0 < cl then some cl else none) cursor acc s.stitch
    return (.turn ⟨bytes, cl⟩, s.afterTurn r len cl acc turn)
  | .storeR r => return (.consumed, { s with imgR := r + 1, drain := .loadR })

/-- `c` is not suspended. -/
def Runs (s : Mac) (c : Ctx) : Prop := ∀ c', suspends c' c → s.lock.inside c' = none

/-- One action of one context. -/
inductive Step (s : Mac) : MacEvent → Mac → Prop
  /-- `DMA_IRQ_0` preempts whatever the thread does. -/
  | dmaIrq {half : Option (Bytes bufBytes)} {s' : Mac} {stored : Option Image} :
      s.lock.inside .irq = none → s.processCompletedHalf half = .ok (s', stored) →
      Step s (.dmaIrq half stored) s'
  /-- The thread. -/
  | drain {ev : DrainEvent} {s' : Mac} :
      s.Runs .thread → s.lock.inside .thread = none → s.drainStep = .ok (ev, s') →
      Step s (.drain ev) s'
  /-- Core 0 calls `receive` or `snapshot_rx_stats`. -/
  | core0 {f : SharedCall} :
      s.lock.inside .core0 = none → f = .receive ∨ f = .snapshot →
      Step s .silent { s with lock := s.lock.enter .core0 f }
  /-- A waiting context finds the lock free. -/
  | claim {c : Ctx} {f : SharedCall} :
      s.Runs c → s.lock.inside c = some ⟨f, false⟩ → s.lock.holder = none →
      Step s .silent { s with lock := s.lock.claim c f }
  /-- The holder runs its closure and drops the guard. -/
  | critical {c : Ctx} {f : SharedCall} {shared : RxShared} {ev : SharedEvent} :
      s.Runs c → s.lock.inside c = some ⟨f, true⟩ → f.run s.shared = .ok (shared, ev) →
      Step s (.shared ev) { s with shared, lock := s.lock.release c }

end Mac

/-- The contexts, interleaved. -/
def macSystem : System Mac MacEvent where
  init s := ∃ ourMac, s = .boot ourMac
  step s ev s' := s.Step ev s'

end Pico10BaseT
