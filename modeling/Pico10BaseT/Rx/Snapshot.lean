import Pico10BaseT.Rx.Inbox
import Pico10BaseT.Rx.LineFrame
import Pico10BaseT.Rx.Peek

/-!
# The frame in the status log

The stats keep the head of the last decoded frame, whether its FCS is valid or not, and `log_status`
prints its two MACs if there is any.  A run of 100 bytes can decode to fewer than the 12 bytes of the
MACs.

`ScanView` replays, on the images that the thread reads, where a scan is and what it decoded last.

* `lastFrame_printed` : in every run whose scans end with no such short frame, what core 0 takes can be
  printed; what the merge of a scan publishes can be printed exactly when its last frame is not short.
* `lastFrame_panics` : a broadcast frame cut off after 9 bytes.
-/

namespace Pico10BaseT

/-! ### The status log -/

/-- `[f[i], .., f[i + 5]]`. -/
def macOctets (f : List UInt8) (i : ℕ) : Exec (List UInt8) := do
  let o₀ ← index f i
  let o₁ ← index f (i + 1)
  let o₂ ← index f (i + 2)
  let o₃ ← index f (i + 3)
  let o₄ ← index f (i + 4)
  let o₅ ← index f (i + 5)
  return [o₀, o₁, o₂, o₃, o₄, o₅]

/-- What `log_status` prints of the last frame. -/
structure LastFrameLine where
  lastFrameLen : ℕ
  lastFrameWasOk : Bool
  dst : List UInt8
  src : List UInt8
  etype : UInt16
deriving DecidableEq

/-- The EtherType, if the header is there. -/
def lastEtype (f : List UInt8) : Exec UInt16 := if 14 ≤ f.length then rd16 f 12 else pure 0

/-- The last frame in `log_status`, under `diag`. -/
def logLastFrame (rx : EthRxStats) : Exec (Option LastFrameLine) := do
  if 0 < rx.lastFrameSnapshotLen then
    let f ← slice rx.lastFrameSnapshot.data 0 rx.lastFrameSnapshotLen
    let etype ← lastEtype f
    let dst ← macOctets f 0
    let src ← macOctets f 6
    return some
      { lastFrameLen := rx.lastFrameLen, lastFrameWasOk := rx.lastFrameWasOk, dst, src, etype }
  else return none

/-- So many bytes hold both MACs, if they hold anything. -/
def HoldsMacs (n : ℕ) : Prop := n = 0 ∨ 12 ≤ n

theorem macOctets_ok_iff {f : List UInt8} {i : ℕ} :
    (∃ mac, macOctets f i = .ok mac) ↔ i + 5 < f.length := by
  constructor
  · rintro ⟨mac, h⟩
    obtain ⟨_, -, h⟩ := Exec.bind_eq_ok.1 h
    obtain ⟨_, -, h⟩ := Exec.bind_eq_ok.1 h
    obtain ⟨_, -, h⟩ := Exec.bind_eq_ok.1 h
    obtain ⟨_, -, h⟩ := Exec.bind_eq_ok.1 h
    obtain ⟨_, -, h⟩ := Exec.bind_eq_ok.1 h
    obtain ⟨o₅, h₅, -⟩ := Exec.bind_eq_ok.1 h
    by_contra hlt
    rw [index, List.getElem?_eq_none (Nat.le_of_not_lt hlt)] at h₅
    cases h₅
  · intro h
    simp only [macOctets, index_eq_byteAt (show i < f.length by omega),
      index_eq_byteAt (show i + 1 < f.length by omega),
      index_eq_byteAt (show i + 2 < f.length by omega),
      index_eq_byteAt (show i + 3 < f.length by omega),
      index_eq_byteAt (show i + 4 < f.length by omega), index_eq_byteAt h, Exec.ok_bind,
      Exec.pure_eq, Except.ok.injEq, exists_eq']

theorem lastEtype_total (f : List UInt8) : ∃ etype, lastEtype f = .ok etype := by
  unfold lastEtype
  split_ifs with h14
  · exact ⟨_, rd16_ok (by omega)⟩
  · exact ⟨_, rfl⟩

/-- **When the last frame can be printed.** -/
theorem logLastFrame_ok_iff {rx : EthRxStats} (h : rx.lastFrameSnapshotLen ≤ frameSnapBytes) :
    (∃ line, logLastFrame rx = .ok line) ↔ HoldsMacs rx.lastFrameSnapshotLen := by
  have hsize := rx.lastFrameSnapshot.size
  rw [logLastFrame, HoldsMacs]
  by_cases hpos : 0 < rx.lastFrameSnapshotLen
  · have hlen : (rx.lastFrameSnapshot.data.take rx.lastFrameSnapshotLen).length =
        rx.lastFrameSnapshotLen := by
      rw [List.length_take]
      omega
    rw [if_pos hpos, slice_zero (by omega), Exec.ok_bind]
    generalize rx.lastFrameSnapshot.data.take rx.lastFrameSnapshotLen = f at hlen
    obtain ⟨etype, hetype⟩ := lastEtype_total f
    rw [hetype, Exec.ok_bind]
    constructor
    · rintro ⟨line, hline⟩
      obtain ⟨dst, -, hline⟩ := Exec.bind_eq_ok.1 hline
      obtain ⟨src, hsrc, -⟩ := Exec.bind_eq_ok.1 hline
      have := macOctets_ok_iff.1 ⟨src, hsrc⟩
      omega
    · intro hmacs
      obtain ⟨dst, hdst⟩ := macOctets_ok_iff.2 (show 0 + 5 < f.length by omega)
      obtain ⟨src, hsrc⟩ := macOctets_ok_iff.2 (show 6 + 5 < f.length by omega)
      rw [hdst, Exec.ok_bind, hsrc, Exec.ok_bind]
      exact ⟨_, rfl⟩
  · rw [if_neg hpos]
    exact ⟨fun _ => .inl (by omega), fun _ => ⟨_, rfl⟩⟩

/-! ### What a scan decodes -/

/-- The frame that the run `(off, len)` decodes to, if the peek lets it through. -/
def decodedRun (ourMac bytes : List UInt8) (off len : ℕ) : Option (List UInt8) :=
  match peekDstMac rate60MHz bytes off len with
  | .ok (some dst) =>
    if macAccept dst ourMac then
      match slice bytes off (off + len) >>= decodeFrameEdgeTrack with
      | .ok frame => frame
      | .error _ => none
    else none
  | _ => none

/-- Where the scan of an image is, and the frame it decoded last. -/
structure ScanView where
  cursor : ℕ
  last : Option (List UInt8)

namespace ScanView

/-- Before the scan. -/
def start : ScanView := ⟨0, none⟩

/-- The view after an action: a turn goes on to the end of the run that it finds. -/
def next (ourMac : List UInt8) (v : ScanView) : MacEvent → ScanView
  | .drain (.turn image) =>
    match findActiveRunFrom image.bytes v.cursor 100 with
    | .ok (some (off, len)) => ⟨off + len, (decodedRun ourMac image.bytes off len).or v.last⟩
    | _ => v
  | .drain .consumed => start
  | _ => v

/-- A turn that finds no more run ends the scan. -/
def EndsWith (v : ScanView) : MacEvent → Prop
  | .drain (.turn image) => findActiveRunFrom image.bytes v.cursor 100 = .ok none
  | _ => False

/-- The frame decoded last holds both MACs. -/
def Long (v : ScanView) : Prop := ∀ frame, v.last = some frame → HoldsMacs frame.length

end ScanView

/-- The view of the scan at the end of a run. -/
def viewOf (ourMac : List UInt8) (tr : List MacEvent) : ScanView :=
  tr.foldl (ScanView.next ourMac) .start

/-- No scan of the run ends with a short frame. -/
def EndsLong (ourMac : List UInt8) (tr : List MacEvent) : Prop :=
  ∀ pre ev post, tr = pre ++ ev :: post → (viewOf ourMac pre).EndsWith ev →
    (viewOf ourMac pre).Long

theorem viewOf_snoc (ourMac : List UInt8) (tr : List MacEvent) (ev : MacEvent) :
    viewOf ourMac (tr ++ [ev]) = (viewOf ourMac tr).next ourMac ev := by
  simp [viewOf]

theorem EndsLong.of_snoc {ourMac : List UInt8} {tr : List MacEvent} {ev : MacEvent}
    (h : EndsLong ourMac (tr ++ [ev])) : EndsLong ourMac tr := by
  rintro pre ev' post rfl hend
  exact h pre ev' (post ++ [ev]) (by simp) hend

theorem EndsLong.last {ourMac : List UInt8} {tr : List MacEvent} {ev : MacEvent}
    (h : EndsLong ourMac (tr ++ [ev])) (hend : (viewOf ourMac tr).EndsWith ev) :
    (viewOf ourMac tr).Long :=
  h tr ev [] rfl hend

theorem EndsLong.nil (ourMac : List UInt8) : EndsLong ourMac [] := fun pre ev post h => by
  simp at h

theorem EndsLong.snoc {ourMac : List UInt8} {tr : List MacEvent} {ev : MacEvent}
    (h : EndsLong ourMac tr) (hlast : (viewOf ourMac tr).EndsWith ev → (viewOf ourMac tr).Long) :
    EndsLong ourMac (tr ++ [ev]) := by
  intro pre ev' post htr hend
  rcases List.eq_nil_or_concat post with rfl | ⟨post, ev'', rfl⟩
  · obtain ⟨rfl, rfl⟩ := List.append_singleton_inj.1 htr
    exact hlast hend
  · rw [List.concat_eq_append, ← List.cons_append, ← List.append_assoc] at htr
    exact h pre ev' post (List.append_singleton_inj.1 htr).1 hend

/-- Actions that end no scan. -/
theorem EndsLong.append {ourMac : List UInt8} {tr evs : List MacEvent} (h : EndsLong ourMac tr)
    (hevs : ∀ ev ∈ evs, ∀ v : ScanView, ¬ v.EndsWith ev) : EndsLong ourMac (tr ++ evs) := by
  induction evs using List.reverseRecOn with
  | nil => rwa [List.append_nil]
  | append_singleton evs ev ih =>
    rw [← List.append_assoc]
    exact (ih fun e he => hevs e (List.mem_append_left _ he)).snoc fun hend =>
      (hevs ev (by simp) _ hend).elim

/-! ### What is recorded of it -/

/-- The deltas hold the head of the frame decoded last. -/
structure Recorded (acc : StatsDelta) (last : Option (List UInt8)) : Prop where
  haveLast : acc.haveLast = last.isSome
  len : ∀ frame, last = some frame → ∃ n, deriveFrameLen frame = .ok n ∧
    acc.lastSnapLen = min (min n frame.length) frameSnapBytes

/-- The derived length is short only for a short frame. -/
theorem holdsMacs_deriveFrameLen {frame : List UInt8} {n : ℕ} (h : deriveFrameLen frame = .ok n) :
    HoldsMacs (min (min n frame.length) frameSnapBytes) ↔ HoldsMacs frame.length := by
  have hn : n = frame.length ∨ (18 ≤ n ∧ 18 ≤ frame.length) := by
    rw [deriveFrameLen] at h
    by_cases hlen : frame.length < 18
    · rw [if_pos hlen] at h
      cases h
      exact .inl rfl
    · rw [if_neg hlen, rd16_ok (by omega), rd16_ok (by omega)] at h
      simp only [Exec.ok_bind, Exec.pure_eq] at h
      split_ifs at h <;> cases h <;> omega
  rw [HoldsMacs, HoldsMacs, frameSnapBytes]
  omega

theorem recorded_new : Recorded .new none := ⟨rfl, by simp⟩

/-- One turn, in the view and in the deltas. -/
theorem RunScanned.recorded {ourMac bytes : List UInt8} {stitchCl : Option ℕ} {acc : StatsDelta}
    {stitch : StitchCounters} {off len : ℕ} {t : Turn} {last : Option (List UInt8)}
    (h : RunScanned ourMac bytes stitchCl acc stitch off len t) (hacc : Recorded acc last) :
    t.cursor = off + len ∧ Recorded t.acc ((decodedRun ourMac bytes off len).or last) := by
  cases h with
  | noMac hdst =>
    have hnone : decodedRun ourMac bytes off len = none := by simp [decodedRun, hdst]
    rw [hnone]
    exact ⟨rfl, hacc⟩
  | filtered hdst hmac =>
    have hnone : decodedRun ourMac bytes off len = none := by simp [decodedRun, hdst, hmac]
    rw [hnone]
    exact ⟨rfl, hacc.haveLast, hacc.len⟩
  | undecoded hdst hmac hrun hframe =>
    have hnone : decodedRun ourMac bytes off len = none := by
      simp [decodedRun, hdst, hmac, hrun, hframe]
    rw [hnone]
    exact ⟨rfl, hacc⟩
  | @decoded dst run frame flen ok acc' hdst hmac hrun hframe hflen hok hrec =>
    have hsome : decodedRun ourMac bytes off len = some frame := by
      simp [decodedRun, hdst, hmac, hrun, hframe]
    rw [hsome]
    obtain ⟨head, -, hrec⟩ := Exec.bind_eq_ok.1 hrec
    obtain ⟨snap, -, hrec⟩ := Exec.bind_eq_ok.1 hrec
    cases hrec
    refine ⟨rfl, rfl, fun frame' hframe' => ?_⟩
    obtain rfl := Option.some.inj hframe'
    exact ⟨flen, hflen, rfl⟩

/-- What a merge does to the snapshot. -/
theorem mergeStats_snapshotLen {shared shared' : RxShared} {acc : StatsDelta}
    (h : mergeStats shared acc = .ok shared') :
    shared'.stats.lastFrameSnapshotLen =
      if acc.haveLast then acc.lastSnapLen else shared.stats.lastFrameSnapshotLen := by
  rw [mergeStats] at h
  cases hlast : acc.haveLast with
  | false =>
    rw [hlast] at h
    cases h
    rfl
  | true =>
    simp only [hlast, if_true] at h
    obtain ⟨snap, -, h⟩ := Exec.bind_eq_ok.1 h
    obtain ⟨last, -, h⟩ := Exec.bind_eq_ok.1 h
    cases h
    rfl

/-- **What a merge publishes** can be printed exactly when the frame decoded last is not short. -/
theorem Recorded.merge_iff {acc : StatsDelta} {v : ScanView} {shared shared' : RxShared}
    (h : Recorded acc v.last) (hmerge : mergeStats shared acc = .ok shared')
    (hshared : HoldsMacs shared.stats.lastFrameSnapshotLen) :
    HoldsMacs shared'.stats.lastFrameSnapshotLen ↔ v.Long := by
  rw [mergeStats_snapshotLen hmerge, h.haveLast, ScanView.Long]
  cases hlast : v.last with
  | none => simpa using hshared
  | some frame =>
    obtain ⟨n, hn, hlen⟩ := h.len frame hlast
    simp only [Option.isSome_some, if_true, hlen, holdsMacs_deriveFrameLen hn, Option.some.injEq,
      forall_eq']

/-! ### Runs -/

/-- Where the thread is, seen by the view of its scan. -/
inductive SnapAt (v : ScanView) : DrainPc → Option (Section SharedCall) → Prop
  | scanning {r : UInt32} {len cl : ℕ} {acc : StatsDelta} : Recorded acc v.last →
      SnapAt v (.scan r len cl v.cursor acc) none
  | publishing {r : UInt32} {len cl : ℕ} {acc : StatsDelta} {frame : List UInt8} {holds : Bool} :
      Recorded acc v.last → SnapAt v (.scan r len cl v.cursor acc) (some ⟨.publish frame, holds⟩)
  | merging {r : UInt32} {acc : StatsDelta} {holds : Bool} : Recorded acc v.last →
      SnapAt v (.storeR r) (some ⟨.merge acc, holds⟩)
  | merged {r : UInt32} : SnapAt v (.storeR r) none
  | idle {pc : DrainPc} : (∀ r len cl cursor acc, pc ≠ .scan r len cl cursor acc) →
      (∀ r, pc ≠ .storeR r) → v = .start → SnapAt v pc none

/-- The thread is about to merge what it recorded of a scan that ended. -/
def Mac.Merges (s : Mac) (acc : StatsDelta) : Prop :=
  ∃ holds, s.lock.inside .thread = some ⟨.merge acc, holds⟩

theorem Mac.not_merges {s : Mac} (h : s.lock.inside .thread = none) (acc : StatsDelta) :
    ¬ s.Merges acc := by
  rintro ⟨holds, hin⟩
  rw [h] at hin
  cases hin

/-- These stats can be printed, if `long`. -/
def Printable (long : Prop) (stats : EthRxStats) : Prop :=
  stats.lastFrameSnapshotLen ≤ frameSnapBytes ∧ (long → HoldsMacs stats.lastFrameSnapshotLen)

theorem Printable.mono {long long' : Prop} {stats : EthRxStats} (h : Printable long stats)
    (hlong : long' → long) : Printable long' stats :=
  ⟨h.1, fun h' => h.2 (hlong h')⟩

/-- Stats with the same snapshot. -/
theorem Printable.congr {long : Prop} {stats stats' : EthRxStats} (h : Printable long stats)
    (heq : stats'.lastFrameSnapshotLen = stats.lastFrameSnapshotLen) : Printable long stats' := by
  rwa [Printable, heq]

theorem printable_new (long : Prop) : Printable long .new := ⟨Nat.zero_le _, fun _ => .inl rfl⟩

/-- **The invariant of the snapshot.** -/
structure SnapInv (tr : List MacEvent) (s : Mac) : Prop where
  thread : SnapAt (viewOf s.ourMac.data tr) s.drain (s.lock.inside .thread)
  merges : EndsLong s.ourMac.data tr → ∀ acc, s.Merges acc → (viewOf s.ourMac.data tr).Long
  shared : Printable (EndsLong s.ourMac.data tr) s.shared.stats
  snaps : ∀ stats ∈ tr.filterMap MacEvent.snaps, Printable (EndsLong s.ourMac.data tr) stats

theorem SnapAt.eq_start {v : ScanView} {pc : DrainPc} (h : SnapAt v pc none)
    (hscan : ∀ r len cl cursor acc, pc ≠ .scan r len cl cursor acc) (hstore : ∀ r, pc ≠ .storeR r) :
    v = .start := by
  cases h with
  | scanning => exact (hscan _ _ _ _ _ rfl).elim
  | merged => exact (hstore _ rfl).elim
  | idle _ _ hv => exact hv

/-- A scan ends when no run is left. -/
theorem findActiveRunFrom_eq_none {ourMac bytes : List UInt8} {stitchCl : Option ℕ} {cursor : ℕ}
    {acc : StatsDelta} {stitch : StitchCounters}
    (h : scanTurn ourMac bytes stitchCl cursor acc stitch = .ok none) :
    findActiveRunFrom bytes cursor 100 = .ok none := by
  obtain ⟨r, hr, h⟩ := Exec.bind_eq_ok.1 h
  cases r with
  | none => exact hr
  | some r =>
    obtain ⟨dst, -, h⟩ := Exec.bind_eq_ok.1 h
    cases dst with
    | none => cases h
    | some dst =>
      by_cases hmac : macAccept dst ourMac = false
      · simp only [hmac, if_true, Exec.pure_eq, Except.ok.injEq, reduceCtorEq] at h
      · simp only [if_neg hmac] at h
        obtain ⟨run, -, h⟩ := Exec.bind_eq_ok.1 h
        obtain ⟨frame, -, h⟩ := Exec.bind_eq_ok.1 h
        cases frame with
        | none => cases h
        | some frame =>
          obtain ⟨flen, -, h⟩ := Exec.bind_eq_ok.1 h
          obtain ⟨ok, -, h⟩ := Exec.bind_eq_ok.1 h
          obtain ⟨acc', -, h⟩ := Exec.bind_eq_ok.1 h
          cases h

/-- **The thread outside its critical sections** keeps to the view. -/
theorem SnapAt.drainStep {s s' : Mac} {ev : DrainEvent} {v : ScanView}
    (h : SnapAt v s.drain none) (hout : s.lock.inside .thread = none)
    (hstep : s.drainStep = .ok (ev, s')) :
    SnapAt (v.next s.ourMac.data (.drain ev)) s'.drain (s'.lock.inside .thread) ∧
      ∀ acc, s'.Merges acc → v.EndsWith (.drain ev) ∧ v.next s.ourMac.data (.drain ev) = v := by
  obtain ⟨call, hmove, hin⟩ := Mac.drainStep_cases hstep hout
  have hnone : call = none → ∀ acc, ¬ s'.Merges acc := by
    rintro rfl
    exact Mac.not_merges hin
  rw [hin]
  generalize s'.drain = pc at hmove
  cases hmove with
  | looks hscan hstore hscan' hstore' =>
    obtain rfl := h.eq_start hscan hstore
    exact ⟨.idle hscan' hstore' rfl, fun acc hm => absurd hm (hnone rfl acc)⟩
  | begins hpc =>
    obtain rfl := h.eq_start (by simp [hpc]) (by simp [hpc])
    exact ⟨.scanning recorded_new, fun acc hm => absurd hm (hnone rfl acc)⟩
  | consumes hpc =>
    exact ⟨.idle (by simp) (by simp) rfl, fun acc hm => absurd hm (hnone rfl acc)⟩
  | @ends _ _ cl _ _ bytes hpc hturn =>
    rw [hpc] at h
    cases h with
    | idle hne => exact (hne _ _ _ _ _ rfl).elim
    | scanning hacc =>
      have hfind := findActiveRunFrom_eq_none hturn
      have hnext : v.next s.ourMac.data (.drain (.turn ⟨bytes, cl⟩)) = v := by
        simp only [ScanView.next, hfind]
      rw [hnext]
      exact ⟨.merging hacc, fun _ _ => ⟨hfind, rfl⟩⟩
  | @turns _ _ cl _ _ bytes t hpc hturn =>
    rw [hpc] at h
    cases h with
    | idle hne => exact (hne _ _ _ _ _ rfl).elim
    | scanning hacc =>
      obtain ⟨off, len', hfind, hscan⟩ := scanTurn_scanned hturn
      obtain ⟨hcursor, hrec⟩ := hscan.recorded hacc
      have hnext : v.next s.ourMac.data (.drain (.turn ⟨bytes, cl⟩)) =
          ⟨t.cursor, (decodedRun s.ourMac.data bytes off len').or v.last⟩ := by
        simp [ScanView.next, hfind, hcursor]
      rw [hnext]
      cases hpub : t.publish with
      | none =>
        rw [hpub] at hnone
        exact ⟨.scanning hrec, fun acc hm => absurd hm (hnone rfl acc)⟩
      | some frame =>
        refine ⟨.publishing hrec, fun acc hm => ?_⟩
        obtain ⟨holds, hmerge⟩ := hm
        rw [hin, hpub] at hmerge
        cases hmerge

/-- Taking the lock is not seen from where the thread is. -/
theorem SnapAt.claim {v : ScanView} {pc : DrainPc} {f : SharedCall} {holds : Bool}
    (h : SnapAt v pc (some ⟨f, false⟩)) : SnapAt v pc (some ⟨f, holds⟩) := by
  cases h with
  | publishing hacc => exact .publishing hacc
  | merging hacc => exact .merging hacc

theorem publishFrame_snapshotLen (shared : RxShared) (frame : List UInt8) :
    (publishFrame shared frame).stats.lastFrameSnapshotLen =
      shared.stats.lastFrameSnapshotLen := by
  rw [publishFrame]
  dsimp only
  split_ifs <;> rfl

namespace SnapInv

variable {tr : List MacEvent} {s s' : Mac}

theorem boot (ourMac : Bytes 6) : SnapInv [] (.boot ourMac) where
  thread := .idle (by simp [Mac.boot]) (by simp [Mac.boot]) rfl
  merges := fun _ acc ⟨holds, hin⟩ => by cases hin
  shared := printable_new _
  snaps := by simp

/-- What core 0 has taken. -/
theorem snaps_snoc (h : SnapInv tr s) {ev : MacEvent}
    (hev : ∀ stats, ev.snaps = some stats → Printable (EndsLong s.ourMac.data tr) stats) :
    ∀ stats ∈ (tr ++ [ev]).filterMap MacEvent.snaps,
      Printable (EndsLong s.ourMac.data (tr ++ [ev])) stats := by
  intro stats hmem
  rw [List.filterMap_append] at hmem
  rcases List.mem_append.1 hmem with hold | hnew
  · exact (h.snaps stats hold).mono EndsLong.of_snoc
  · obtain ⟨ev', hev', hsnap⟩ := List.mem_filterMap.1 hnew
    obtain rfl := List.mem_singleton.1 hev'
    exact (hev stats hsnap).mono EndsLong.of_snoc

/-- An action that is not the thread's. -/
theorem other (h : SnapInv tr s) {ev : MacEvent} (hmac : s'.ourMac = s.ourMac)
    (hview : ∀ v : ScanView, v.next s.ourMac.data ev = v) (hdrain : s'.drain = s.drain)
    (hinside : s'.lock.inside .thread = s.lock.inside .thread)
    (hshared : Printable (EndsLong s.ourMac.data tr) s'.shared.stats)
    (hev : ∀ stats, ev.snaps = some stats → Printable (EndsLong s.ourMac.data tr) stats) :
    SnapInv (tr ++ [ev]) s' := by
  refine ⟨?_, fun hlong acc ⟨holds, hin⟩ => ?_, ?_, ?_⟩
  · rw [hmac, viewOf_snoc, hview, hdrain, hinside]
    exact h.thread
  · rw [hmac] at hlong
    rw [hmac, viewOf_snoc, hview]
    exact h.merges hlong.of_snoc acc ⟨holds, hinside ▸ hin⟩
  · rw [hmac]
    exact hshared.mono EndsLong.of_snoc
  · rw [hmac]
    exact h.snaps_snoc hev

/-- The thread outside its critical sections. -/
theorem drain (h : SnapInv tr s) {ev : DrainEvent} (hout : s.lock.inside .thread = none)
    (hstep : s.drainStep = .ok (ev, s')) : SnapInv (tr ++ [.drain ev]) s' := by
  have hframe := Mac.drainStep_frame hstep
  have hthread := h.thread
  rw [hout] at hthread
  obtain ⟨hthread', hmerges⟩ := hthread.drainStep hout hstep
  refine ⟨?_, fun hlong acc hmerge => ?_, ?_, ?_⟩
  · rw [hframe.ourMac, viewOf_snoc]
    exact hthread'
  · obtain ⟨hend, hview⟩ := hmerges acc hmerge
    rw [hframe.ourMac] at hlong
    rw [hframe.ourMac, viewOf_snoc, hview]
    exact hlong.last hend
  · rw [hframe.ourMac, hframe.shared]
    exact h.shared.mono EndsLong.of_snoc
  · rw [hframe.ourMac]
    exact h.snaps_snoc (by simp [MacEvent.snaps])

/-- A context takes the lock. -/
theorem claim (h : SnapInv tr s) {c : Ctx} {f : SharedCall}
    (hin : s.lock.inside c = some ⟨f, false⟩) :
    SnapInv (tr ++ [.silent]) { s with lock := s.lock.claim c f } := by
  rcases eq_or_ne Ctx.thread c with rfl | hne
  · have hthread := h.thread
    rw [hin] at hthread
    refine ⟨?_, fun hlong acc ⟨holds, hmerge⟩ => ?_, h.shared.mono EndsLong.of_snoc,
      h.snaps_snoc (by simp [MacEvent.snaps])⟩
    · rw [viewOf_snoc, Lock.inside_claim]
      exact hthread.claim
    · rw [Lock.inside_claim] at hmerge
      cases hmerge
      rw [viewOf_snoc]
      exact h.merges hlong.of_snoc acc ⟨false, hin⟩
  · exact h.other rfl (fun _ => rfl) rfl (s.lock.inside_of_ne hne f).2.1 h.shared
      (by simp [MacEvent.snaps])

/-- The critical sections of the thread. -/
theorem thread_critical (h : SnapInv tr s) {f : SharedCall} {holds : Bool} {shared : RxShared}
    {ev : SharedEvent} (hin : s.lock.inside .thread = some ⟨f, holds⟩)
    (hrun : f.run s.shared = .ok (shared, ev)) :
    SnapInv (tr ++ [.shared ev]) { s with shared, lock := s.lock.release .thread } := by
  have hthread := h.thread
  rw [hin] at hthread
  have hnone : ∀ acc, ¬ Mac.Merges { s with shared, lock := s.lock.release .thread } acc :=
    Mac.not_merges (Lock.inside_release ..)
  cases hpc : s.drain with
  | loadR | loadW | loadLen | loadCl =>
    rw [hpc] at hthread
    cases hthread
  | scan r len cl cursor acc =>
    rw [hpc] at hthread
    cases hthread with
    | publishing hacc =>
      cases hrun
      refine ⟨?_, fun _ acc hmerge => absurd hmerge (hnone acc), ?_,
        h.snaps_snoc (by simp [MacEvent.snaps])⟩
      · rw [viewOf_snoc, Lock.inside_release]
        exact .scanning hacc
      · exact (h.shared.mono EndsLong.of_snoc).congr (publishFrame_snapshotLen _ _)
  | storeR r =>
    rw [hpc] at hthread
    cases hthread with
    | @merging _ acc _ hacc =>
      obtain ⟨shared', hmerge, hrun⟩ := Exec.bind_eq_ok.1 hrun
      cases hrun
      refine ⟨?_, fun _ acc hmerge => absurd hmerge (hnone acc), ⟨?_, fun hlong => ?_⟩,
        h.snaps_snoc (by simp [MacEvent.snaps])⟩
      · rw [Lock.inside_release]
        exact .merged
      · rw [mergeStats_snapshotLen hmerge]
        split_ifs
        · exact acc.snapFits
        · exact h.shared.1
      · refine (hacc.merge_iff hmerge (h.shared.2 hlong.of_snoc)).2 ?_
        exact h.merges hlong.of_snoc acc ⟨_, hin⟩

/-- **One action** of any context. -/
theorem step (h : SnapInv tr s) (hrun : macSystem.Run tr s) {ev : MacEvent} (hst : s.Step ev s') :
    SnapInv (tr ++ [ev]) s' := by
  have hhand := handInv hrun
  cases hst with
  | dmaIrq _ hirq =>
    obtain ⟨-, hframe, -, hlock⟩ := Mac.of_processCompletedHalf hhand.rxFits hirq
    refine h.other hframe.ourMac (fun _ => rfl) hframe.drain ?_ ?_ (by simp [MacEvent.snaps])
    · rw [hlock]
      split_ifs
      · exact (s.lock.inside_of_ne (by decide) _).1
      · rfl
    · rw [hframe.shared]
      exact h.shared
  | drain _ hout hdrain => exact h.drain hout hdrain
  | core0 _ hf =>
    exact h.other rfl (fun _ => rfl) rfl (s.lock.inside_of_ne (by decide) _).1 h.shared
      (by simp [MacEvent.snaps])
  | claim _ hin => exact h.claim hin
  | @critical c f shared ev _ hin hcrit =>
    have hcalls := hhand.calls c f true hin
    cases c with
    | thread => exact h.thread_critical hin hcrit
    | core0 =>
      have hinside := (s.lock.inside_of_ne (show Ctx.thread ≠ .core0 by decide) f).2.2
      cases f with
      | receive =>
        cases hcrit
        exact h.other rfl (fun _ => rfl) rfl hinside h.shared (by simp [MacEvent.snaps])
      | snapshot =>
        cases hcrit
        refine h.other rfl (fun _ => rfl) rfl hinside (printable_new _) fun stats hstats => ?_
        cases hstats
        exact h.shared
      | publish | merge | addCapped => exact hcalls.elim
    | irq =>
      have hinside := (s.lock.inside_of_ne (show Ctx.thread ≠ .irq by decide) f).2.2
      cases f with
      | addCapped capped =>
        cases hcrit
        exact h.other rfl (fun _ => rfl) rfl hinside (h.shared.congr rfl)
          (by simp [MacEvent.snaps])
      | receive | snapshot | publish | merge => exact hcalls.elim

end SnapInv

/-- **Runs** keep the invariant. -/
theorem snapInv {tr : List MacEvent} {s : Mac} (h : macSystem.Run tr s) : SnapInv tr s := by
  refine h.induction (J := SnapInv) ?_ fun tr s ev s' hrun hinv hst => hinv.step hrun hst
  rintro _ ⟨ourMac, rfl⟩
  exact .boot ourMac

/-- **The last frame can be printed**, in every run whose scans do not end with a short frame: the
snapshot is empty or holds both MACs, in the stats and in all that core 0 took.  What the merge at the
end of a scan publishes can be printed exactly when the last frame of the scan is not short. -/
theorem lastFrame_printed {tr : List MacEvent} {s : Mac} (h : macSystem.Run tr s) :
    (EndsLong s.ourMac.data tr →
      HoldsMacs s.shared.stats.lastFrameSnapshotLen ∧
      ∀ stats ∈ tr.filterMap MacEvent.snaps, HoldsMacs stats.lastFrameSnapshotLen ∧
        ∃ line, logLastFrame stats = .ok line) ∧
    ∀ acc shared', s.Merges acc → HoldsMacs s.shared.stats.lastFrameSnapshotLen →
      mergeStats s.shared acc = .ok shared' →
      (HoldsMacs shared'.stats.lastFrameSnapshotLen ↔ (viewOf s.ourMac.data tr).Long) := by
  have hinv := snapInv h
  refine ⟨fun hlong => ⟨hinv.shared.2 hlong, fun stats hstats => ?_⟩,
    fun acc shared' ⟨holds, hin⟩ hshared hmerge => ?_⟩
  · obtain ⟨hle, hmacs⟩ := hinv.snaps stats hstats
    exact ⟨hmacs hlong, (logLastFrame_ok_iff hle).2 (hmacs hlong)⟩
  · have hthread := hinv.thread
    rw [hin] at hthread
    generalize s.drain = pc at hthread
    cases hthread with
    | merging hacc => exact hacc.merge_iff hmerge hshared

theorem LineFrame.decodedRun_captured {f : LineFrame} {ourMac : List UInt8}
    (hfor : f.isFor ourMac = true) {off len : ℕ} {run : List UInt8}
    (h : FrameReceived f.captured f.before f.body off len run) :
    decodedRun ourMac f.captured off len = some (wireFrame f.body) := by
  rw [isFor] at hfor
  simp only [decodedRun, h.dstMac, hfor, if_true, h.slice, Exec.ok_bind, h.decoded]
  rfl

/-- The scan of a frame of ours ends with it as the last frame. -/
theorem LineFrame.scan_endsWith {f : LineFrame} {ourMac : List UInt8} {m : ℕ}
    (hrest : f.rest = List.replicate m true) (hfor : f.isFor ourMac = true) {image : Image}
    (himage : image.bytes = f.captured) (half : Bytes bufBytes) :
    EndsLong ourMac (Mac.deliverEvents half image (wireFrame f.body)) ∧
      ∃ pre post, Mac.deliverEvents half image (wireFrame f.body) =
        pre ++ .drain (.turn image) :: post ∧
        (viewOf ourMac pre).EndsWith (.drain (.turn image)) ∧
        (viewOf ourMac pre).last = some (wireFrame f.body) := by
  obtain ⟨off, len, run, hrec⟩ := f.received
  have hview : viewOf ourMac [.dmaIrq (some half) (some image), .drain .silent, .drain .silent,
      .drain .silent, .drain .silent, .drain (.turn image), .silent,
      .shared (.published (wireFrame f.body))] = ⟨off + len, some (wireFrame f.body)⟩ := by
    change ScanView.next ourMac .start (.drain (.turn image)) = _
    simp only [ScanView.next, ScanView.start, himage, hrec.found, f.decodedRun_captured hfor hrec,
      Option.some_or]
  have hlast := congrArg ScanView.last hview
  refine ⟨?_, _, [.silent, .shared .merged, .drain .consumed], rfl, ?_, hlast⟩
  · -- the first turn finds the frame
    have hstored : EndsLong ourMac ([] ++ [.dmaIrq (some half) (some image), .drain .silent,
        .drain .silent, .drain .silent, .drain .silent]) :=
      (EndsLong.nil ourMac).append (by simp [ScanView.EndsWith])
    have hfound : EndsLong ourMac (_ ++ [.drain (.turn image)]) := hstored.snoc fun hend => by
      have hnone : findActiveRunFrom image.bytes 0 100 = .ok none := hend
      rw [himage, hrec.found] at hnone
      cases hnone
    -- the second ends the scan
    have hpublished : EndsLong ourMac (_ ++ [.silent, .shared (.published (wireFrame f.body))]) :=
      hfound.append (by simp [ScanView.EndsWith])
    have hends : EndsLong ourMac (_ ++ [.drain (.turn image)]) :=
      hpublished.snoc fun _ frame hframe => by
        obtain rfl := Option.some.inj (hlast.symm.trans hframe)
        exact .inr (by rw [length_wireFrame]; omega)
    exact hends.append (by simp [ScanView.EndsWith])
  · rw [hview, ScanView.EndsWith, himage]
    exact f.searches hrest hrec

/-- The line after an ARP packet. -/
theorem logLastFrame_arp {n : ℕ} {s : Mac}
    (h : (Mac.boot (.zero 6)).Delivered n (wireFrame arpBody) s) : logLastFrame s.shared.stats =
      .ok (some ⟨64, true, List.replicate 6 0xff, List.replicate 6 2, 0x0806⟩) := by
  obtain ⟨acc, hacc, hmerge⟩ := h.shared
  have harp : (do
      let acc ← StatsDelta.new.record (wireFrame arpBody) (wireFrame arpBody).length true
      let shared ← mergeStats (publishFrame (Mac.boot (.zero 6)).shared (wireFrame arpBody)) acc
      logLastFrame shared.stats) =
        .ok (some ⟨64, true, List.replicate 6 0xff, List.replicate 6 2, 0x0806⟩) := by
    decide +kernel
  rwa [hacc, Exec.ok_bind, hmerge, Exec.ok_bind] at harp

/-- An image with an ARP packet is scanned, its scan ends with the packet as the last frame, and
what core 0 takes then can be printed: it says the length, the FCS and the header of the packet. -/
theorem lastFrame_printed_arp :
    ∃ tr s stats, macSystem.Run tr s ∧ EndsLong s.ourMac.data tr ∧
      (∃ pre ev post, tr = pre ++ ev :: post ∧ (viewOf s.ourMac.data pre).EndsWith ev ∧
        (viewOf s.ourMac.data pre).last = some (wireFrame arpBody)) ∧
      stats ∈ tr.filterMap MacEvent.snaps ∧ HoldsMacs stats.lastFrameSnapshotLen ∧
      logLastFrame stats =
        .ok (some ⟨64, true, List.replicate 6 0xff, List.replicate 6 2, 0x0806⟩) := by
  have hfills := LineFrame.fillsHalf_arp
  obtain ⟨m, hrest⟩ := hfills.idle
  have hfor := LineFrame.isFor_arp (Bytes.zero 6).data
  obtain ⟨image, s, himage, hpath, hdel⟩ := Mac.path_delivers (C := fun _ _ => True)
    (fun _ _ _ => trivial) (Mac.quiet_boot (.zero 6)) hfills hfor fun _ => trivial
  have hsnap := Mac.path_core0 (C := fun _ _ => True) (fun _ _ _ => trivial) (.inr rfl)
    hdel.quiet.lock (show SharedCall.snapshot.run s.shared = .ok (_, _) from rfl)
  have hboot : macSystem.Run [] (.boot (.zero 6)) := .init ⟨_, rfl⟩
  have hrun := (hboot.append hpath.of_restrict).append hsnap.of_restrict
  rw [List.nil_append] at hrun
  have hmac : s.ourMac = .zero 6 := hdel.ourMac
  obtain ⟨hlong, pre, post, hsplit, hend, hlast⟩ :=
    LineFrame.scan_endsWith hrest hfor himage hfills.half
  -- core 0 ends no scan
  have htaken : EndsLong (Bytes.zero 6).data
      (_ ++ [.silent, .silent, .shared (.snapshot s.shared.stats)]) :=
    hlong.append (by simp [ScanView.EndsWith])
  rw [← hmac] at htaken hend hlast
  have hmem : s.shared.stats ∈ List.filterMap MacEvent.snaps
      (Mac.deliverEvents hfills.half image (wireFrame LineFrame.arp.body) ++
        [.silent, .silent, .shared (.snapshot s.shared.stats)]) := by
    simp [MacEvent.snaps]
  obtain ⟨hmacs, -⟩ := ((lastFrame_printed hrun).1 htaken).2 _ hmem
  refine ⟨_, _, s.shared.stats, hrun, htaken, ⟨pre, _,
    post ++ [.silent, .silent, .shared (.snapshot s.shared.stats)], ?_, hend, hlast⟩, hmem, hmacs,
    logLastFrame_arp hdel⟩
  rw [hsplit, List.append_assoc, List.cons_append]

/-! ### A frame that is cut off -/

/-- A broadcast frame of which 9 bytes are on the line. -/
def fragment : List UInt8 :=
  lineBytes (List.replicate 7 0x55 ++ 0xd5 :: (List.replicate 6 0xff ++ [2, 0, 0]))

/-- An image with the fragment. -/
def fragmentImage : List UInt8 := fragment ++ [0]

theorem length_fragmentImage : fragmentImage.length = 103 := by decide +kernel

theorem fragment_found : findActiveRunFrom fragmentImage 0 100 = .ok (some (0, 102)) := by
  decide +kernel

theorem fragment_last : findActiveRunFrom fragmentImage 102 100 = .ok none := by decide +kernel

theorem fragment_decoded :
    decodedRun (Bytes.zero 6).data fragmentImage 0 102 =
      some [0xff, 0xff, 0xff, 0xff, 0xff, 0xff, 2, 0, 0] := by
  decide +kernel

/-- The carrier behind it, to the end of the half. -/
def carrierRest : List UInt8 := List.replicate (bufBytes - 103) 0x55

theorem active_carrierRest : ∀ i < carrierRest.length, holdsAt isActive carrierRest i = true :=
  active_replicate _

theorem settled_fragmentImage : Settled isActive fragmentImage := by
  intro i hi
  rw [length_fragmentImage] at hi
  obtain rfl : i = 102 := by omega
  decide +kernel

/-- The half that holds both. -/
def fragmentHalf : Bytes bufBytes where
  data := fragmentImage ++ carrierRest
  size := by
    rw [List.length_append, length_fragmentImage, carrierRest, List.length_replicate]
    decide

section Fragment

variable (stitchCl : Option ℕ) (stitch : StitchCounters)

/-- The turn that decodes the fragment. -/
theorem fragment_turn : ∃ t, scanTurn (Bytes.zero 6).data fragmentImage stitchCl 0 .new stitch =
    .ok (some t) ∧ t.cursor = 102 ∧ t.publish = none ∧ t.acc.haveLast = true ∧
      t.acc.lastSnapLen = 9 := by
  obtain ⟨turn, hturn, -⟩ := scanTurn_spec (Bytes.zero 6).data stitchCl .new stitch
    (.inl rfl : Boundary fragmentImage 0)
  cases turn with
  | none =>
    have hfind := findActiveRunFrom_eq_none hturn
    rw [fragment_found] at hfind
    cases hfind
  | some t =>
    obtain ⟨off, len, hfind, hscan⟩ := scanTurn_scanned hturn
    rw [fragment_found] at hfind
    cases hfind
    obtain ⟨hcursor, hrec⟩ := hscan.recorded recorded_new
    rw [fragment_decoded] at hrec
    obtain ⟨n, hn, hlen⟩ := hrec.len _ rfl
    cases hn
    refine ⟨t, hturn, hcursor, ?_, hrec.haveLast, hlen⟩
    cases hpub : t.publish with
    | none => rfl
    | some p =>
      -- a frame of 9 bytes has no FCS
      obtain ⟨dst, frame, hp⟩ := hscan.publishedFrom hpub
      obtain ⟨run, hrun, hframe⟩ := hp.decoded
      have hdec := fragment_decoded
      simp only [decodedRun, hp.peeked, hp.accepted, if_true, hrun, Exec.ok_bind, hframe,
        Option.some.injEq] at hdec
      subst hdec
      have h9 : (.ok 9 : Exec ℕ) = .ok p.length := hp.frameLen
      have := Except.ok.inj h9
      have := verifyFcs_bounds hp.fcs
      omega

theorem fragment_end (acc : StatsDelta) :
    scanTurn (Bytes.zero 6).data fragmentImage stitchCl 102 acc stitch = .ok none := by
  rw [scanTurn, fragment_last]
  rfl

end Fragment

/-- The thread enters the merge of what it recorded of the fragment. -/
theorem fragment_scanned : ∃ s acc, (macSystem.restrict fun _ _ => True).Reachable s ∧
    acc.haveLast = true ∧ acc.lastSnapLen = 9 ∧ s.lock = Lock.free.enter .thread (.merge acc) := by
  have hboot : (macSystem.restrict fun _ _ => True).Reachable (.boot (.zero 6)) := .init ⟨_, rfl⟩
  obtain ⟨slot, s, h⟩ := Mac.irq_stores (s := .boot (.zero 6)) fragmentHalf rfl (by decide) rfl rfl
  have hmac : s.ourMac = .zero 6 := h.ourMac
  obtain ⟨himage, -⟩ := h.carried.unique
    (by rw [EthRx.carried_eq_nil rfl, List.nil_append]; rfl) settled_fragmentImage
    active_carrierRest
  have hparts : rawParts slot.data slot.len.toNat = .ok fragmentImage :=
    himage ▸ Mac.rawParts_slot h.fits
  have hring : s.ring (slotOf s.imgR) = slot := by
    rw [h.ring, h.imgR]
    exact Function.update_self ..
  have hne : s.imgR ≠ s.imgW := by
    rw [h.imgR, h.imgW]
    decide
  have h₁ := (hboot.step ⟨trivial, h.step⟩).path
    (Mac.path_scanning (fun _ _ _ => trivial) h.lock h.drain hne)
  rw [Mac.scanning, hring] at h₁
  -- the two turns of the scan
  obtain ⟨t, hturn, hcursor, hpub, hlast, hlen⟩ := fragment_turn
    (if 0 < slot.cl.toNat then some slot.cl.toNat else none) s.stitch
  have h₂ : (macSystem.restrict fun _ _ => True).Reachable
      { s with
        drain := .scan s.imgR slot.len.toNat slot.cl.toNat 102 t.acc
        stitch := t.stitch } := by
    refine h₁.step (l := .drain (.turn ⟨fragmentImage, slot.cl.toNat⟩))
      ⟨trivial, Mac.drain_of_free h.lock ?_⟩
    simp only [Mac.drainStep, hring, hparts, hmac, Exec.ok_bind, hturn, Mac.afterTurn, hpub,
      hcursor, Exec.pure_eq]
  have h₃ : (macSystem.restrict fun _ _ => True).Reachable
      { s with
        drain := .storeR s.imgR
        stitch := t.stitch
        lock := s.lock.enter .thread (.merge t.acc) } := by
    refine h₂.step (l := .drain (.turn ⟨fragmentImage, slot.cl.toNat⟩))
      ⟨trivial, Mac.drain_of_free h.lock ?_⟩
    simp only [Mac.drainStep, hring, hparts, hmac, Exec.ok_bind, fragment_end, Mac.afterTurn,
      Exec.pure_eq]
  exact ⟨_, t.acc, h₃, hlast, hlen, congrArg (Lock.enter · _ _) h.lock⟩

/-- **The status log panics** on the fragment: core 0 takes stats with 9 bytes of the last frame. -/
theorem lastFrame_panics : ∃ tr s stats, macSystem.Run tr s ∧ stats ∈ tr.filterMap MacEvent.snaps ∧
    stats.lastFrameSnapshotLen = 9 ∧ ∀ line, logLastFrame stats ≠ .ok line := by
  obtain ⟨s, acc, hreach, hlast, hlen, hlock⟩ := fragment_scanned
  obtain ⟨tr, h₀⟩ := hreach.of_restrict
  obtain ⟨⟨shared, ev⟩, hrun⟩ := SharedCall.run_ok s.shared (.merge acc)
  obtain ⟨shared', hmerge, hpure⟩ := Exec.bind_eq_ok.1 hrun
  obtain ⟨rfl, rfl⟩ : shared' = shared ∧ .merged = ev := by simpa using hpure
  have hC : Mac.AllowsDrain fun _ _ => True := fun _ _ _ => trivial
  have hmerged := Mac.path_critical hC hlock hrun
  have hsnap := Mac.path_core0 hC (.inr rfl)
    (s := { s with shared := shared', lock := .free }) rfl
    (show SharedCall.snapshot.run shared' = .ok (_, _) from rfl)
  have h₁ := h₀.append (hmerged.append hsnap).of_restrict
  have h9 : shared'.stats.lastFrameSnapshotLen = 9 := by
    rw [mergeStats_snapshotLen hmerge, hlast, if_pos rfl, hlen]
  refine ⟨_, _, shared'.stats, h₁, by simp [MacEvent.snaps], h9, fun line hline => ?_⟩
  have hmacs := (logLastFrame_ok_iff (by rw [h9]; decide)).1 ⟨line, hline⟩
  rw [h9, HoldsMacs] at hmacs
  omega

end Pico10BaseT
