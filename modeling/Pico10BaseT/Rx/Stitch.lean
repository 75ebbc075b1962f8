import Pico10BaseT.LTS.Basic
import Pico10BaseT.Rx.ActiveRuns

/-!
# Stitching the captured halves

`EthRx::poll_into` copies a completed DMA half into an image slot, but keeps the active run that the
half ends with and puts it in front of the next image, so that a frame which straddles two halves
is in one image.

`Carried` is what one call does to the stream; `stitching` follows it along a run: the images and
the carry are the halves, and the scan of the images is the scan of the stream.
-/

namespace Pico10BaseT

/-- Bytes per half-buffer. -/
def bufBytes : ℕ := 4096 * 4

/-- Max bytes carried into the next half for straddling frames. -/
def maxCarryBytes : ℕ := 16 * 1024

/-- Image slot size: max carry plus one half. -/
def stitchBufBytes : ℕ := bufBytes + maxCarryBytes

/-- The RX state besides the DMA channels: the frame straddling halves, and the times it did not
fit. -/
structure EthRx where
  carry : Bytes maxCarryBytes
  carryLen : ℕ
  carryCapped : UInt32

/-- Result of `pollInto`. -/
inductive PollOutcome
  /-- No image to process. -/
  | nothing
  /-- The first `len` bytes of the slot are the image; `carryPrefix` of them were carried. -/
  | image (len carryPrefix : ℕ)
  deriving DecidableEq, Repr

/-- The trailing active run, down to `k`: where it starts, and the cap count. -/
def tailScan (newBytes : List UInt8) (k : ℕ) : ℕ → UInt32 → Exec (ℕ × UInt32)
  | 0, capped => return (0, capped)
  | t + 1, capped => do
    if t + 1 ≤ k then return (t + 1, capped)
    else if maxCarryBytes ≤ bufBytes - (t + 1) then return (t + 1, capped + 1)
    else
      let b ← index newBytes t
      if isIdle b then return (t + 1, capped) else tailScan newBytes k t capped

namespace EthRx

/-- An empty carry. -/
def new : EthRx where
  carry := .zero _
  carryLen := 0
  carryCapped := 0

/-- Read and reset `carryCapped`. -/
def takeCarryCapped (rx : EthRx) : EthRx × UInt32 := ({ rx with carryCapped := 0 }, rx.carryCapped)

/-- Leading active run of the half; only meaningful if a frame straddled in. -/
def leadingRun (rx : EthRx) (newBytes : Bytes bufBytes) : Exec ℕ :=
  if 0 < rx.carryLen then scanWhile isActive newBytes.data bufBytes 0 else pure 0

/-- Service a completed half: write carry and settled bytes into `slot`, and update the carry.
`half` is `none` while the DMA is not done. -/
def pollInto (rx : EthRx) (half : Option (Bytes bufBytes)) (slot : Bytes stitchBufBytes) :
    Exec (EthRx × Bytes stitchBufBytes × PollOutcome) := do
  match half with
  | none => return (rx, slot, .nothing)
  | some newBytes =>
    let cl := rx.carryLen
    let k ← rx.leadingRun newBytes
    if 0 < cl ∧ k = bufBytes then
      if cl + bufBytes ≤ maxCarryBytes then
        let carry ← rx.carry.copyFromSlice cl newBytes.data
        return ({ rx with carry, carryLen := cl + bufBytes }, slot, .nothing)
      else
        return ({ rx with carryCapped := rx.carryCapped + 1, carryLen := 0 }, slot, .nothing)
    else
      -- carry the unterminated trailing run into the next half
      let (tailStart, carryCapped) ← tailScan newBytes.data k bufBytes rx.carryCapped
      let carried ← slice rx.carry.data 0 cl
      let slot ← slot.copyFromSlice 0 carried
      let settled ← slice newBytes.data 0 tailStart
      let slot ← slot.copyFromSlice cl settled
      let rest ← slice newBytes.data tailStart bufBytes
      let carry ← rx.carry.copyFromSlice 0 rest
      return ({ carry, carryLen := bufBytes - tailStart, carryCapped }, slot,
        .image (cl + tailStart) cl)

end EthRx

/-! ### One call -/

/-- The trailing scan stops behind an idle byte, or at `k`; it never reaches the cap. -/
theorem tailScan_spec {b : List UInt8} (k : ℕ) {t : ℕ} (capped : UInt32) (hb : b.length = bufBytes)
    (ht : t ≤ bufBytes) :
    ∃ ts, tailScan b k t capped = .ok (ts, capped) ∧ ts ≤ t ∧
      (k < ts → holdsAt isActive b (ts - 1) = false) ∧
      ∀ i, ts ≤ i → i < t → holdsAt isActive b i = true := by
  induction t with
  | zero => exact ⟨0, rfl, le_rfl, by omega, fun i h1 h2 => by omega⟩
  | succ t ih =>
    rw [tailScan]
    by_cases hk : t + 1 ≤ k
    · rw [if_pos hk]
      exact ⟨t + 1, rfl, le_rfl, by omega, fun i h1 h2 => by omega⟩
    have hcap : ¬ maxCarryBytes ≤ bufBytes - (t + 1) := by
      simp only [maxCarryBytes, bufBytes]
      omega
    rw [if_neg hk, if_neg hcap, index_eq_byteAt (by omega), Exec.ok_bind]
    cases hidle : isIdle (byteAt b t) with
    | true =>
      exact ⟨t + 1, rfl, le_rfl, fun _ => holdsAt_isActive_of_isIdle (by omega) hidle,
        fun i h1 h2 => by omega⟩
    | false =>
      obtain ⟨ts, hts, h1, h2, h3⟩ := ih (by omega)
      refine ⟨ts, hts, by omega, h2, fun i hi hit => ?_⟩
      rcases Nat.lt_or_ge i t with hlt | hge
      · exact h3 i hi hlt
      · obtain rfl : i = t := by omega
        rw [holdsAt_eq_byteAt (by omega), isActive, hidle]
        rfl

/-- The bytes carried. -/
def EthRx.carried (rx : EthRx) : List UInt8 := rx.carry.data.take rx.carryLen

/-- What a call leaves: an image and the new carry are the old carry and the half; the image is
settled and the carry is one run. -/
structure Carried (rx : EthRx) (half : Bytes bufBytes) (image : List UInt8) (rx' : EthRx) : Prop where
  append : image ++ rx'.carried = rx.carried ++ half.data
  settled : Settled isActive image
  active : ∀ i < rx'.carried.length, holdsAt isActive rx'.carried i = true

/-- The cut is where the stream has its last idle byte. -/
theorem Carried.unique {rx rx' : EthRx} {half : Bytes bufBytes} {image a b : List UInt8}
    (h : Carried rx half image rx') (happ : rx.carried ++ half.data = a ++ b)
    (ha : Settled isActive a) (hb : ∀ i < b.length, holdsAt isActive b i = true) :
    image = a ∧ rx'.carried = b := by
  have hcut := h.append.trans happ
  obtain rfl := h.settled.append_unique ha h.active hb hcut
  exact ⟨rfl, List.append_cancel_left hcut⟩

/-- The carry fits its buffer. -/
def EthRx.Fits (rx : EthRx) : Prop := rx.carryLen ≤ maxCarryBytes

theorem EthRx.length_carried {rx : EthRx} (h : rx.Fits) : rx.carried.length = rx.carryLen := by
  rw [carried, List.length_take, rx.carry.size]
  exact Nat.min_eq_left h

/-- Every byte of the half is active. -/
def AllActive (half : Bytes bufBytes) : Prop := ∀ i < bufBytes, holdsAt isActive half.data i = true

/-- The leading run is the whole half, or ends at an idle byte. -/
theorem EthRx.leadingRun_spec (rx : EthRx) (half : Bytes bufBytes) :
    ∃ k, rx.leadingRun half = .ok k ∧
      (0 < rx.carryLen → k = bufBytes → AllActive half) ∧
      (0 < rx.carryLen → k ≠ bufBytes → k < bufBytes ∧ holdsAt isActive half.data k = false) ∧
      (¬ 0 < rx.carryLen → k = 0) := by
  unfold leadingRun
  by_cases hcl : 0 < rx.carryLen
  · obtain ⟨k, hk, -, hle, hact, hidle⟩ :=
      scanWhile_spec isActive
        (.inr (show 0 + bufBytes ≤ half.data.length by rw [half.size, Nat.zero_add]))
    rw [if_pos hcl]
    refine ⟨k, hk, fun _ he i hi => hact i (Nat.zero_le i) (he ▸ hi), fun _ hne => ?_,
      fun h => absurd hcl h⟩
    exact ⟨by omega, hidle (by omega)⟩
  · rw [if_neg hcl]
    exact ⟨0, rfl, fun h => absurd h hcl, fun h => absurd h hcl, fun _ => rfl⟩

/-- The trailing run of a half that is not one run: `ts` ends the settled bytes, and is positive
when something was carried in. -/
theorem EthRx.tailScan_leadingRun {rx : EthRx} {half : Bytes bufBytes} {k : ℕ} (capped : UInt32)
    (hk : rx.leadingRun half = .ok k) (hne : ¬(0 < rx.carryLen ∧ k = bufBytes)) :
    ∃ ts, tailScan half.data k bufBytes capped = .ok (ts, capped) ∧ ts ≤ bufBytes ∧
      (0 < ts → holdsAt isActive half.data (ts - 1) = false) ∧ (0 < rx.carryLen → 0 < ts) ∧
      ∀ i, ts ≤ i → i < bufBytes → holdsAt isActive half.data i = true := by
  obtain ⟨ts, hts, h1, h2, h3⟩ := tailScan_spec k capped half.size le_rfl
  obtain ⟨k', hk', -, hidle, hzero⟩ := rx.leadingRun_spec half
  rw [hk] at hk'
  cases hk'
  refine ⟨ts, hts, h1, ?_⟩
  by_cases hcl : 0 < rx.carryLen
  · obtain ⟨hlt, hat⟩ := hidle hcl fun he => hne ⟨hcl, he⟩
    -- the leading run ends at `k`, so the trailing run starts behind it
    have hkts : k < ts := by
      by_contra hn
      rw [h3 k (by omega) hlt] at hat
      exact Bool.noConfusion hat
    exact ⟨fun _ => h2 hkts, fun _ => by omega, h3⟩
  · have hk0 := hzero hcl
    exact ⟨fun h => h2 (by omega), fun h => absurd h hcl, h3⟩

theorem holdsAt_drop {α : Type*} {p : α → Bool} {l : List α} {t i : ℕ} :
    holdsAt p (l.drop t) i = holdsAt p l (t + i) := by
  simp [holdsAt]

theorem holdsAt_take {α : Type*} {p : α → Bool} {l : List α} {t i : ℕ} (h : i < t) :
    holdsAt p (l.take t) i = holdsAt p l i := by
  simp [holdsAt, h]

/-- With something carried, a half that is one run is over budget. -/
theorem EthRx.pollInto_overBudget {rx : EthRx} {half : Bytes bufBytes} {k : ℕ}
    (slot : Bytes stitchBufBytes) (hk : rx.leadingRun half = .ok k)
    (hall : 0 < rx.carryLen ∧ k = bufBytes) :
    rx.pollInto (some half) slot =
      .ok ({ rx with carryCapped := rx.carryCapped + 1, carryLen := 0 }, slot, .nothing) := by
  have hover : ¬ rx.carryLen + bufBytes ≤ maxCarryBytes := by
    have := hall.1
    simp only [bufBytes, maxCarryBytes] at *
    omega
  simp only [pollInto, hk, Exec.ok_bind, if_pos hall, if_neg hover, Exec.pure_eq]

/-- Any other half is cut at `ts`: the image ends there, and the rest is carried. -/
theorem EthRx.pollInto_cut {rx : EthRx} (h : rx.Fits) {half : Bytes bufBytes} {k ts : ℕ}
    (slot : Bytes stitchBufBytes) (hk : rx.leadingRun half = .ok k)
    (hne : ¬(0 < rx.carryLen ∧ k = bufBytes)) (hle : ts ≤ bufBytes)
    (hts : tailScan half.data k bufBytes rx.carryCapped = .ok (ts, rx.carryCapped)) :
    ∃ rx' slot', rx.pollInto (some half) slot =
        .ok (rx', slot', .image (rx.carryLen + ts) rx.carryLen) ∧
      rx'.Fits ∧ rx'.carryCapped = rx.carryCapped ∧ rx'.carried = half.data.drop ts ∧
      slot'.data.take (rx.carryLen + ts) = rx.carried ++ half.data.take ts := by
  have hsize := half.size
  have hfit : rx.carryLen ≤ maxCarryBytes := h
  have hbuf : bufBytes - ts ≤ maxCarryBytes := by
    simp only [bufBytes, maxCarryBytes]
    omega
  have hlc := EthRx.length_carried h
  have hlt : (half.data.take ts).length = ts := by
    rw [List.length_take]
    omega
  have hld : (half.data.drop ts).length = bufBytes - ts := by rw [List.length_drop, hsize]
  -- the five slices are inside their arrays
  have hcarried : slice rx.carry.data 0 rx.carryLen = .ok rx.carried :=
    slice_zero (by rw [rx.carry.size]; exact hfit)
  have hsettled : slice half.data 0 ts = .ok (half.data.take ts) := slice_zero (by omega)
  have hrest : slice half.data ts bufBytes = .ok (half.data.drop ts) := by
    rw [slice_ok hle (by omega), List.take_of_length_le hld.le]
  have hsum : rx.carried.length + (half.data.take ts).length ≤ stitchBufBytes := by
    rw [hlc, hlt, stitchBufBytes]
    omega
  obtain ⟨slot₁, hs₁, hd₁⟩ := slot.copyFromSlice_ok 0
    (show 0 + rx.carried.length ≤ stitchBufBytes by omega)
  obtain ⟨slot₂, hs₂, hd₂⟩ := slot₁.copyFromSlice_ok rx.carryLen
    (show rx.carryLen + (half.data.take ts).length ≤ stitchBufBytes by omega)
  obtain ⟨carry, hc, hdc⟩ := rx.carry.copyFromSlice_ok 0
    (show 0 + (half.data.drop ts).length ≤ maxCarryBytes by omega)
  refine ⟨⟨carry, bufBytes - ts, rx.carryCapped⟩, slot₂, ?_, hbuf, rfl, ?_, ?_⟩
  · simp only [pollInto, hk, Exec.ok_bind, if_neg hne, hts, hcarried, hs₁, hsettled, hs₂, hrest,
      hc, Exec.pure_eq]
  · have := take_splice (show 0 + (half.data.drop ts).length ≤ rx.carry.data.length by
      rw [hld, rx.carry.size]
      omega)
    rwa [← hdc, hld, Nat.zero_add, List.take_zero, List.nil_append] at this
  · have := take_splice_splice (b := slot.data) (slot.size.symm ▸ hsum)
    rwa [← hd₁, hlc, hlt, ← hd₂] at this

/-- A cut between runs. -/
theorem carried_of_cut {rx rx' : EthRx} (h : rx.Fits) {half : Bytes bufBytes} {image : List UInt8}
    {ts : ℕ} (hle : ts ≤ bufBytes) (himage : image = rx.carried ++ half.data.take ts)
    (hcarry : rx'.carried = half.data.drop ts)
    (hlast : 0 < ts → holdsAt isActive half.data (ts - 1) = false)
    (hpos : 0 < rx.carryLen → 0 < ts)
    (htail : ∀ i, ts ≤ i → i < bufBytes → holdsAt isActive half.data i = true) :
    Carried rx half image rx' := by
  have hsize := half.size
  have hlc := EthRx.length_carried h
  refine ⟨?_, fun i hi => ?_, fun i hi => ?_⟩
  · rw [himage, hcarry, List.append_assoc, List.take_append_drop]
  · rw [himage, List.length_append, hlc, List.length_take] at hi
    have hts0 : 0 < ts := by
      by_contra hn
      have : ¬ 0 < rx.carryLen := fun hcl => hn (hpos hcl)
      omega
    obtain rfl : i = rx.carried.length + (ts - 1) := by omega
    rw [himage, holdsAt_append_right, holdsAt_take (by omega)]
    exact hlast hts0
  · rw [hcarry, List.length_drop] at hi
    rw [hcarry, holdsAt_drop]
    exact htail _ (by omega) (by omega)

/-- **One completed half**: a call returns.  It produces an image, or else the carry is dropped and
counted; this is so when something is carried and every byte of the half is active. -/
theorem EthRx.pollInto_spec {rx : EthRx} (h : rx.Fits) (half : Bytes bufBytes)
    (slot : Bytes stitchBufBytes) :
    ∃ rx' slot' out, rx.pollInto (some half) slot = .ok (rx', slot', out) ∧ rx'.Fits ∧
      ((∃ len, out = .image len rx.carryLen ∧ len ≤ stitchBufBytes ∧ rx.carryLen ≤ len ∧
          rx'.carryCapped = rx.carryCapped ∧ ¬(0 < rx.carryLen ∧ AllActive half) ∧
          Carried rx half (slot'.data.take len) rx') ∨
        (out = .nothing ∧ slot' = slot ∧ 0 < rx.carryLen ∧ AllActive half ∧
          rx' = { rx with carryCapped := rx.carryCapped + 1, carryLen := 0 })) := by
  obtain ⟨k, hk, hactive, -, -⟩ := rx.leadingRun_spec half
  by_cases hall : 0 < rx.carryLen ∧ k = bufBytes
  · exact ⟨_, slot, _, EthRx.pollInto_overBudget slot hk hall, Nat.zero_le _,
      .inr ⟨rfl, rfl, hall.1, hactive hall.1 hall.2, rfl⟩⟩
  · obtain ⟨ts, hts, hle, hlast, hpos, htail⟩ := EthRx.tailScan_leadingRun rx.carryCapped hk hall
    obtain ⟨rx', slot', hpoll, hfit', hcapped, hcarry, himage⟩ :=
      EthRx.pollInto_cut h slot hk hall hle hts
    have hfit : rx.carryLen ≤ maxCarryBytes := h
    refine ⟨rx', slot', _, hpoll, hfit', .inl ⟨_, rfl, ?_, Nat.le_add_right _ _, hcapped, ?_,
      carried_of_cut h hle himage hcarry hlast hpos htail⟩⟩
    · rw [stitchBufBytes]
      omega
    · rintro ⟨hcl, hact⟩
      have hts0 := hpos hcl
      have := hlast hts0
      rw [hact _ (by omega)] at this
      exact Bool.noConfusion this

/-! ### Runs of the stream -/

/-- The bytes at `off` are a maximal active run of the stream, already ended by an idle byte. -/
structure StreamRun (stream : List UInt8) (off : ℕ) (bytes : List UInt8) : Prop where
  isRun : IsRun isActive stream off bytes.length
  eq : (stream.drop off).take bytes.length = bytes
  terminated : off + bytes.length < stream.length

/-- The scan of an image, or nothing where the image was discarded. -/
def scanKept (kept : Bool) (image : List UInt8) : Exec (List (ℕ × ℕ)) :=
  if kept then scanActive image else pure []

/-- The scan of images one by one, those marked `false` discarded: offset in the stream and bytes
of every run found. -/
def scanImages : ℕ → List (Bool × List UInt8) → Exec (List (ℕ × List UInt8))
  | _, [] => return []
  | base, (kept, image) :: images => do
    let runs ← scanKept kept image
    let rest ← scanImages (base + image.length) images
    return (runs.map fun r => (base + r.1, (image.drop r.1).take r.2)) ++ rest

/-- The `len` bytes at `off` and the byte behind them lie in one image that is kept. -/
def InKept : List (Bool × List UInt8) → ℕ → ℕ → Prop
  | [], _, _ => False
  | (kept, image) :: images, off, len =>
    (kept = true ∧ off + len < image.length) ∨
      ∃ off', off = image.length + off' ∧ InKept images off' len

/-- The stream that the images are cut from. -/
def streamOf (images : List (Bool × List UInt8)) : List UInt8 := (images.map Prod.snd).flatten

/-- The runs found in one image, as pieces of the stream. -/
theorem scanKept_spec (kept : Bool) {image : List UInt8} (hset : Settled isActive image) (base : ℕ) :
    ∃ runs, scanKept kept image = .ok runs ∧
      let pieces := runs.map fun r => (base + r.1, (image.drop r.1).take r.2)
      pieces.Pairwise (fun a b => a.1 + a.2.length < b.1) ∧
      (∀ r ∈ pieces, r.1 + r.2.length < base + image.length) ∧
      ∀ r, r ∈ pieces ↔ ∃ off, r.1 = base + off ∧ kept = true ∧
        IsRun isActive image off r.2.length ∧ (image.drop off).take r.2.length = r.2 ∧
        minRun ≤ r.2.length := by
  cases kept with
  | false => exact ⟨[], rfl, .nil, by simp, fun r => by simp⟩
  | true =>
    obtain ⟨runs, hruns, hsorted, hmem⟩ := scanActive_spec image
    have hlen : ∀ r ∈ runs, ((image.drop r.1).take r.2).length = r.2 := fun r hr => by
      have := ((hmem r).1 hr).1.le_length
      rw [List.length_take, List.length_drop]
      omega
    refine ⟨runs, hruns, ?_, ?_, fun r => ?_⟩
    · refine List.pairwise_map.2 (hsorted.imp_of_mem fun {a b} ha _ hab => ?_)
      rw [hlen a ha]
      omega
    · intro _ hpiece
      obtain ⟨r, hr, rfl⟩ := List.mem_map.1 hpiece
      have := ((hmem r).1 hr).1.lt_length hset
      rw [hlen r hr]
      omega
    · rw [List.mem_map]
      constructor
      · rintro ⟨q, hq, rfl⟩
        obtain ⟨hrun, hmin⟩ := (hmem q).1 hq
        rw [hlen q hq]
        exact ⟨q.1, rfl, rfl, hrun, rfl, hmin⟩
      · rintro ⟨off, hoff, -, hrun, heq, hmin⟩
        exact ⟨(off, r.2.length), (hmem _).2 ⟨hrun, hmin⟩, Prod.ext hoff.symm heq⟩

section Scan

variable {a b bytes : List UInt8} {off : ℕ}

theorem streamRun_append (ha : Settled isActive a) :
    StreamRun (a ++ b) off bytes ↔
      (IsRun isActive a off bytes.length ∧ (a.drop off).take bytes.length = bytes) ∨
        ∃ off', off = a.length + off' ∧ StreamRun b off' bytes := by
  have hin : IsRun isActive a off bytes.length →
      ((a ++ b).drop off).take bytes.length = (a.drop off).take bytes.length := fun h => by
    have hle := h.le_length
    rw [List.drop_append_of_le_length (by omega), List.take_append_of_le_length]
    rw [List.length_drop]
    omega
  have hout : ∀ off', off = a.length + off' → (a ++ b).drop off = b.drop off' := by
    rintro off' rfl
    rw [List.drop_append, List.drop_of_length_le (by omega), List.nil_append,
      Nat.add_sub_cancel_left]
  constructor
  · rintro ⟨hrun, heq, hterm⟩
    rcases (isRun_append ha).1 hrun with h | ⟨off', rfl, h⟩
    · exact .inl ⟨h, hin h ▸ heq⟩
    · refine .inr ⟨off', rfl, h, hout off' rfl ▸ heq, ?_⟩
      rw [List.length_append] at hterm
      omega
  · rintro (⟨h, heq⟩ | ⟨off', rfl, h⟩)
    · refine ⟨(isRun_append ha).2 (.inl h), (hin h).trans heq, ?_⟩
      have := h.lt_length ha
      rw [List.length_append]
      omega
    · refine ⟨(isRun_append ha).2 (.inr ⟨off', rfl, h.isRun⟩), ?_, ?_⟩
      · rw [hout off' rfl]
        exact h.eq
      · have := h.terminated
        rw [List.length_append]
        omega

/-- **Scanning the images** finds the runs of the stream that lie in the images kept, in order. -/
theorem scanImages_spec {images : List (Bool × List UInt8)}
    (hs : ∀ im ∈ images, Settled isActive im.2) (rest : List UInt8) (base : ℕ) :
    ∃ rs, scanImages base images = .ok rs ∧
      rs.Pairwise (fun a b => a.1 + a.2.length < b.1) ∧
      ∀ r, r ∈ rs ↔ ∃ off, r.1 = base + off ∧ StreamRun (streamOf images ++ rest) off r.2 ∧
        minRun ≤ r.2.length ∧ InKept images off r.2.length := by
  induction images generalizing base with
  | nil => exact ⟨[], rfl, .nil, fun r => by simp [InKept]⟩
  | cons im images ih =>
    obtain ⟨kept, image⟩ := im
    have hset : Settled isActive image := hs _ List.mem_cons_self
    obtain ⟨runs, hruns, hsorted, hend, hmem⟩ := scanKept_spec kept hset base
    obtain ⟨rs, hrs, hsorted', hmem'⟩ :=
      ih (fun im him => hs im (List.mem_cons_of_mem _ him)) (base + image.length)
    simp only [scanImages, hruns, hrs, Exec.ok_bind, Exec.pure_eq]
    refine ⟨_, rfl, List.pairwise_append.2 ⟨hsorted, hsorted', fun a ha c hc => ?_⟩, fun r => ?_⟩
    · obtain ⟨off, hoff, -⟩ := (hmem' c).1 hc
      have := hend a ha
      omega
    · have hstream : streamOf ((kept, image) :: images) ++ rest =
          image ++ (streamOf images ++ rest) := by
        simp [streamOf]
      simp only [List.mem_append, hmem, hmem', hstream, streamRun_append hset, InKept]
      constructor
      · rintro (⟨off, hoff, hk, hrun, heq, hmin⟩ | ⟨off, hoff, hrun, hmin, hkept⟩)
        · exact ⟨off, hoff, .inl ⟨hrun, heq⟩, hmin, .inl ⟨hk, hrun.lt_length hset⟩⟩
        · exact ⟨image.length + off, by omega, .inr ⟨off, rfl, hrun⟩, hmin, .inr ⟨off, rfl, hkept⟩⟩
      · rintro ⟨off, hoff, ⟨hrun, heq⟩ | ⟨off', rfl, hrun⟩, hmin, hkept⟩
        · have hlt := hrun.lt_length hset
          rcases hkept with ⟨hk, -⟩ | ⟨off', rfl, -⟩
          · exact .inl ⟨off, hoff, hk, hrun, heq, hmin⟩
          · omega
        · rcases hkept with ⟨-, hlt⟩ | ⟨off'', he, hkept⟩
          · omega
          · obtain rfl : off' = off'' := by omega
            exact .inr ⟨off', by omega, hrun, hmin, hkept⟩

/-- Every ended run lies in one image, when the stream goes on with a run that is not ended. -/
theorem inKept_of_streamRun {images : List (List UInt8)} (hs : ∀ im ∈ images, Settled isActive im)
    {rest : List UInt8} (hrest : ∀ i < rest.length, holdsAt isActive rest i = true)
    (h : StreamRun (images.flatten ++ rest) off bytes) :
    InKept (images.map (true, ·)) off bytes.length := by
  induction images generalizing off with
  | nil =>
    have hright := h.isRun.right
    have hterm := h.terminated
    rw [List.flatten_nil, List.nil_append] at hright hterm
    rw [hrest _ hterm] at hright
    exact Bool.noConfusion hright
  | cons image images ih =>
    have hset : Settled isActive image := hs _ List.mem_cons_self
    rw [List.flatten_cons, List.append_assoc, streamRun_append hset] at h
    rcases h with ⟨hrun, -⟩ | ⟨off', rfl, h⟩
    · exact .inl ⟨rfl, hrun.lt_length hset⟩
    · exact .inr ⟨off', rfl, ih (fun im him => hs im (List.mem_cons_of_mem _ him)) h⟩

end Scan

/-! ### Whole runs -/

/-- The image in the slot. -/
def PollOutcome.imageIn (slot : Bytes stitchBufBytes) : PollOutcome → Option (List UInt8)
  | .nothing => none
  | .image len _ => some (slot.data.take len)

/-- A call for a completed half: the image it produced, and whether it counted a dropped carry. -/
structure RxEvent where
  half : Bytes bufBytes
  image : Option (List UInt8)
  capped : Bool

/-- The RX state from an empty carry, under any halves and with any slots to write to. -/
def rxSystem : System EthRx RxEvent where
  init rx := rx.carryLen = 0
  step rx ev rx' := ∃ slot slot' out, rx.pollInto (some ev.half) slot = .ok (rx', slot', out) ∧
    ev.image = out.imageIn slot' ∧ ev.capped = decide (rx'.carryCapped ≠ rx.carryCapped)

/-- The images of a run. -/
def imagesOf (tr : List RxEvent) : List (List UInt8) := tr.filterMap (·.image)

/-- The captured stream of a run. -/
def halvesOf (tr : List RxEvent) : List UInt8 := (tr.map (·.half.data)).flatten

/-- What a run without a dropped carry leaves: the images and the carry are the stream, every image
is settled, and the carry is one run. -/
structure StitchInv (tr : List RxEvent) (rx : EthRx) : Prop where
  append : (imagesOf tr).flatten ++ rx.carried = halvesOf tr
  settled : ∀ image ∈ imagesOf tr, Settled isActive image
  active : ∀ i < rx.carried.length, holdsAt isActive rx.carried i = true

/-- Everything one completed half can do. -/
theorem rxSystem_cases {rx rx' : EthRx} {ev : RxEvent} (h : rx.Fits) (hst : rxSystem.step rx ev rx') :
    rx'.Fits ∧ ((∃ image, ev.image = some image ∧ image.length ≤ stitchBufBytes ∧
        Carried rx ev.half image rx') ∨
      (ev.image = none ∧ ev.capped = true)) := by
  obtain ⟨slot, slot', out, hpoll, himg, hcap⟩ := hst
  obtain ⟨rx₁, slot₁, out₁, hpoll₁, hfit, hcases⟩ := EthRx.pollInto_spec h ev.half slot
  rw [hpoll] at hpoll₁
  cases hpoll₁
  refine ⟨hfit, ?_⟩
  rcases hcases with ⟨len, rfl, hlen, -, -, -, hcarried⟩ | ⟨rfl, -, -, -, rfl⟩
  · refine .inl ⟨_, himg, ?_, hcarried⟩
    rw [List.length_take]
    omega
  · refine .inr ⟨himg, ?_⟩
    simp [hcap]

theorem rx_fits {tr : List RxEvent} {rx : EthRx} (h : rxSystem.Run tr rx) :
    rx.Fits ∧ ∀ image ∈ imagesOf tr, image.length ≤ stitchBufBytes := by
  refine h.induction (J := fun tr rx => rx.Fits ∧ ∀ image ∈ imagesOf tr, image.length ≤ _) ?_ ?_
  · intro rx h0
    exact ⟨Nat.le_trans (Nat.le_of_eq h0) (Nat.zero_le _), by simp [imagesOf]⟩
  · rintro tr rx ev rx' - ⟨hfit, hlen⟩ hst
    obtain ⟨hfit', hcases⟩ := rxSystem_cases hfit hst
    refine ⟨hfit', fun image him => ?_⟩
    rw [imagesOf, List.filterMap_append, List.mem_append] at him
    rcases him with him | him
    · exact hlen image him
    · rcases hcases with ⟨image', he, hle, -⟩ | ⟨he, -⟩
      · simp only [List.filterMap_cons, he, List.filterMap_nil, List.mem_singleton] at him
        exact him ▸ hle
      · simp [he] at him

theorem rx_stitchInv {tr : List RxEvent} {rx : EthRx} (h : rxSystem.Run tr rx)
    (hcap : ∀ ev ∈ tr, ev.capped = false) : StitchInv tr rx := by
  refine h.induction (J := fun tr rx => (∀ ev ∈ tr, ev.capped = false) → StitchInv tr rx) ?_ ?_ hcap
  · intro rx h0 _
    have hnil : rx.carried = [] := by rw [EthRx.carried, show rx.carryLen = 0 from h0, List.take_zero]
    exact ⟨by simp [imagesOf, halvesOf, hnil], by simp [imagesOf], by simp [hnil]⟩
  · intro tr rx ev rx' hrun ih hst hcap
    have hinv := ih fun ev hev => hcap ev (List.mem_append_left _ hev)
    obtain ⟨-, hcases⟩ := rxSystem_cases (rx_fits hrun).1 hst
    rcases hcases with ⟨image, he, -, hcar⟩ | ⟨-, hev⟩
    · have himg : imagesOf (tr ++ [ev]) = imagesOf tr ++ [image] := by
        simp [imagesOf, he]
      have hhalf : halvesOf (tr ++ [ev]) = halvesOf tr ++ ev.half.data := by
        simp [halvesOf]
      refine ⟨?_, ?_, hcar.active⟩
      · rw [himg, hhalf, List.flatten_append, List.flatten_singleton, List.append_assoc, hcar.append,
          ← List.append_assoc, hinv.append]
      · rw [himg]
        intro im him
        rcases List.mem_append.1 him with him | him
        · exact hinv.settled im him
        · rw [List.mem_singleton.1 him]
          exact hcar.settled
    · rw [hcap ev (by simp)] at hev
      exact Bool.noConfusion hev

theorem isIdle_getLast {image : List UInt8} (h : Settled isActive image) {b : UInt8}
    (hb : image.getLast? = some b) : isIdle b = true := by
  rw [List.getLast?_eq_getElem?] at hb
  have hlt := (List.getElem?_eq_some_iff.1 hb).1
  have := h (image.length - 1) (by omega)
  simpa [holdsAt, hb, isActive] using this

/-- **Carry stitching loses and splits nothing.**  In every run the carry fits its buffer and every
image its slot, and a further half is handled.  In a run without a dropped carry the images and the
carry are the stream; an image that is not empty ends with an idle byte; the scan of the images
finds the ended runs of the stream that are long enough, in order; and discarding images removes
the runs that lie in them, each as a whole. -/
theorem stitching {tr : List RxEvent} {rx : EthRx} (h : rxSystem.Run tr rx) :
    (rx.carryLen ≤ maxCarryBytes ∧ (∀ image ∈ imagesOf tr, image.length ≤ stitchBufBytes) ∧
      ∀ half slot, ∃ r, rx.pollInto (some half) slot = .ok r) ∧
    ((∀ ev ∈ tr, ev.capped = false) →
      (imagesOf tr).flatten ++ rx.carried = halvesOf tr ∧
      (∀ image ∈ imagesOf tr, ∀ b, image.getLast? = some b → isIdle b = true) ∧
      (∃ rs, scanImages 0 ((imagesOf tr).map (true, ·)) = .ok rs ∧
        rs.Pairwise (fun a b => a.1 + a.2.length < b.1) ∧
        ∀ r, r ∈ rs ↔ StreamRun (halvesOf tr) r.1 r.2 ∧ minRun ≤ r.2.length) ∧
      (∀ off bytes, StreamRun (halvesOf tr) off bytes →
        InKept ((imagesOf tr).map (true, ·)) off bytes.length) ∧
      ∀ flagged, flagged.map Prod.snd = imagesOf tr →
        ∃ rs, scanImages 0 flagged = .ok rs ∧
          rs.Pairwise (fun a b => a.1 + a.2.length < b.1) ∧
          ∀ r, r ∈ rs ↔ StreamRun (halvesOf tr) r.1 r.2 ∧ minRun ≤ r.2.length ∧
            InKept flagged r.1 r.2.length) := by
  obtain ⟨hfit, hlen⟩ := rx_fits h
  refine ⟨⟨hfit, hlen, fun half slot => ?_⟩, fun hcap => ?_⟩
  · obtain ⟨_, _, _, hpoll, -⟩ := EthRx.pollInto_spec hfit half slot
    exact ⟨_, hpoll⟩
  obtain ⟨happ, hset, hact⟩ := rx_stitchInv h hcap
  -- the scan of any choice of the images
  have hscan : ∀ flagged, flagged.map Prod.snd = imagesOf tr →
      ∃ rs, scanImages 0 flagged = .ok rs ∧
        rs.Pairwise (fun a b => a.1 + a.2.length < b.1) ∧
        ∀ r, r ∈ rs ↔ StreamRun (halvesOf tr) r.1 r.2 ∧ minRun ≤ r.2.length ∧
          InKept flagged r.1 r.2.length := by
    intro flagged hflag
    have hset' : ∀ im ∈ flagged, Settled isActive im.2 := fun im him =>
      hset _ (hflag ▸ List.mem_map_of_mem him)
    obtain ⟨rs, hrs, hsorted, hmem⟩ := scanImages_spec hset' rx.carried 0
    refine ⟨rs, hrs, hsorted, fun r => ?_⟩
    rw [hmem, streamOf, hflag, happ]
    simp
  have hwhole : ∀ off bytes, StreamRun (halvesOf tr) off bytes →
      InKept ((imagesOf tr).map (true, ·)) off bytes.length := fun off bytes hr =>
    inKept_of_streamRun hset hact (happ ▸ hr)
  refine ⟨happ, fun image him b hb => isIdle_getLast (hset image him) hb, ?_, hwhole, hscan⟩
  obtain ⟨rs, hrs, hsorted, hmem⟩ := hscan ((imagesOf tr).map (true, ·)) (by simp)
  refine ⟨rs, hrs, hsorted, fun r => (hmem r).trans ⟨fun h => ⟨h.1, h.2.1⟩, fun h => ?_⟩⟩
  exact ⟨h.1, h.2, hwhole _ _ h.1⟩

/-- A call that does not drop the carry is a step, with an image. -/
theorem rxSystem_image {rx : EthRx} (h : rx.Fits) {half : Bytes bufBytes}
    (hkeep : ¬(0 < rx.carryLen ∧ AllActive half)) :
    ∃ image rx', rxSystem.step rx ⟨half, some image, false⟩ rx' ∧ rx'.Fits ∧
      Carried rx half image rx' := by
  obtain ⟨rx', slot, out, hpoll, hfit, hcases⟩ := EthRx.pollInto_spec h half (.zero _)
  rcases hcases with ⟨len, rfl, -, -, hcap, -, hcarried⟩ | ⟨-, -, hpos, hall, -⟩
  · exact ⟨_, rx', ⟨_, _, _, hpoll, rfl, by simp [hcap]⟩, hfit, hcarried⟩
  · exact absurd ⟨hpos, hall⟩ hkeep

/-- A block between idle bytes is the one run of a stream, so the scan finds nothing else. -/
theorem eq_singleton_of_streamRun {a b c : List UInt8} (ha : ∀ i, holdsAt isActive a i = false)
    (hmin : minRun ≤ b.length) (hb : ∀ i < b.length, holdsAt isActive b i = true)
    (hc : ∀ i, holdsAt isActive c i = false) (hne : c ≠ []) {rs : List (ℕ × List UInt8)}
    (hsorted : rs.Pairwise fun x y => x.1 + x.2.length < y.1)
    (hmem : ∀ r, r ∈ rs ↔ StreamRun (a ++ (b ++ c)) r.1 r.2 ∧ minRun ≤ r.2.length) :
    rs = [(a.length, b)] := by
  have hpos : 0 < b.length := Nat.lt_of_lt_of_le (by decide) hmin
  have hbetween : ∀ off len, IsRun isActive (a ++ (b ++ c)) off len ↔ off = a.length ∧
      len = b.length := fun _ _ => isRun_between ha hpos hb hc
  have hone : ∀ r, r ∈ rs ↔ r = (a.length, b) := by
    rintro ⟨off, bytes⟩
    rw [hmem, Prod.mk.injEq]
    constructor
    · rintro ⟨⟨hrun, heq, -⟩, -⟩
      obtain ⟨rfl, hlen⟩ := (hbetween off bytes.length).1 hrun
      rw [hlen, List.drop_left, List.take_left] at heq
      exact ⟨rfl, heq.symm⟩
    · rintro ⟨rfl, rfl⟩
      refine ⟨⟨(hbetween _ _).2 ⟨rfl, rfl⟩, by rw [List.drop_left, List.take_left], ?_⟩, hmin⟩
      have := List.length_pos_of_ne_nil hne
      simp only [List.length_append]
      omega
  cases rs with
  | nil => exact absurd ((hone _).2 rfl) List.not_mem_nil
  | cons r rs =>
    obtain rfl := (hone r).1 List.mem_cons_self
    cases rs with
    | nil => rfl
    | cons r rs =>
      obtain rfl := (hone r).1 (by simp)
      have := (List.pairwise_cons.1 hsorted).1 _ List.mem_cons_self
      omega

/-- Idle, and 60 bytes of a run. -/
def straddleHead : Bytes bufBytes where
  data := List.replicate (bufBytes - 60) 0 ++ List.replicate 60 0x55
  size := by rw [List.length_append, List.length_replicate, List.length_replicate]; rfl

/-- 60 bytes more of the run, and idle. -/
def straddleTail : Bytes bufBytes where
  data := List.replicate 60 0x55 ++ List.replicate (bufBytes - 60) 0
  size := by rw [List.length_append, List.length_replicate, List.length_replicate]; rfl

theorem append_straddle : straddleHead.data ++ straddleTail.data =
    List.replicate (bufBytes - 60) 0 ++
      (List.replicate 120 0x55 ++ List.replicate (bufBytes - 60) 0) := by
  rw [show 120 = 60 + 60 from rfl, List.replicate_add 60 60]
  simp only [straddleHead, straddleTail, List.append_assoc]

theorem settled_straddle :
    Settled isActive (List.replicate 120 0x55 ++ List.replicate (bufBytes - 60) 0) := by
  intro i hi
  rw [List.length_append, List.length_replicate, List.length_replicate] at hi
  obtain ⟨k, rfl⟩ := Nat.exists_eq_add_of_le (show 120 ≤ i by unfold bufBytes at hi; omega)
  exact (holdsAt_append_right k).trans (idle_replicate _ k)

theorem not_allActive_straddleTail : ¬AllActive straddleTail := by
  intro hall
  have hlast : holdsAt isActive straddleTail.data 60 = false :=
    (holdsAt_append_right 0).trans (idle_replicate _ 0)
  rw [hall 60 (by decide)] at hlast
  cases hlast

/-- A run of 120 bytes straddles two halves.  It is carried, and the scan of the two images finds it
as a whole. -/
theorem stitching_straddling :
    ∃ ev₁ ev₂ rx, rxSystem.Run [ev₁, ev₂] rx ∧ ev₁.half = straddleHead ∧ ev₂.half = straddleTail ∧
      imagesOf [ev₁, ev₂] = [List.replicate (bufBytes - 60) 0,
        List.replicate 120 0x55 ++ List.replicate (bufBytes - 60) 0] ∧
      scanImages 0 ((imagesOf [ev₁, ev₂]).map (true, ·)) =
        .ok [(bufBytes - 60, List.replicate 120 0x55)] := by
  -- the first half: the beginning of the run is carried
  have hfresh : ¬(0 < EthRx.new.carryLen ∧ AllActive straddleHead) := fun h =>
    absurd h.1 (Nat.lt_irrefl 0)
  obtain ⟨image₁, rx₁, hst₁, hfit₁, hcarried₁⟩ :=
    rxSystem_image (show EthRx.new.Fits from Nat.zero_le _) hfresh
  have hhead : EthRx.new.carried ++ straddleHead.data =
      List.replicate (bufBytes - 60) 0 ++ List.replicate 60 0x55 := rfl
  obtain ⟨himage₁, hcarry₁⟩ :=
    hcarried₁.unique hhead (fun i _ => idle_replicate _ i) (active_replicate 60)
  -- the second half: it is continued
  obtain ⟨image₂, rx₂, hst₂, -, hcarried₂⟩ :=
    rxSystem_image hfit₁ fun h => not_allActive_straddleTail h.2
  have htail : rx₁.carried ++ straddleTail.data =
      (List.replicate 120 0x55 ++ List.replicate (bufBytes - 60) 0) ++ [] := by
    rw [hcarry₁, List.append_nil, straddleTail, ← List.append_assoc, ← List.replicate_add]
  obtain ⟨himage₂, -⟩ := hcarried₂.unique htail settled_straddle (by simp)
  have hruns : rxSystem.Run [⟨straddleHead, some image₁, false⟩, ⟨straddleTail, some image₂, false⟩]
      rx₂ := ((System.Run.init rfl).snoc hst₁).snoc hst₂
  have hstream : halvesOf [⟨straddleHead, some image₁, false⟩, ⟨straddleTail, some image₂, false⟩] =
      List.replicate (bufBytes - 60) 0 ++
        (List.replicate 120 0x55 ++ List.replicate (bufBytes - 60) 0) := by
    rw [← append_straddle]
    simp only [halvesOf, List.map_cons, List.map_nil, List.flatten_cons, List.flatten_nil,
      List.append_nil]
  -- the stream has one run
  obtain ⟨-, -, ⟨rs, hrs, hsorted, hmem⟩, -⟩ := (stitching hruns).2 (by simp)
  rw [hstream] at hmem
  have hone := eq_singleton_of_streamRun (idle_replicate _) (by decide) (active_replicate 120)
    (idle_replicate _) (List.ne_nil_of_length_pos (by rw [List.length_replicate]; decide)) hsorted
    hmem
  rw [List.length_replicate] at hone
  subst himage₁ himage₂ hone
  exact ⟨_, _, rx₂, hruns, rfl, rfl, rfl, hrs⟩

end Pico10BaseT
