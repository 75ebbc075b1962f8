import Pico10BaseT.Rx.EdgeTrack
import Mathlib.Order.Iterate

/-!
# The reference decoder

`decode_edge_track` of `harness.py`, from which `decode_frame_edge_track` was ported.  Both look for
the edge of a bit within one sample of the predicted one.  At the end of the capture the reference
looks in what is left of that window, and the port takes the prediction.  So they differ in the last
bit at most: when it is predicted at the last sample or right behind it and its edge is one sample
early.

* `harness_decode_ok` : the reference returns the bytes of `refBits`.
* `refBits_eq` : the reference reads the bits of the port, but for the last where the port misses
  its edge.
* `decode_eq_reference_iff` : when the port returns what the reference does, cut to the length cap.
-/

namespace Pico10BaseT

/-! ### The source -/

namespace Harness

/-- `find_F(buf, ns)`. -/
def findF (buf : List UInt8) (ns : ℕ) : Exec (Option ℕ) := findFirstFallingEdge buf 0 ns

/-- The bits from `k` on, `n` of them, after the bit `prev`. -/
def sfdLoop (buf : List UInt8) (ns f : ℕ) : ℕ → ℕ → Option UInt8 → Exec (Option ℕ)
  | 0, _, _ => return none
  | n + 1, k, prev => do
    match ← dataBit rate60MHz buf 0 f k ns with
    | none => return none
    | some c => if c = 1 ∧ prev = some 1 then return some k else sfdLoop buf ns f n (k + 1) (some c)

/-- `find_SFD(buf, ns, F)`. -/
def findSfd (buf : List UInt8) (ns f : ℕ) : Exec (Option ℕ) := do
  let prev ← dataBit rate60MHz buf 0 f 0 ns
  sfdLoop buf ns f (1600 - 1) 1 prev

/-- The nearer of `best` and an edge at `i`. -/
def nearer (buf : List UInt8) (center : ℕ) (best : Option (ℕ × ℕ)) (i : ℕ) :
    Exec (Option (ℕ × ℕ)) := do
  let s ← sampleBit buf i
  let s' ← sampleBit buf (i - 1)
  if s ≠ s' then
    let dd := ((i : ℤ) - center).natAbs
    match best with
    | none => return some (i, dd)
    | some (_, bestd) => return if dd < bestd then some (i, dd) else best
  else return best

/-- `find_edge(buf, center, W, ns)`. -/
def findEdge (buf : List UInt8) (center W ns : ℕ) : Exec (Option ℕ) := do
  let lo := max 1 (center - W)
  let hi := min (ns - 1) (center + W)
  let best ← (List.range' lo (hi + 1 - lo)).foldlM (nearer buf center) none
  return best.map Prod.fst

/-- The loop over the bits of a frame. -/
def trackLoop (buf : List UInt8) (W ns : ℕ) : ℕ → ℕ → List Bool → Exec (List Bool)
  | 0, _, _ => .error .noFuel
  | fuel + 1, tr, bits => do
    if tr = 0 ∨ ns ≤ tr - 1 then return bits
    else
      let s ← sampleBit buf (tr - 1)
      let nxt ← findEdge buf (tr + 6) W ns
      -- coast through a missed edge
      trackLoop buf W ns fuel (nxt.getD (tr + 6)) (bits ++ [decide (s = 1)])

/-- Python's `e or d`: no edge and an edge at zero count alike. -/
def truthyOr (e : Option ℕ) (d : ℕ) : ℕ :=
  match e with
  | none | some 0 => d
  | some e => e

/-- `decode_edge_track(buf, W)`: the edge `F` and the frame, as far as they are found. -/
def decodeEdgeTrack (buf : List UInt8) (W : ℕ) : Exec (Option ℕ × Option (List UInt8)) := do
  let ns := buf.length * 8
  match ← findF buf ns with
  | none => return (none, none)
  | some f =>
    match ← findSfd buf ns f with
    | none => return (some f, none)
    | some sfd =>
      let start := sfd + 1
      let center := f + 5 + 6 * start
      let e ← findEdge buf center W ns
      let bits ← trackLoop buf W ns (loopFuel buf) (truthyOr e center) []
      return (some f, some (packBytes bits))

end Harness

/-! ### Its edges -/

/-- The edge nearest to `center` among the `ns` samples, on levels. -/
def refEdge (lv : ℕ → Bool) (ns center : ℕ) : ℕ :=
  if center < ns ∧ lv (center - 1) ≠ lv center then center
  else if center ≤ ns ∧ lv (center - 2) ≠ lv (center - 1) then center - 1
  else if center + 1 < ns ∧ lv center ≠ lv (center + 1) then center + 1
  else center

/-- The edge that the port takes for the prediction `center`. -/
def portEdge (lv : ℕ → Bool) (ns center : ℕ) : ℕ :=
  if center + 1 < ns then nextEdge lv center else center

/-- The prediction is the last sample or the end of the capture, and the edge is one sample
earlier: the port coasts past it. -/
structure Late (lv : ℕ → Bool) (ns center : ℕ) : Prop where
  le : center ≤ ns
  atEnd : ns ≤ center + 1
  edge : lv (center - 2) ≠ lv (center - 1)
  onlyEdge : center < ns → lv (center - 1) = lv center

theorem refEdge_of_late {lv : ℕ → Bool} {ns center : ℕ} (h : Late lv ns center) :
    refEdge lv ns center = center - 1 := by
  rw [refEdge, if_neg fun hc => hc.2 (h.onlyEdge hc.1), if_pos ⟨h.le, h.edge⟩]

theorem refEdge_of_not_late {lv : ℕ → Bool} {ns center : ℕ} (h : ¬Late lv ns center) :
    refEdge lv ns center = portEdge lv ns center := by
  unfold refEdge portEdge nextEdge
  by_cases hin : center + 1 < ns
  · simp only [hin, show center < ns by omega, show center ≤ ns by omega, true_and, if_true]
  · rw [if_neg hin]
    split_ifs with h0 h1 h2
    · rfl
    · refine absurd ⟨h1.1, by omega, h1.2, fun hlt => ?_⟩ h
      by_contra hne
      exact h0 ⟨hlt, hne⟩
    · exact absurd h2.1 hin
    · rfl

theorem refEdge_bounds (lv : ℕ → Bool) (ns center : ℕ) :
    center - 1 ≤ refEdge lv ns center ∧ refEdge lv ns center ≤ center + 1 := by
  unfold refEdge
  split_ifs <;> omega

/-- `Harness.nearer`, on levels. -/
def nearerOn (lv : ℕ → Bool) (center : ℕ) (best : Option (ℕ × ℕ)) (i : ℕ) : Option (ℕ × ℕ) :=
  let dd := ((i : ℤ) - center).natAbs
  if lv (i - 1) = lv i then best
  else match best with
    | none => some (i, dd)
    | some (_, bestd) => if dd < bestd then some (i, dd) else best

section Edges

variable {buf : List UInt8}

theorem foldlM_nearer {center : ℕ} {best : Option (ℕ × ℕ)} {l : List ℕ}
    (hl : ∀ i ∈ l, i < 8 * buf.length) :
    l.foldlM (Harness.nearer buf center) best =
      .ok (l.foldl (nearerOn (level buf) center) best) := by
  induction l generalizing best with
  | nil => rfl
  | cons i l ih =>
    have hi : i < 8 * buf.length := hl i List.mem_cons_self
    have hstep : Harness.nearer buf center best i = .ok (nearerOn (level buf) center best i) := by
      rw [Harness.nearer, sampleBit_ok hi, sampleBit_ok (by omega)]
      simp only [Exec.ok_bind, ne_eq, toUInt8_inj, nearerOn, eq_comm (a := level buf i), ite_not]
      split_ifs
      · rfl
      · cases best <;> rfl
    rw [List.foldlM_cons, hstep, Exec.ok_bind, List.foldl_cons]
    exact ih fun j hj => hl j (List.mem_cons_of_mem _ hj)

/-- **The window** of one sample on either side, cut at the end of the capture: an edge at the
prediction is nearest, then the lower one. -/
theorem nearest_window (lv : ℕ → Bool) (c : ℕ) {ns : ℕ} (hns : 1 ≤ ns) :
    (((List.range' (max 1 (c + 2 - 1)) (min (ns - 1) (c + 2 + 1) + 1 - max 1 (c + 2 - 1))).foldl
      (nearerOn lv (c + 2)) none).map Prod.fst).getD (c + 2) = refEdge lv ns (c + 2) := by
  have d₁ : (((c + 1 : ℕ) : ℤ) - ((c + 2 : ℕ) : ℤ)).natAbs = 1 := by omega
  have d₂ : (((c + 2 : ℕ) : ℤ) - ((c + 2 : ℕ) : ℤ)).natAbs = 0 := by omega
  have d₃ : (((c + 3 : ℕ) : ℤ) - ((c + 2 : ℕ) : ℤ)).natAbs = 1 := by omega
  have p₂ : c + 2 - 1 = c + 1 := rfl
  have p₃ : c + 3 - 1 = c + 2 := rfl
  rw [show max 1 (c + 2 - 1) = c + 1 by omega]
  simp only [refEdge, show c + 2 - 2 = c by omega, show c + 2 - 1 = c + 1 by omega, 
    show c + 2 + 1 = c + 3 by omega]
  rcases (by omega : c + 3 < ns ∨ ns = c + 3 ∨ ns = c + 2 ∨ ns ≤ c + 1) with h | rfl | rfl | h
  · rw [show min (ns - 1) (c + 3) + 1 - (c + 1) = 3 by omega]
    simp only [List.range'_succ, List.range'_zero, List.foldl_cons, List.foldl_nil, nearerOn,
      Nat.add_sub_cancel, Nat.add_assoc, Nat.reduceAdd, p₂, p₃, d₁, d₂, d₃,
      show c + 2 < ns by omega, show c + 2 ≤ ns by omega, h, true_and, ne_eq, ite_not]
    split_ifs <;> rfl
  · rw [show min (c + 3 - 1) (c + 3) + 1 - (c + 1) = 2 by omega]
    simp only [List.range'_succ, List.range'_zero, List.foldl_cons, List.foldl_nil, nearerOn,
      Nat.add_sub_cancel, Nat.add_assoc, Nat.reduceAdd, p₂, d₁, d₂, show c + 2 < c + 3 by omega,
      show c + 2 ≤ c + 3 by omega, Nat.lt_irrefl, true_and, false_and, if_false, ne_eq, ite_not]
    split_ifs <;> rfl
  · rw [show min (c + 2 - 1) (c + 3) + 1 - (c + 1) = 1 by omega]
    simp only [List.range'_succ, List.range'_zero, List.foldl_cons, List.foldl_nil, nearerOn,
      Nat.add_sub_cancel, Nat.add_assoc, Nat.reduceAdd, d₁, Nat.lt_irrefl, le_refl,
      show ¬c + 3 < c + 2 by omega, true_and, false_and, if_false, ne_eq, ite_not]
    split_ifs <;> rfl
  · rw [show min (ns - 1) (c + 3) + 1 - (c + 1) = 0 by omega]
    rw [if_neg (by omega), if_neg (by omega), if_neg (by omega)]
    rfl

/-- **The search of the reference**, in a window of one sample on either side. -/
theorem findEdge_ok {center : ℕ} (hc : 2 ≤ center) (hne : buf ≠ []) :
    ∃ e, Harness.findEdge buf center 1 (8 * buf.length) = .ok e ∧
      e.getD center = refEdge (level buf) (8 * buf.length) center := by
  have hpos : 0 < buf.length := List.length_pos_of_ne_nil hne
  obtain ⟨c, rfl⟩ : ∃ c, center = c + 2 := ⟨center - 2, by omega⟩
  refine ⟨_, ?_, nearest_window (level buf) c (by omega)⟩
  simp only [Harness.findEdge]
  rw [foldlM_nearer fun i hi => ?_]
  · rfl
  · rw [List.mem_range'_1] at hi
    omega

end Edges

/-! ### Its bits -/

/-- The data bits that the reference reads from the edge `tr` on. -/
def refBits (lv : ℕ → Bool) (ns tr : ℕ) : List Bool :=
  if tr ≤ ns then lv (tr - 1) :: refBits lv ns (refEdge lv ns (tr + 6)) else []
  termination_by ns + 1 - tr
  decreasing_by
    have := (refEdge_bounds lv ns (tr + 6)).1
    omega

theorem refBits_of_le {lv : ℕ → Bool} {ns tr : ℕ} (h : tr ≤ ns) :
    refBits lv ns tr = lv (tr - 1) :: refBits lv ns (refEdge lv ns (tr + 6)) := by
  rw [refBits, if_pos h]

theorem refBits_of_lt {lv : ℕ → Bool} {ns tr : ℕ} (h : ns < tr) : refBits lv ns tr = [] := by
  rw [refBits, if_neg (by omega)]

/-- Some prediction that the port makes from the edge `tr` on is late. -/
def EndsLate (lv : ℕ → Bool) (ns tr : ℕ) : Prop := ∃ k, Late lv ns ((advance lv ns)^[k] tr + 6)

section Bits

variable {lv : ℕ → Bool} {ns tr : ℕ}

theorem endsLate_iff :
    EndsLate lv ns tr ↔ Late lv ns (tr + 6) ∨ EndsLate lv ns (advance lv ns tr) := by
  constructor
  · rintro ⟨_ | k, h⟩
    · exact .inl h
    · exact .inr ⟨k, h⟩
  · rintro (h | ⟨k, h⟩)
    · exact ⟨0, h⟩
    · exact ⟨k + 1, h⟩

theorem not_endsLate_of_lt (h : ns < tr) : ¬EndsLate lv ns tr := by
  rintro ⟨k, hk⟩
  have hid : tr ≤ (advance lv ns)^[k] tr :=
    Function.id_le_iterate_of_id_le
      (fun t => (Nat.le_add_right t 5).trans (advance_bounds lv ns t).1) k tr
  have := hk.le
  omega

/-- The last bit of a capture. -/
theorem trackBits_last (h : tr ≤ ns) (hlast : ns < tr + 5) :
    trackBits lv ns tr = [lv (tr - 1)] := by
  have := (advance_bounds lv ns tr).1
  rw [trackBits_of_le h, trackBits_of_lt (by omega)]

theorem refBits_last (h : tr ≤ ns) (hlast : ns < tr + 5) : refBits lv ns tr = [lv (tr - 1)] := by
  have := (refEdge_bounds lv ns (tr + 6)).1
  rw [refBits_of_le h, refBits_of_lt (by omega)]

/-- **The reference reads what the port reads**, but for the last bit where the port is late: there
it reads the other level. -/
theorem refBits_eq (lv : ℕ → Bool) (ns tr : ℕ) :
    (¬EndsLate lv ns tr → refBits lv ns tr = trackBits lv ns tr) ∧
      (EndsLate lv ns tr → ∃ bits b, trackBits lv ns tr = bits ++ [b] ∧
        refBits lv ns tr = bits ++ [!b]) := by
  fun_induction trackBits lv ns tr with
  | case1 tr h ih =>
    rw [refBits_of_le h, endsLate_iff]
    by_cases hlate : Late lv ns (tr + 6)
    · refine ⟨fun hno => absurd (.inl hlate) hno, fun _ => ⟨[lv (tr - 1)], lv (tr + 5), ?_, ?_⟩⟩
      · have hadv : advance lv ns tr = tr + 6 := if_neg (by have := hlate.atEnd; omega)
        rw [hadv, trackBits_last hlate.le (by have := hlate.atEnd; omega)]
        rfl
      · have hle := hlate.le
        have hflip : lv (tr + 4) = !lv (tr + 5) := Bool.eq_not.2 hlate.edge
        rw [refEdge_of_late hlate, refBits_last (by omega) (by have := hlate.atEnd; omega),
          ← hflip]
        rfl
    · have hadv : refEdge lv ns (tr + 6) = advance lv ns tr := refEdge_of_not_late hlate
      obtain ⟨hsame, hlast⟩ := ih
      rw [hadv]
      refine ⟨fun hno => by rw [hsame fun he => hno (.inr he)], ?_⟩
      rintro (h' | h')
      · exact absurd h' hlate
      · obtain ⟨bits, b, hb, hb'⟩ := hlast h'
        exact ⟨lv (tr - 1) :: bits, b, by rw [hb, List.cons_append], by rw [hb', List.cons_append]⟩
  | case2 tr h =>
    rw [refBits_of_lt (by omega)]
    exact ⟨fun _ => rfl, fun he => absurd he (not_endsLate_of_lt (by omega))⟩

end Bits

/-! ### The cap -/

/-- Frames that differ in their last byte are cut to the same exactly if that byte is cut off. -/
theorem capFrame_snoc_eq_iff {a : List UInt8} {x y : UInt8} (hxy : x ≠ y) :
    capFrame (a ++ [x]) = capFrame (a ++ [y]) ↔ frameCap (a ++ [x]) ≤ a.length := by
  have hne : a ++ [x] ≠ a ++ [y] := fun h => hxy (by simpa using h)
  by_cases h18 : 18 ≤ a.length
  · simp only [capFrame, frameCap_append _ h18]
    constructor
    · intro h
      by_contra hlt
      rw [List.take_of_length_le, List.take_of_length_le] at h
      · exact hne h
      · rw [List.length_append, List.length_singleton]
        omega
      · rw [List.length_append, List.length_singleton]
        omega
    · intro hle
      rw [List.take_append_of_le_length hle, List.take_append_of_le_length hle]
  · have hx := frameCap_bounds (a ++ [x])
    have hy := frameCap_bounds (a ++ [y])
    rw [capFrame_of_length_le, capFrame_of_length_le]
    · exact ⟨fun h => absurd h hne, fun h => by omega⟩
    · rw [List.length_append, List.length_singleton]
      omega
    · rw [List.length_append, List.length_singleton]
      omega

/-- The last of these bits completes a byte that the cap keeps. -/
def LastByteKept (bits : List Bool) : Prop :=
  8 ∣ bits.length ∧ bits.length / 8 ≤ frameCap (packBytes bits)

/-- Another last bit gives another frame exactly if its byte is complete and kept. -/
theorem capFrame_flip_iff (bits : List Bool) (b : Bool) :
    capFrame (packBytes (bits ++ [b])) = capFrame (packBytes (bits ++ [!b])) ↔
      ¬LastByteKept (bits ++ [b]) := by
  have hlen : (bits ++ [b]).length = bits.length + 1 := by simp
  by_cases h7 : bits.length % 8 = 7
  · have hne : packByte (restBits bits ++ [b]) ≠ packByte (restBits bits ++ [!b]) := by
      intro h
      have hb := congrArg bitsOfByte h
      rw [bitsOfByte_packByte (by simp [h7]), bitsOfByte_packByte (by simp [h7])] at hb
      simp at hb
    rw [LastByteKept, packBytes_snoc_of_mod_eq b h7, packBytes_snoc_of_mod_eq (!b) h7,
      capFrame_snoc_eq_iff hne, length_packBytes, hlen]
    omega
  · rw [packBytes_snoc_of_mod_ne b h7, packBytes_snoc_of_mod_ne (!b) h7, LastByteKept, hlen]
    exact ⟨fun _ h => by omega, fun _ => rfl⟩

/-! ### Port and reference -/

/-- From the anchor on, the port misses the edge of the last bit, and that bit completes a byte
that the cap keeps. -/
def DropsLastEdge (buf : List UInt8) : Prop :=
  ∃ tr, acquire buf = .ok (some tr) ∧ EndsLate (level buf) (8 * buf.length) tr ∧
    LastByteKept (trackBits (level buf) (8 * buf.length) tr)

section Decoder

variable {buf : List UInt8}

theorem sfdLoop_eq {ns f n k : ℕ} {prev : UInt8} :
    Harness.sfdLoop buf ns f n k (some prev) = sfdEndLoop rate60MHz buf 0 f ns n k prev := by
  induction n generalizing k prev with
  | zero => rfl
  | succ n ih =>
    rw [Harness.sfdLoop, sfdEndLoop]
    refine bind_congr fun c => ?_
    cases c with
    | none => rfl
    | some c =>
      dsimp only
      rw [ih]
      simp only [Option.some_inj]

/-- The reference reads bit 0 and goes on to bit 1 where bit 0 is missing; then bit 1 is missing
too. -/
theorem harness_findSfd_eq (buf : List UInt8) (ns f : ℕ) :
    Harness.findSfd buf ns f = findSfd buf ns f := by
  rw [Harness.findSfd, findSfd, findSfdEnd]
  by_cases h : ns ≤ rate60MHz.sampleOf f 0
  · have h1 : ns ≤ rate60MHz.sampleOf f 1 := h.trans (Nat.add_le_add_left (Nat.zero_le _) _)
    have hmissing : ∀ k, ns ≤ rate60MHz.sampleOf f k → dataBit rate60MHz buf 0 f k ns = .ok none :=
      fun k hk => if_pos hk
    rw [hmissing 0 h, Exec.ok_bind, Exec.ok_bind, Harness.sfdLoop, hmissing 1 h1]
    rfl
  · rw [dataBit, if_neg h, bind_assoc, bind_assoc]
    exact bind_congr fun s => sfdLoop_eq

/-- **The loop of the reference** reads `refBits`. -/
theorem trackLoop_ok (hne : buf ≠ []) {fuel tr : ℕ} {bits : List Bool} (hpos : 1 ≤ fuel)
    (hfuel : 8 * buf.length + 2 ≤ fuel + tr) (h1 : 1 ≤ tr) :
    Harness.trackLoop buf 1 (8 * buf.length) fuel tr bits =
      .ok (bits ++ refBits (level buf) (8 * buf.length) tr) := by
  induction fuel generalizing tr bits with
  | zero => omega
  | succ fuel ih =>
    rw [Harness.trackLoop]
    by_cases hend : 8 * buf.length < tr
    · rw [if_pos (by omega), refBits_of_lt hend, List.append_nil]
      rfl
    · obtain ⟨e, he, hnext⟩ := findEdge_ok (show 2 ≤ tr + 6 by omega) hne
      have hb := refEdge_bounds (level buf) (8 * buf.length) (tr + 6)
      rw [if_neg (by omega), sampleBit_ok (by omega), Exec.ok_bind, he, Exec.ok_bind, hnext,
        refBits_of_le (by omega)]
      simp only [toUInt8_eq_one, Bool.decide_eq_true]
      rw [ih (by omega) (by omega) (by omega), List.append_assoc]
      rfl

/-- **What the reference returns** once it has found the edge and the SFD. -/
theorem harness_decode_ok (hne : buf ≠ []) {f sfd : ℕ}
    (hf : findF buf (buf.length * 8) = .ok (some f))
    (hsfd : findSfd buf (buf.length * 8) f = .ok (some sfd)) :
    Harness.decodeEdgeTrack buf 1 = .ok (some f, some (packBytes (refBits (level buf)
      (8 * buf.length) (refEdge (level buf) (8 * buf.length) (f + (5 + 6 * (sfd + 1))))))) := by
  obtain ⟨e, he, hanchor⟩ := findEdge_ok (show 2 ≤ f + (5 + 6 * (sfd + 1)) by omega) hne
  have hb := refEdge_bounds (level buf) (8 * buf.length) (f + (5 + 6 * (sfd + 1)))
  obtain ⟨h1, h2⟩ :=
    loopFuel_le buf (refEdge (level buf) (8 * buf.length) (f + (5 + 6 * (sfd + 1))))
  have hf' : Harness.findF buf (buf.length * 8) = .ok (some f) := hf
  have htr : Harness.truthyOr e (f + (5 + 6 * (sfd + 1))) =
      refEdge (level buf) (8 * buf.length) (f + (5 + 6 * (sfd + 1))) := by
    rw [← hanchor] at hb ⊢
    rcases e with _ | _ | t
    · rfl
    · rw [Option.getD_some] at hb
      omega
    · rfl
  rw [Nat.mul_comm buf.length] at hf' hsfd
  simp only [Harness.decodeEdgeTrack, Nat.mul_comm buf.length 8, hf', harness_findSfd_eq, hsfd,
    Exec.ok_bind, Nat.add_assoc, he, htr, trackLoop_ok hne h1 h2 (show 1 ≤ refEdge _ _ _ by omega),
    List.nil_append, Exec.pure_eq]

/-- What the port returns once it has found the edge and the SFD. -/
theorem port_decode_ok {f sfd : ℕ} (hf : findF buf (buf.length * 8) = .ok (some f))
    (hsfd : findSfd buf (buf.length * 8) f = .ok (some sfd)) :
    decodeFrameEdgeTrack buf = .ok (some (capFrame (packBytes (trackBits (level buf)
      (8 * buf.length) (anchor (level buf) (8 * buf.length) f sfd))))) := by
  rw [decodeFrameEdgeTrack_spec (acquire_eq_some hf hsfd) ?_]
  · rfl
  · rintro _ ⟨rfl⟩
    exact anchor_pos _ _ _ _

/-- **Both frames**, from what both acquire. -/
theorem capFrame_eq_iff {lv : ℕ → Bool} {ns f sfd : ℕ} :
    capFrame (packBytes (trackBits lv ns (anchor lv ns f sfd))) =
        capFrame (packBytes (refBits lv ns (refEdge lv ns (f + (5 + 6 * (sfd + 1)))))) ↔
      ¬(EndsLate lv ns (anchor lv ns f sfd) ∧
        LastByteKept (trackBits lv ns (anchor lv ns f sfd))) := by
  have hanchor : anchor lv ns f sfd = portEdge lv ns (f + (5 + 6 * (sfd + 1))) := rfl
  generalize f + (5 + 6 * (sfd + 1)) = center at hanchor ⊢
  by_cases hlate : Late lv ns center
  · -- a capture of one bit has no byte
    have hle := hlate.le
    have hend := hlate.atEnd
    have hport : anchor lv ns f sfd = center := hanchor.trans (if_neg (by omega))
    rw [hport, refEdge_of_late hlate, trackBits_last hle (by omega),
      refBits_last (by omega) (by omega), packBytes_of_length_lt (by simp),
      packBytes_of_length_lt (by simp)]
    simp [LastByteKept]
  · rw [refEdge_of_not_late hlate, ← hanchor]
    obtain ⟨hsame, hlast⟩ := refBits_eq lv ns (anchor lv ns f sfd)
    by_cases hends : EndsLate lv ns (anchor lv ns f sfd)
    · obtain ⟨bits, b, hb, hb'⟩ := hlast hends
      rw [hb, hb', capFrame_flip_iff]
      exact ⟨fun h hc => h hc.2, fun h hc => h ⟨hends, hc⟩⟩
    · rw [hsame hends]
      exact ⟨fun _ hc => hends hc.1, fun _ => rfl⟩

/-- **When the port equals its reference.**  For every capture with at least one byte both return.
The port finds no frame exactly if the reference finds none, and returns the frame of the reference
cut to its cap exactly if it does not miss the edge of a last bit that counts. -/
theorem decode_eq_reference_iff (hne : buf ≠ []) :
    ∃ r f ref, decodeFrameEdgeTrack buf = .ok r ∧ Harness.decodeEdgeTrack buf 1 = .ok (f, ref) ∧
      (r = none ↔ ref = none) ∧ (r = ref.map capFrame ↔ ¬DropsLastEdge buf) := by
  have hpos : 0 < buf.length := List.length_pos_of_ne_nil hne
  have hlen : 0 + buf.length * 8 ≤ 8 * buf.length := by omega
  obtain ⟨f, hf, -, -⟩ := findFirstFallingEdge_spec 0 (buf.length * 8) (by omega) hlen
  cases f with
  | none =>
    have hnone : acquire buf = .ok none := by simp [acquire, findF, hf]
    refine ⟨none, none, none, ?_, ?_, Iff.rfl, ?_⟩
    · simp [decodeFrameEdgeTrack, hnone]
    · simp [Harness.decodeEdgeTrack, Harness.findF, hf]
    · simp [DropsLastEdge, hnone]
  | some f =>
    obtain ⟨sfd, hsfd, -, -⟩ := findSfdEnd_spec rate60MHz f hlen 1600
    cases sfd with
    | none =>
      have hnone : acquire buf = .ok none := by simp [acquire, findF, hf, findSfd, hsfd]
      refine ⟨none, some f, none, ?_, ?_, Iff.rfl, ?_⟩
      · simp [decodeFrameEdgeTrack, hnone]
      · simp [Harness.decodeEdgeTrack, Harness.findF, hf, harness_findSfd_eq, findSfd, hsfd]
      · simp [DropsLastEdge, hnone]
    | some sfd =>
      refine ⟨_, _, _, port_decode_ok hf hsfd, harness_decode_ok hne hf hsfd, by simp, ?_⟩
      rw [Option.map_some, Option.some_inj, capFrame_eq_iff, DropsLastEdge, acquire_eq_some hf hsfd]
      simp

end Decoder

/-! ### The last bit of a byte -/

/-- An edge, an SFD and one byte; the last sample is low or high. -/
def oneByteRun (lastByte : UInt8) : List UInt8 :=
  [0x1f, 0xfe, 0xff, 0xff, 0xff, 0xff, 0xff, lastByte]

/-- Without an edge at the end the frames are equal, and no edge is missed. -/
theorem decode_eq_reference_iff_steady :
    decodeFrameEdgeTrack (oneByteRun 0xff) = .ok (some [0xff]) ∧
      ¬DropsLastEdge (oneByteRun 0xff) := by
  obtain ⟨r, f, ref, hr, href, -, hiff⟩ :=
    decode_eq_reference_iff (show oneByteRun 0xff ≠ [] by decide)
  have hport : decodeFrameEdgeTrack (oneByteRun 0xff) = .ok (some [0xff]) := by decide +kernel
  have hharness : Harness.decodeEdgeTrack (oneByteRun 0xff) 1 = .ok (some 5, some [0xff]) := by
    decide +kernel
  rw [hport] at hr
  rw [hharness] at href
  cases hr
  cases href
  exact ⟨hport, hiff.1 (by decide)⟩

/-- With an edge before the last sample the port reads the last bit behind it, the reference before
it. -/
theorem decode_ne_reference :
    decodeFrameEdgeTrack (oneByteRun 0x7f) = .ok (some [0x7f]) ∧
      Harness.decodeEdgeTrack (oneByteRun 0x7f) 1 = .ok (some 5, some [0xff]) ∧
      some [0x7f] ≠ (some [0xff]).map capFrame := by
  decide +kernel

end Pico10BaseT
