import Pico10BaseT.Rust.Exec
import Pico10BaseT.Runs.Maximal

/-!
# Active runs of an image

An idle line gives bytes `0x00` or `0xFF`; every other byte is active.  `findActiveRunFrom` searches
the next active run of a minimal length, and the scan of an image calls it from the end of the last
run.

* `findActiveRunFrom_spec` : the search returns the next maximal run that is long enough.
* `scanActive_spec` : the scan returns all of them, in order.
-/

namespace Pico10BaseT

/-- A byte of an idle line. -/
def isIdle (b : UInt8) : Bool := b = 0x00 || b = 0xFF

/-- A byte of a carrier. -/
def isActive (b : UInt8) : Bool := !isIdle b

/-- `while i < len && p(bytes[i]) { i += 1 }`, with `n = len - i`. -/
def scanWhile (p : UInt8 → Bool) (bytes : List UInt8) : ℕ → ℕ → Exec ℕ
  | 0, i => return i
  | n + 1, i => do
    let b ← index bytes i
    if p b then scanWhile p bytes n (i + 1) else return i

/-- One turn of the search: skip the idle bytes, then measure the run. -/
def activeRunLoop (bytes : List UInt8) (minLen : ℕ) : ℕ → ℕ → Exec (Option (ℕ × ℕ))
  | 0, _ => .error .noFuel
  | fuel + 1, i => do
    let runStart ← scanWhile isIdle bytes (bytes.length - i) i
    if bytes.length ≤ runStart then return none
    else
      let i ← scanWhile isActive bytes (bytes.length - runStart) runStart
      if minLen ≤ i - runStart then return some (runStart, i - runStart)
      else if bytes.length ≤ i then return none
      else activeRunLoop bytes minLen fuel i

/-- Next active run of at least `minLen` bytes, from `start`. -/
def findActiveRunFrom (bytes : List UInt8) (start minLen : ℕ) : Exec (Option (ℕ × ℕ)) :=
  activeRunLoop bytes minLen (bytes.length + 1) start

/-- The shortest run that is decoded. -/
def minRun : ℕ := 100

/-- `while let Some((off, len)) = find_active_run_from(bytes, cursor, 100)` with
`cursor = off + len`: the runs found. -/
def scanLoop (bytes : List UInt8) : ℕ → ℕ → Exec (List (ℕ × ℕ))
  | 0, _ => .error .noFuel
  | fuel + 1, cursor => do
    match ← findActiveRunFrom bytes cursor minRun with
    | none => return []
    | some (off, len) =>
      let rest ← scanLoop bytes fuel (off + len)
      return (off, len) :: rest

/-- The runs that the scan of an image decodes. -/
def scanActive (bytes : List UInt8) : Exec (List (ℕ × ℕ)) := scanLoop bytes (bytes.length + 1) 0

/-! ### The search -/

variable {bytes : List UInt8}

theorem holdsAt_eq_byteAt {p : UInt8 → Bool} {i : ℕ} (h : i < bytes.length) :
    holdsAt p bytes i = p (byteAt bytes i) := by
  simp [holdsAt, byteAt, h]

/-- The bytes from `i` on are inside the list, or there are none. -/
theorem remaining (bytes : List UInt8) (i : ℕ) :
    bytes.length - i = 0 ∨ i + (bytes.length - i) ≤ bytes.length := by
  omega

theorem scanWhile_spec (p : UInt8 → Bool) {n i : ℕ} (h : n = 0 ∨ i + n ≤ bytes.length) :
    ∃ j, scanWhile p bytes n i = .ok j ∧ i ≤ j ∧ j ≤ i + n ∧
      (∀ k, i ≤ k → k < j → holdsAt p bytes k = true) ∧
      (j < i + n → holdsAt p bytes j = false) := by
  induction n generalizing i with
  | zero => exact ⟨i, rfl, le_rfl, by omega, fun k h1 h2 => by omega, fun h => by omega⟩
  | succ n ih =>
    rw [scanWhile, index_eq_byteAt (by omega), Exec.ok_bind]
    have hat : holdsAt p bytes i = p (byteAt bytes i) := holdsAt_eq_byteAt (by omega)
    cases hp : p (byteAt bytes i) with
    | false =>
      exact ⟨i, rfl, le_rfl, by omega, fun k h1 h2 => by omega, fun _ => hat.trans hp⟩
    | true =>
      obtain ⟨j, hj, h1, h2, h3, h4⟩ := ih (i := i + 1) (by omega)
      refine ⟨j, hj, by omega, by omega, fun k hk hkj => ?_, fun hlt => h4 (by omega)⟩
      rcases Nat.eq_or_lt_of_le hk with rfl | hk
      · exact hat.trans hp
      · exact h3 k hk hkj

/-- An idle line has no active byte. -/
theorem idle_replicate (n i : ℕ) : holdsAt isActive (List.replicate n 0x00) i = false := by
  rw [holdsAt_replicate, show isActive 0x00 = false by decide, Bool.and_false]

/-- A carrier has no other. -/
theorem active_replicate (n : ℕ) : ∀ i < (List.replicate n (0x55 : UInt8)).length,
    holdsAt isActive (List.replicate n 0x55) i = true := by
  intro i hi
  rw [List.length_replicate] at hi
  rw [holdsAt_replicate, decide_eq_true hi]
  decide

theorem holdsAt_isActive_of_isIdle {i : ℕ} (h : i < bytes.length)
    (hi : isIdle (byteAt bytes i) = true) : holdsAt isActive bytes i = false := by
  rw [holdsAt_eq_byteAt h, isActive, hi]
  rfl

theorem holdsAt_isIdle {i : ℕ} (h : i < bytes.length) :
    holdsAt isIdle bytes i = !holdsAt isActive bytes i := by
  simp [holdsAt, isActive, h]

/-- `start` is a place from which a search misses no part of a run. -/
def Boundary (bytes : List UInt8) (start : ℕ) : Prop :=
  start = 0 ∨ holdsAt isActive bytes (start - 1) = false ∨ holdsAt isActive bytes start = false

/-- The result of a search from `start`: the first run that is long enough, if there is one. -/
def FirstRun (bytes : List UInt8) (start minLen : ℕ) : Option (ℕ × ℕ) → Prop
  | none => ∀ off len, IsRun isActive bytes off len → start ≤ off → len < minLen
  | some (off, len) => IsRun isActive bytes off len ∧ start ≤ off ∧ minLen ≤ len ∧
      ∀ off' len', IsRun isActive bytes off' len' → start ≤ off' → minLen ≤ len' → off ≤ off'

/-- A search may start later, if it passes over no run that is long enough. -/
theorem FirstRun.skip {start next minLen : ℕ} {r : Option (ℕ × ℕ)} (h : FirstRun bytes next minLen r)
    (hle : start ≤ next) (hskip : ∀ off len, IsRun isActive bytes off len → start ≤ off →
      minLen ≤ len → next ≤ off) : FirstRun bytes start minLen r := by
  cases r with
  | none =>
    intro off len hrun hoff
    by_contra hn
    exact hn (h off len hrun (hskip off len hrun hoff (by omega)))
  | some r =>
    obtain ⟨hrun, hoff, hmin, hfirst⟩ := h
    exact ⟨hrun, by omega, hmin, fun off' len' hrun' hoff' hmin' =>
      hfirst off' len' hrun' (hskip off' len' hrun' hoff' hmin') hmin'⟩

/-- No run starts at the end of the image. -/
theorem firstRun_of_length_le {start minLen : ℕ} (h : bytes.length ≤ start) :
    FirstRun bytes start minLen none := by
  intro off len hrun hoff
  have := hrun.le_length
  have := hrun.pos
  omega

/-- **Skipping the idle bytes** skips no run, and stops at the start of one or at the end. -/
theorem skipIdle_spec {i : ℕ} (hi : Boundary bytes i) :
    ∃ st, scanWhile isIdle bytes (bytes.length - i) i = .ok st ∧ i ≤ st ∧
      (∀ off len, IsRun isActive bytes off len → i ≤ off → st ≤ off) ∧
      (st < bytes.length → holdsAt isActive bytes st = true ∧
        (st = 0 ∨ holdsAt isActive bytes (st - 1) = false)) := by
  obtain ⟨st, hst, h1, h2, hidle, hstop⟩ := scanWhile_spec isIdle (remaining bytes i)
  have hfalse : ∀ k, i ≤ k → k < st → holdsAt isActive bytes k = false := fun k hk hkst => by
    have := hidle k hk hkst
    rwa [holdsAt_isIdle (by omega), Bool.not_eq_true'] at this
  refine ⟨st, hst, h1, fun off len hrun hle => hrun.le_of_forall_false hle hfalse, fun hlt => ?_⟩
  have hat : holdsAt isActive bytes st = true := by
    have := hstop (by omega)
    rwa [holdsAt_isIdle hlt, Bool.not_eq_false'] at this
  refine ⟨hat, ?_⟩
  rcases Nat.eq_or_lt_of_le h1 with rfl | hlt'
  · rcases hi with h0 | hl | hc
    · exact .inl h0
    · exact .inr hl
    · rw [hat] at hc
      exact Bool.noConfusion hc
  · exact .inr (hfalse (st - 1) (by omega) (by omega))

/-- **Measuring** from the start of a run. -/
theorem measureRun_spec {st : ℕ} (hat : holdsAt isActive bytes st = true)
    (hleft : st = 0 ∨ holdsAt isActive bytes (st - 1) = false) :
    ∃ en, scanWhile isActive bytes (bytes.length - st) st = .ok en ∧ st ≤ en ∧
      IsRun isActive bytes st (en - st) := by
  have hlt := lt_length_of_holdsAt hat
  obtain ⟨en, hen, h1, h2, hact, hstop⟩ := scanWhile_spec isActive (remaining bytes st)
  have hright : holdsAt isActive bytes en = false := by
    rcases Nat.lt_or_ge en bytes.length with hl | hl
    · exact hstop (by omega)
    · exact holdsAt_of_length_le hl
  have hpos : st ≠ en := by
    rintro rfl
    rw [hat] at hright
    exact Bool.noConfusion hright
  exact ⟨en, hen, h1, by omega, fun k hk hk' => hact k hk (by omega), hleft,
    by rwa [Nat.add_sub_cancel' h1]⟩

theorem activeRunLoop_spec {minLen fuel i : ℕ} (hpos : 1 ≤ fuel)
    (hfuel : bytes.length + 1 ≤ fuel + i) (hi : Boundary bytes i) :
    ∃ r, activeRunLoop bytes minLen fuel i = .ok r ∧ FirstRun bytes i minLen r := by
  induction fuel generalizing i with
  | zero => omega
  | succ fuel ih =>
    obtain ⟨st, hst, h1, hskip, hstart⟩ := skipIdle_spec hi
    rw [activeRunLoop, hst, Exec.ok_bind]
    by_cases hend : bytes.length ≤ st
    · rw [if_pos hend]
      exact ⟨none, rfl, (firstRun_of_length_le hend).skip h1
        fun off len hr hle _ => hskip off len hr hle⟩
    obtain ⟨hat, hleft⟩ := hstart (by omega)
    obtain ⟨en, hen, h2, hrun⟩ := measureRun_spec hat hleft
    rw [if_neg hend, hen, Exec.ok_bind]
    by_cases hmin : minLen ≤ en - st
    · rw [if_pos hmin]
      exact ⟨_, rfl, hrun, h1, hmin, fun off' len' hr hle _ => hskip off' len' hr hle⟩
    -- the run is too short: any other starts behind it
    have hnext : ∀ off len, IsRun isActive bytes off len → i ≤ off → minLen ≤ len → en ≤ off := by
      intro off len hr hle hlen
      rcases Nat.eq_or_lt_of_le (hskip off len hr hle) with rfl | hlt
      · have := hr.len_eq hrun
        omega
      · have := hrun.lt_of_lt hr hlt
        omega
    rw [if_neg hmin]
    by_cases hlast : bytes.length ≤ en
    · rw [if_pos hlast]
      exact ⟨none, rfl, (firstRun_of_length_le hlast).skip (by omega) hnext⟩
    · rw [if_neg hlast]
      have hpos := hrun.pos
      have hright := hrun.right
      rw [Nat.add_sub_cancel' h2] at hright
      obtain ⟨r, hr, hfirst⟩ := ih (i := en) (by omega) (by omega) (.inr (.inr hright))
      exact ⟨r, hr, hfirst.skip (by omega) hnext⟩

/-- **The search** returns the next maximal run that is long enough. -/
theorem findActiveRunFrom_spec {start : ℕ} (minLen : ℕ) (h : Boundary bytes start) :
    ∃ r, findActiveRunFrom bytes start minLen = .ok r ∧ FirstRun bytes start minLen r :=
  activeRunLoop_spec (by omega) (by omega) h

/-! ### The scan -/

theorem scanLoop_spec {fuel cursor : ℕ} (hpos : 1 ≤ fuel) (hfuel : bytes.length + 1 ≤ fuel + cursor)
    (hc : Boundary bytes cursor) :
    ∃ rs, scanLoop bytes fuel cursor = .ok rs ∧
      rs.Pairwise (fun a b => a.1 + a.2 < b.1) ∧
      ∀ r, r ∈ rs ↔ IsRun isActive bytes r.1 r.2 ∧ cursor ≤ r.1 ∧ minRun ≤ r.2 := by
  induction fuel generalizing cursor with
  | zero => omega
  | succ fuel ih =>
    obtain ⟨r, hr, hfound⟩ := findActiveRunFrom_spec minRun hc
    rw [scanLoop, hr, Exec.ok_bind]
    cases r with
    | none =>
      refine ⟨[], rfl, .nil, fun r => ⟨by simp, fun ⟨h1, h2, h3⟩ => ?_⟩⟩
      have := hfound r.1 r.2 h1 h2
      omega
    | some r =>
      obtain ⟨off, len⟩ := r
      obtain ⟨hrun, hle, hlen, hfirst⟩ := hfound
      have hpos := hrun.pos
      have hbound := hrun.le_length
      obtain ⟨rs, hrs, hsorted, hmem⟩ :=
        ih (by omega) (by omega) (.inr (.inr hrun.right))
      simp only [hrs, Exec.ok_bind, Exec.pure_eq]
      -- runs from the cursor on are the first one and those behind it
      have hbehind : ∀ r : ℕ × ℕ, IsRun isActive bytes r.1 r.2 → off < r.1 → off + len < r.1 :=
        fun r h hlt => hrun.lt_of_lt h hlt
      refine ⟨_, rfl, List.pairwise_cons.2 ⟨fun r hmr => ?_, hsorted⟩, fun r => ?_⟩
      · obtain ⟨h1, h2, -⟩ := (hmem r).1 hmr
        exact hbehind r h1 (by omega)
      · rw [List.mem_cons, hmem]
        constructor
        · rintro (rfl | ⟨h1, h2, h3⟩)
          · exact ⟨hrun, hle, hlen⟩
          · exact ⟨h1, by omega, h3⟩
        · rintro ⟨h1, h2, h3⟩
          rcases Nat.eq_or_lt_of_le (hfirst r.1 r.2 h1 h2 h3) with heq | hlt
          · exact .inl (Prod.ext heq.symm (by rw [← heq] at h1; exact h1.len_eq hrun))
          · exact .inr ⟨h1, (hbehind r h1 hlt).le, h3⟩

/-- **The scan** returns the maximal runs that are long enough, in order. -/
theorem scanActive_spec (bytes : List UInt8) :
    ∃ rs, scanActive bytes = .ok rs ∧ rs.Pairwise (fun a b => a.1 + a.2 < b.1) ∧
      ∀ r, r ∈ rs ↔ IsRun isActive bytes r.1 r.2 ∧ minRun ≤ r.2 := by
  obtain ⟨rs, hrs, hsorted, hmem⟩ :=
    @scanLoop_spec bytes (bytes.length + 1) 0 (by omega) (by omega) (.inl rfl)
  exact ⟨rs, hrs, hsorted, fun r => by simp [hmem]⟩

end Pico10BaseT
