import Mathlib.Algebra.Order.Group.Nat
import Mathlib.Tactic.IntervalCases
import Pico10BaseT.Pio.Machine

/-!
# Carrier sense

The carrier-detect program, which samples RO on every second cycle and compares it with the level
it saw when it started over.  `run_track` says where the program stands while RO keeps its level;
`exists_round` says that every cycle of a run is in such a round.

* `not_executes_irqClear` : while RO keeps changing as Manchester code does, a carrier once seen is
  not given up.
* `executes_irqSet` : a carrier is seen only where two samples differ.
* `irq_of_constant` : a line that stands still is idle at the latest after 64 cycles.
-/

namespace Pico10BaseT

namespace CarrierSense

open Pio

/-- PIO IRQ flag the carrier-detect SM sets while RO is active. -/
def carrierIrqFlag : Fin 8 := 0

/-! The labels of the program. -/

abbrev restart : ℕ := 0
abbrev trackLow : ℕ := 2
abbrev trackHigh : ℕ := 5
abbrev highCont : ℕ := 7
abbrev edge : ℕ := 9
abbrev idle : ℕ := 11

/-- Sets IRQ flag 0 on RO edges, clears it after GUARD quiet iterations. -/
def program : List Instr :=
  [ -- restart
    .setX 8,
    .jmp .pin trackHigh,
    -- track_low
    .jmp .pin edge,
    .jmp .xDec trackLow,
    .jmp .always idle,
    -- track_high
    .jmp .pin highCont,
    .jmp .always edge,
    -- high_cont
    .jmp .xDec trackHigh,
    .jmp .always idle,
    -- edge
    .irqSet carrierIrqFlag,
    .jmp .always restart,
    -- idle
    .irqClear carrierIrqFlag,
    .jmp .always restart ]

/-! ### The steps of the program -/

/-- Where the program compares with the level `v`. -/
def trackPc (v : Bool) : ℕ := if v then trackHigh else trackLow

/-- Where it counts a sample that kept the level `v`. -/
def countPc (v : Bool) : ℕ := if v then highCont else 3

/-- Where it has counted all of them. -/
def quietPc (v : Bool) : ℕ := if v then 8 else 4

/-- Where a sample that did not keep the level `v` leads. -/
def edgePc (v : Bool) : ℕ := if v then 6 else edge

section

variable (pin v : Bool) (x : ℕ) (irq : Fin 8 → Bool)

theorem step_restart : step program pin ⟨restart, x, irq⟩ = ⟨1, 8, irq⟩ := rfl

theorem step_sense : step program pin ⟨1, x, irq⟩ = ⟨trackPc pin, x, irq⟩ := by cases pin <;> rfl

theorem step_track : step program v ⟨trackPc v, x, irq⟩ = ⟨countPc v, x, irq⟩ := by
  cases v <;> rfl

theorem step_track_edge : step program (!v) ⟨trackPc v, x, irq⟩ = ⟨edgePc v, x, irq⟩ := by
  cases v <;> rfl

theorem step_count : step program pin ⟨countPc v, x, irq⟩ =
    ⟨if x = 0 then quietPc v else trackPc v, (x + (2 ^ 32 - 1)) % 2 ^ 32, irq⟩ := by
  cases v <;> rfl

theorem step_quiet : step program pin ⟨quietPc v, x, irq⟩ = ⟨idle, x, irq⟩ := by cases v <;> rfl

theorem step_edge_high : step program pin ⟨edgePc true, x, irq⟩ = ⟨edge, x, irq⟩ := rfl

theorem step_edge : step program pin ⟨edge, x, irq⟩ =
    ⟨10, x, Function.update irq carrierIrqFlag true⟩ := rfl

theorem step_edge_restart : step program pin ⟨10, x, irq⟩ = ⟨restart, x, irq⟩ := rfl

theorem step_idle : step program pin ⟨idle, x, irq⟩ =
    ⟨12, x, Function.update irq carrierIrqFlag false⟩ := rfl

theorem step_idle_restart : step program pin ⟨12, x, irq⟩ = ⟨restart, x, irq⟩ := rfl

end

/-! ### A round of the program -/

/-- The first `k` samples of the round from cycle `t₀` on show the level it began with. -/
def Held (ro : ℕ → Bool) (t₀ k : ℕ) : Prop := ∀ j < k, ro (t₀ + 2 + 2 * j) = ro (t₀ + 1)

variable {ro : ℕ → Bool} {s₀ : State} {t₀ t k x : ℕ} {irq : Fin 8 → Bool}

theorem Held.mono {m : ℕ} (h : Held ro t₀ k) (hm : m ≤ k) : Held ro t₀ m :=
  fun j hj => h j (by omega)

theorem Held.succ (h : Held ro t₀ k) (hro : ro (t₀ + 2 + 2 * k) = ro (t₀ + 1)) :
    Held ro t₀ (k + 1) := by
  intro j hj
  rcases Nat.lt_succ_iff_lt_or_eq.1 hj with hj | rfl
  · exact h j hj
  · exact hro

section

variable (h₀ : run program ro s₀ t₀ = ⟨restart, x, irq⟩)
include h₀

theorem run_sense : run program ro s₀ (t₀ + 1) = ⟨1, 8, irq⟩ := by
  rw [run, h₀, step_restart]

/-- **Tracking**: while the samples keep their level, every second cycle counts one of them. -/
theorem run_track (hk : k ≤ 8) (h : Held ro t₀ k) :
    run program ro s₀ (t₀ + 2 + 2 * k) = ⟨trackPc (ro (t₀ + 1)), 8 - k, irq⟩ := by
  induction k with
  | zero => rw [Nat.mul_zero, run, run_sense h₀, step_sense]
  | succ k ih =>
    have hx : (8 - k + (2 ^ 32 - 1)) % 2 ^ 32 = 8 - (k + 1) := by omega
    rw [show t₀ + 2 + 2 * (k + 1) = t₀ + 2 + 2 * k + 1 + 1 by omega, run, run,
      ih (by omega) (h.mono (by omega)), h k (by omega), step_track, step_count,
      if_neg (by omega), hx]

theorem run_count (hk : k ≤ 8) (h : Held ro t₀ (k + 1)) :
    run program ro s₀ (t₀ + 3 + 2 * k) = ⟨countPc (ro (t₀ + 1)), 8 - k, irq⟩ := by
  rw [show t₀ + 3 + 2 * k = t₀ + 2 + 2 * k + 1 by omega, run,
    run_track h₀ hk (h.mono (by omega)), h k (by omega), step_track]

/-- All samples kept their level: the line is idle. -/
theorem run_quiet (h : Held ro t₀ 9) :
    run program ro s₀ (t₀ + 20) = ⟨quietPc (ro (t₀ + 1)), 2 ^ 32 - 1, irq⟩ ∧
      run program ro s₀ (t₀ + 21) = ⟨idle, 2 ^ 32 - 1, irq⟩ ∧
      run program ro s₀ (t₀ + 22) =
        ⟨12, 2 ^ 32 - 1, Function.update irq carrierIrqFlag false⟩ ∧
      run program ro s₀ (t₀ + 23) =
        ⟨restart, 2 ^ 32 - 1, Function.update irq carrierIrqFlag false⟩ := by
  have h20 : run program ro s₀ (t₀ + 20) = ⟨quietPc (ro (t₀ + 1)), 2 ^ 32 - 1, irq⟩ := by
    have hcount := run_count h₀ (k := 8) le_rfl h
    rw [show t₀ + 20 = t₀ + 3 + 2 * 8 + 1 by omega, run, hcount, step_count]
    rfl
  have h21 : run program ro s₀ (t₀ + 21) = ⟨idle, 2 ^ 32 - 1, irq⟩ := by
    rw [run, h20, step_quiet]
  have h22 : run program ro s₀ (t₀ + 22) =
      ⟨12, 2 ^ 32 - 1, Function.update irq carrierIrqFlag false⟩ := by
    rw [run, h21, step_idle]
  exact ⟨h20, h21, h22, by rw [run, h22, step_idle_restart]⟩

/-- A sample did not keep its level: the carrier is seen, one cycle later when the level was high. -/
theorem run_edge (hk : k ≤ 8) (h : Held ro t₀ k) (hro : ro (t₀ + 2 + 2 * k) ≠ ro (t₀ + 1)) :
    run program ro s₀ (t₀ + 3 + 2 * k) = ⟨edgePc (ro (t₀ + 1)), 8 - k, irq⟩ ∧
      run program ro s₀ (t₀ + 3 + (ro (t₀ + 1)).toNat + 2 * k) = ⟨edge, 8 - k, irq⟩ ∧
      run program ro s₀ (t₀ + 4 + (ro (t₀ + 1)).toNat + 2 * k) =
        ⟨10, 8 - k, Function.update irq carrierIrqFlag true⟩ ∧
      run program ro s₀ (t₀ + 5 + (ro (t₀ + 1)).toNat + 2 * k) =
        ⟨restart, 8 - k, Function.update irq carrierIrqFlag true⟩ := by
  have hfirst : run program ro s₀ (t₀ + 3 + 2 * k) = ⟨edgePc (ro (t₀ + 1)), 8 - k, irq⟩ := by
    rw [show t₀ + 3 + 2 * k = t₀ + 2 + 2 * k + 1 by omega, run, run_track h₀ hk h,
      Bool.eq_not_of_ne hro, step_track_edge]
  have hedge : run program ro s₀ (t₀ + 3 + (ro (t₀ + 1)).toNat + 2 * k) =
      ⟨edge, 8 - k, irq⟩ := by
    cases hv : ro (t₀ + 1) with
    | false =>
      rw [hv] at hfirst
      exact hfirst
    | true =>
      rw [hv] at hfirst
      rw [show t₀ + 3 + true.toNat + 2 * k = t₀ + 3 + 2 * k + 1 by simp; omega, run, hfirst,
        step_edge_high]
  have hback : run program ro s₀ (t₀ + 4 + (ro (t₀ + 1)).toNat + 2 * k) =
      ⟨10, 8 - k, Function.update irq carrierIrqFlag true⟩ := by
    rw [show t₀ + 4 + (ro (t₀ + 1)).toNat + 2 * k =
      t₀ + 3 + (ro (t₀ + 1)).toNat + 2 * k + 1 by omega, run, hedge, step_edge]
  refine ⟨hfirst, hedge, hback, ?_⟩
  rw [show t₀ + 5 + (ro (t₀ + 1)).toNat + 2 * k =
    t₀ + 4 + (ro (t₀ + 1)).toNat + 2 * k + 1 by omega, run, hback, step_edge_restart]

/-- In a quiet round the flag is left alone until its last cycles. -/
theorem run_quiet_round (h : Held ro t₀ 9) {r : ℕ} (hr : r ≤ 21) :
    (run program ro s₀ (t₀ + r)).irq = irq ∧ (run program ro s₀ (t₀ + r)).pc ≠ edge := by
  have hpc : ∀ v, trackPc v ≠ edge ∧ countPc v ≠ edge ∧ quietPc v ≠ edge := by decide
  obtain ⟨h20, h21, -, -⟩ := run_quiet h₀ h
  rcases Nat.lt_or_ge r 2 with hr2 | hr2
  · obtain rfl | rfl : r = 0 ∨ r = 1 := by omega
    · rw [Nat.add_zero, h₀]
      exact ⟨rfl, show restart ≠ edge by decide⟩
    · rw [run_sense h₀]
      exact ⟨rfl, show 1 ≠ edge by decide⟩
  · rcases Nat.lt_or_ge r 20 with hr20 | hr20
    · obtain ⟨k, hk⟩ : ∃ k, r = 2 + 2 * k ∨ r = 3 + 2 * k := ⟨(r - 2) / 2, by omega⟩
      rcases hk with rfl | rfl
      · rw [← Nat.add_assoc, run_track h₀ (by omega) (h.mono (by omega))]
        exact ⟨rfl, (hpc _).1⟩
      · rw [← Nat.add_assoc, run_count h₀ (by omega) (h.mono (by omega))]
        exact ⟨rfl, (hpc _).2.1⟩
    · obtain rfl | rfl : r = 20 ∨ r = 21 := by omega
      · rw [h20]
        exact ⟨rfl, (hpc _).2.2⟩
      · rw [h21]
        exact ⟨rfl, show idle ≠ edge by decide⟩

end

/-- Where a cycle stands in the round that began in cycle `t₀`. -/
inductive Position (ro : ℕ → Bool) (t₀ : ℕ) : ℕ → Prop
  | start : Position ro t₀ t₀
  | sense : Position ro t₀ (t₀ + 1)
  | track (k : ℕ) (hk : k ≤ 8) (held : Held ro t₀ k) : Position ro t₀ (t₀ + 2 + 2 * k)
  | count (k : ℕ) (hk : k ≤ 8) (held : Held ro t₀ (k + 1)) : Position ro t₀ (t₀ + 3 + 2 * k)
  | quiet (i : ℕ) (hi : i ≤ 2) (held : Held ro t₀ 9) : Position ro t₀ (t₀ + 20 + i)
  | seen (k : ℕ) (hk : k ≤ 8) (held : Held ro t₀ k) (hro : ro (t₀ + 2 + 2 * k) ≠ ro (t₀ + 1))
      (i : ℕ) (hi : i ≤ 1 + (ro (t₀ + 1)).toNat) : Position ro t₀ (t₀ + 3 + i + 2 * k)

/-- The program starts a round in this cycle. -/
def Restarts (ro : ℕ → Bool) (s₀ : State) (t₀ : ℕ) : Prop :=
  (run program ro s₀ t₀).pc = restart

theorem Restarts.eq (h : Restarts ro s₀ t₀) : ∃ x irq, run program ro s₀ t₀ = ⟨restart, x, irq⟩ :=
  ⟨(run program ro s₀ t₀).x, (run program ro s₀ t₀).irq, by rw [← h]⟩

theorem restarts_of_eq (h : run program ro s₀ t₀ = ⟨restart, x, irq⟩) : Restarts ro s₀ t₀ := by
  rw [Restarts, h]

/-- The next cycle stands in the same round or starts another one. -/
theorem Position.next (h₀ : Restarts ro s₀ t₀) (h : Position ro t₀ t) :
    Position ro t₀ (t + 1) ∨ Restarts ro s₀ (t + 1) := by
  obtain ⟨x, irq, h₀⟩ := h₀.eq
  cases h with
  | start => exact .inl .sense
  | sense => exact .inl (.track 0 (by omega) fun j hj => absurd hj (by omega))
  | track k hk held =>
    by_cases hro : ro (t₀ + 2 + 2 * k) = ro (t₀ + 1)
    · refine .inl ?_
      rw [show t₀ + 2 + 2 * k + 1 = t₀ + 3 + 2 * k by omega]
      exact .count k hk (held.succ hro)
    · refine .inl ?_
      rw [show t₀ + 2 + 2 * k + 1 = t₀ + 3 + 0 + 2 * k by omega]
      exact .seen k hk held hro 0 (by omega)
  | count k hk held =>
    refine .inl ?_
    rcases Nat.lt_or_ge k 8 with hlt | hge
    · rw [show t₀ + 3 + 2 * k + 1 = t₀ + 2 + 2 * (k + 1) by omega]
      exact .track (k + 1) (by omega) held
    · obtain rfl : k = 8 := by omega
      exact .quiet 0 (by omega) held
  | quiet i hi held =>
    rcases Nat.lt_or_ge i 2 with hlt | hge
    · exact .inl (.quiet (i + 1) (by omega) held)
    · obtain rfl : i = 2 := by omega
      exact .inr (restarts_of_eq (run_quiet h₀ held).2.2.2)
  | seen k hk held hro i hi =>
    rcases Nat.lt_or_ge i (1 + (ro (t₀ + 1)).toNat) with hlt | hge
    · refine .inl ?_
      rw [show t₀ + 3 + i + 2 * k + 1 = t₀ + 3 + (i + 1) + 2 * k by omega]
      exact .seen k hk held hro (i + 1) (by omega)
    · refine .inr ?_
      rw [show t₀ + 3 + i + 2 * k + 1 = t₀ + 5 + (ro (t₀ + 1)).toNat + 2 * k by omega]
      exact restarts_of_eq (run_edge h₀ hk held hro).2.2.2

/-- **Every cycle of a run** stands in a round. -/
theorem exists_round (hs : s₀.pc = restart) (t : ℕ) :
    ∃ t₀ ≤ t, Restarts ro s₀ t₀ ∧ Position ro t₀ t := by
  induction t with
  | zero => exact ⟨0, le_rfl, hs, .start⟩
  | succ t ih =>
    obtain ⟨t₀, hle, h₀, hpos⟩ := ih
    rcases hpos.next h₀ with hnext | hnext
    · exact ⟨t₀, by omega, h₀, hnext⟩
    · exact ⟨t + 1, le_rfl, hnext, .start⟩

/-- The line is found idle at the end of a quiet round only, and the carrier is seen behind a
sample that did not keep its level only. -/
theorem Position.idle_or_edge (h₀ : Restarts ro s₀ t₀) (h : Position ro t₀ t) :
    ((run program ro s₀ t).pc = idle → t = t₀ + 21 ∧ Held ro t₀ 9) ∧
      ((run program ro s₀ t).pc = edge → ∃ k ≤ 8, Held ro t₀ k ∧
        ro (t₀ + 2 + 2 * k) ≠ ro (t₀ + 1) ∧ t = t₀ + 3 + (ro (t₀ + 1)).toNat + 2 * k) := by
  have hpc : ∀ {t pc pc' x : ℕ} {irq : Fin 8 → Bool}, run program ro s₀ t = ⟨pc, x, irq⟩ →
      (run program ro s₀ t).pc = pc' → pc = pc' :=
    fun h h' => (congrArg State.pc h).symm.trans h'
  have hother : ∀ {t pc x : ℕ} {irq : Fin 8 → Bool}, run program ro s₀ t = ⟨pc, x, irq⟩ →
      pc ≠ idle → pc ≠ edge → ∀ P Q : Prop,
      ((run program ro s₀ t).pc = idle → P) ∧ ((run program ro s₀ t).pc = edge → Q) :=
    fun h hidle hedge _ _ => ⟨fun h' => absurd (hpc h h') hidle, fun h' => absurd (hpc h h') hedge⟩
  have htrack : ∀ v, trackPc v ≠ idle ∧ trackPc v ≠ edge := by decide
  have hcount : ∀ v, countPc v ≠ idle ∧ countPc v ≠ edge := by decide
  have hquiet : ∀ v, quietPc v ≠ idle ∧ quietPc v ≠ edge := by decide
  obtain ⟨x, irq, h₀⟩ := h₀.eq
  cases h with
  | start => exact hother h₀ (by decide) (by decide) _ _
  | sense => exact hother (run_sense h₀) (by decide) (by decide) _ _
  | track k hk held =>
    exact hother (run_track h₀ hk held) (htrack _).1 (htrack _).2 _ _
  | count k hk held =>
    exact hother (run_count h₀ hk held) (hcount _).1 (hcount _).2 _ _
  | quiet i hi held =>
    obtain ⟨h20, h21, h22, -⟩ := run_quiet h₀ held
    obtain rfl | rfl | rfl : i = 0 ∨ i = 1 ∨ i = 2 := by omega
    · exact hother h20 (hquiet _).1 (hquiet _).2 _ _
    · exact ⟨fun _ => ⟨rfl, held⟩, fun h => absurd (hpc h21 h) (by decide)⟩
    · exact hother h22 (by decide) (by decide) _ _
  | seen k hk held hro i hi =>
    obtain ⟨hfirst, hedge, hback, -⟩ := run_edge h₀ hk held hro
    have hone := Bool.toNat_le (ro (t₀ + 1))
    rcases Nat.lt_trichotomy i (ro (t₀ + 1)).toNat with hlt | rfl | hgt
    · -- a high level is left over another jump
      have hv : ro (t₀ + 1) = true := by
        cases hv : ro (t₀ + 1) with
        | true => rfl
        | false => simp [hv] at hlt
      obtain rfl : i = 0 := by omega
      rw [hv] at hfirst
      exact hother hfirst (by decide) (by decide) _ _
    · exact ⟨fun h => absurd (hpc hedge h) (by decide), fun _ => ⟨k, hk, held, hro, rfl⟩⟩
    · obtain rfl : i = 1 + (ro (t₀ + 1)).toNat := by omega
      rw [show t₀ + 3 + (1 + (ro (t₀ + 1)).toNat) = t₀ + 4 + (ro (t₀ + 1)).toNat by omega]
      exact hother hback (by decide) (by decide) _ _

/-! ### What the program executes -/

theorem getElem?_program_eq (pc : ℕ) :
    (program[pc]? = some (.irqSet carrierIrqFlag) ↔ pc = edge) ∧
      (program[pc]? = some (.irqClear carrierIrqFlag) ↔ pc = idle) ∧
      ((∃ target, program[pc]? = some (.jmp .pin target)) ↔
        pc = 1 ∨ pc = trackLow ∨ pc = trackHigh) := by
  rcases Nat.lt_or_ge pc 13 with hlt | hge
  · interval_cases pc <;> simp [program]
  · have hnone : program[pc]? = none := List.getElem?_eq_none hge
    simp only [hnone, edge, idle, trackLow, trackHigh, reduceCtorEq, exists_const, false_iff]
    omega

/-- The cycle samples RO. -/
def Samples (ro : ℕ → Bool) (s₀ : State) (t : ℕ) : Prop :=
  ∃ target, Executes program ro s₀ t (.jmp .pin target)

theorem executes_irqSet_iff :
    Executes program ro s₀ t (.irqSet carrierIrqFlag) ↔ (run program ro s₀ t).pc = edge :=
  (getElem?_program_eq _).1

theorem executes_irqClear_iff :
    Executes program ro s₀ t (.irqClear carrierIrqFlag) ↔ (run program ro s₀ t).pc = idle :=
  (getElem?_program_eq _).2.1

theorem samples_iff : Samples ro s₀ t ↔ (run program ro s₀ t).pc = 1 ∨
    (run program ro s₀ t).pc = trackLow ∨ (run program ro s₀ t).pc = trackHigh :=
  (getElem?_program_eq _).2.2

/-! ### A carrier is not given up -/

/-- RO keeps its level in the cycles from `a` to `b`. -/
def Steady (ro : ℕ → Bool) (a b : ℕ) : Prop := ∀ u, a ≤ u → u < b → ro u = ro a

/-- As far as the cycles up to `t` show, every level from the one in cycle `s` on lasts between
`lo` and `hi` cycles. -/
structure LevelsLast (ro : ℕ → Bool) (lo hi s t : ℕ) : Prop where
  /-- No level has lasted longer. -/
  le_hi : ∀ a b, s < b → b ≤ t + 1 → Steady ro a b → b ≤ a + hi
  /-- No level that began in cycle `a + 1` and ended before cycle `b` was shorter. -/
  lo_le : ∀ a b, s < b → b ≤ t → a + 1 < b → ro a ≠ ro (a + 1) → Steady ro (a + 1) b →
    ro b ≠ ro (a + 1) → a + 1 + lo ≤ b

/-- The samples of a quiet round are 18 cycles of one level, when no level lasts one cycle only. -/
theorem Held.steady {s : ℕ} (h : Held ro t₀ 9) (hs : s < t₀ + 3)
    (hro : LevelsLast ro 2 16 s (t₀ + 21)) : Steady ro (t₀ + 1) (t₀ + 19) := by
  have hsample : ∀ j ≤ 8, ro (t₀ + 2 + 2 * j) = ro (t₀ + 1) := fun j hj => h j (by omega)
  have hbetween : ∀ j ≤ 7, ro (t₀ + 3 + 2 * j) = ro (t₀ + 1) := by
    intro j hj
    by_contra hne
    have hbefore := hsample j (by omega)
    have hafter := hsample (j + 1) (by omega)
    have hshort := hro.lo_le (t₀ + 2 + 2 * j) (t₀ + 2 + 2 * (j + 1)) (by omega) (by omega)
      (by omega) (by
        rw [hbefore, show t₀ + 2 + 2 * j + 1 = t₀ + 3 + 2 * j by omega]
        exact fun heq => hne heq.symm)
      (fun u hu hu' => by rw [show u = t₀ + 2 + 2 * j + 1 by omega])
      (by
        rw [hafter, show t₀ + 2 + 2 * j + 1 = t₀ + 3 + 2 * j by omega]
        exact fun heq => hne heq.symm)
    omega
  intro u hu hu'
  obtain ⟨j, hj⟩ : ∃ j, u = t₀ + 1 ∨ u = t₀ + 2 + 2 * j ∨ u = t₀ + 3 + 2 * j :=
    ⟨(u - t₀ - 2) / 2, by omega⟩
  rcases hj with rfl | rfl | rfl
  · rfl
  · exact hsample j (by omega)
  · exact hbetween j (by omega)

theorem not_executes_irqClear {s : ℕ} (hs : s₀.pc = restart)
    (hset : Executes program ro s₀ s (.irqSet carrierIrqFlag)) (hst : s < t)
    (hro : LevelsLast ro 2 16 s t) : ¬Executes program ro s₀ t (.irqClear carrierIrqFlag) := by
  rw [executes_irqSet_iff] at hset
  rw [executes_irqClear_iff]
  intro hclear
  obtain ⟨t₀, -, h₀, hpos⟩ : ∃ t₀ ≤ t, Restarts ro s₀ t₀ ∧ Position ro t₀ t := exists_round hs t
  obtain ⟨rfl, held⟩ := (hpos.idle_or_edge h₀).1 hclear
  obtain ⟨x, irq, h₀⟩ := h₀.eq
  have hlt : s < t₀ := by
    by_contra hge
    obtain ⟨r, rfl⟩ := Nat.exists_eq_add_of_le (Nat.le_of_not_lt hge)
    exact (run_quiet_round h₀ held (by omega)).2 hset
  have hlong := hro.le_hi _ _ (by omega) (by omega) (held.steady (by omega) hro)
  omega

/-! ### A carrier is seen at an edge -/

/-- The program samples RO in the cycles `u` and `v` and not between them. -/
def ConsecutiveSamples (ro : ℕ → Bool) (s₀ : State) (u v : ℕ) : Prop :=
  Samples ro s₀ u ∧ Samples ro s₀ v ∧ u < v ∧ ∀ w, u < w → w < v → ¬Samples ro s₀ w

theorem executes_irqSet (hs : s₀.pc = restart)
    (hset : Executes program ro s₀ t (.irqSet carrierIrqFlag)) :
    ∃ u v, ConsecutiveSamples ro s₀ u v ∧ v < t ∧ (∀ w, v < w → w < t → ¬Samples ro s₀ w) ∧
      ro u ≠ ro v := by
  rw [executes_irqSet_iff] at hset
  obtain ⟨t₀, -, h₀, hpos⟩ : ∃ t₀ ≤ t, Restarts ro s₀ t₀ ∧ Position ro t₀ t := exists_round hs t
  obtain ⟨k, hk, held, hro, rfl⟩ := (hpos.idle_or_edge h₀).2 hset
  obtain ⟨x, irq, h₀⟩ := h₀.eq
  have htrack : ∀ v, trackPc v = 1 ∨ trackPc v = trackLow ∨ trackPc v = trackHigh := by decide
  have hsample : ∀ j ≤ k, Samples ro s₀ (t₀ + 2 + 2 * j) := by
    intro j hj
    rw [samples_iff, run_track h₀ (by omega) (held.mono hj)]
    exact htrack _
  have hafter : ∀ w, t₀ + 2 + 2 * k < w → w < t₀ + 3 + (ro (t₀ + 1)).toNat + 2 * k →
      ¬Samples ro s₀ w := by
    intro w hw hw'
    have hone := Bool.toNat_le (ro (t₀ + 1))
    have hedge : ∀ v, ¬(edgePc v = 1 ∨ edgePc v = trackLow ∨ edgePc v = trackHigh) := by decide
    obtain rfl : w = t₀ + 3 + 2 * k := by omega
    rw [samples_iff, (run_edge h₀ hk held hro).1]
    exact hedge _
  cases k with
  | zero =>
    refine ⟨t₀ + 1, t₀ + 2 + 2 * 0, ⟨?_, hsample 0 le_rfl, by omega, fun w hw hw' => by omega⟩,
      by omega, hafter, hro.symm⟩
    rw [samples_iff, run_sense h₀]
    exact .inl rfl
  | succ k =>
    refine ⟨t₀ + 2 + 2 * k, t₀ + 2 + 2 * (k + 1), ⟨hsample k (by omega), hsample (k + 1) le_rfl,
      by omega, fun w hw hw' => ?_⟩, by omega, hafter, ?_⟩
    · have hcount : ∀ v, ¬(countPc v = 1 ∨ countPc v = trackLow ∨ countPc v = trackHigh) := by
        decide
      obtain rfl : w = t₀ + 3 + 2 * k := by omega
      rw [samples_iff, run_count h₀ (by omega) (held.mono (by omega))]
      exact hcount _
    · rw [held k (by omega)]
      exact hro.symm

/-! ### A line that stands still is idle -/

theorem held_or_edge (ro : ℕ → Bool) (t₀ n : ℕ) :
    Held ro t₀ n ∨ ∃ k < n, Held ro t₀ k ∧ ro (t₀ + 2 + 2 * k) ≠ ro (t₀ + 1) := by
  induction n with
  | zero => exact .inl fun j hj => absurd hj (by omega)
  | succ n ih =>
    rcases ih with held | ⟨k, hk, hedge⟩
    · by_cases hro : ro (t₀ + 2 + 2 * n) = ro (t₀ + 1)
      · exact .inl (held.succ hro)
      · exact .inr ⟨n, by omega, held, hro⟩
    · exact .inr ⟨k, by omega, hedge⟩

/-- A round takes 23 cycles at most. -/
theorem Restarts.next (h₀ : Restarts ro s₀ t₀) :
    ∃ t₁, t₀ < t₁ ∧ t₁ ≤ t₀ + 23 ∧ Restarts ro s₀ t₁ := by
  obtain ⟨x, irq, h₀⟩ := h₀.eq
  rcases held_or_edge ro t₀ 9 with held | ⟨k, hk, held, hro⟩
  · exact ⟨t₀ + 23, by omega, le_rfl, restarts_of_eq (run_quiet h₀ held).2.2.2⟩
  · have hone := Bool.toNat_le (ro (t₀ + 1))
    exact ⟨t₀ + 5 + (ro (t₀ + 1)).toNat + 2 * k, by omega, by omega,
      restarts_of_eq (run_edge h₀ (by omega) held hro).2.2.2⟩

/-- The program starts a round within any 23 cycles. -/
theorem exists_restart (hs : s₀.pc = restart) (c : ℕ) :
    ∃ t₁, c ≤ t₁ ∧ t₁ < c + 23 ∧ Restarts ro s₀ t₁ := by
  induction c with
  | zero => exact ⟨0, le_rfl, by omega, hs⟩
  | succ c ih =>
    obtain ⟨t₁, hle, hlt, h₁⟩ := ih
    rcases Nat.eq_or_lt_of_le hle with rfl | hlt'
    · obtain ⟨t₂, hlt₂, hle₂, h₂⟩ := h₁.next
      exact ⟨t₂, hlt₂, by omega, h₂⟩
    · exact ⟨t₁, hlt', by omega, h₁⟩

/-- Behind a quiet round follow quiet rounds, with the flag clear. -/
theorem run_quiet_rounds {c : ℕ} (hro : ∀ u, c ≤ u → ro u = ro c) (hc : c ≤ t₀)
    (h₀ : run program ro s₀ t₀ = ⟨restart, x, irq⟩) (n : ℕ) :
    ∃ x', run program ro s₀ (t₀ + 23 * (n + 1)) =
      ⟨restart, x', Function.update irq carrierIrqFlag false⟩ := by
  have held : ∀ t, c ≤ t → Held ro t 9 := fun t ht j _ => by
    rw [hro _ (by omega), hro (t + 1) (by omega)]
  induction n with
  | zero => exact ⟨_, (run_quiet h₀ (held t₀ hc)).2.2.2⟩
  | succ n ih =>
    obtain ⟨x', h'⟩ := ih
    have hnext := (run_quiet h' (held _ (by omega))).2.2.2
    rw [Function.update_idem] at hnext
    exact ⟨_, by rw [show t₀ + 23 * (n + 1 + 1) = t₀ + 23 * (n + 1) + 23 by omega, hnext]⟩

theorem irq_of_constant {c : ℕ} (hs : s₀.pc = restart) (hro : Steady ro c t) (hct : c + 64 ≤ t) :
    (run program ro s₀ t).irq carrierIrqFlag = false := by
  -- what the line does later makes no difference
  obtain ⟨ro', hro'⟩ : ∃ ro' : ℕ → Bool, ro' = fun u => if u < t then ro u else ro c := ⟨_, rfl⟩
  have hcongr : run program ro s₀ t = run program ro' s₀ t :=
    run_congr fun u hu => by
      rw [hro']
      exact (if_pos hu).symm
  have hconst : ∀ u, c ≤ u → ro' u = ro' c := by
    intro u hu
    rw [hro']
    simp only [show c < t by omega, if_true]
    split_ifs with hut
    · exact hro u hu hut
    · rfl
  have held : ∀ t, c ≤ t → Held ro' t 9 := fun t ht j _ => by
    rw [hconst _ (by omega), hconst (t + 1) (by omega)]
  obtain ⟨t₁, hle, hlt, h₁⟩ : ∃ t₁, c ≤ t₁ ∧ t₁ < c + 23 ∧ Restarts ro' s₀ t₁ := exists_restart hs c
  obtain ⟨x, irq, h₁⟩ := h₁.eq
  obtain ⟨n, r, hr, rfl⟩ : ∃ n r, r < 23 ∧ t = t₁ + 23 * (n + 1) + r :=
    ⟨(t - t₁) / 23 - 1, (t - t₁) % 23, Nat.mod_lt _ (by omega), by omega⟩
  obtain ⟨x', h'⟩ := run_quiet_rounds hconst hle h₁ n
  rw [hcongr]
  rcases Nat.lt_or_ge r 22 with hr22 | hr22
  · rw [(run_quiet_round h' (held _ (by omega)) (by omega)).1, Function.update_self]
  · obtain rfl : r = 22 := by omega
    rw [(run_quiet h' (held _ (by omega))).2.2.1]
    simp only [Function.update_self]

/-- **Carrier sense.**  In every run of the program: a carrier once seen is not given up while RO
changes its level every 2 to 16 cycles; a carrier is seen only where two consecutive samples differ;
and a line that stands still is idle after 64 cycles at most, as long as it stands still. -/
theorem carrierSense_correct (ro : ℕ → Bool) {s₀ : State} (hs : s₀.pc = restart) :
    (∀ s t, Executes program ro s₀ s (.irqSet carrierIrqFlag) → s < t →
      LevelsLast ro 2 16 s t → ¬Executes program ro s₀ t (.irqClear carrierIrqFlag)) ∧
    (∀ t, Executes program ro s₀ t (.irqSet carrierIrqFlag) →
      ∃ u v, ConsecutiveSamples ro s₀ u v ∧ v < t ∧ (∀ w, v < w → w < t → ¬Samples ro s₀ w) ∧
        ro u ≠ ro v) ∧
    ∀ c t, Steady ro c t → c + 64 ≤ t → (run program ro s₀ t).irq carrierIrqFlag = false :=
  ⟨fun _ _ hset hst hro => not_executes_irqClear hs hset hst hro,
    fun _ hset => executes_irqSet hs hset, fun _ _ hro hct => irq_of_constant hs hro hct⟩

/-- A square wave of three cycles a level. -/
def squareWave (t : ℕ) : Bool := decide (t / 3 % 2 = 1)

theorem levelsLast_squareWave (s t : ℕ) : LevelsLast squareWave 2 16 s t where
  le_hi a b _ _ hsteady := by
    by_contra hlong
    have hlevel := hsteady (a + 3) (by omega) (by omega)
    simp only [squareWave, decide_eq_decide] at hlevel
    omega
  lo_le a b _ _ _ hbefore _ hafter := by
    by_contra hshort
    obtain rfl : b = a + 2 := by omega
    simp only [squareWave, ne_eq, decide_eq_decide] at hbefore hafter
    omega

/-- The carrier of a square wave is seen and not given up; a low line is idle. -/
theorem carrierSense_correct_squareWave :
    (Executes program squareWave ⟨restart, 0, fun _ => false⟩ 5 (.irqSet carrierIrqFlag) ∧
      ∀ t, 5 < t → ¬Executes program squareWave ⟨restart, 0, fun _ => false⟩ t
        (.irqClear carrierIrqFlag)) ∧
    (run program (fun _ => false) ⟨restart, 0, fun _ => true⟩ 64).irq carrierIrqFlag = false := by
  have hset : Executes program squareWave ⟨restart, 0, fun _ => false⟩ 5
      (.irqSet carrierIrqFlag) := by
    rw [Executes]
    decide
  exact ⟨⟨hset, fun t ht => (carrierSense_correct squareWave rfl).1 5 t hset ht
      (levelsLast_squareWave 5 t)⟩,
    (carrierSense_correct (fun _ => false) rfl).2.2 0 64 (fun _ _ _ => rfl) (by omega)⟩

end CarrierSense

end Pico10BaseT
