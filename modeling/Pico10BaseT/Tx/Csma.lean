import Mathlib.Data.Int.CardIntervalMod
import Mathlib.Tactic.NormNum.Prime
import Pico10BaseT.Gf2.Orbit
import Pico10BaseT.Tx.CarrierSense

/-!
# Listening before sending

A half-duplex transmitter waits for the wire to be idle, backs off by a random number of slots and
looks again.  What it sees of the wire is the flag of the carrier-detect program, which it reads
when it gets to it; the slots come from a xorshift generator.

* `slots_equidistributed` : from its seed the generator passes through every state but zero before
  it repeats, so that over a period all slots are equally frequent, zero one short of it.
* `csmaAcquire_correct` : however the wire and the reads fall, an attempt that ends early ends on a
  flag found clear, with no transmission going on that the flag had been set for.
-/

namespace Pico10BaseT

/-! ### The generator -/

/-- Backoff window mask: random 0..=15 slots per attempt. -/
def csmaBackoffMask : BitVec 32 := 0x0F

/-- The fixed nonzero xorshift seed. -/
def lfsrSeed : BitVec 32 := 0x2545F491

/-- Step the xorshift32 PRNG: the state, which is also the value. -/
def nextRand (lfsr : BitVec 32) : BitVec 32 :=
  let x := lfsr
  let x := x ^^^ (x <<< 13)
  let x := x ^^^ (x >>> 17)
  x ^^^ (x <<< 5)

/-- The slots drawn at step `n` from the state `lfsr` on. -/
def slot (lfsr : BitVec 32) (n : ℕ) : ℕ := (nextRand^[n + 1] lfsr &&& csmaBackoffMask).toNat

/-- The power 32 of the generator as a polynomial in it. -/
def nextRandPoly : BitVec 32 := 0x003EC241

theorem isLinear_nextRand : BitOrbit.IsLinear nextRand := by
  have hxor : ∀ (a b : BitVec 32) (s : BitVec 32 → BitVec 32), s (a ^^^ b) = s a ^^^ s b →
      (a ^^^ b) ^^^ s (a ^^^ b) = (a ^^^ s a) ^^^ (b ^^^ s b) := by
    intro a b s hs
    rw [hs]
    ac_rfl
  intro a b
  simp only [nextRand]
  rw [hxor a b (· <<< 13) (BitVec.shiftLeft_xor_distrib _ _ _),
    hxor _ _ (· >>> 17) (BitVec.ushiftRight_xor_distrib _ _ _),
    hxor _ _ (· <<< 5) (BitVec.shiftLeft_xor_distrib _ _ _)]

theorem nextRand_iterate_32 (v : BitVec 32) :
    nextRand^[32] v = BitOrbit.eval nextRand nextRandPoly v := by
  refine congrFun ((isLinear_nextRand.iterate 32).ext
    (BitOrbit.isLinear_eval isLinear_nextRand nextRandPoly) ?_) v
  decide +kernel

theorem nextRand_iterate_eq {n : ℕ} (hn : n < 2 ^ 32) (v : BitVec 32) :
    nextRand^[n] v = BitOrbit.eval nextRand (BitOrbit.xPow nextRandPoly 32 n) v :=
  BitOrbit.iterate_eq_eval isLinear_nextRand (by decide) nextRand_iterate_32 hn v

/-- The prime factors of the number of states. -/
theorem prime_dvd_states {p : ℕ} (hp : p.Prime) (h : p ∣ 2 ^ 32 - 1) :
    p = 3 ∨ p = 5 ∨ p = 17 ∨ p = 257 ∨ p = 65537 := by
  have hfactor : 2 ^ 32 - 1 = 3 * 5 * 17 * 257 * 65537 := by norm_num
  have heq : ∀ {q : ℕ}, q.Prime → p ∣ q → p = q := fun hq hpq =>
    (Nat.prime_dvd_prime_iff_eq hp hq).1 hpq
  rw [hfactor] at h
  rcases (Nat.Prime.dvd_mul hp).1 h with h | h
  · rcases (Nat.Prime.dvd_mul hp).1 h with h | h
    · rcases (Nat.Prime.dvd_mul hp).1 h with h | h
      · rcases (Nat.Prime.dvd_mul hp).1 h with h | h
        · exact .inl (heq (by norm_num) h)
        · exact .inr (.inl (heq (by norm_num) h))
      · exact .inr (.inr (.inl (heq (by norm_num) h)))
    · exact .inr (.inr (.inr (.inl (heq (by norm_num) h))))
  · exact .inr (.inr (.inr (.inr (heq (by norm_num) h))))

/-- **The generator has its full period** from the seed. -/
theorem minimalPeriod_lfsrSeed : Function.minimalPeriod nextRand lfsrSeed = 2 ^ 32 - 1 := by
  refine BitOrbit.minimalPeriod_eq_of_div_prime ?_ fun p hp hdvd => ?_
  · rw [Function.IsPeriodicPt, Function.IsFixedPt, nextRand_iterate_eq (by norm_num)]
    decide +kernel
  · rw [Function.IsPeriodicPt, Function.IsFixedPt]
    rcases prime_dvd_states hp hdvd with rfl | rfl | rfl | rfl | rfl <;>
      (rw [nextRand_iterate_eq (by norm_num)]; decide +kernel)

theorem iterate_lfsrSeed_ne_zero (n : ℕ) : nextRand^[n] lfsrSeed ≠ 0 :=
  BitOrbit.iterate_ne_zero isLinear_nextRand (by decide)
    (Function.minimalPeriod_pos_iff_mem_periodicPts.1 (minimalPeriod_lfsrSeed ▸ by norm_num)) n

/-- Of the words but zero, as many have the low bits `j` as any others, one less for zero. -/
theorem card_filter_mask (j : Fin 16) :
    (((Finset.range (2 ^ 32)).erase 0).filter fun x =>
      (BitVec.ofNat 32 x &&& csmaBackoffMask).toNat = j).card =
        2 ^ 28 - if j = 0 then 1 else 0 := by
  have hmask : ∀ x, (BitVec.ofNat 32 x &&& csmaBackoffMask).toNat = x % 16 := by
    intro x
    rw [BitVec.toNat_and, BitVec.toNat_ofNat, csmaBackoffMask,
      show (0x0F : BitVec 32).toNat = 2 ^ 4 - 1 by decide, Nat.and_two_pow_sub_one_eq_mod]
    omega
  have hall : ((Finset.range (2 ^ 32)).filter fun x => x % 16 = (j : ℕ)).card = 2 ^ 28 := by
    have hcount := Nat.count_modEq_card (2 ^ 32) (r := 16) (by norm_num) j
    have hmod : (fun x => x ≡ j [MOD 16]) = fun x => x % 16 = (j : ℕ) :=
      funext fun x => by rw [Nat.ModEq, Nat.mod_eq_of_lt j.isLt]
    rw [Nat.count_eq_card_filter_range] at hcount
    simp only [hmod] at hcount
    rw [hcount, if_neg (by omega)]
    norm_num
  simp only [hmask]
  rw [Finset.filter_erase, Finset.card_erase_eq_ite, hall]
  by_cases hj : j = 0
  · simp [hj]
  · simp [hj, Fin.val_eq_zero_iff, eq_comm (a := (0 : ℕ))]

/-- **The slots are equally frequent** over a period of the generator, wherever it begins. -/
theorem slots_equidistributed (a : ℕ) (j : Fin 16) :
    ((Finset.range (2 ^ 32 - 1)).filter fun n => slot lfsrSeed (a + n) = j).card =
      2 ^ 28 - if j = 0 then 1 else 0 := by
  have hne : nextRand^[a + 1] lfsrSeed ≠ 0 := iterate_lfsrSeed_ne_zero (a + 1)
  have hper : Function.minimalPeriod nextRand (nextRand^[a + 1] lfsrSeed) = 2 ^ 32 - 1 := by
    rw [Function.minimalPeriod_apply_iterate, minimalPeriod_lfsrSeed]
    exact Function.minimalPeriod_pos_iff_mem_periodicPts.1 (minimalPeriod_lfsrSeed ▸ by norm_num)
  have hslot : ∀ n, slot lfsrSeed (a + n) =
      (nextRand^[n] (nextRand^[a + 1] lfsrSeed) &&& csmaBackoffMask).toNat := by
    intro n
    rw [slot, ← Function.iterate_add_apply, show n + (a + 1) = a + n + 1 by omega]
  simp only [hslot]
  rw [BitOrbit.card_filter_iterate isLinear_nextRand hne (by decide) hper
    fun u => (u &&& csmaBackoffMask).toNat = j]
  exact card_filter_mask j

/-! ### Sensing and backing off -/

/-- Max carrier-wait spins, so that a stuck flag can't wedge TX. -/
def carrierWaitSpins : ℕ := 200000

/-- CSMA/CA backoff slot in spin cycles. -/
def csmaSlotCycles : ℕ := 240

/-- CSMA attempts before transmitting anyway. -/
def csmaMaxAttempts : ℕ := 10

/-- The transmitter, as far as it listens. -/
structure Csma where
  /-- xorshift32 state for CSMA backoff. -/
  lfsr : BitVec 32
  /-- How often the flag has been read. -/
  reads : ℕ
  /-- The delays so far, in cycles. -/
  delays : List ℕ
  deriving DecidableEq, Repr

/-- `EthTx::new` -/
def Csma.new : Csma := ⟨lfsrSeed, 0, []⟩

section

variable (carrier : ℕ → Bool)

/-- The loop of `wait_carrier_idle` after `spins` spins and `reads` reads, the read number `n`
seeing `carrier n`. -/
def waitCarrierIdleFrom (spins reads : ℕ) : ℕ × ℕ :=
  if carrier reads then
    if carrierWaitSpins ≤ spins + 1 then (spins + 1, reads + 1)
    else waitCarrierIdleFrom (spins + 1) (reads + 1)
  else (spins, reads + 1)
termination_by carrierWaitSpins - spins

/-- Spin until the wire is idle or the cap hits: the spins waited, and the reads. -/
def waitCarrierIdle (reads : ℕ) : ℕ × ℕ := waitCarrierIdleFrom carrier 0 reads

/-- The rounds of `csma_acquire`. -/
def csmaRounds : ℕ → Csma → Csma
  | 0, s => s
  | n + 1, s =>
    let reads := (waitCarrierIdle carrier s.reads).2
    let lfsr := nextRand s.lfsr
    let slots := (lfsr &&& csmaBackoffMask).toNat
    let s' : Csma :=
      { lfsr, reads := reads + 1,
        delays := if slots ≠ 0 then s.delays ++ [slots * csmaSlotCycles] else s.delays }
    if carrier reads then csmaRounds n s' else s'

/-- Wait for idle, back off randomly, re-sense; retry if taken. -/
def csmaAcquire (s : Csma) : Csma := csmaRounds carrier csmaMaxAttempts s

end

/-- The delays of `k` rounds. -/
def backoffs (lfsr : BitVec 32) (k : ℕ) : List ℕ :=
  (((List.range k).map (slot lfsr)).filter (· ≠ 0)).map (· * csmaSlotCycles)

theorem backoffs_succ (lfsr : BitVec 32) (k : ℕ) : backoffs lfsr (k + 1) =
    (if slot lfsr 0 ≠ 0 then [slot lfsr 0 * csmaSlotCycles] else []) ++
      backoffs (nextRand lfsr) k := by
  have hslot : slot lfsr ∘ Nat.succ = slot (nextRand lfsr) :=
    funext fun n => by rw [Function.comp_apply, slot, slot, Function.iterate_succ_apply]
  rw [backoffs, backoffs, List.range_succ_eq_map, List.map_cons, List.map_map, hslot,
    List.filter_cons]
  split_ifs <;> simp_all

variable {carrier : ℕ → Bool}

/-- What a wait has seen: the carrier at every read but the last, and there an idle wire unless the
cap was hit. -/
structure Waited (carrier : ℕ → Bool) (n reads : ℕ) (w : ℕ × ℕ) : Prop where
  lt : reads < w.2
  le : w.2 ≤ reads + n
  busy : ∀ i, reads ≤ i → i + 1 < w.2 → carrier i = true
  last : carrier (w.2 - 1) = false ∨ w = (carrierWaitSpins, reads + n)

theorem waited_waitCarrierIdleFrom {spins : ℕ} (hspins : spins < carrierWaitSpins) (reads : ℕ) :
    Waited carrier (carrierWaitSpins - spins) reads (waitCarrierIdleFrom carrier spins reads) := by
  fun_induction waitCarrierIdleFrom carrier spins reads with
  | case1 spins reads hbusy hcap =>
    have heq : carrierWaitSpins = spins + 1 := by omega
    exact ⟨by simp, by simp; omega, fun i hi hi' => absurd hi' (by simp; omega),
      .inr (by rw [heq]; simp)⟩
  | case2 spins reads hbusy hcap ih =>
    have h := ih (by omega)
    have hreads : reads + 1 + (carrierWaitSpins - (spins + 1)) =
        reads + (carrierWaitSpins - spins) := by omega
    refine ⟨Nat.lt_of_succ_lt h.lt, hreads ▸ h.le, fun i hi hi' => ?_, hreads ▸ h.last⟩
    rcases Nat.eq_or_lt_of_le hi with rfl | hi
    · exact hbusy
    · exact h.busy i hi hi'
  | case3 spins reads hidle =>
    exact ⟨by simp, by simp; omega, fun i hi hi' => absurd hi' (by simp; omega),
      .inl (by simpa using hidle)⟩

theorem waited_waitCarrierIdle (reads : ℕ) :
    Waited carrier carrierWaitSpins reads (waitCarrierIdle carrier reads) :=
  waited_waitCarrierIdleFrom (by decide : 0 < carrierWaitSpins) reads

/-- What `n` rounds have done, `k` of them begun. -/
structure CsmaAcquired (carrier : ℕ → Bool) (n k : ℕ) (s s' : Csma) : Prop where
  le : k ≤ n
  pos : 0 < n → 0 < k
  lfsr : s'.lfsr = nextRand^[k] s.lfsr
  delays : s'.delays = s.delays ++ backoffs s.lfsr k
  le_reads : s.reads + 2 * k ≤ s'.reads
  reads_le : s'.reads ≤ s.reads + (carrierWaitSpins + 1) * k
  /-- Rounds are left out only after an idle wire. -/
  idle : k < n → carrier (s'.reads - 1) = false

theorem exists_acquired (carrier : ℕ → Bool) (n : ℕ) (s : Csma) :
    ∃ k, CsmaAcquired carrier n k s (csmaRounds carrier n s) := by
  induction n generalizing s with
  | zero => exact ⟨0, ⟨le_rfl, id, rfl, (List.append_nil _).symm, le_rfl, le_rfl,
      fun h => absurd h (by omega)⟩⟩
  | succ n ih =>
    have hwait : Waited carrier _ s.reads _ := waited_waitCarrierIdle s.reads
    have hlt := hwait.lt
    have hle := hwait.le
    have hone : backoffs s.lfsr 1 =
        if slot s.lfsr 0 ≠ 0 then [slot s.lfsr 0 * csmaSlotCycles] else [] := by
      rw [backoffs_succ]
      exact List.append_nil _
    rw [csmaRounds]
    cases hcarrier : carrier (waitCarrierIdle carrier s.reads).2 with
    | false =>
      refine ⟨1, ⟨by omega, fun _ => Nat.one_pos, rfl, ?_, ?_, ?_, fun _ => hcarrier⟩⟩
      · rw [hone]
        simp only [slot, Function.iterate_succ, Function.iterate_zero]
        split_ifs <;> simp_all
      · simp only [Bool.false_eq_true, if_false]
        omega
      · simp only [Bool.false_eq_true, if_false]
        omega
    | true =>
      simp only [if_true]
      obtain ⟨k, h⟩ := ih ⟨nextRand s.lfsr, (waitCarrierIdle carrier s.reads).2 + 1,
        if (nextRand s.lfsr &&& csmaBackoffMask).toNat ≠ 0 then
          s.delays ++ [(nextRand s.lfsr &&& csmaBackoffMask).toNat * csmaSlotCycles]
        else s.delays⟩
      have hlo := h.le_reads
      have hhi := h.reads_le
      refine ⟨k + 1, ⟨Nat.succ_le_succ h.le, fun _ => Nat.succ_pos k, h.lfsr, ?_, ?_, ?_,
        fun hk => h.idle (by omega)⟩⟩
      · rw [h.delays, backoffs_succ]
        simp only [slot, Function.iterate_succ, Function.iterate_zero]
        split_ifs <;> simp_all
      · simp only at hlo
        omega
      · simp only at hhi
        rw [Nat.mul_succ]
        omega

/-- Once the wire is found idle, two reads more are made at most. -/
theorem reads_csmaRounds_le {m : ℕ} (n : ℕ) (s : Csma)
    (hidle : ∀ i, m ≤ i → i ≤ max s.reads m + 1 → carrier i = false) :
    (csmaRounds carrier n s).reads ≤ max s.reads m + 2 := by
  induction n generalizing s with
  | zero => exact (le_max_left _ _).trans (Nat.le_add_right _ 2)
  | succ n ih =>
    have hwait : Waited carrier _ s.reads _ := waited_waitCarrierIdle s.reads
    have hlt := hwait.lt
    -- the wait ends on the first read that can see the wire idle
    have hreads : (waitCarrierIdle carrier s.reads).2 ≤ max s.reads m + 1 := by
      by_contra hmore
      have hbusy := hwait.busy (max s.reads m) (le_max_left _ _) (by omega)
      rw [hidle _ (le_max_right _ _) (by omega)] at hbusy
      exact absurd hbusy (by decide)
    rw [csmaRounds]
    cases hcarrier : carrier (waitCarrierIdle carrier s.reads).2 with
    | false => simpa using by omega
    | true =>
      have hlate : (waitCarrierIdle carrier s.reads).2 < m := by
        by_contra hge
        rw [hidle _ (by omega) hreads] at hcarrier
        exact absurd hcarrier (by decide)
      simp only [if_true]
      refine (ih _ fun i hi hi' => hidle i hi ?_).trans ?_ <;> simp only at * <;> omega

theorem backoffs_add (lfsr : BitVec 32) (j k : ℕ) :
    backoffs lfsr (j + k) = backoffs lfsr j ++ backoffs (nextRand^[j] lfsr) k := by
  induction j generalizing lfsr with
  | zero =>
    rw [Nat.zero_add]
    rfl
  | succ j ih =>
    rw [Nat.succ_add, backoffs_succ, backoffs_succ, ih, List.append_assoc]
    rfl

/-- The calls of a transmitter take the draws of its generator one after the other. -/
theorem exists_draws (carrier : ℕ → Bool) (n : ℕ) : ∃ k, n ≤ k ∧ k ≤ csmaMaxAttempts * n ∧
    ((csmaAcquire carrier)^[n] Csma.new).lfsr = nextRand^[k] lfsrSeed ∧
    ((csmaAcquire carrier)^[n] Csma.new).delays = backoffs lfsrSeed k := by
  induction n with
  | zero => exact ⟨0, le_rfl, le_rfl, rfl, rfl⟩
  | succ n ih =>
    obtain ⟨k, hlo, hhi, hlfsr, hdelays⟩ := ih
    rw [Function.iterate_succ_apply']
    obtain ⟨j, h⟩ := exists_acquired carrier csmaMaxAttempts
      ((csmaAcquire carrier)^[n] Csma.new)
    have hle := h.le
    have hpos := h.pos (by decide)
    refine ⟨k + j, by omega, by rw [Nat.mul_succ]; omega, ?_, ?_⟩
    · rw [csmaAcquire, h.lfsr, hlfsr, ← Function.iterate_add_apply, Nat.add_comm]
    · rw [csmaAcquire, h.delays, hdelays, hlfsr, backoffs_add]

/-- **The backoff is fair.**  However the carrier comes and goes, the transmitter's delays are the
slots its generator draws, one to ten in each call; the generator never comes to zero and has its
full period, and over a period, wherever it begins, each of the slots 1 to 15 is drawn `2 ^ 28`
times and no slot one time less. -/
theorem backoff_fair (carrier : ℕ → Bool) (n : ℕ) :
    (∃ k s, (csmaAcquire carrier)^[n] Csma.new = s ∧ n ≤ k ∧ k ≤ csmaMaxAttempts * n ∧
      s.lfsr = nextRand^[k] lfsrSeed ∧ s.lfsr ≠ 0 ∧ s.delays = backoffs lfsrSeed k) ∧
    (∀ s, ∃ k, 0 < k ∧ k ≤ csmaMaxAttempts ∧ (csmaAcquire carrier s).lfsr = nextRand^[k] s.lfsr ∧
      (csmaAcquire carrier s).delays = s.delays ++ backoffs s.lfsr k) ∧
    Function.minimalPeriod nextRand lfsrSeed = 2 ^ 32 - 1 ∧
    ∀ (a : ℕ) (j : Fin 16),
      ((Finset.range (2 ^ 32 - 1)).filter fun n => slot lfsrSeed (a + n) = j).card =
        2 ^ 28 - if j = 0 then 1 else 0 := by
  obtain ⟨k, hlo, hhi, hlfsr, hdelays⟩ := exists_draws carrier n
  refine ⟨⟨k, _, rfl, hlo, hhi, hlfsr, hlfsr ▸ iterate_lfsrSeed_ne_zero k, hdelays⟩, fun s => ?_,
    minimalPeriod_lfsrSeed, slots_equidistributed⟩
  obtain ⟨j, h⟩ := exists_acquired carrier csmaMaxAttempts s
  exact ⟨j, h.pos (by decide), h.le, h.lfsr, h.delays⟩

/-! ### On the carrier-detect program -/

section

open Pio CarrierSense

variable {ro : ℕ → Bool} {s₀ : State}

/-- Nothing but `irq clear` takes a flag back. -/
theorem irq_step {prog : List Instr} {pin : Bool} {s : State} {i : Fin 8} (h : s.irq i = true)
    (hclear : prog[s.pc]? ≠ some (.irqClear i)) : (step prog pin s).irq i = true := by
  rw [step]
  cases hinstr : prog[s.pc]? with
  | none => exact h
  | some instr =>
    cases instr with
    | jmp cond target => cases cond <;> exact h
    | setX n => exact h
    | irqSet j =>
      rcases eq_or_ne i j with rfl | hne
      · exact Function.update_self ..
      · exact (Function.update_of_ne hne ..).trans h
    | irqClear j =>
      have hne : i ≠ j := fun heq => hclear (heq ▸ hinstr)
      exact (Function.update_of_ne hne ..).trans h

/-- A carrier that is not given up is still seen. -/
theorem irq_of_executes_irqSet {u t : ℕ} (hset : Executes program ro s₀ u (.irqSet carrierIrqFlag))
    (hut : u < t)
    (hkept : ∀ v, u < v → v < t → ¬Executes program ro s₀ v (.irqClear carrierIrqFlag)) :
    (run program ro s₀ t).irq carrierIrqFlag = true := by
  induction t with
  | zero => exact absurd hut (Nat.not_lt_zero _)
  | succ t ih =>
    rw [run]
    rcases Nat.lt_succ_iff_lt_or_eq.1 hut with hut | rfl
    · exact irq_step (ih hut fun v hv hv' => hkept v hv (by omega)) (hkept t hut (by omega))
    · rw [Executes] at hset
      simp only [step, hset, exec, Function.update_self]

theorem CarrierSense.LevelsLast.mono {lo hi u t t' : ℕ} (h : LevelsLast ro lo hi u t)
    (ht : t' ≤ t) : LevelsLast ro lo hi u t' where
  le_hi a b hb hbt := h.le_hi a b hb (by omega)
  lo_le a b hb hbt := h.lo_le a b hb (by omega)

/-- True while the carrier-detect SM sees RO activity: the read number `n`, made in cycle
`readAt n` of the state machine. -/
def carrierPresent (ro : ℕ → Bool) (s₀ : State) (readAt : ℕ → ℕ) (n : ℕ) : Bool :=
  (run program ro s₀ (readAt n)).irq carrierIrqFlag

/-- **Listening before sending.**  Whatever RO does and whenever the flag is read, `csma_acquire`
makes between one and ten attempts, each with the next draw of the generator and a bounded number
of reads.  When it returns before the tenth, no transmission for which the carrier was set is still
on the wire; and once the wire has stood still for 64 cycles, it returns after two reads more at
most. -/
theorem csmaAcquire_correct (ro : ℕ → Bool) {s₀ : State} (hs : s₀.pc = restart) {readAt : ℕ → ℕ}
    (hmono : Monotone readAt) (s : Csma) :
    ∃ k s', csmaAcquire (carrierPresent ro s₀ readAt) s = s' ∧ 0 < k ∧ k ≤ csmaMaxAttempts ∧
      s'.lfsr = nextRand^[k] s.lfsr ∧ s'.delays = s.delays ++ backoffs s.lfsr k ∧
      s.reads + 2 * k ≤ s'.reads ∧ s'.reads ≤ s.reads + (carrierWaitSpins + 1) * k ∧
      (k < csmaMaxAttempts → ∀ u, Executes program ro s₀ u (.irqSet carrierIrqFlag) →
        u < readAt (s'.reads - 1) → ¬LevelsLast ro 2 16 u (readAt (s'.reads - 1))) ∧
      ∀ c m, c + 64 ≤ readAt m → Steady ro c (readAt (max s.reads m + 1)) →
        s'.reads ≤ max s.reads m + 2 := by
  obtain ⟨k, h⟩ := exists_acquired (carrierPresent ro s₀ readAt) csmaMaxAttempts s
  refine ⟨k, _, rfl, h.pos (by decide), h.le, h.lfsr, h.delays, h.le_reads, h.reads_le,
    fun hk u hset hu hlevels => ?_, fun c m hcm hsteady => ?_⟩
  · -- the flag found clear would have been kept
    have hbusy := irq_of_executes_irqSet hset hu fun v hv hvt =>
      not_executes_irqClear hs hset hv (hlevels.mono hvt.le)
    have hidle := h.idle hk
    rw [carrierPresent, csmaAcquire] at *
    rw [hbusy] at hidle
    exact absurd hidle (by decide)
  · refine reads_csmaRounds_le csmaMaxAttempts s fun i hi hi' => ?_
    have hlo := hmono hi
    have hhi := hmono hi'
    exact irq_of_constant hs (c := c) (fun v hv hvi => hsteady v hv (by omega)) (by omega)

/-- On a quiet wire one attempt is enough, though the flag is still set when the call begins. -/
theorem csmaAcquire_correct_quiet : ∃ s',
    csmaAcquire (carrierPresent (fun _ => false) ⟨restart, 0, fun _ => true⟩ (8 * ·)) Csma.new =
      s' ∧ s'.reads ≤ 10 ∧ s'.lfsr ≠ 0 := by
  have hmono : Monotone (8 * · : ℕ → ℕ) := fun _ _ h => Nat.mul_le_mul_left 8 h
  have hs : (⟨restart, 0, fun _ => true⟩ : State).pc = restart := rfl
  obtain ⟨k, s', heq, -, -, hlfsr, -, -, -, -, hquiet⟩ :=
    csmaAcquire_correct (fun _ => false) hs hmono Csma.new
  exact ⟨s', heq, hquiet 0 8 le_rfl fun _ _ _ => rfl, hlfsr ▸ iterate_lfsrSeed_ne_zero k⟩

end

end Pico10BaseT
