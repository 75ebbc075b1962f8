import Mathlib.Data.UInt
import Pico10BaseT.Arith.Residue

/-!
# The alarm of the time driver

`TIMER0` counts microseconds in 64 bits and has an alarm of 32, which fires when the low word of the
counter next becomes equal to it.  `armAlarm` reads the counter, works out a target and writes its
low word; the counter runs on between the read and the write.

## Main results

* `Timer0.nowUs_eq` : what `nowUs` returns is the counter at one of its reads of the low word; the
  alarm is armed from there.
* `Timer0.armAlarm_inTime_iff` : the alarm is in time for the deadline exactly when it is written
  before the target is counted, or so late that the low word is about to come round to it, or the
  deadline is a round away itself.
* `Timer0.armAlarm_late` : a deadline passed before the write waits for the counter to come round.
-/

namespace Pico10BaseT

/-- The registers of `TIMER0` the driver uses. -/
structure Timer0 where
  /-- The counter, `TIMERAWH` and `TIMERAWL` together. -/
  timeraw : UInt64
  /-- The bit of `ALARM0` in `INTE`. -/
  inte : Bool
  alarm0 : UInt32
  deriving DecidableEq, Repr

namespace Timer0

def timerawh (t : Timer0) : UInt32 := (t.timeraw >>> 32).toUInt32

def timerawl (t : Timer0) : UInt32 := t.timeraw.toUInt32

/-- So many microseconds later. -/
def tick (t : Timer0) (n : ℕ) : Timer0 := { t with timeraw := t.timeraw + UInt64.ofNat n }

/-- The alarm fires in `n` microseconds: then the low word next becomes equal to it. -/
def FiresIn (t : Timer0) (n : ℕ) : Prop :=
  t.inte = true ∧ IsLeast {n | 0 < n ∧ (t.tick n).timerawl = t.alarm0} n

/-! ### Reading the counter -/

/-- The loop of `now_us`, the three reads of each round so many microseconds after `t`. -/
def nowUs (t : Timer0) : List (ℕ × ℕ × ℕ) → Option UInt64
  | [] => none
  | (i, j, k) :: rounds =>
    let hi := (t.tick i).timerawh
    let lo := (t.tick j).timerawl
    let hi2 := (t.tick k).timerawh
    if hi = hi2 then some (hi.toUInt64 <<< 32 ||| lo.toUInt64) else t.nowUs rounds

theorem toNat_tick (t : Timer0) (n : ℕ) :
    (t.tick n).timeraw.toNat = (t.timeraw.toNat + n) % 2 ^ 64 := by
  simp [tick]

theorem toNat_timerawh (t : Timer0) : t.timerawh.toNat = t.timeraw.toNat / 2 ^ 32 := by
  have hlt := t.timeraw.toNat_lt
  have hshift : (UInt64.toNat 32) % 64 = 32 := rfl
  rw [timerawh, UInt64.toNat_toUInt32, UInt64.toNat_shiftRight, hshift, Nat.shiftRight_eq_div_pow]
  omega

theorem toNat_timerawl (t : Timer0) : t.timerawl.toNat = t.timeraw.toNat % 2 ^ 32 := by
  simp [timerawl]

/-- The words put together. -/
theorem toNat_hi_lo (hi lo : UInt32) :
    (hi.toUInt64 <<< 32 ||| lo.toUInt64).toNat = hi.toNat * 2 ^ 32 + lo.toNat := by
  have hhi := hi.toNat_lt
  have hlo := lo.toNat_lt
  have hshift : (hi.toUInt64 <<< 32).toNat = hi.toNat <<< 32 := by
    have hby : (UInt64.toNat 32) % 64 = 32 := rfl
    rw [UInt64.toNat_shiftLeft, UInt32.toNat_toUInt64, hby, Nat.shiftLeft_eq]
    omega
  rw [UInt64.toNat_or, hshift, UInt32.toNat_toUInt64, ← Nat.shiftLeft_add_eq_or_of_lt hlo,
    Nat.shiftLeft_eq]

/-- A round that takes at most one run through the low word, and finds the high word unchanged, has
the counter at its second read. -/
theorem hi_lo_eq (t : Timer0) {i j k : ℕ} (hij : i ≤ j) (hjk : j ≤ k) (hki : k ≤ i + 2 ^ 32)
    (h : (t.tick i).timerawh = (t.tick k).timerawh) :
    (t.tick i).timerawh.toUInt64 <<< 32 ||| (t.tick j).timerawl.toUInt64 = (t.tick j).timeraw := by
  have hnat := congrArg UInt32.toNat h
  apply UInt64.toNat_inj.1
  rw [toNat_hi_lo]
  simp only [toNat_timerawh, toNat_timerawl, toNat_tick] at hnat ⊢
  omega

theorem nowUs_eq (t : Timer0) {rounds : List (ℕ × ℕ × ℕ)} {now : UInt64}
    (hr : ∀ r ∈ rounds, r.1 ≤ r.2.1 ∧ r.2.1 ≤ r.2.2 ∧ r.2.2 ≤ r.1 + 2 ^ 32)
    (h : t.nowUs rounds = some now) : ∃ r ∈ rounds, now = (t.tick r.2.1).timeraw := by
  induction rounds with
  | nil => exact absurd h (by simp [nowUs])
  | cons r rounds ih =>
    obtain ⟨i, j, k⟩ := r
    obtain ⟨hij, hjk, hki⟩ := hr _ List.mem_cons_self
    rw [nowUs] at h
    split_ifs at h with hhi
    · refine ⟨_, List.mem_cons_self, ?_⟩
      rw [← Option.some.inj h]
      exact hi_lo_eq t hij hjk hki hhi
    · obtain ⟨r, hmem, hnow⟩ := ih (fun r hmem => hr r (List.mem_cons_of_mem _ hmem)) h
      exact ⟨r, List.mem_cons_of_mem _ hmem, hnow⟩

/-! ### Arming the alarm -/

/-- `u64::MAX`, which stands for no deadline. -/
def noDeadline : UInt64 := 0xFFFFFFFFFFFFFFFF

def target (now deadline : UInt64) : UInt64 :=
  -- Already due: as soon as possible.
  if deadline ≤ now then now + 2
  -- Too far for the low word: the alarm is armed again when it fires.
  else if deadline - now > 0xFFFFFFFF then now + 0xFFFFFFFF
  else deadline

/-- `t` is the timer when the counter is read, and the alarm is written `elapsed` microseconds
later. -/
def armAlarm (t : Timer0) (deadline : UInt64) (elapsed : ℕ) : Timer0 :=
  if deadline = noDeadline then { t.tick elapsed with inte := false }
  else
    let low := (target t.timeraw deadline).toUInt32
    { t.tick elapsed with inte := true, alarm0 := low }

theorem tick_tick (t : Timer0) (m n : ℕ) : (t.tick m).tick n = t.tick (m + n) := by
  simp only [tick, UInt64.ofNat_add, UInt64.add_assoc]

/-- The microseconds from the read of the counter to the target. -/
def slack (now deadline : UInt64) : ℕ :=
  if deadline ≤ now then 2 else min (deadline.toNat - now.toNat) (2 ^ 32 - 1)

theorem slack_of_le {now deadline : UInt64} (h : deadline ≤ now) : slack now deadline = 2 :=
  if_pos h

theorem slack_of_lt {now deadline : UInt64} (h : now < deadline) :
    slack now deadline = min (deadline.toNat - now.toNat) (2 ^ 32 - 1) :=
  if_neg (UInt64.not_le.2 h)

theorem slack_le (now deadline : UInt64) : slack now deadline ≤ 2 ^ 32 := by
  rw [slack]
  split_ifs
  · decide
  · exact (min_le_right _ _).trans (Nat.sub_le _ _)

/-- An alarm that fires at the target is in time. -/
theorem add_slack_le (now deadline : UInt64) :
    now.toNat + slack now deadline ≤ max deadline.toNat (now.toNat + 2) := by
  rcases UInt64.le_or_lt deadline now with hle | hlt
  · rw [slack_of_le hle]
    exact le_max_right _ _
  · have hnat := UInt64.lt_iff_toNat_lt.1 hlt
    rw [slack_of_lt hlt]
    omega

/-- The low word of a wrapped sum. -/
theorem toNat_add_modEq (a b : UInt64) : (a + b).toNat ≡ a.toNat + b.toNat [MOD 2 ^ 32] := by
  rw [UInt64.toNat_add]
  exact Nat.mod_mod_of_dvd _ (Nat.pow_dvd_pow 2 (by decide))

theorem toNat_target_modEq (now deadline : UInt64) :
    (target now deadline).toNat ≡ now.toNat + slack now deadline [MOD 2 ^ 32] := by
  rcases UInt64.le_or_lt deadline now with hle | hlt
  · rw [target, if_pos hle, slack_of_le hle]
    exact toNat_add_modEq now 2
  · have hnat := UInt64.lt_iff_toNat_lt.1 hlt
    have hsub : (deadline - now).toNat = deadline.toNat - now.toNat :=
      UInt64.toNat_sub_of_le _ _ (UInt64.le_iff_toNat_le.2 hnat.le)
    rw [target, if_neg (UInt64.not_le.2 hlt), slack_of_lt hlt]
    split_ifs with hfar
    · have hfarNat : 2 ^ 32 - 1 < deadline.toNat - now.toNat := by
        rw [← hsub]
        exact UInt64.lt_iff_toNat_lt.1 hfar
      rw [min_eq_right hfarNat.le]
      exact toNat_add_modEq now 0xFFFFFFFF
    · have hnear : deadline.toNat - now.toNat ≤ 2 ^ 32 - 1 := by
        rw [← hsub]
        exact UInt64.le_iff_toNat_le.1 (UInt64.not_lt.1 hfar)
      rw [min_eq_left hnear, Nat.add_sub_cancel' hnat.le]

/-! ### When it fires -/

theorem timerawl_tick_eq_iff (t : Timer0) (n : ℕ) (w : UInt32) :
    (t.tick n).timerawl = w ↔ t.timeraw.toNat + n ≡ w.toNat [MOD 2 ^ 32] := by
  have hw := w.toNat_lt
  rw [← UInt32.toNat_inj, toNat_timerawl, toNat_tick,
    Nat.mod_mod_of_dvd _ (Nat.pow_dvd_pow 2 (by decide)), Nat.ModEq, Nat.mod_eq_of_lt hw]

theorem firesIn_untilModEq (t : Timer0) (h : t.inte = true) :
    t.FiresIn (untilModEq (2 ^ 32) t.timeraw.toNat t.alarm0.toNat) := by
  refine ⟨h, ?_⟩
  simp only [timerawl_tick_eq_iff]
  exact isLeast_untilModEq (Nat.two_pow_pos 32)

theorem FiresIn.unique {t : Timer0} {m n : ℕ} (hm : t.FiresIn m) (hn : t.FiresIn n) : m = n :=
  hm.2.unique hn.2

variable (t : Timer0) {deadline : UInt64}

/-- An armed alarm fires when a number congruent to the target is next counted. -/
theorem armAlarm_firesIn (h : deadline ≠ noDeadline) (elapsed : ℕ) :
    (t.armAlarm deadline elapsed).FiresIn (untilModEq (2 ^ 32) (t.timeraw.toNat + elapsed)
      (t.timeraw.toNat + slack t.timeraw deadline)) := by
  have harm : t.armAlarm deadline elapsed =
      { t.tick elapsed with inte := true, alarm0 := (target t.timeraw deadline).toUInt32 } :=
    if_neg h
  have hw : (t.tick elapsed).timeraw.toNat ≡ t.timeraw.toNat + elapsed [MOD 2 ^ 32] := by
    rw [toNat_tick]
    exact Nat.mod_mod_of_dvd _ (Nat.pow_dvd_pow 2 (by decide))
  have hv : (target t.timeraw deadline).toUInt32.toNat ≡
      t.timeraw.toNat + slack t.timeraw deadline [MOD 2 ^ 32] := by
    rw [UInt64.toNat_toUInt32]
    exact (Nat.mod_modEq _ _).trans (toNat_target_modEq _ _)
  rw [← untilModEq_congr (Nat.two_pow_pos 32) hw hv, harm]
  exact firesIn_untilModEq _ rfl

theorem armAlarm_before (h : deadline ≠ noDeadline) {elapsed : ℕ}
    (hlt : elapsed < slack t.timeraw deadline) :
    (t.armAlarm deadline elapsed).FiresIn (slack t.timeraw deadline - elapsed) := by
  rw [← untilModEq_before hlt ((slack_le _ _).trans (Nat.le_add_left _ _))]
  exact armAlarm_firesIn t h elapsed

theorem armAlarm_after (h : deadline ≠ noDeadline) {elapsed : ℕ}
    (hle : slack t.timeraw deadline ≤ elapsed) :
    (t.armAlarm deadline elapsed).FiresIn
      (2 ^ 32 - (elapsed - slack t.timeraw deadline) % 2 ^ 32) := by
  rw [← untilModEq_after (Nat.two_pow_pos 32) hle]
  exact armAlarm_firesIn t h elapsed

/-- The alarm fires by the deadline, or two microseconds from the write if that is later. -/
def InTime (t : Timer0) (deadline : UInt64) (elapsed : ℕ) : Prop :=
  ∃ n, (t.armAlarm deadline elapsed).FiresIn n ∧
    t.timeraw.toNat + elapsed + n ≤ max deadline.toNat (t.timeraw.toNat + elapsed + 2)

theorem inTime_iff_of_firesIn {elapsed n : ℕ} (hn : (t.armAlarm deadline elapsed).FiresIn n) :
    t.InTime deadline elapsed ↔ n ≤ 2 ∨ t.timeraw.toNat + elapsed + n ≤ deadline.toNat := by
  have hle : t.timeraw.toNat + elapsed + n ≤ max deadline.toNat (t.timeraw.toNat + elapsed + 2) ↔
      n ≤ 2 ∨ t.timeraw.toNat + elapsed + n ≤ deadline.toNat := by
    rw [le_max_iff, Nat.add_le_add_iff_left, or_comm]
  rw [← hle]
  constructor
  · rintro ⟨m, hm, htime⟩
    rwa [hn.unique hm]
  · intro htime
    exact ⟨n, hn, htime⟩

/-- A write before the target is in time; a later one waits for the counter to come round. -/
theorem armAlarm_inTime_iff (h : deadline ≠ noDeadline) (elapsed : ℕ) :
    t.InTime deadline elapsed ↔
      elapsed < slack t.timeraw deadline ∨
      2 ^ 32 - (elapsed - slack t.timeraw deadline) % 2 ^ 32 ≤ 2 ∨
      t.timeraw.toNat + elapsed + (2 ^ 32 - (elapsed - slack t.timeraw deadline) % 2 ^ 32) ≤
        deadline.toNat := by
  have htarget := add_slack_le t.timeraw deadline
  rcases lt_or_ge elapsed (slack t.timeraw deadline) with hlt | hle
  · refine iff_of_true ⟨_, armAlarm_before t h hlt, ?_⟩ (.inl hlt)
    rw [Nat.add_assoc, Nat.add_sub_cancel' hlt.le]
    exact htarget.trans (max_le_max le_rfl (by omega))
  · rw [inTime_iff_of_firesIn t (armAlarm_after t h hle), or_iff_right (Nat.not_lt.2 hle)]

/-- A deadline already due, the alarm written one microsecond after the read. -/
theorem armAlarm_inTime_iff_due : (⟨100, false, 0⟩ : Timer0).InTime 50 1 :=
  (armAlarm_inTime_iff ⟨100, false, 0⟩ (by decide) 1).2 (.inl (by decide))

/-- A deadline one microsecond ahead, the alarm written two after the read: it fires when the
counter has come round. -/
theorem armAlarm_late :
    ((⟨100, false, 0⟩ : Timer0).armAlarm 101 2).FiresIn (2 ^ 32 - 1) ∧
      ¬ (⟨100, false, 0⟩ : Timer0).InTime 101 2 := by
  have hfires : ((⟨100, false, 0⟩ : Timer0).armAlarm 101 2).FiresIn (2 ^ 32 - 1) :=
    armAlarm_after ⟨100, false, 0⟩ (by decide) (by decide)
  refine ⟨hfires, ?_⟩
  rw [inTime_iff_of_firesIn _ hfires]
  decide

end Timer0

end Pico10BaseT
