import Mathlib.Algebra.Order.Group.Nat
import Mathlib.Data.BitVec
import Mathlib.Data.Nat.Prime.Basic
import Mathlib.Data.Finset.Card
import Mathlib.Dynamics.PeriodicPts.Defs
import Mathlib.Tactic.Common

/-!
# Orbits of linear maps on words

A map on the words of `w` bits that is linear over GF(2) acts on them as the variable of the
polynomials of degree less than `w`, a word standing for the polynomial whose coefficients are its
bits.  When `f^[w]` is such a polynomial `g` in `f`, every iterate is one, and `iterate_eq_eval`
finds it with one product for each bit of the exponent.

* `IsLinear.ext` : linear maps that agree on the single bits are equal.
* `iterate_eq_eval` : an iterate is the power of the variable, taken modulo `g`.
* `minimalPeriod_eq_of_div_prime` : a period that no prime can be taken from is the least one.
* `existsUnique_iterate` : an orbit of `2 ^ w - 1` words meets every word but zero once.
-/

namespace Pico10BaseT

namespace BitOrbit

variable {w : ℕ}

/-- The map adds up over sums of words. -/
def IsLinear (f : BitVec w → BitVec w) : Prop := ∀ a b, f (a ^^^ b) = f a ^^^ f b

namespace IsLinear

variable {f f' : BitVec w → BitVec w}

theorem map_zero (hf : IsLinear f) : f 0 = 0 := by
  have h : f (0 ^^^ 0) = f 0 ^^^ f 0 := hf 0 0
  rwa [BitVec.xor_self, BitVec.xor_self] at h

theorem comp (hf : IsLinear f) (hf' : IsLinear f') : IsLinear (f ∘ f') := by
  intro a b
  rw [Function.comp_apply, hf', hf]
  rfl

theorem iterate (hf : IsLinear f) (n : ℕ) : IsLinear f^[n] := by
  induction n with
  | zero => exact fun _ _ => rfl
  | succ n ih => exact ih.comp hf

theorem map_ite (hf : IsLinear f) (b : Bool) (v : BitVec w) :
    f (if b then v else 0) = if b then f v else 0 := by
  cases b
  · exact hf.map_zero
  · rfl

/-- **Linear maps that agree on the single bits are equal.** -/
theorem ext (hf : IsLinear f) (hf' : IsLinear f')
    (h : ∀ i < w, f (BitVec.twoPow w i) = f' (BitVec.twoPow w i)) : f = f' := by
  -- by induction on the number of low bits that may be set
  have hlow : ∀ k ≤ w, ∀ v : BitVec w, (∀ i, k ≤ i → v.getLsbD i = false) → f v = f' v := by
    intro k
    induction k with
    | zero =>
      intro _ v hv
      obtain rfl : v = 0 := BitVec.eq_of_getLsbD_eq fun i _ => by simp [hv i]
      rw [hf.map_zero, hf'.map_zero]
    | succ k ih =>
      intro hk v hv
      have hrest : ∀ u : BitVec w, (∀ i, k + 1 ≤ i → u.getLsbD i = false) →
          u.getLsbD k = false → f u = f' u := by
        intro u hu huk
        refine ih (by omega) u fun i hi => ?_
        rcases Nat.eq_or_lt_of_le hi with rfl | hi
        · exact huk
        · exact hu i hi
      cases hvk : v.getLsbD k with
      | false => exact hrest v hv hvk
      | true =>
        have hsum : v = (v ^^^ BitVec.twoPow w k) ^^^ BitVec.twoPow w k := by
          rw [BitVec.xor_assoc, BitVec.xor_self]
          exact BitVec.xor_zero.symm
        have hu : f (v ^^^ BitVec.twoPow w k) = f' (v ^^^ BitVec.twoPow w k) := by
          refine hrest _ (fun i hi => ?_) ?_
          · rw [BitVec.getLsbD_xor, hv i hi, BitVec.getLsbD_twoPow]
            simp [show k ≠ i by omega]
          · rw [BitVec.getLsbD_xor, hvk, BitVec.getLsbD_twoPow]
            simp [show k < w by omega]
        rw [hsum, hf, hf', hu, h k (by omega)]
  exact funext fun v => hlow w le_rfl v fun i hi => BitVec.getLsbD_of_ge v i hi

end IsLinear

/-! ### Polynomials in a map -/

/-- The first `n` coefficients of `c`, from the highest on, as a polynomial in `f` at `v`. -/
def evalUpTo (f : BitVec w → BitVec w) (c v : BitVec w) : ℕ → BitVec w
  | 0 => 0
  | n + 1 => f (evalUpTo f c v n) ^^^ if c.getMsbD n then v else 0

/-- The polynomial `c` in `f`, at `v`. -/
def eval (f : BitVec w → BitVec w) (c v : BitVec w) : BitVec w := evalUpTo f c v w

/-- The product of `c` by the variable, where its `w`-th power is `g`. -/
def mulX (g c : BitVec w) : BitVec w := (c <<< 1) ^^^ if c.msb then g else 0

/-- The power `n` of the variable, where its `w`-th power is `g`; `k` bits of `n` are taken. -/
def xPow (g : BitVec w) : ℕ → ℕ → BitVec w
  | 0, _ => 1
  | k + 1, n =>
    let r := xPow g k (n / 2)
    let sq := eval (mulX g) r r
    if n % 2 = 1 then mulX g sq else sq

variable {f : BitVec w → BitVec w} {g : BitVec w}

theorem evalUpTo_add (hf : IsLinear f) (c : BitVec w) (n : ℕ) (u v : BitVec w) :
    evalUpTo f c (u ^^^ v) n = evalUpTo f c u n ^^^ evalUpTo f c v n := by
  induction n with
  | zero => exact BitVec.xor_zero.symm
  | succ n ih =>
    rw [evalUpTo, evalUpTo, evalUpTo, ih, hf]
    cases c.getMsbD n
    · simp
    · simp only [if_true]
      ac_rfl

theorem isLinear_eval (hf : IsLinear f) (c : BitVec w) : IsLinear (eval f c) :=
  fun u v => evalUpTo_add hf c w u v

theorem evalUpTo_xor (hf : IsLinear f) (a b v : BitVec w) (n : ℕ) :
    evalUpTo f (a ^^^ b) v n = evalUpTo f a v n ^^^ evalUpTo f b v n := by
  induction n with
  | zero => exact BitVec.xor_zero.symm
  | succ n ih =>
    rw [evalUpTo, evalUpTo, evalUpTo, ih, hf, BitVec.getMsbD_xor]
    have hcoeff : ∀ x y : Bool, (if x ^^ y then v else 0) =
        (if x then v else 0) ^^^ if y then v else 0 := by
      intro x y
      cases x <;> cases y <;> simp
    rw [hcoeff]
    ac_rfl

theorem eval_xor (hf : IsLinear f) (a b v : BitVec w) :
    eval f (a ^^^ b) v = eval f a v ^^^ eval f b v := evalUpTo_xor hf a b v w

theorem eval_zero (hf : IsLinear f) (v : BitVec w) : eval f 0 v = 0 := by
  have h := eval_xor hf 0 0 v
  rwa [BitVec.xor_self, BitVec.xor_self] at h

theorem eval_one (hf : IsLinear f) (hw : 0 < w) (v : BitVec w) : eval f 1 v = v := by
  have hhigh : ∀ n < w, evalUpTo f (1 : BitVec w) v n = 0 := by
    intro n hn
    induction n with
    | zero => rfl
    | succ n ih =>
      have hbit : (1 : BitVec w).getMsbD n = false := by
        simp
        omega
      rw [evalUpTo, ih (by omega), hf.map_zero, hbit]
      simp
  obtain ⟨m, rfl⟩ : ∃ m, w = m + 1 := ⟨w - 1, by omega⟩
  have hbit : (1 : BitVec (m + 1)).getMsbD m = true := by
    simp
  rw [eval, evalUpTo, hhigh m (by omega), hf.map_zero, hbit]
  simp

/-- To move the polynomial up by one power, its coefficients move, the highest going beyond. -/
theorem map_evalUpTo (hf : IsLinear f) (c v : BitVec w) (n : ℕ) :
    evalUpTo f c v (n + 1) = evalUpTo f (c <<< 1) v n ^^^ if c.msb then f^[n] v else 0 := by
  induction n with
  | zero => rw [evalUpTo, evalUpTo, evalUpTo, hf.map_zero, BitVec.msb_eq_getMsbD_zero]; rfl
  | succ n ih =>
    have hcoeff : (c <<< 1).getMsbD n = c.getMsbD (n + 1) := by
      rw [BitVec.getMsbD_shiftLeft, Nat.add_comm]
    rw [evalUpTo, ih, hf, hf.map_ite, ← Function.iterate_succ_apply' f, evalUpTo, hcoeff]
    ac_rfl

theorem map_eval (hf : IsLinear f) (hg : ∀ v, f^[w] v = eval f g v) (c v : BitVec w) :
    f (eval f c v) = eval f (mulX g c) v := by
  have hbeyond : evalUpTo f c v (w + 1) = f (eval f c v) := by
    rw [evalUpTo, BitVec.getMsbD_of_ge c w le_rfl]
    exact BitVec.xor_zero
  rw [← hbeyond, map_evalUpTo hf, mulX, eval_xor hf, hg]
  cases c.msb
  · simp only [Bool.false_eq_true, if_false]
    rw [eval_zero hf]
    rfl
  · rfl

/-- The product of polynomials, by Horner's rule on the first. -/
theorem eval_mul (hf : IsLinear f) (hg : ∀ v, f^[w] v = eval f g v) (a b v : BitVec w) :
    eval f (eval (mulX g) a b) v = eval f a (eval f b v) := by
  have hprefix : ∀ n, eval f (evalUpTo (mulX g) a b n) v = evalUpTo f a (eval f b v) n := by
    intro n
    induction n with
    | zero => exact eval_zero hf v
    | succ n ih =>
      rw [evalUpTo, evalUpTo, eval_xor hf, ← map_eval hf hg, ih]
      cases a.getMsbD n
      · simp only [Bool.false_eq_true, if_false]
        rw [eval_zero hf]
      · rfl
  exact hprefix w

/-- **An iterate is the power of the variable.** -/
theorem iterate_eq_eval (hf : IsLinear f) (hw : 0 < w) (hg : ∀ v, f^[w] v = eval f g v) {k n : ℕ}
    (hn : n < 2 ^ k) (v : BitVec w) : f^[n] v = eval f (xPow g k n) v := by
  induction k generalizing n v with
  | zero =>
    obtain rfl : n = 0 := by omega
    exact (eval_one hf hw v).symm
  | succ k ih =>
    have hhalf := ih (n := n / 2) (by omega)
    have hsq : f^[n / 2 + n / 2] v =
        eval f (eval (mulX g) (xPow g k (n / 2)) (xPow g k (n / 2))) v := by
      rw [Function.iterate_add_apply, hhalf, hhalf, eval_mul hf hg]
    rw [xPow]
    rcases Nat.mod_two_eq_zero_or_one n with hmod | hmod
    · rw [hmod, if_neg (by omega), ← hsq, show n / 2 + n / 2 = n by omega]
    · rw [hmod, if_pos rfl, ← map_eval hf hg, ← hsq, ← Function.iterate_succ_apply' f,
        show (n / 2 + n / 2).succ = n by omega]

/-! ### Full orbits -/

/-- **A period that no prime can be taken from is the least one.** -/
theorem minimalPeriod_eq_of_div_prime {α : Type*} {f : α → α} {x : α} {n : ℕ}
    (h : Function.IsPeriodicPt f n x)
    (hp : ∀ p, p.Prime → p ∣ n → ¬Function.IsPeriodicPt f (n / p) x) :
    Function.minimalPeriod f x = n := by
  obtain ⟨a, ha⟩ := h.minimalPeriod_dvd
  rcases eq_or_ne a 1 with rfl | ha1
  · rw [ha, Nat.mul_one]
  · -- the least prime factor of the quotient could be taken from the period
    obtain ⟨b, hb⟩ := a.minFac_dvd
    have hprime := Nat.minFac_prime ha1
    have hdiv : n / a.minFac = Function.minimalPeriod f x * b := by
      refine Nat.div_eq_of_eq_mul_right hprime.pos ?_
      calc n = Function.minimalPeriod f x * (a.minFac * b) := by rw [← hb, ← ha]
        _ = a.minFac * (Function.minimalPeriod f x * b) := Nat.mul_left_comm _ _ _
    refine absurd ?_ (hp a.minFac hprime (a.minFac_dvd.trans ⟨_, ha.trans (Nat.mul_comm _ _)⟩))
    rw [hdiv]
    exact (Function.isPeriodicPt_minimalPeriod f x).mul_const b

/-- A word on a cycle is zero as soon as one of its iterates is. -/
theorem iterate_ne_zero (hf : IsLinear f) {v : BitVec w} (hv : v ≠ 0)
    (hper : v ∈ Function.periodicPts f) (n : ℕ) : f^[n] v ≠ 0 := by
  intro hzero
  obtain ⟨N, hN, hper⟩ := hper
  have hback : f^[n * N] v = v := hper.const_mul n
  have hle : n ≤ n * N := Nat.le_mul_of_pos_right n hN
  obtain ⟨m, hm⟩ := Nat.exists_eq_add_of_le' hle
  rw [hm, Function.iterate_add_apply, hzero, (hf.iterate m).map_zero] at hback
  exact hv hback.symm

/-- **An orbit of `2 ^ w - 1` words meets every word but zero exactly once.** -/
theorem existsUnique_iterate (hf : IsLinear f) {v : BitVec w} (hv : v ≠ 0) (hw : 0 < w)
    (hper : Function.minimalPeriod f v = 2 ^ w - 1) {u : BitVec w} (hu : u ≠ 0) :
    ∃! n, n < 2 ^ w - 1 ∧ f^[n] v = u := by
  have hpos : 0 < 2 ^ w - 1 := by
    have := Nat.one_lt_two_pow (n := w) (by omega)
    omega
  have hmem : v ∈ Function.periodicPts f :=
    Function.minimalPeriod_pos_iff_mem_periodicPts.1 (hper ▸ hpos)
  have hinj : ∀ m < 2 ^ w - 1, ∀ n < 2 ^ w - 1, f^[m] v = f^[n] v → m = n := by
    intro m hm n hn heq
    exact (Function.iterate_eq_iterate_iff_of_lt_minimalPeriod (hper ▸ hm) (hper ▸ hn)).1 heq
  -- as many words as there are besides zero
  let orbit : Finset ℕ := (Finset.range (2 ^ w - 1)).image fun n => (f^[n] v).toNat
  have hsub : orbit ⊆ (Finset.range (2 ^ w)).erase 0 := by
    intro x hx
    obtain ⟨n, -, rfl⟩ := Finset.mem_image.1 hx
    refine Finset.mem_erase.2 ⟨fun hzero => ?_, Finset.mem_range.2 (BitVec.isLt _)⟩
    exact iterate_ne_zero hf hv hmem n (BitVec.eq_of_toNat_eq hzero)
  have hcard : orbit.card = ((Finset.range (2 ^ w)).erase 0).card := by
    rw [Finset.card_image_of_injOn, Finset.card_range,
      Finset.card_erase_of_mem (Finset.mem_range.2 (Nat.two_pow_pos w)), Finset.card_range]
    intro m hm n hn heq
    exact hinj m (by simpa using hm) n (by simpa using hn) (BitVec.eq_of_toNat_eq heq)
  have horbit : u.toNat ∈ orbit := by
    rw [Finset.eq_of_subset_of_card_le hsub hcard.ge]
    refine Finset.mem_erase.2 ⟨fun hzero => ?_, Finset.mem_range.2 u.isLt⟩
    exact hu (BitVec.eq_of_toNat_eq hzero)
  obtain ⟨n, hn, hnu⟩ := Finset.mem_image.1 horbit
  have hn := Finset.mem_range.1 hn
  have hnu : f^[n] v = u := BitVec.eq_of_toNat_eq hnu
  exact ⟨n, ⟨hn, hnu⟩, fun m hm => hinj m hm.1 n hn (hm.2.trans hnu.symm)⟩

/-- Over such an orbit a property holds as often as there are words with it, zero apart. -/
theorem card_filter_iterate (hf : IsLinear f) {v : BitVec w} (hv : v ≠ 0) (hw : 0 < w)
    (hper : Function.minimalPeriod f v = 2 ^ w - 1) (P : BitVec w → Prop) [DecidablePred P] :
    ((Finset.range (2 ^ w - 1)).filter fun n => P (f^[n] v)).card =
      (((Finset.range (2 ^ w)).erase 0).filter fun x => P (BitVec.ofNat w x)).card := by
  have hone : 1 < 2 ^ w := Nat.one_lt_two_pow (by omega)
  have hmem : v ∈ Function.periodicPts f :=
    Function.minimalPeriod_pos_iff_mem_periodicPts.1 (by omega)
  refine Finset.card_bij (fun n _ => (f^[n] v).toNat) ?_ ?_ ?_
  · intro n hn
    obtain ⟨-, hP⟩ := Finset.mem_filter.1 hn
    refine Finset.mem_filter.2 ⟨Finset.mem_erase.2 ⟨fun hzero => ?_, Finset.mem_range.2
      (BitVec.isLt _)⟩, ?_⟩
    · exact iterate_ne_zero hf hv hmem n (BitVec.eq_of_toNat_eq hzero)
    · rwa [BitVec.ofNat_toNat, BitVec.setWidth_eq]
  · intro m hm n hn heq
    have hm := Finset.mem_range.1 (Finset.mem_filter.1 hm).1
    have hn := Finset.mem_range.1 (Finset.mem_filter.1 hn).1
    exact (Function.iterate_eq_iterate_iff_of_lt_minimalPeriod (hper ▸ hm) (hper ▸ hn)).1
      (BitVec.eq_of_toNat_eq heq)
  · intro x hx
    obtain ⟨hx, hP⟩ := Finset.mem_filter.1 hx
    obtain ⟨hx0, hx⟩ := Finset.mem_erase.1 hx
    have htoNat : (BitVec.ofNat w x).toNat = x := by
      rw [BitVec.toNat_ofNat, Nat.mod_eq_of_lt (Finset.mem_range.1 hx)]
    have hne : BitVec.ofNat w x ≠ 0 := by
      intro hzero
      rw [hzero] at htoNat
      exact hx0 htoNat.symm
    obtain ⟨n, ⟨hn, hnx⟩, -⟩ := existsUnique_iterate hf hv hw hper hne
    refine ⟨n, Finset.mem_filter.2 ⟨Finset.mem_range.2 hn, ?_⟩, ?_⟩
    · rwa [hnx]
    · rw [hnx, htoNat]

end BitOrbit

end Pico10BaseT
