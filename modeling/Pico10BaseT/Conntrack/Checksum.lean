import Mathlib.Algebra.Group.Nat.Even
import Pico10BaseT.Arith.OnesComplement
import Pico10BaseT.Conntrack.Basic
import Pico10BaseT.Rust.Exec

/-!
# The incremental internet checksum

`add1c`, `checksum_incr` and `addr_words` of `conntrack.rs`, and the full fold of the host
self-test they are checked against.  Both are read as one's-complement sums:

* `toNat_checksumIncr` : the new check word is the complement of the accumulated changes;
* `toNat_fold` : the fold of a byte string is the representative of its `wordSum`;
* `wordSum_eq` : `wordSum` by the words at even offsets.
-/

namespace Pico10BaseT

open OnesComplement

/-- One's-complement 16-bit add with end-around carry. -/
def add1c (a b : UInt16) : UInt16 :=
  let s := a.toUInt32 + b.toUInt32
  ((s &&& (0xffff : UInt32)) + (s >>> (16 : UInt32))).toUInt16

/-- New checksum after `(old, new)` changes of 16-bit words. -/
def checksumIncr (oldCheck : UInt16) (changes : List (UInt16 × UInt16)) : UInt16 :=
  ~~~changes.foldl (fun acc c => add1c (add1c acc (~~~c.1)) c.2) (~~~oldCheck)

/-- The two 16-bit halves of an IPv4 address, big-endian. -/
def addrWords (ip : Ipv4Address) : UInt16 × UInt16 :=
  (fromBeBytes ip.a ip.b, fromBeBytes ip.c ip.d)

/-- The self-test's fold of a byte string, an odd last byte padded with zero. -/
def fold (acc : UInt16) : List UInt8 → UInt16
  | hi :: lo :: data => fold (add1c acc (fromBeBytes hi lo)) data
  | [hi] => add1c acc (fromBeBytes hi 0)
  | [] => acc

/-! ### As one's-complement sums -/

theorem toNat_add1c (a b : UInt16) : (add1c a b).toNat = add 65535 a.toNat b.toNat := by
  have ha := a.toNat_lt
  have hb := b.toNat_lt
  have hs : (a.toUInt32 + b.toUInt32).toNat = a.toNat + b.toNat := by
    rw [UInt32.toNat_add]
    simp only [UInt16.toNat_toUInt32]
    omega
  have hmask : (a.toNat + b.toNat) &&& 65535 = (a.toNat + b.toNat) % 65536 :=
    Nat.and_two_pow_sub_one_eq_mod _ 16
  simp only [add1c, UInt32.toNat_toUInt16, UInt32.toNat_add, UInt32.toNat_and,
    UInt32.toNat_shiftRight, UInt16.toNat_toUInt32, UInt32.reduceToNat] at hs ⊢
  rw [hs, hmask, Nat.shiftRight_eq_div_pow, show 2 ^ (16 % 32) = 65536 by norm_num]
  unfold add
  split_ifs <;> omega

theorem toNat_not (a : UInt16) : (~~~a).toNat = 65535 - a.toNat := by
  simp [UInt16.toNat_not]

theorem toNat_le (a : UInt16) : a.toNat ≤ 65535 := Nat.le_of_lt_succ a.toNat_lt

theorem toNat_add1c_norm {a : UInt16} {n : ℕ} (b : UInt16) (h : a.toNat = norm 65535 n) :
    (add1c a b).toNat = norm 65535 (n + b.toNat) := by
  rw [toNat_add1c, h, ← norm_of_le (toNat_le b), add_norm (by omega), norm_of_le (toNat_le b)]

/-- The terms a list of changes adds to the complemented check word. -/
def changeSum (changes : List (UInt16 × UInt16)) : ℕ :=
  (changes.map fun c => 65535 - c.1.toNat + c.2.toNat).sum

theorem toNat_foldl_changes (changes : List (UInt16 × UInt16)) {acc : UInt16} {n : ℕ}
    (h : acc.toNat = norm 65535 n) :
    (changes.foldl (fun acc c => add1c (add1c acc (~~~c.1)) c.2) acc).toNat =
      norm 65535 (n + changeSum changes) := by
  induction changes generalizing acc n with
  | nil => simpa [changeSum] using h
  | cons c cs ih =>
    have h1 := toNat_add1c_norm (~~~c.1) h
    have h2 := toNat_add1c_norm c.2 h1
    rw [toNat_not] at h2
    rw [List.foldl_cons, ih h2]
    simp only [changeSum, List.map_cons, List.sum_cons]
    congr 1
    omega

/-- **The incremental checksum** is the complement of the one's-complement sum of the complemented
old check word and the changes. -/
theorem toNat_checksumIncr (oldCheck : UInt16) (changes : List (UInt16 × UInt16)) :
    (checksumIncr oldCheck changes).toNat =
      65535 - norm 65535 (65535 - oldCheck.toNat + changeSum changes) := by
  rw [checksumIncr, toNat_not, toNat_foldl_changes changes (n := 65535 - oldCheck.toNat)]
  rw [toNat_not, norm_of_le (by omega)]

/-- The accumulated changes and the words replaced make up the new words. -/
theorem changeSum_add (changes : List (UInt16 × UInt16)) :
    changeSum changes + (changes.map fun c => c.1.toNat).sum =
      65535 * changes.length + (changes.map fun c => c.2.toNat).sum := by
  induction changes with
  | nil => rfl
  | cons c cs ih =>
    have hle := toNat_le c.1
    rw [changeSum] at ih
    simp only [changeSum, List.map_cons, List.sum_cons, List.length_cons]
    omega

/-- **When the new check word is zero**: the old check word and the words replaced make up the new
words already, and not all of them are `0xffff` with all new words zero. -/
theorem checksumIncr_eq_zero_iff (oldCheck : UInt16) (changes : List (UInt16 × UInt16)) :
    checksumIncr oldCheck changes = 0 ↔
      oldCheck.toNat + (changes.map fun c => c.1.toNat).sum ≡
        (changes.map fun c => c.2.toNat).sum [MOD 65535] ∧
      oldCheck.toNat + (changes.map fun c => c.1.toNat).sum <
        65535 * (changes.length + 1) + (changes.map fun c => c.2.toNat).sum := by
  have hle := toNat_le oldCheck
  have hnorm := norm_le (m := 65535) (by omega) (65535 - oldCheck.toNat + changeSum changes)
  have hself := norm_eq_self_iff (m := 65535) (by omega)
    (n := 65535 - oldCheck.toNat + changeSum changes)
  have hsum := changeSum_add changes
  rw [← UInt16.toNat_inj, toNat_checksumIncr, UInt16.toNat_zero, Nat.sub_eq_zero_iff_le,
    show 65535 ≤ norm 65535 (65535 - oldCheck.toNat + changeSum changes) ↔ _ from
      ⟨fun h => Nat.le_antisymm hnorm h, fun h => h.ge⟩, hself]
  simp only [Nat.ModEq]
  omega

/-- The new check word balances the changed words modulo `65535`. -/
theorem checksumIncr_modEq (oldCheck : UInt16) (changes : List (UInt16 × UInt16)) :
    (checksumIncr oldCheck changes).toNat + (changes.map fun c => c.2.toNat).sum ≡
      oldCheck.toNat + (changes.map fun c => c.1.toNat).sum [MOD 65535] := by
  have h := incr_modEq (m := 65535) (c := oldCheck.toNat) (toNat_le _) (norm_le (by omega) _)
    (changes.map fun c => (c.1.toNat, c.2.toNat))
    (fun p hp => by
      obtain ⟨c, -, rfl⟩ := List.mem_map.1 hp
      exact toNat_le _)
    (by
      rw [List.map_map]
      exact norm_modEq (65535 - oldCheck.toNat + changeSum changes))
  rw [← toNat_checksumIncr] at h
  simpa [List.map_map, Function.comp_def] using h

/-- The sum of the big-endian words of a byte string, an odd last byte padded with zero. -/
def wordSum : List UInt8 → ℕ
  | hi :: lo :: data => (fromBeBytes hi lo).toNat + wordSum data
  | [hi] => (fromBeBytes hi 0).toNat
  | [] => 0

theorem toNat_fold {acc : UInt16} {n : ℕ} (data : List UInt8) (h : acc.toNat = norm 65535 n) :
    (fold acc data).toNat = norm 65535 (n + wordSum data) := by
  induction acc, data using fold.induct generalizing n with
  | case1 acc hi lo data ih =>
    rw [fold, ih (toNat_add1c_norm _ h), wordSum, Nat.add_assoc]
  | case2 acc hi =>
    rw [fold, wordSum]
    exact toNat_add1c_norm _ h
  | case3 acc => simpa [fold, wordSum] using h

theorem toNat_fold_zero (data : List UInt8) : (fold 0 data).toNat = norm 65535 (wordSum data) := by
  rw [toNat_fold data (n := 0) rfl, Nat.zero_add]

theorem wordSum_append {a : List UInt8} (h : Even a.length) (b : List UInt8) :
    wordSum (a ++ b) = wordSum a + wordSum b := by
  induction a using wordSum.induct with
  | case1 hi lo a ih =>
    have h' : Even a.length := by
      simpa [Nat.even_add_one] using h
    rw [List.cons_append, List.cons_append, wordSum, wordSum, ih h', Nat.add_assoc]
  | case2 hi => simp at h
  | case3 => simp [wordSum]

/-- The sum of a string with a word written at an even offset. -/
theorem wordSum_splice {b : List UInt8} {i : ℕ} (hi : Even i) (h : i + 2 ≤ b.length) (v : UInt16) :
    wordSum (splice b i (toBeBytes v)) =
      wordSum (b.take i) + v.toNat + wordSum (b.drop (i + 2)) := by
  have hlen : (b.take i).length = i := by
    rw [List.length_take]
    omega
  rw [splice, List.append_assoc, wordSum_append (by rwa [hlen]), wordSum_append (by simp)]
  rw [length_toBeBytes, toBeBytes, wordSum, fromBeBytes_toBeBytes, wordSum, Nat.add_zero,
    Nat.add_assoc]

/-- **A string whose check word is the complement of its fold** folds to `0xffff`. -/
theorem fold_splice_compl {b : List UInt8} {i : ℕ} (hi : Even i) (h : i + 2 ≤ b.length) :
    fold 0 (splice b i (toBeBytes (~~~fold 0 (splice b i (toBeBytes 0))))) = 0xffff := by
  apply UInt16.toNat_inj.1
  rw [toNat_fold_zero, wordSum_splice hi h, toNat_not, toNat_fold_zero, wordSum_splice hi h,
    UInt16.toNat_zero, Nat.add_zero, Nat.add_right_comm, norm_add_compl (by omega)]
  rfl

/-- `wordSum` is the sum of the words at the even offsets; the word at an odd end is padded. -/
theorem wordSum_eq (data : List UInt8) :
    wordSum data = ((List.range ((data.length + 1) / 2)).map fun k =>
      (wordAt data (2 * k)).toNat).sum := by
  induction data using wordSum.induct with
  | case1 hi lo data ih =>
    have hlen : ((hi :: lo :: data).length + 1) / 2 = (data.length + 1) / 2 + 1 := by
      simp only [List.length_cons]
      omega
    rw [wordSum, hlen, List.range_succ_eq_map, List.map_cons, List.sum_cons, List.map_map, ih]
    rfl
  | case2 hi => simp [wordSum, wordAt, byteAt]
  | case3 => rfl

end Pico10BaseT
