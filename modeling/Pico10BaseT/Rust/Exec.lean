import Mathlib.Data.List.Basic
import Mathlib.Algebra.Order.Group.Nat
import Mathlib.Tactic.Common

/-!
# Executing Rust on lists

Slices are lists.  An indexing expression panics outside the slice, an unchecked read outside it
is undefined behaviour, and a loop translated with fuel may run out of it; `Exec` is the monad of
computations that may end in one of these faults.  A theorem that a computation is `.ok` of a
value says that none of them happens.

`byteAt` is the total read used in statements: `index` agrees with it inside the slice.
-/

namespace Pico10BaseT

/-- How a computation may fail to return. -/
inductive Fault
  /-- A Rust panic: an index or a slice range out of bounds. -/
  | panic
  /-- An unchecked read outside the buffer. -/
  | outOfBounds
  /-- The fuel given to a translated loop was not enough. -/
  | noFuel
  deriving DecidableEq, Repr

/-- Computations that return a value or end in a fault. -/
abbrev Exec := Except Fault

namespace Exec

variable {α β : Type}

@[simp] theorem pure_eq (a : α) : (pure a : Exec α) = .ok a := rfl

@[simp] theorem ok_bind (a : α) (f : α → Exec β) : (Except.ok a >>= f : Exec β) = f a := rfl

@[simp] theorem error_bind (e : Fault) (f : α → Exec β) :
    (Except.error e >>= f : Exec β) = .error e := rfl

/-- A computation that returns went through its first part. -/
theorem bind_eq_ok {x : Exec α} {f : α → Exec β} {b : β} :
    x >>= f = .ok b ↔ ∃ a, x = .ok a ∧ f a = .ok b := by
  cases x <;> simp

/-- What a computation returns, seen through `f`. -/
theorem map_eq_ok {x : Exec α} {f : α → β} {b : β} :
    x.map f = .ok b ↔ ∃ a, x = .ok a ∧ f a = b := by
  cases x <;> simp [Except.map]

theorem mapM_ok {f : α → Exec β} {g : α → β} {l : List α}
    (h : ∀ a ∈ l, f a = .ok (g a)) : l.mapM f = .ok (l.map g) := by
  induction l with
  | nil => rfl
  | cons a l ih =>
    rw [List.mapM_cons, h a List.mem_cons_self, Exec.ok_bind,
      ih fun b hb => h b (List.mem_cons_of_mem a hb)]
    rfl

end Exec

/-- `b[i]`. -/
def index {α : Type} (b : List α) (i : ℕ) : Exec α :=
  match b[i]? with
  | some x => .ok x
  | none => .error .panic

/-- `*b.get_unchecked(i)`. -/
def getUnchecked (b : List UInt8) (i : ℕ) : Exec UInt8 :=
  match b[i]? with
  | some x => .ok x
  | none => .error .outOfBounds

/-- Byte `i`, and zero outside the list. -/
def byteAt (b : List UInt8) (i : ℕ) : UInt8 := b.getD i 0

theorem byteAt_eq_getElem {b : List UInt8} {i : ℕ} (h : i < b.length) : byteAt b i = b[i] := by
  simp [byteAt, h]

theorem index_eq_byteAt {b : List UInt8} {i : ℕ} (h : i < b.length) :
    index b i = .ok (byteAt b i) := by
  simp [index, byteAt, h]

theorem getUnchecked_eq_byteAt {b : List UInt8} {i : ℕ} (h : i < b.length) :
    getUnchecked b i = .ok (byteAt b i) := by
  simp [getUnchecked, byteAt, h]

theorem byteAt_append_left {a : List UInt8} (b : List UInt8) {i : ℕ} (h : i < a.length) :
    byteAt (a ++ b) i = byteAt a i := by
  simp only [byteAt, List.getD_eq_getElem?_getD, List.getElem?_append_left h]

theorem byteAt_append_right {a b : List UInt8} (i : ℕ) :
    byteAt (a ++ b) (a.length + i) = byteAt b i := by
  simp [byteAt, List.getElem?_append_right]

theorem byteAt_drop (b : List UInt8) (n i : ℕ) : byteAt (b.drop n) i = byteAt b (n + i) := by
  simp only [byteAt, List.getD_eq_getElem?_getD, List.getElem?_drop]

theorem byteAt_take {b : List UInt8} {n i : ℕ} (h : i < n) : byteAt (b.take n) i = byteAt b i := by
  simp only [byteAt, List.getD_eq_getElem?_getD, List.getElem?_take_of_lt h]

theorem byteAt_of_drop {a b : List UInt8} {n j : ℕ} (h : a.drop n = b.drop n) (hj : n ≤ j) :
    byteAt a j = byteAt b j := by
  obtain ⟨k, rfl⟩ := Nat.exists_eq_add_of_le hj
  rw [← byteAt_drop, h, byteAt_drop]

theorem drop_eq_of_byteAt {a b : List UInt8} {n : ℕ} (hlen : a.length = b.length)
    (h : ∀ j, n ≤ j → byteAt a j = byteAt b j) : a.drop n = b.drop n := by
  refine List.ext_getElem (by rw [List.length_drop, List.length_drop, hlen]) fun i hi hi' => ?_
  rw [List.length_drop] at hi hi'
  rw [List.getElem_drop, List.getElem_drop, ← byteAt_eq_getElem, ← byteAt_eq_getElem]
  exact h _ (by omega)

/-! ### Slices -/

/-- `&b[i..j]`. -/
def slice (b : List UInt8) (i j : ℕ) : Exec (List UInt8) :=
  if i ≤ j ∧ j ≤ b.length then .ok ((b.drop i).take (j - i)) else .error .panic

theorem slice_zero {b : List UInt8} {j : ℕ} (h : j ≤ b.length) : slice b 0 j = .ok (b.take j) := by
  simp [slice, h]

/-- `b` with the bytes from `i` on replaced by `src`. -/
def splice (b : List UInt8) (i : ℕ) (src : List UInt8) : List UInt8 :=
  b.take i ++ src ++ b.drop (i + src.length)

/-- `b[i..i + src.len()].copy_from_slice(src)`. -/
def copyFromSlice (b : List UInt8) (i : ℕ) (src : List UInt8) : Exec (List UInt8) :=
  if i + src.length ≤ b.length then .ok (splice b i src) else .error .panic

theorem copyFromSlice_ok {b src : List UInt8} {i : ℕ} (h : i + src.length ≤ b.length) :
    copyFromSlice b i src = .ok (splice b i src) := by
  simp [copyFromSlice, h]

theorem length_splice {b src : List UInt8} {i : ℕ} (h : i + src.length ≤ b.length) :
    (splice b i src).length = b.length := by
  simp only [splice, List.length_append, List.length_take, List.length_drop]
  omega

theorem byteAt_splice {b src : List UInt8} {i : ℕ} (h : i + src.length ≤ b.length) (j : ℕ) :
    byteAt (splice b i src) j =
      if i ≤ j ∧ j < i + src.length then byteAt src (j - i) else byteAt b j := by
  have ht : (b.take i).length = i := by rw [List.length_take]; omega
  simp only [byteAt, splice, List.getD_eq_getElem?_getD]
  by_cases h1 : j < i
  · rw [if_neg (by omega), List.getElem?_append_left (by simp; omega),
      List.getElem?_append_left (by omega), List.getElem?_take_of_lt h1]
  · by_cases h2 : j < i + src.length
    · rw [if_pos (by omega), List.getElem?_append_left (by simp; omega),
        List.getElem?_append_right (by omega), ht]
    · rw [if_neg (by omega), List.getElem?_append_right (by simp; omega), List.getElem?_drop]
      congr 2
      simp only [List.length_append, ht]
      omega

/-- What a slice write leaves in front of its end. -/
theorem take_splice {b src : List UInt8} {i : ℕ} (h : i + src.length ≤ b.length) :
    (splice b i src).take (i + src.length) = b.take i ++ src := by
  rw [splice, List.take_append_of_le_length]
  · rw [List.take_of_length_le]
    rw [List.length_append, List.length_take]
    omega
  · rw [List.length_append, List.length_take]
    omega

/-- What a slice write leaves behind its end. -/
theorem drop_splice {b src : List UInt8} {i : ℕ} (h : i + src.length ≤ b.length) :
    (splice b i src).drop (i + src.length) = b.drop (i + src.length) := by
  refine List.drop_left' ?_
  rw [List.length_append, List.length_take_of_le (by omega)]

/-- A slice written inside a prefix. -/
theorem splice_take {b src : List UInt8} {i n : ℕ} (h : i + src.length ≤ n) (hb : n ≤ b.length) :
    (splice b i src).take n = splice (b.take n) i src := by
  have hlen : (b.take i ++ src).length = i + src.length := by
    rw [List.length_append, List.length_take_of_le (by omega)]
  rw [splice, splice, List.take_append, hlen, List.take_of_length_le (by omega),
    List.take_take, Nat.min_eq_left (by omega), List.drop_take]

/-- Two slices written behind each other. -/
theorem take_splice_splice {b src src' : List UInt8} (h : src.length + src'.length ≤ b.length) :
    (splice (splice b 0 src) src.length src').take (src.length + src'.length) = src ++ src' := by
  have h₀ : 0 + src.length ≤ b.length := by omega
  have hfront := take_splice h₀
  rw [Nat.zero_add, List.take_zero, List.nil_append] at hfront
  rw [take_splice (by rw [length_splice h₀]; exact h), hfront]

/-- `b[i] = x`. -/
def setIndex (b : List UInt8) (i : ℕ) (x : UInt8) : Exec (List UInt8) :=
  if i < b.length then .ok (b.set i x) else .error .panic

/-- A byte is a slice of one byte. -/
theorem setIndex_eq (b : List UInt8) (i : ℕ) (x : UInt8) :
    setIndex b i x = copyFromSlice b i [x] := by
  rw [setIndex, copyFromSlice, List.length_singleton]
  by_cases h : i < b.length
  · rw [if_pos h, if_pos (by omega), splice, List.set_eq_take_append_cons_drop, if_pos h,
      List.length_singleton, List.append_assoc, List.singleton_append]
  · rw [if_neg h, if_neg (by omega)]

theorem splice_splice {b src src' : List UInt8} {i : ℕ} (h : i + src.length ≤ b.length) :
    splice (splice b i src) (i + src.length) src' = splice b i (src ++ src') := by
  have hdrop : (splice b i src).drop (i + src.length + src'.length) =
      b.drop (i + (src ++ src').length) := by
    rw [← List.drop_drop, drop_splice h, List.drop_drop, List.length_append, Nat.add_assoc]
  rw [splice, take_splice h, hdrop, List.append_assoc (b.take i)]
  rfl

/-- **Two slices written behind each other** are one slice written. -/
theorem copyFromSlice_bind {α : Type} {b src src' : List UInt8} {i j : ℕ}
    {f : List UInt8 → Exec α} (h : j = i + src.length) :
    (copyFromSlice b i src >>= fun b => copyFromSlice b j src' >>= f) =
      copyFromSlice b i (src ++ src') >>= f := by
  subst h
  by_cases hsrc : i + src.length ≤ b.length
  · rw [copyFromSlice_ok hsrc, Exec.ok_bind, copyFromSlice, copyFromSlice, length_splice hsrc,
      splice_splice hsrc, List.length_append, Nat.add_assoc]
  · have h' : ¬i + (src ++ src').length ≤ b.length := by
      rw [List.length_append]
      omega
    rw [copyFromSlice, if_neg hsrc, Exec.error_bind, copyFromSlice, if_neg h', Exec.error_bind]

theorem slice_ok {b : List UInt8} {i j : ℕ} (h : i ≤ j) (h' : j ≤ b.length) :
    slice b i j = .ok ((b.drop i).take (j - i)) := by
  simp [slice, h, h']

/-- A loop of byte writes writes a slice. -/
theorem foldlM_setIndex (b : List UInt8) (x : UInt8) (n : ℕ) :
    (List.range n).foldlM (fun b i => setIndex b i x) b =
      copyFromSlice b 0 (List.replicate n x) := by
  induction n with
  | zero => simp [copyFromSlice, splice]
  | succ n ih =>
    have hlast : ∀ b : List UInt8,
        [n].foldlM (fun b i => setIndex b i x) b = copyFromSlice b n [x] >>= pure := by
      intro b
      simp only [List.foldlM_cons, List.foldlM_nil, setIndex_eq]
    rw [List.range_succ, List.foldlM_append, ih, funext hlast, copyFromSlice_bind (by simp),
      bind_pure, List.replicate_succ']

/-- A slice written inside a slice just written. -/
theorem splice_inside {b src src' : List UInt8} {i j : ℕ} (hb : i ≤ b.length)
    (h : j + src'.length ≤ src.length) :
    splice (splice b i src) (i + j) src' = splice b i (splice src j src') := by
  have hi : (b.take i).length = i := List.length_take_of_le hb
  have hdrop : (splice b i src).drop (i + (j + src'.length)) =
      src.drop (j + src'.length) ++ b.drop (i + src.length) := by
    rw [splice, List.append_assoc, List.drop_append, hi, Nat.add_sub_cancel_left,
      List.drop_eq_nil_of_le (by omega), List.nil_append, List.drop_append_of_le_length h]
  have htake : (splice b i src).take (i + j) = b.take i ++ src.take j := by
    rw [splice, List.append_assoc, List.take_append, hi, Nat.add_sub_cancel_left,
      List.take_of_length_le (by omega), List.take_append_of_le_length (by omega)]
  rw [splice, Nat.add_assoc, hdrop, htake, splice, length_splice h, splice]
  simp only [List.append_assoc]

theorem splice_middle {a x y b : List UInt8} {i : ℕ} (hi : i = a.length)
    (h : x.length = y.length) : splice (a ++ x ++ b) i y = a ++ y ++ b := by
  subst hi
  rw [splice, List.append_assoc a x b, List.take_left, List.drop_length_add_append, ← h,
    List.drop_left]

theorem slice_splice_append {b src src' : List UInt8} {i j : ℕ}
    (hb : (src ++ src').length ≤ b.length) (hi : i = src.length) (hj : j = i + src'.length) :
    slice (splice b 0 (src ++ src')) i j = .ok src' := by
  subst hi hj
  have hlen : (splice b 0 (src ++ src')).length = b.length := length_splice (by omega)
  rw [List.length_append] at hb
  rw [slice_ok (by omega) (by omega), Nat.add_sub_cancel_left, splice, List.take_zero,
    List.nil_append, List.append_assoc, List.drop_left, List.take_left]

/-! ### Arrays -/

/-- `[u8; N]`. -/
structure Bytes (n : ℕ) where
  data : List UInt8
  size : data.length = n

namespace Bytes

variable {n : ℕ}

/-- `[0; N]`. -/
def zero (n : ℕ) : Bytes n := ⟨List.replicate n 0, List.length_replicate⟩

/-- `b[i..i + src.len()].copy_from_slice(src)`. -/
def copyFromSlice (b : Bytes n) (i : ℕ) (src : List UInt8) : Exec (Bytes n) :=
  if h : i + src.length ≤ n then
    .ok ⟨splice b.data i src, by rw [length_splice (b.size.symm ▸ h), b.size]⟩
  else .error .panic

theorem copyFromSlice_ok (b : Bytes n) (i : ℕ) {src : List UInt8} (h : i + src.length ≤ n) :
    ∃ b', b.copyFromSlice i src = .ok b' ∧ b'.data = splice b.data i src :=
  ⟨_, dif_pos h, rfl⟩

/-- `f(&mut b)`: what writes into a slice keeps its length. -/
def modify {α : Type} (b : Bytes n) (f : List UInt8 → Exec (List UInt8 × α)) :
    Exec (Bytes n × α) := do
  let (data, a) ← f b.data
  if h : data.length = n then return (⟨data, h⟩, a) else .error .panic

theorem modify_ok {α : Type} {b : Bytes n} {f : List UInt8 → Exec (List UInt8 × α)}
    {data : List UInt8} {a : α} (hf : f b.data = .ok (data, a)) (h : data.length = n) :
    b.modify f = .ok (⟨data, h⟩, a) := by
  rw [modify, hf]
  exact dif_pos h

end Bytes

/-! ### Big-endian 16-bit words -/

/-- `u16::from_be_bytes([hi, lo])`. -/
def fromBeBytes (hi lo : UInt8) : UInt16 := hi.toUInt16 <<< 8 ||| lo.toUInt16

/-- `u16::from_be_bytes([b[i], b[i + 1]])`. -/
def rd16 (b : List UInt8) (i : ℕ) : Exec UInt16 := do
  let hi ← index b i
  let lo ← index b (i + 1)
  return fromBeBytes hi lo

/-- The big-endian word at offset `i`. -/
def wordAt (b : List UInt8) (i : ℕ) : UInt16 := fromBeBytes (byteAt b i) (byteAt b (i + 1))

theorem wordAt_congr {a b : List UInt8} {i : ℕ} (h₀ : byteAt a i = byteAt b i)
    (h₁ : byteAt a (i + 1) = byteAt b (i + 1)) : wordAt a i = wordAt b i := by
  rw [wordAt, wordAt, h₀, h₁]

theorem rd16_ok {b : List UInt8} {i : ℕ} (h : i + 1 < b.length) : rd16 b i = .ok (wordAt b i) := by
  simp only [rd16, index_eq_byteAt (show i < b.length by omega), index_eq_byteAt h,
    Exec.ok_bind, Exec.pure_eq, wordAt]

theorem rd16_splice_append {b src src' : List UInt8} {i k : ℕ}
    (hb : (src ++ src').length ≤ b.length) (hk : k + 2 ≤ src'.length) (hi : i = src.length + k) :
    rd16 (splice b 0 (src ++ src')) i = .ok (wordAt src' k) := by
  subst hi
  rw [List.length_append] at hb
  have hlen : (splice b 0 (src ++ src')).length = b.length :=
    length_splice (by rw [List.length_append]; omega)
  have hbyte : ∀ j, j < src'.length →
      byteAt (splice b 0 (src ++ src')) (src.length + j) = byteAt src' j := by
    intro j hj
    rw [byteAt_splice (by rw [List.length_append]; omega), if_pos (by
      rw [List.length_append]
      omega), Nat.sub_zero, byteAt_append_right]
  rw [rd16_ok (by omega), wordAt, Nat.add_assoc, hbyte k (by omega), hbyte (k + 1) (by omega),
    wordAt]

/-- `v.to_be_bytes()`. -/
def toBeBytes (v : UInt16) : List UInt8 := [(v >>> 8).toUInt8, v.toUInt8]

@[simp] theorem length_toBeBytes (v : UInt16) : (toBeBytes v).length = 2 := by
  rw [toBeBytes, List.length_cons, List.length_singleton]

theorem toNat_fromBeBytes (hi lo : UInt8) :
    (fromBeBytes hi lo).toNat = hi.toNat * 256 + lo.toNat := by
  have hh := hi.toNat_lt
  have hl := lo.toNat_lt
  simp only [fromBeBytes, UInt16.toNat_or, UInt16.toNat_shiftLeft, UInt8.toNat_toUInt16]
  have e : hi.toNat <<< ((8 : UInt16).toNat % 16) % 2 ^ 16 = 2 ^ 8 * hi.toNat := by
    simp [Nat.shiftLeft_eq]; omega
  rw [e, ← Nat.two_pow_add_eq_or_of_lt (by simpa using hl)]
  omega

theorem fromBeBytes_toBeBytes (v : UInt16) :
    fromBeBytes (v >>> 8).toUInt8 v.toUInt8 = v := by
  apply UInt16.toNat_inj.1
  have hv := v.toNat_lt
  rw [toNat_fromBeBytes]
  simp [Nat.shiftRight_eq_div_pow]
  omega

end Pico10BaseT
