import Mathlib.Data.List.Basic
import Mathlib.Data.UInt
import Mathlib.Algebra.Order.Group.Nat

/-!
# Bits and bytes, least significant bit first

* `packByte` : the byte of up to eight bits, as an accumulator builds it one bit at a time.
* `packBytes` : the whole bytes of a bit list; an incomplete last byte is dropped.
* `bitsOf` : the bits of a byte list.

`packBytes_bitsOf` says that packing undoes `bitsOf`, and `packBytes_append` that whole bytes are
packed independently.
-/

namespace Pico10BaseT

/-- Or the bits into `acc`, the first at position `j`. -/
def orBits (acc : UInt8) (j : ℕ) : List Bool → UInt8
  | [] => acc
  | b :: bs => orBits (acc ||| (b.toUInt8 <<< UInt8.ofNat j)) (j + 1) bs

/-- The byte of the bits. -/
def packByte (bits : List Bool) : UInt8 := orBits 0 0 bits

/-- The bits of a byte. -/
def bitsOfByte (x : UInt8) : List Bool := (List.range 8).map x.toNat.testBit

/-- The bits of a byte list, byte by byte. -/
def bitsOf (bytes : List UInt8) : List Bool := bytes.flatMap bitsOfByte

/-- The whole bytes of a bit list. -/
def packBytes (bits : List Bool) : List UInt8 :=
  (List.range (bits.length / 8)).map fun i => packByte ((bits.drop (8 * i)).take 8)

theorem orBits_append (acc : UInt8) (j : ℕ) (a b : List Bool) :
    orBits acc j (a ++ b) = orBits (orBits acc j a) (j + a.length) b := by
  induction a generalizing acc j with
  | nil => rfl
  | cons x xs ih =>
    simp only [List.cons_append, orBits, ih, List.length_cons]
    congr 1
    omega

/-- The accumulator after one more bit. -/
theorem packByte_snoc (bits : List Bool) (b : Bool) :
    packByte (bits ++ [b]) = packByte bits ||| (b.toUInt8 <<< UInt8.ofNat bits.length) := by
  rw [packByte, orBits_append, Nat.zero_add]
  rfl

theorem packByte_bitsOfByte (x : UInt8) : packByte (bitsOfByte x) = x := by
  have h : ∀ i : Fin 256, packByte (bitsOfByte (UInt8.ofNat i)) = UInt8.ofNat i := by
    decide +kernel
  have hx := h ⟨x.toNat, x.toNat_lt⟩
  rwa [UInt8.ofNat_toNat] at hx

@[simp] theorem length_bitsOfByte (x : UInt8) : (bitsOfByte x).length = 8 := by
  simp [bitsOfByte]

@[simp] theorem length_bitsOf (bytes : List UInt8) : (bitsOf bytes).length = 8 * bytes.length := by
  induction bytes with
  | nil => rfl
  | cons x xs ih =>
    simp only [bitsOf, List.flatMap_cons, List.length_append, length_bitsOfByte,
      List.length_cons] at ih ⊢
    omega

@[simp] theorem length_packBytes (bits : List Bool) :
    (packBytes bits).length = bits.length / 8 := by
  simp [packBytes]

theorem bitsOf_append (a b : List UInt8) : bitsOf (a ++ b) = bitsOf a ++ bitsOf b :=
  List.flatMap_append

theorem packBytes_of_length_lt {bits : List Bool} (h : bits.length < 8) : packBytes bits = [] := by
  rw [← List.length_eq_zero_iff, length_packBytes]
  omega

/-- Packing goes byte by byte. -/
theorem packBytes_append {a : List Bool} (b : List Bool) (ha : 8 ∣ a.length) :
    packBytes (a ++ b) = packBytes a ++ packBytes b := by
  obtain ⟨k, hk⟩ := ha
  have hlen : (a ++ b).length / 8 = k + b.length / 8 := by
    rw [List.length_append, hk]
    omega
  rw [packBytes, hlen, List.range_add, List.map_append, List.map_map]
  congr 1
  · rw [packBytes, show a.length / 8 = k by omega]
    refine List.map_congr_left fun i hi => ?_
    rw [List.mem_range] at hi
    rw [List.drop_append_of_le_length (by omega), List.take_append_of_le_length]
    rw [List.length_drop]
    omega
  · refine List.map_congr_left fun i _ => ?_
    rw [Function.comp_apply, Nat.mul_add, ← hk, List.drop_append]
    rw [List.drop_of_length_le (by omega), List.nil_append, Nat.add_sub_cancel_left]

theorem packBytes_eight {bits : List Bool} (h : bits.length = 8) :
    packBytes bits = [packByte bits] := by
  rw [packBytes, h]
  simp [List.take_of_length_le h.le]

/-- An incomplete last byte is dropped. -/
theorem packBytes_append_of_lt {a b : List Bool} (ha : 8 ∣ a.length) (hb : b.length < 8) :
    packBytes (a ++ b) = packBytes a := by
  rw [packBytes_append _ ha, packBytes_of_length_lt hb, List.append_nil]

/-- The bits after the last whole byte. -/
def restBits (bits : List Bool) : List Bool := bits.drop (8 * (bits.length / 8))

@[simp] theorem length_restBits (bits : List Bool) :
    (restBits bits).length = bits.length % 8 := by
  rw [restBits, List.length_drop]
  omega

/-- A bit list is its whole bytes and the rest. -/
theorem exists_append_restBits (bits : List Bool) :
    ∃ a, bits = a ++ restBits bits ∧ 8 ∣ a.length ∧ packBytes bits = packBytes a := by
  have hsplit := List.take_append_drop (8 * (bits.length / 8)) bits
  have h8 : 8 ∣ (bits.take (8 * (bits.length / 8))).length := by
    rw [List.length_take, Nat.min_eq_left (Nat.mul_div_le _ _)]
    exact Nat.dvd_mul_right 8 _
  refine ⟨bits.take (8 * (bits.length / 8)), hsplit.symm, h8, ?_⟩
  conv_lhs => rw [← hsplit]
  refine packBytes_append_of_lt h8 ?_
  rw [← restBits, length_restBits]
  exact Nat.mod_lt _ (by omega)

/-- One more bit completes a byte. -/
theorem packBytes_snoc_of_mod_eq {bits : List Bool} (b : Bool) (h : bits.length % 8 = 7) :
    packBytes (bits ++ [b]) = packBytes bits ++ [packByte (restBits bits ++ [b])] := by
  obtain ⟨a, hsplit, h8, hpack⟩ := exists_append_restBits bits
  have hlast : (restBits bits ++ [b]).length = 8 := by simp [h]
  rw [hpack, ← packBytes_eight hlast, ← packBytes_append _ h8, ← List.append_assoc, ← hsplit]

/-- One more bit does not complete a byte. -/
theorem packBytes_snoc_of_mod_ne {bits : List Bool} (b : Bool) (h : bits.length % 8 ≠ 7) :
    packBytes (bits ++ [b]) = packBytes bits := by
  obtain ⟨a, hsplit, h8, hpack⟩ := exists_append_restBits bits
  have hlast : (restBits bits ++ [b]).length < 8 := by
    simp only [List.length_append, length_restBits, List.length_singleton]
    omega
  rw [hpack, ← packBytes_append_of_lt h8 hlast, ← List.append_assoc, ← hsplit]

theorem packBytes_bitsOf (bytes : List UInt8) : packBytes (bitsOf bytes) = bytes := by
  induction bytes with
  | nil => rfl
  | cons x xs ih =>
    rw [bitsOf, List.flatMap_cons, packBytes_append _ (by simp), packBytes_eight (by simp),
      packByte_bitsOfByte, ← bitsOf, ih]
    rfl

theorem bitsOfByte_packByte {bits : List Bool} (h : bits.length = 8) :
    bitsOfByte (packByte bits) = bits := by
  have hall : ∀ b₀ b₁ b₂ b₃ b₄ b₅ b₆ b₇ : Bool,
      bitsOfByte (packByte [b₀, b₁, b₂, b₃, b₄, b₅, b₆, b₇]) = [b₀, b₁, b₂, b₃, b₄, b₅, b₆, b₇] := by
    decide +kernel
  match bits, h with
  | [_, _, _, _, _, _, _, _], _ => exact hall _ _ _ _ _ _ _ _

/-- Unpacking gives the bits back, less an incomplete last byte. -/
theorem bitsOf_packBytes (bits : List Bool) :
    bitsOf (packBytes bits) = bits.take (8 * (bits.length / 8)) := by
  have hall : ∀ n, 8 * n ≤ bits.length →
      bitsOf ((List.range n).map fun i => packByte ((bits.drop (8 * i)).take 8)) =
        bits.take (8 * n) := by
    intro n
    induction n with
    | zero => intro _; simp [bitsOf]
    | succ n ih =>
      intro hn
      have h8 : ((bits.drop (8 * n)).take 8).length = 8 := by
        rw [List.length_take, List.length_drop]
        omega
      rw [List.range_succ, List.map_append, bitsOf_append, ih (by omega), Nat.mul_succ,
        List.take_add]
      congr 1
      simpa [bitsOf] using bitsOfByte_packByte h8
  exact hall _ (Nat.mul_div_le _ _)

/-- Whole bytes determine their bits. -/
theorem packBytes_inj {a b : List Bool} (ha : 8 ∣ a.length) (hlen : a.length = b.length) :
    packBytes a = packBytes b ↔ a = b := by
  refine ⟨fun h => ?_, fun h => h ▸ rfl⟩
  have hall : ∀ l : List Bool, 8 ∣ l.length → bitsOf (packBytes l) = l := fun l hl => by
    rw [bitsOf_packBytes, Nat.mul_div_cancel' hl, List.take_length]
  rw [← hall a ha, h, hall b (hlen ▸ ha)]

/-- Bit `i` of a byte list. -/
theorem getElem?_bitsOf (bytes : List UInt8) (i : ℕ) :
    (bitsOf bytes)[i]? = bytes[i / 8]?.map fun x => x.toNat.testBit (i % 8) := by
  induction bytes generalizing i with
  | nil => simp [bitsOf]
  | cons x xs ih =>
    rw [bitsOf, List.flatMap_cons]
    by_cases hi : i < 8
    · rw [List.getElem?_append_left (by simpa using hi), Nat.div_eq_of_lt hi,
        Nat.mod_eq_of_lt hi]
      simp [bitsOfByte, hi]
    · obtain ⟨k, rfl⟩ := Nat.exists_eq_add_of_le (Nat.le_of_not_lt hi)
      rw [List.getElem?_append_right (by simp), length_bitsOfByte, Nat.add_sub_cancel_left,
        ← bitsOf, ih k, Nat.add_mod_left, Nat.add_div_left _ (by omega), List.getElem?_cons_succ]

end Pico10BaseT
