import Mathlib.Data.List.Basic
import Mathlib.Algebra.Order.Group.Nat

/-!
# Maximal runs in a list

A *run* of `p` in a list is a block of elements that satisfy `p`, with no such element next to it.
`IsRun` is the property; a list that ends with an element outside `p` (or is empty) is `Settled`,
and cutting a list behind a settled part cuts no run (`isRun_append`).
-/

namespace Pico10BaseT

variable {α : Type*} (p : α → Bool)

/-- Element `i` is there and satisfies `p`. -/
def holdsAt (l : List α) (i : ℕ) : Bool := l[i]?.any p

/-- The `len` elements from `off` on are a maximal run of `p`. -/
structure IsRun (l : List α) (off len : ℕ) : Prop where
  pos : 0 < len
  all : ∀ i, off ≤ i → i < off + len → holdsAt p l i = true
  left : off = 0 ∨ holdsAt p l (off - 1) = false
  right : holdsAt p l (off + len) = false

/-- No run goes on past the end of `l`. -/
def Settled (l : List α) : Prop := ∀ i, i + 1 = l.length → holdsAt p l i = false

variable {p} {l a b : List α} {off len : ℕ}

theorem holdsAt_of_length_le {i : ℕ} (h : l.length ≤ i) : holdsAt p l i = false := by
  simp [holdsAt, List.getElem?_eq_none h]

theorem lt_length_of_holdsAt {i : ℕ} (h : holdsAt p l i = true) : i < l.length := by
  by_contra hn
  rw [holdsAt_of_length_le (Nat.le_of_not_lt hn)] at h
  exact Bool.noConfusion h

theorem holdsAt_append_left {i : ℕ} (h : i < a.length) :
    holdsAt p (a ++ b) i = holdsAt p a i := by
  simp [holdsAt, List.getElem?_append_left h]

theorem holdsAt_append_right (i : ℕ) :
    holdsAt p (a ++ b) (a.length + i) = holdsAt p b i := by
  simp [holdsAt, List.getElem?_append_right]

theorem holdsAt_replicate {n i : ℕ} {x : α} :
    holdsAt p (List.replicate n x) i = (decide (i < n) && p x) := by
  rw [holdsAt, List.getElem?_replicate]
  split_ifs with h <;> simp [h]

/-- A run covers no element outside `p`. -/
theorem IsRun.outside (h : IsRun p l off len) {i : ℕ} (hi : holdsAt p l i = false) :
    i < off ∨ off + len ≤ i := by
  by_contra hn
  rw [h.all i (by omega) (by omega)] at hi
  exact Bool.noConfusion hi

theorem IsRun.le_length (h : IsRun p l off len) : off + len ≤ l.length := by
  have hpos := h.pos
  have := lt_length_of_holdsAt (h.all (off + len - 1) (by omega) (by omega))
  omega

/-- No run starts among elements outside `p`. -/
theorem IsRun.le_of_forall_false (h : IsRun p l off len) {i st : ℕ} (hle : i ≤ off)
    (hfalse : ∀ k, i ≤ k → k < st → holdsAt p l k = false) : st ≤ off := by
  by_contra hn
  have := h.outside (hfalse off hle (by omega))
  have := h.pos
  omega

/-- Runs do not touch. -/
theorem IsRun.lt_of_lt {off' len' : ℕ} (h : IsRun p l off len) (h' : IsRun p l off' len')
    (hlt : off < off') : off + len < off' := by
  have := h.outside (h'.left.resolve_left (by omega))
  omega

/-- Runs with the same start are the same. -/
theorem IsRun.len_eq {len' : ℕ} (h : IsRun p l off len) (h' : IsRun p l off len') : len = len' := by
  have := h.outside h'.right
  have := h'.outside h.right
  omega

/-- A run of a settled list ends inside it. -/
theorem IsRun.lt_length (h : IsRun p l off len) (hl : Settled p l) : off + len < l.length := by
  have hpos := h.pos
  refine Nat.lt_of_le_of_ne h.le_length fun he => ?_
  have := h.outside (hl (off + len - 1) (by omega))
  omega

/-- A settled part is cut off between runs. -/
theorem holdsAt_boundary (ha : Settled p a) (h0 : 0 < a.length) :
    holdsAt p (a ++ b) (a.length - 1) = false := by
  rw [holdsAt_append_left (by omega)]
  exact ha _ (by omega)

/-- A list is cut in one way into a settled part and a rest that satisfies `p`. -/
theorem Settled.append_unique {a' b' : List α} (ha : Settled p a) (ha' : Settled p a')
    (hb : ∀ i < b.length, holdsAt p b i = true) (hb' : ∀ i < b'.length, holdsAt p b' i = true)
    (h : a ++ b = a' ++ b') : a = a' := by
  -- the last element of a longer settled part would be in the rest of the other
  have hle : ∀ {a b a' b' : List α}, Settled p a → (∀ i < b'.length, holdsAt p b' i = true) →
      a ++ b = a' ++ b' → a.length ≤ a'.length := by
    intro a b a' b' ha hb' h
    by_contra! hlt
    have hlen := congrArg List.length h
    rw [List.length_append, List.length_append] at hlen
    have hlast := hb' (a.length - 1 - a'.length) (by omega)
    rw [← holdsAt_append_right (a := a'), ← h, Nat.add_sub_cancel' (by omega),
      holdsAt_boundary ha (by omega)] at hlast
    cases hlast
  exact (List.append_inj h (le_antisymm (hle ha hb' h) (hle ha' hb h.symm))).1

/-- The runs that start in the settled part. -/
theorem isRun_append_left (ha : Settled p a) (hoff : off < a.length) :
    IsRun p (a ++ b) off len ↔ IsRun p a off len := by
  -- they end in it
  have hend : IsRun p (a ++ b) off len ∨ IsRun p a off len → off + len < a.length := by
    rintro (h | h)
    · have := h.outside (holdsAt_boundary ha (by omega))
      omega
    · exact h.lt_length ha
  have hat : off + len < a.length → ∀ i ≤ off + len, holdsAt p (a ++ b) i = holdsAt p a i :=
    fun hlt i hi => holdsAt_append_left (by omega)
  constructor
  · intro h
    have hat := hat (hend (.inl h))
    refine ⟨h.pos, fun i h1 h2 => ?_, h.left.imp_right fun hl => ?_, ?_⟩
    · rw [← hat i h2.le]
      exact h.all i h1 h2
    · rwa [hat _ (by omega)] at hl
    · rw [← hat _ le_rfl]
      exact h.right
  · intro h
    have hat := hat (hend (.inr h))
    refine ⟨h.pos, fun i h1 h2 => ?_, h.left.imp_right fun hl => ?_, ?_⟩
    · rw [hat i h2.le]
      exact h.all i h1 h2
    · rwa [hat _ (by omega)]
    · rw [hat _ le_rfl]
      exact h.right

/-- The runs that start behind the settled part. -/
theorem isRun_append_right (ha : Settled p a) :
    IsRun p (a ++ b) (a.length + off) len ↔ IsRun p b off len := by
  have hpred : 0 < off → a.length + off - 1 = a.length + (off - 1) := by omega
  constructor
  · intro h
    refine ⟨h.pos, fun i h1 h2 => ?_, ?_, ?_⟩
    · rw [← holdsAt_append_right (a := a)]
      exact h.all _ (by omega) (by omega)
    · rcases Nat.eq_zero_or_pos off with h0 | h0
      · exact .inl h0
      · have hl := h.left.resolve_left (by omega)
        rw [hpred h0, holdsAt_append_right] at hl
        exact .inr hl
    · have hr := h.right
      rwa [Nat.add_assoc, holdsAt_append_right] at hr
  · intro h
    refine ⟨h.pos, fun i h1 h2 => ?_, ?_, ?_⟩
    · obtain ⟨k, rfl⟩ := Nat.exists_eq_add_of_le (show a.length ≤ i by omega)
      rw [holdsAt_append_right]
      exact h.all k (by omega) (by omega)
    · rcases Nat.eq_zero_or_pos off with rfl | h0
      · rcases Nat.eq_zero_or_pos a.length with ha0 | ha0
        · exact .inl (by omega)
        · exact .inr (holdsAt_boundary ha ha0)
      · refine .inr ?_
        rw [hpred h0, holdsAt_append_right]
        exact h.left.resolve_left (by omega)
    · rw [Nat.add_assoc, holdsAt_append_right]
      exact h.right

/-- **Cutting behind a settled part cuts no run.** -/
theorem isRun_append (ha : Settled p a) :
    IsRun p (a ++ b) off len ↔
      IsRun p a off len ∨ ∃ off', off = a.length + off' ∧ IsRun p b off' len := by
  rcases Nat.lt_or_ge off a.length with hlt | hge
  · rw [isRun_append_left ha hlt, or_iff_left]
    rintro ⟨off', rfl, -⟩
    omega
  · obtain ⟨off', rfl⟩ := Nat.exists_eq_add_of_le hge
    rw [isRun_append_right ha, or_iff_right]
    · constructor
      · exact fun h => ⟨off', rfl, h⟩
      · rintro ⟨k, hk, h⟩
        rwa [Nat.add_left_cancel hk]
    · intro h
      have := h.le_length
      have := h.pos
      omega

/-- Between elements outside `p`, a block that satisfies `p` is the one run. -/
theorem isRun_between {c : List α} (ha : ∀ i, holdsAt p a i = false) (hpos : 0 < b.length)
    (hb : ∀ i < b.length, holdsAt p b i = true) (hc : ∀ i, holdsAt p c i = false) :
    IsRun p (a ++ (b ++ c)) off len ↔ off = a.length ∧ len = b.length := by
  have hrun : IsRun p (a ++ (b ++ c)) a.length b.length := by
    have hfirst : IsRun p (b ++ c) 0 b.length := by
      refine ⟨hpos, fun i _ hi => ?_, .inl rfl, ?_⟩
      · rw [holdsAt_append_left (by omega)]
        exact hb i (by omega)
      · rw [Nat.zero_add]
        exact (holdsAt_append_right 0).trans (hc 0)
    exact (isRun_append_right fun i _ => ha i).2 hfirst
  constructor
  · intro h
    have hat := h.all off le_rfl (Nat.lt_add_of_pos_right h.pos)
    have hle : a.length ≤ off := by
      by_contra hlt
      rw [holdsAt_append_left (by omega), ha] at hat
      exact Bool.noConfusion hat
    have hoff : off = a.length := by
      rcases Nat.eq_or_lt_of_le hle with heq | hlt
      · exact heq.symm
      · have hbehind := hrun.lt_of_lt h hlt
        obtain ⟨k, rfl⟩ := Nat.exists_eq_add_of_le hbehind.le
        rw [Nat.add_assoc, holdsAt_append_right, holdsAt_append_right, hc] at hat
        exact Bool.noConfusion hat
    subst hoff
    exact ⟨rfl, h.len_eq hrun⟩
  · rintro ⟨rfl, rfl⟩
    exact hrun

end Pico10BaseT
