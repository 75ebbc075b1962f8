import Mathlib.Data.List.DropRight
import Mathlib.Data.List.Nodup
import Mathlib.Tactic.Common

/-!
# Bounded maps that forget their oldest key

A map of at most `cap` entries.  Inserting a key that is there replaces its value in place; a new
key is put last, and pushes the first one out when the map is full.

## Main results

* `BoundedMap.keys_insertAll` : after any insertions the keys are the last `cap` of those that were
  new when they were inserted.
* `BoundedMap.isLatest_of_maps` : each with the value of its latest insertion.
-/

namespace Pico10BaseT

variable {κ ν : Type*}

/-- Entries with distinct keys, oldest key first. -/
structure BoundedMap (cap : ℕ) (κ : Type*) (ν : Type*) where
  entries : List (κ × ν)
  nodup : (entries.map Prod.fst).Nodup
  length_le : entries.length ≤ cap

/-- The value of `k` in its latest insertion. -/
def IsLatest (es : List (κ × ν)) (k : κ) (v : ν) : Prop :=
  ∃ pre post, es = pre ++ (k, v) :: post ∧ ∀ e ∈ post, e.1 ≠ k

theorem IsLatest.snoc_self (es : List (κ × ν)) (k : κ) (v : ν) : IsLatest (es ++ [(k, v)]) k v :=
  ⟨es, [], rfl, by simp⟩

theorem IsLatest.snoc {es : List (κ × ν)} {k : κ} {v : ν} {e : κ × ν} (h : IsLatest es k v)
    (hne : e.1 ≠ k) : IsLatest (es ++ [e]) k v := by
  obtain ⟨pre, post, rfl, hpost⟩ := h
  refine ⟨pre, post ++ [e], by simp, ?_⟩
  rw [List.forall_mem_append]
  exact ⟨hpost, by simpa using hne⟩

theorem IsLatest.unique {es : List (κ × ν)} {k : κ} {v v' : ν} (h : IsLatest es k v)
    (h' : IsLatest es k v') : v = v' := by
  obtain ⟨pre, post, rfl, hpost⟩ := h
  obtain ⟨pre', post', heq, hpost'⟩ := h'
  rcases List.append_eq_append_iff.1 heq with ⟨as, rfl, has⟩ | ⟨as, rfl, has⟩
  · cases as with
    | nil => exact (Prod.mk.inj (List.cons.inj has).1).2
    | cons a as =>
      obtain ⟨-, rfl⟩ := List.cons.inj has
      exact absurd rfl (hpost (k, v') (by simp))
  · cases as with
    | nil => exact (Prod.mk.inj (List.cons.inj has).1).2.symm
    | cons a as =>
      obtain ⟨-, rfl⟩ := List.cons.inj has
      exact absurd rfl (hpost' (k, v) (by simp))

/-- The newest of the newest and some more are the newest of all. -/
theorem rtake_append_rtake {α : Type*} (l l' : List α) (n : ℕ) :
    (l.rtake n ++ l').rtake n = (l ++ l').rtake n := by
  simp only [List.rtake_eq_reverse_take_reverse, List.reverse_append, List.reverse_reverse]
  rw [List.take_append, List.take_append, List.take_take, Nat.min_eq_left (Nat.sub_le _ _)]

namespace BoundedMap

variable {cap : ℕ} (m : BoundedMap cap κ ν)

def empty : BoundedMap cap κ ν := ⟨[], List.nodup_nil, Nat.zero_le _⟩

def keys : List κ := m.entries.map Prod.fst

/-- The value of a key. -/
def Maps (k : κ) (v : ν) : Prop := (k, v) ∈ m.entries

variable {m} in
theorem Maps.unique {k : κ} {v v' : ν} (h : m.Maps k v) (h' : m.Maps k v') : v = v' := by
  have heq := List.inj_on_of_nodup_map m.nodup h h' rfl
  exact (Prod.mk.inj heq).2

variable {m} in
theorem mem_keys {k : κ} : k ∈ m.keys ↔ ∃ v, m.Maps k v := by
  simp [keys, Maps]

variable [DecidableEq κ]

/-- The entries of `insert`. -/
def insertEntries (k : κ) (v : ν) : List (κ × ν) :=
  if k ∈ m.keys then m.entries.map fun e => if e.1 = k then (k, v) else e
  else (m.entries ++ [(k, v)]).rtake cap

theorem map_fst_insertEntries (k : κ) (v : ν) :
    (m.insertEntries k v).map Prod.fst =
      if k ∈ m.keys then m.keys else (m.keys ++ [k]).rtake cap := by
  unfold insertEntries
  split_ifs with hk
  · rw [List.map_map, keys]
    refine List.map_congr_left fun e _ => ?_
    by_cases he : e.1 = k
    · simp [he]
    · simp [he]
  · rw [List.rtake, List.rtake, List.map_drop, List.map_append, keys]
    simp

def insert (k : κ) (v : ν) : BoundedMap cap κ ν where
  entries := m.insertEntries k v
  nodup := by
    rw [map_fst_insertEntries]
    split_ifs with hk
    · exact m.nodup
    · refine (List.drop_sublist _ _).nodup ?_
      rw [List.nodup_append]
      exact ⟨m.nodup, List.nodup_singleton k, by rintro a ha b hb rfl; simp_all⟩
  length_le := by
    unfold insertEntries
    split_ifs with hk
    · rw [List.length_map]
      exact m.length_le
    · rw [List.rtake, List.length_drop]
      omega

theorem keys_insert (k : κ) (v : ν) :
    (m.insert k v).keys = if k ∈ m.keys then m.keys else (m.keys ++ [k]).rtake cap :=
  m.map_fst_insertEntries k v

variable {m}

/-- An entry after an insertion is the inserted one, or was there under another key. -/
theorem maps_insert {k k' : κ} {v v' : ν} (h : (m.insert k v).Maps k' v') :
    (k' = k ∧ v' = v) ∨ (k' ≠ k ∧ m.Maps k' v') := by
  have hmem : (k', v') ∈ m.insertEntries k v := h
  unfold insertEntries at hmem
  split_ifs at hmem with hk
  · obtain ⟨e, he, heq⟩ := List.mem_map.1 hmem
    by_cases hek : e.1 = k
    · rw [if_pos hek] at heq
      exact .inl ⟨(Prod.mk.inj heq).1.symm, (Prod.mk.inj heq).2.symm⟩
    · rw [if_neg hek] at heq
      subst heq
      exact .inr ⟨hek, he⟩
  · rcases List.mem_append.1 (List.mem_of_mem_drop hmem) with hold | hnew
    · refine .inr ⟨?_, hold⟩
      rintro rfl
      exact hk (mem_keys.2 ⟨v', hold⟩)
    · exact .inl (Prod.mk.inj (List.mem_singleton.1 hnew))

theorem maps_insert_self (hcap : 0 < cap) (k : κ) (v : ν) : (m.insert k v).Maps k v := by
  have hmem : k ∈ (m.insert k v).keys := by
    rw [keys_insert]
    split_ifs with hk
    · exact hk
    · obtain ⟨n, rfl⟩ := Nat.exists_eq_succ_of_ne_zero hcap.ne'
      simp [List.rtake_concat_succ]
  obtain ⟨v', hv'⟩ := mem_keys.1 hmem
  rcases maps_insert hv' with ⟨-, rfl⟩ | ⟨hne, -⟩
  · exact hv'
  · exact absurd rfl hne

/-- Inserting a key that is there leaves the other entries alone. -/
theorem maps_insert_of_mem {k k' : κ} {v v' : ν} (hk : k ∈ m.keys) (hne : k' ≠ k) :
    (m.insert k v).Maps k' v' ↔ m.Maps k' v' := by
  constructor
  · intro h
    rcases maps_insert h with ⟨heq, -⟩ | ⟨-, hold⟩
    · exact absurd heq hne
    · exact hold
  · intro h
    have hmem : (k', v') ∈ m.insertEntries k v := by
      rw [insertEntries, if_pos hk]
      exact List.mem_map.2 ⟨_, h, if_neg hne⟩
    exact hmem

/-! ### Insertions one after the other -/

variable (m)

def insertAll (es : List (κ × ν)) : BoundedMap cap κ ν :=
  es.foldl (fun m e => m.insert e.1 e.2) m

/-- The keys that were new when they were inserted. -/
def newKeys : BoundedMap cap κ ν → List (κ × ν) → List κ
  | _, [] => []
  | m, (k, v) :: es => (if k ∈ m.keys then [] else [k]) ++ newKeys (m.insert k v) es

/-- **The keys are the newest ones.** -/
theorem keys_insertAll (es : List (κ × ν)) :
    (m.insertAll es).keys = (m.keys ++ newKeys m es).rtake cap := by
  induction es generalizing m with
  | nil =>
    have hlen : m.keys.length ≤ cap := by
      rw [keys, List.length_map]
      exact m.length_le
    rw [newKeys, List.append_nil, List.rtake, Nat.sub_eq_zero_of_le hlen, List.drop_zero]
    rfl
  | cons e es ih =>
    obtain ⟨k, v⟩ := e
    rw [insertAll, List.foldl_cons, ← insertAll, ih, keys_insert, newKeys]
    split_ifs with hk
    · rfl
    · rw [rtake_append_rtake, List.append_assoc]

/-- **The values are the latest ones.** -/
theorem isLatest_of_maps {es : List (κ × ν)} {k : κ} {v : ν}
    (h : ((empty : BoundedMap cap κ ν).insertAll es).Maps k v) : IsLatest es k v := by
  induction es using List.reverseRecOn with
  | nil => exact absurd h List.not_mem_nil
  | append_singleton es e ih =>
    rw [insertAll, List.foldl_append] at h
    rcases maps_insert h with ⟨rfl, rfl⟩ | ⟨hne, hold⟩
    · exact .snoc_self es _ _
    · exact (ih hold).snoc hne.symm

end BoundedMap

end Pico10BaseT
