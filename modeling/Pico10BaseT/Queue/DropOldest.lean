import Mathlib.Data.List.Induction
import Mathlib.Data.List.Nodup
import Mathlib.Algebra.Order.Group.Nat

/-!
# A bounded queue that drops its oldest element

A queue holds at most `cap` elements; an element put into a full queue takes the place of the oldest
one.  The elements are numbered in the order in which they are put in, and a `Ledger` records what
becomes of each number: it is in the queue, it was taken, or it was dropped.

* `Ledger.Valid` : what was taken and what is in the queue is what was put in, in that order, without
  the numbers dropped.
* `Ledger.valid_run` : this holds after any operations.
-/

namespace Pico10BaseT

/-- An operation on a queue. -/
inductive QueueOp (α : Type*)
  | put (a : α)
  | take

def QueueOp.elem {α : Type*} : QueueOp α → Option α
  | .put a => some a
  | .take => none

/-- What was put into a queue, and what became of it. -/
structure Ledger (α : Type*) where
  put : List α
  taken : List (α × ℕ)
  queue : List (α × ℕ)
  dropped : List ℕ

namespace Ledger

variable {α : Type*} {cap : ℕ} {L : Ledger α}

def empty : Ledger α := ⟨[], [], [], []⟩

/-- One operation. -/
def step (cap : ℕ) (L : Ledger α) : QueueOp α → Ledger α
  | .put a =>
    if L.queue.length < cap then
      { L with put := L.put ++ [a], queue := L.queue ++ [(a, L.put.length)] }
    else
      { L with
        put := L.put ++ [a]
        queue := L.queue.tail ++ [(a, L.put.length)]
        dropped := L.dropped ++ (L.queue.head?.map Prod.snd).toList }
  | .take => { L with taken := L.taken ++ L.queue.head?.toList, queue := L.queue.tail }

/-- Operations on an empty queue, the last one being the latest. -/
def run (cap : ℕ) (ops : List (QueueOp α)) : Ledger α := ops.foldl (step cap) empty

theorem run_snoc (ops : List (QueueOp α)) (op : QueueOp α) :
    run cap (ops ++ [op]) = (run cap ops).step cap op :=
  List.foldl_concat ..

theorem put_step (L : Ledger α) (op : QueueOp α) :
    (L.step cap op).put = L.put ++ op.elem.toList := by
  cases op with
  | take => exact (List.append_nil _).symm
  | put a =>
    rw [step]
    split_ifs <;> rfl

theorem put_run (ops : List (QueueOp α)) : (run cap ops).put = ops.filterMap QueueOp.elem := by
  induction ops using List.reverseRecOn with
  | nil => rfl
  | append_singleton ops op ih =>
    rw [run_snoc, put_step, ih, List.filterMap_append]
    cases op <;> rfl

/-- The elements that are not dropped, with their numbers. -/
def kept (put : List α) (dropped : List ℕ) : List (α × ℕ) :=
  put.zipIdx.filter fun x => x.2 ∉ dropped

/-- What was taken and what is in the queue is what is kept. -/
structure Valid (cap : ℕ) (L : Ledger α) : Prop where
  room : L.queue.length ≤ cap
  kept : L.taken ++ L.queue = kept L.put L.dropped
  nodup : L.dropped.Nodup
  lt : ∀ i ∈ L.dropped, i < L.put.length

/-- What is kept is in order. -/
theorem kept_sublist (put : List α) (dropped : List ℕ) :
    ((Ledger.kept put dropped).map Prod.fst).Sublist put := by
  have hsub : ((Ledger.kept put dropped).map Prod.fst).Sublist (put.zipIdx.map Prod.fst) :=
    List.filter_sublist.map _
  rwa [List.zipIdx_map_fst] at hsub

theorem kept_nil (put : List α) : (Ledger.kept put []).map Prod.fst = put := by
  simp [Ledger.kept]

/-- A new element is kept. -/
theorem kept_put (put : List α) {dropped : List ℕ} (a : α) (h : ∀ i ∈ dropped, i < put.length) :
    Ledger.kept (put ++ [a]) dropped = Ledger.kept put dropped ++ [(a, put.length)] := by
  have hnot : put.length ∉ dropped := fun hmem => (h _ hmem).false
  simp [Ledger.kept, List.zipIdx_append, List.filter_append, hnot]

/-- One more number dropped. -/
theorem kept_drop (put : List α) (dropped : List ℕ) (i : ℕ) :
    Ledger.kept put (dropped ++ [i]) = (Ledger.kept put dropped).filter fun x => x.2 ≠ i := by
  rw [Ledger.kept, Ledger.kept, List.filter_filter]
  refine List.filter_congr fun x _ => ?_
  simp [and_comm]

theorem nodup_kept (put : List α) (dropped : List ℕ) :
    ((Ledger.kept put dropped).map Prod.snd).Nodup := by
  have hsub : ((Ledger.kept put dropped).map Prod.snd).Sublist (put.zipIdx.map Prod.snd) :=
    List.filter_sublist.map _
  refine hsub.nodup ?_
  rw [List.zipIdx_map_snd]
  exact List.nodup_range'

theorem mem_kept {put : List α} {dropped : List ℕ} {x : α × ℕ} (h : x ∈ Ledger.kept put dropped) :
    x.2 < put.length ∧ x.2 ∉ dropped := by
  obtain ⟨hmem, hnot⟩ := List.mem_filter.1 h
  exact ⟨by simpa using List.snd_lt_of_mem_zipIdx hmem, by simpa using hnot⟩

namespace Valid

theorem empty (cap : ℕ) : (empty : Ledger α).Valid cap :=
  ⟨Nat.zero_le _, rfl, List.nodup_nil, by simp [Ledger.empty]⟩

theorem take (h : L.Valid cap) : (L.step cap .take).Valid cap := by
  refine ⟨?_, ?_, h.nodup, h.lt⟩
  · have := h.room
    simp only [step, List.length_tail]
    omega
  · refine Eq.trans ?_ h.kept
    cases hq : L.queue with
    | nil => simp [step, hq]
    | cons x q => simp [step, hq]

/-- The queue has room. -/
theorem put (h : L.Valid cap) (a : α) (hroom : L.queue.length < cap) :
    (L.step cap (.put a)).Valid cap := by
  rw [step, if_pos hroom]
  refine ⟨?_, ?_, h.nodup, fun i hi => ?_⟩
  · rw [List.length_append, List.length_singleton]
    omega
  · rw [kept_put _ _ h.lt, ← h.kept, List.append_assoc]
  · have := h.lt i hi
    rw [List.length_append]
    omega

/-- The queue is full. -/
theorem put_full (h : L.Valid cap) (hcap : 0 < cap) (a : α) (hfull : ¬ L.queue.length < cap) :
    (L.step cap (.put a)).Valid cap := by
  have hroom := h.room
  rw [step, if_neg hfull]
  cases hq : L.queue with
  | nil => simp [hq] at hfull; omega
  | cons x q =>
    have hkept := h.kept
    rw [hq] at hkept hroom
    have hnodup := nodup_kept L.put L.dropped
    have hx : x ∈ Ledger.kept L.put L.dropped := by simp [← hkept]
    obtain ⟨hlt, hnot⟩ := mem_kept hx
    have hlt' : ∀ i ∈ L.dropped ++ [x.2], i < L.put.length := fun i hi => by
      rcases List.mem_append.1 hi with hi | hi
      · exact h.lt i hi
      · rwa [List.mem_singleton.1 hi]
    refine ⟨by simpa using hroom, ?_, ?_, fun i hi => ?_⟩
    · -- only the oldest has its number
      have hfilter : (L.taken ++ x :: q).filter (fun y => y.2 ≠ x.2) = L.taken ++ q := by
        rw [← hkept, List.map_append, List.map_cons, List.nodup_append] at hnodup
        obtain ⟨-, hxq, hapart⟩ := hnodup
        rw [List.nodup_cons] at hxq
        have htaken : L.taken.filter (fun y => y.2 ≠ x.2) = L.taken :=
          List.filter_eq_self.2 fun y hy => by
            simpa using hapart y.2 (List.mem_map_of_mem hy) x.2 (List.mem_cons_self ..)
        have hrest : q.filter (fun y => y.2 ≠ x.2) = q :=
          List.filter_eq_self.2 fun y hy => by
            simpa using ne_of_mem_of_not_mem (List.mem_map_of_mem hy) hxq.1
        rw [List.filter_append, List.filter_cons_of_neg (by simp), htaken, hrest]
      change L.taken ++ (q ++ [(a, L.put.length)]) =
        Ledger.kept (L.put ++ [a]) (L.dropped ++ [x.2])
      rw [kept_put _ _ hlt', kept_drop, ← hkept, hfilter, List.append_assoc]
    · change (L.dropped ++ [x.2]).Nodup
      rw [List.nodup_append]
      exact ⟨h.nodup, List.nodup_singleton _, by simpa using fun i hi => ne_of_mem_of_not_mem hi hnot⟩
    · have := hlt' i hi
      rw [List.length_append]
      omega

theorem step (h : L.Valid cap) (hcap : 0 < cap) (op : QueueOp α) : (L.step cap op).Valid cap := by
  cases op with
  | take => exact h.take
  | put a =>
    by_cases hroom : L.queue.length < cap
    · exact h.put a hroom
    · exact h.put_full hcap a hroom

end Valid

/-- **Any operations** keep the ledger valid. -/
theorem valid_run (hcap : 0 < cap) (ops : List (QueueOp α)) : (run cap ops).Valid cap := by
  induction ops using List.reverseRecOn with
  | nil => exact .empty cap
  | append_singleton ops op ih =>
    rw [run_snoc]
    exact ih.step hcap op

end Ledger

end Pico10BaseT
