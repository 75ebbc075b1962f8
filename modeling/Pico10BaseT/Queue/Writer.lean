import Mathlib.Data.List.Basic
import Mathlib.Tactic.Common
import Pico10BaseT.LTS.Basic

/-!
# Writing into a bounded FIFO

A writer puts the elements of a program into a FIFO of capacity `cap`, one attempt at a time; the
other side takes them out whenever it likes.  An attempt on a full FIFO writes nothing: the writer
either tries again or goes on without the element.

* `conserved_iff` : what was taken out, what is in the FIFO and what is still to be written is what
  was to be written, in that order, exactly when no element was given up on a full FIFO.
-/

namespace Pico10BaseT

/-- An element to be written. -/
inductive Write (α : Type*)
  /-- Tried until there is room. -/
  | retry (a : α)
  /-- Tried once. -/
  | once (a : α)
  deriving DecidableEq, Repr

def Write.elem {α : Type*} : Write α → α
  | .retry a => a
  | .once a => a

/-- A FIFO and what its writer still has to write. -/
structure Writer (α : Type*) where
  fifo : List α
  pending : List (Write α)
  deriving DecidableEq

inductive WriterLabel (α : Type*)
  /-- The writer takes up a program. -/
  | start (writes : List (Write α))
  /-- One attempt, and whether the FIFO was full. -/
  | attempt (w : Write α) (full : Bool)
  /-- The other side takes the oldest element. -/
  | pull (a : α)
  deriving DecidableEq

namespace Writer

variable {α : Type*} {cap : ℕ}

/-- The writer does not get past an attempt that wrote nothing, unless it tries once only. -/
def afterFull (s : Writer α) (w : Write α) (rest : List (Write α)) : Writer α :=
  match w with
  | .retry _ => s
  | .once _ => { s with pending := rest }

/-- One step, when the label is one of the state. -/
def next [DecidableEq α] (cap : ℕ) (s : Writer α) : WriterLabel α → Option (Writer α)
  | .start writes => if s.pending = [] then some { s with pending := writes } else none
  | .attempt w full =>
    match s.pending with
    | [] => none
    | w' :: rest =>
      if w = w' ∧ full = decide (cap ≤ s.fifo.length) then
        some (if full then s.afterFull w rest
          else { fifo := s.fifo ++ [w.elem], pending := rest })
      else none
  | .pull a =>
    match s.fifo with
    | [] => none
    | a' :: fifo => if a = a' then some { s with fifo } else none

/-- The elements taken out. -/
def pulled (ls : List (WriterLabel α)) : List α :=
  ls.filterMap fun
    | .pull a => some a
    | _ => none

/-- The elements to be written. -/
def intended (ls : List (WriterLabel α)) : List α :=
  ls.flatMap fun
    | .start writes => writes.map Write.elem
    | _ => []

/-- The elements given up on a full FIFO. -/
def lost (ls : List (WriterLabel α)) : List α :=
  ls.filterMap fun
    | .attempt (.once a) true => some a
    | _ => none

/-- What was taken out and what is still to come. -/
def accounted (ls : List (WriterLabel α)) (s : Writer α) : List α :=
  pulled ls ++ s.fifo ++ s.pending.map Write.elem

section

variable (ls : List (WriterLabel α)) (l : WriterLabel α)

theorem pulled_snoc : pulled (ls ++ [l]) = pulled ls ++ pulled [l] := List.filterMap_append

theorem lost_snoc : lost (ls ++ [l]) = lost ls ++ lost [l] := List.filterMap_append

theorem intended_snoc : intended (ls ++ [l]) = intended ls ++ intended [l] := List.flatMap_append

end

variable [DecidableEq α]

/-- The system of a FIFO that holds `fifo₀` at first. -/
def system (cap : ℕ) (fifo₀ : List α) : System (Writer α) (WriterLabel α) where
  init s := s = ⟨fifo₀, []⟩
  step s l s' := s.next cap l = some s'

/-- What one step does: nothing is reordered, and at most the element of a lost attempt goes. -/
theorem next_cases {s s' : Writer α} {l : WriterLabel α} (h : s.next cap l = some s') :
    (∃ writes, l = .start writes ∧ s.pending = [] ∧ s' = ⟨s.fifo, writes⟩) ∨
    (∃ w rest, l = .attempt w false ∧ s.pending = w :: rest ∧ s.fifo.length < cap ∧
      s' = ⟨s.fifo ++ [w.elem], rest⟩) ∨
    (∃ a, l = .attempt (.retry a) true ∧ s' = s) ∨
    (∃ a rest, l = .attempt (.once a) true ∧ s.pending = .once a :: rest ∧ cap ≤ s.fifo.length ∧
      s' = ⟨s.fifo, rest⟩) ∨
    (∃ a fifo, l = .pull a ∧ s.fifo = a :: fifo ∧ s' = ⟨fifo, s.pending⟩) := by
  obtain ⟨fifo, pending⟩ := s
  cases l with
  | start writes =>
    simp only [next, Option.ite_none_right_eq_some, Option.some.injEq] at h
    exact .inl ⟨writes, rfl, h.1, h.2.symm⟩
  | attempt w full =>
    cases pending with
    | nil => cases h
    | cons w' rest =>
      simp only [next, Option.ite_none_right_eq_some, Option.some.injEq] at h
      obtain ⟨⟨rfl, hfull⟩, rfl⟩ := h
      cases full with
      | false => exact .inr (.inl ⟨w, rest, rfl, rfl, by simpa using hfull, rfl⟩)
      | true =>
        cases w with
        | retry a => exact .inr (.inr (.inl ⟨a, rfl, rfl⟩))
        | once a => exact .inr (.inr (.inr (.inl ⟨a, rest, rfl, rfl, by simpa using hfull, rfl⟩)))
  | pull a =>
    cases fifo with
    | nil => cases h
    | cons a' fifo =>
      simp only [next, Option.ite_none_right_eq_some, Option.some.injEq] at h
      obtain ⟨rfl, rfl⟩ := h
      exact .inr (.inr (.inr (.inr ⟨a, fifo, rfl, rfl, rfl⟩)))

variable {fifo₀ : List α} {ls : List (WriterLabel α)} {s : Writer α}

/-- One step keeps the account, unless it loses an element. -/
theorem accounted_step {s' : Writer α} {l : WriterLabel α} (h : s.next cap l = some s')
    (hlost : lost [l] = []) :
    accounted (ls ++ [l]) s' = accounted ls s ++ intended [l] := by
  rw [accounted, accounted, pulled_snoc]
  rcases next_cases h with ⟨_, rfl, hpending, rfl⟩ | ⟨w, rest, rfl, hpending, -, rfl⟩ |
    ⟨_, rfl, rfl⟩ | ⟨_, _, rfl, -, -, -⟩ | ⟨_, _, rfl, hfifo, rfl⟩
  · simp [pulled, intended, hpending]
  · simp [pulled, intended, hpending]
  · simp [pulled, intended]
  · cases hlost
  · simp [pulled, intended, hfifo]

/-- The lengths account for the lost elements as well. -/
theorem length_accounted (h : (system cap fifo₀).Run ls s) :
    (accounted ls s).length + (lost ls).length = (fifo₀ ++ intended ls).length := by
  refine h.induction (J := fun ls s => (accounted ls s).length + (lost ls).length =
    (fifo₀ ++ intended ls).length) (fun s hs => ?_) fun ls s l s' _ ih hst => ?_
  · obtain rfl : s = ⟨fifo₀, []⟩ := hs
    simp [accounted, pulled, intended, lost]
  · rw [lost_snoc, intended_snoc, List.length_append, List.length_append, List.length_append]
    rw [List.length_append] at ih
    rcases next_cases hst with ⟨_, rfl, hpending, rfl⟩ | ⟨w, rest, rfl, hpending, -, rfl⟩ |
      ⟨_, rfl, rfl⟩ | ⟨_, _, rfl, hpending, -, rfl⟩ | ⟨_, _, rfl, hfifo, rfl⟩ <;>
    simp [accounted, pulled, intended, lost, *] at ih ⊢ <;> omega

/-- **Conservation**: the account is what was to be written exactly when nothing was lost. -/
theorem conserved_iff (h : (system cap fifo₀).Run ls s) :
    accounted ls s = fifo₀ ++ intended ls ↔ lost ls = [] := by
  constructor
  · intro heq
    have hlen := length_accounted h
    rw [heq] at hlen
    exact List.length_eq_zero_iff.1 (by omega)
  · refine h.induction (J := fun ls s => lost ls = [] → accounted ls s = fifo₀ ++ intended ls)
      (fun s hs _ => ?_) fun ls s l s' _ ih hst hlost => ?_
    · obtain rfl : s = ⟨fifo₀, []⟩ := hs
      simp [accounted, pulled, intended]
    · rw [lost_snoc, List.append_eq_nil_iff] at hlost
      rw [accounted_step hst hlost.2, ih hlost.1, intended_snoc, List.append_assoc]

end Writer

end Pico10BaseT
