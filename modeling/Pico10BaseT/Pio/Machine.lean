import Mathlib.Algebra.Order.Group.Nat
import Mathlib.Data.List.Basic
import Mathlib.Logic.Function.Basic
import Mathlib.Tactic.Common

/-!
# A programmable I/O state machine

The instructions of a PIO state machine that a program needs which watches one pin, counts with
the scratch register X and reports through interrupt flags.  One instruction is executed a cycle,
and a jump on the pin sees its level in that cycle.
-/

namespace Pico10BaseT

namespace Pio

/-- When a jump is taken. -/
inductive Cond
  | always
  /-- The pin is high. -/
  | pin
  /-- X is not zero; it is decremented either way. -/
  | xDec
  deriving DecidableEq, Repr

inductive Instr
  | jmp (cond : Cond) (target : ℕ)
  /-- `set x, n` -/
  | setX (n : ℕ)
  /-- `irq set i` -/
  | irqSet (i : Fin 8)
  /-- `irq clear i` -/
  | irqClear (i : Fin 8)
  deriving DecidableEq, Repr

structure State where
  pc : ℕ
  /-- The scratch register, 32 bits. -/
  x : ℕ
  irq : Fin 8 → Bool

/-- The program counter after an instruction that does not jump; the program wraps around. -/
def wrap (prog : List Instr) (pc : ℕ) : ℕ := if pc + 1 = prog.length then 0 else pc + 1

/-- One instruction, executed in a cycle with the pin at level `pin`. -/
def exec (prog : List Instr) (pin : Bool) (s : State) : Instr → State
  | .jmp .always target => { s with pc := target }
  | .jmp .pin target => { s with pc := if pin then target else wrap prog s.pc }
  | .jmp .xDec target =>
    { s with pc := if s.x = 0 then wrap prog s.pc else target, x := (s.x + (2 ^ 32 - 1)) % 2 ^ 32 }
  | .setX n => { s with pc := wrap prog s.pc, x := n }
  | .irqSet i => { s with pc := wrap prog s.pc, irq := Function.update s.irq i true }
  | .irqClear i => { s with pc := wrap prog s.pc, irq := Function.update s.irq i false }

/-- One cycle.  A program counter outside the program stays where it is. -/
def step (prog : List Instr) (pin : Bool) (s : State) : State :=
  match prog[s.pc]? with
  | some i => exec prog pin s i
  | none => s

/-- The state at the beginning of cycle `t`, the pin being at level `pin u` in cycle `u`. -/
def run (prog : List Instr) (pin : ℕ → Bool) (s : State) : ℕ → State
  | 0 => s
  | t + 1 => step prog (pin t) (run prog pin s t)

/-- The instruction `i` is executed in cycle `t`. -/
def Executes (prog : List Instr) (pin : ℕ → Bool) (s : State) (t : ℕ) (i : Instr) : Prop :=
  prog[(run prog pin s t).pc]? = some i

/-- The state depends on the past of the pin only. -/
theorem run_congr {prog : List Instr} {pin pin' : ℕ → Bool} {s : State} {t : ℕ}
    (h : ∀ u < t, pin u = pin' u) : run prog pin s t = run prog pin' s t := by
  induction t with
  | zero => rfl
  | succ t ih => rw [run, run, ih fun u hu => h u (by omega), h t (by omega)]

end Pio

end Pico10BaseT
