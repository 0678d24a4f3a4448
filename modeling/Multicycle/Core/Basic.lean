import Multicycle.Datapath
import Multicycle.Settings

/-! The state of the core, and what a tick can come to. -/
namespace Multicycle

structure Core where
  latches : Latches := { pc := resetPc }
  phase : Phase := .fetch
  registers : Register.File := {}
  cycle : Nat := 0
  traceInstructions : Bool := false
  deriving DecidableEq

namespace Core

def ofSettings (s : Settings) : Core := { traceInstructions := s.general.traceInstructions }

/-- Back to the start of the program; the registers keep their values. -/
def reset (c : Core) : Core :=
  { c with latches := { pc := resetPc }, phase := .fetch, cycle := 0 }

def setRegister (c : Core) (i : Nat) (v : Word) : Core :=
  { c with registers := c.registers.write i v }

end Core

structure Retirement where
  pc : Word
  instr : Instruction
  opcode : Opcode
  nextPc : Word
  branchTaken : Option Bool
  deriving DecidableEq, Repr

namespace Retirement

/-- The instruction goes back to itself. -/
def selfLoop (r : Retirement) : Bool := r.nextPc == r.pc

end Retirement

inductive Status where
  | running
  | retired (r : Retirement)
  | halted
  deriving DecidableEq, Repr

/-- Steps up to the first that does not leave an instruction in flight, at most `n` of them. -/
def advance {S : Type} (step : S → Except Fault Status × S) : Nat → S → Except Fault Status × S
  | 0, x => (.ok .running, x)
  | n + 1, x =>
    match step x with
    | (.ok .running, y) => advance step n y
    | done => done

section Advance

variable {S T : Type} {step : S → Except Fault Status × S} {n k : Nat} {x y : S}

theorem advance_of_running (h : step x = (.ok .running, y)) :
    advance step (n + 1) x = advance step n y := by
  rw [advance, h]

theorem advance_of_done (h : (step x).1 ≠ .ok .running) : advance step (n + 1) x = step x := by
  rw [advance]
  split
  · next hs => exact absurd (by rw [hs]) h
  · rfl

/-- Steps that agree up to how the state is written down advance alike. -/
theorem advance_map {step' : T → Except Fault Status × T} {f : S → T}
    (h : ∀ x, step' (f x) = ((step x).1, f (step x).2)) (n : Nat) (x : S) :
    advance step' n (f x) = ((advance step n x).1, f (advance step n x).2) := by
  induction n generalizing x with
  | zero => rfl
  | succ n ih =>
    by_cases hr : (step x).1 = .ok .running
    · have hs : step x = (.ok .running, (step x).2) := Prod.ext hr rfl
      have hs' : step' (f x) = (.ok .running, f (step x).2) := by rw [h, hr]
      rw [advance_of_running hs, advance_of_running hs', ih]
    · have hr' : (step' (f x)).1 ≠ .ok .running := by rwa [h]
      rw [advance_of_done hr, advance_of_done hr', h]

theorem advance_preserves {P : S → Prop} (hstep : ∀ x, P x → P (step x).2) (h : P x) :
    P (advance step n x).2 := by
  induction n generalizing x with
  | zero => exact h
  | succ n ih =>
    have hnext := hstep x h
    by_cases hr : (step x).1 = .ok .running
    · rw [advance_of_running (Prod.ext hr rfl)]
      exact ih hnext
    · rwa [advance_of_done hr]

theorem exists_last_step {P : S → Prop} (hstep : ∀ x, P x → P (step x).2) (h : P x)
    (hr : (advance step n x).1 ≠ .ok .running) : ∃ y, P y ∧ step y = advance step n x := by
  induction n generalizing x with
  | zero => exact absurd rfl hr
  | succ n ih =>
    by_cases hs : (step x).1 = .ok .running
    · rw [advance_of_running (Prod.ext hs rfl)] at hr ⊢
      exact ih (hstep x h) hr
    · exact ⟨x, h, (advance_of_done hs).symm⟩

theorem advance_eq_of_le (hr : (advance step k x).1 ≠ .ok .running) (h : k ≤ n) :
    advance step n x = advance step k x := by
  induction k generalizing n x with
  | zero => exact absurd rfl hr
  | succ k ih =>
    obtain ⟨n, rfl⟩ : ∃ j, n = j + 1 := Nat.exists_eq_succ_of_ne_zero (by omega)
    by_cases hs : (step x).1 = .ok .running
    · rw [advance_of_running (Prod.ext hs rfl)] at hr
      rw [advance_of_running (Prod.ext hs rfl), advance_of_running (Prod.ext hs rfl)]
      exact ih hr (by omega)
    · rw [advance_of_done hs, advance_of_done hs]

/-- The loop ends where every step that leaves an instruction in flight comes closer to its end. -/
theorem advance_ne_running {distance : S → Nat} (hpos : ∀ x, 0 < distance x)
    (hlt : ∀ x, (step x).1 = .ok .running → distance (step x).2 < distance x)
    (h : distance x ≤ n) : (advance step n x).1 ≠ .ok .running := by
  induction n generalizing x with
  | zero => exact absurd (hpos x) (by omega)
  | succ n ih =>
    by_cases hr : (step x).1 = .ok .running
    · have hcloser := hlt x hr
      rw [advance_of_running (Prod.ext hr rfl)]
      exact ih (Nat.le_of_lt_succ (Nat.lt_of_lt_of_le hcloser h))
    · rwa [advance_of_done hr]

end Advance

inductive Stop where
  | endOfProgram (pc : Word)
  | selfLoop (pc : Word)
  | cycleLimit (cycles : Nat)
  deriving DecidableEq, Repr

end Multicycle
