import Multicycle.Machine
import Multicycle.Proofs.Tick

/-! The cores and machines that their operations lead to from a start. -/
namespace Multicycle

/-- Ticks over any memories, resets and register presets, in any order. -/
inductive Core.Reachable : Core → Prop where
  | start (s : Settings) : Reachable (.ofSettings s)
  | tick {c : Core} {σ : Type} [Memory σ] (m : σ) (h : Reachable c) : Reachable (c.tick m).core
  | reset {c : Core} (h : Reachable c) : Reachable c.reset
  | setRegister {c : Core} (i : Nat) (v : Word) (h : Reachable c) : Reachable (c.setRegister i v)

namespace Machine

/-- All calls in any order, whatever they return. Between two of them, the memory may come to hold
any other program and data. -/
inductive Reachable : Machine → Prop where
  | start (s : Settings) (memory : Harvard) (log : Log) : Reachable (.start s memory log)
  | step {m : Machine} (h : Reachable m) : Reachable m.step.2
  | runInstruction {m : Machine} (h : Reachable m) : Reachable m.runInstruction.2
  | run {m : Machine} (h : Reachable m) : Reachable m.run.2
  | reset {m : Machine} (h : Reachable m) : Reachable m.reset
  | setRegister {m : Machine} (i : Nat) (v : Word) (h : Reachable m) : Reachable (m.setRegister i v)
  | edit {m : Machine} (memory : Harvard) (h : Reachable m) : Reachable { m with memory }

section Preservation

variable {P : Machine → Prop} {m : Machine} {n : Nat}

theorem runInstruction_preserves (hstep : ∀ m, P m → P m.step.2) (h : P m) :
    P m.runInstruction.2 := advance_preserves hstep h

theorem spend_preserves (hstep : ∀ m, P m → P m.step.2) (h : P m) : P (spend n m).2 := by
  induction n generalizing m with
  | zero => exact h
  | succ n ih =>
    have hs := hstep m h
    unfold spend
    split
    · next hm =>
      rw [hm] at hs
      exact hs
    · next hm =>
      rw [hm] at hs
      exact ih hs
    · next hm =>
      rw [hm] at hs
      exact hs
    · next hm =>
      rw [hm] at hs
      split
      · exact hs
      · exact ih hs

/-- What every step preserves, and no entry of the log decides, a whole run preserves. -/
theorem run_preserves (hstep : ∀ m, P m → P m.step.2) (hlog : ∀ m log, P m → P { m with log })
    (h : P m) : P m.run.2 := by
  have hs := spend_preserves (n := m.budget) hstep h
  unfold run
  split
  · next hm =>
    rw [hm] at hs
    exact hs
  · next hm =>
    rw [hm] at hs
    exact hlog _ _ hs

end Preservation

theorem core_step_reachable (m : Machine) (h : m.core.Reachable) : m.step.2.core.Reachable := by
  rw [step_core]
  exact .tick m.memory h

theorem Reachable.core {m : Machine} (h : m.Reachable) : m.core.Reachable := by
  induction h with
  | start s _ _ => exact .start s
  | step _ ih => exact core_step_reachable _ ih
  | runInstruction _ ih =>
    exact runInstruction_preserves (P := fun m => m.core.Reachable) core_step_reachable ih
  | run _ ih =>
    exact run_preserves (P := fun m => m.core.Reachable) core_step_reachable (fun _ _ h => h) ih
  | reset _ ih => exact ih.reset
  | setRegister i v _ ih => exact ih.setRegister i v
  | edit _ _ ih => exact ih

end Machine

end Multicycle
