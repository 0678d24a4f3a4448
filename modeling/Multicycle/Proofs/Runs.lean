import Multicycle.Proofs.Accounting
import Multicycle.Proofs.InFlight

/-! Steps of a machine one after another, and the step that a run ends with. -/
namespace Multicycle

namespace Harvard

theorem serve_memory_cases (r : Request) (m : Harvard) :
    (r.serve m).2 = m ∨ ∃ a v, (r.serve m).2 = m.poke a v := by
  cases r with
  | store a v =>
    simp only [Request.serve, Memory.store, store]
    cases m.fullAt a with
    | some capacity => exact .inl rfl
    | none => exact .inr ⟨a, v, rfl⟩
  | _ => exact .inl rfl

theorem instructions_serve (r : Request) (m : Harvard) :
    (r.serve m).2.instructions = m.instructions := by
  rcases serve_memory_cases r m with h | ⟨a, v, h⟩ <;> rw [h]
  rfl

end Harvard

namespace Core

theorem tick_memory_cases {σ : Type} [Memory σ] (c : Core) (m : σ) :
    (c.tick m).memory = m ∨ (c.tick m).memory = (c.request.serve m).2 := by
  cases c.ends m with
  | rejected _ ht =>
    rw [ht]
    exact .inl rfl
  | denied _ hr ht | ended _ hr ht | committed _ hr _ ht =>
    rw [ht, hr]
    exact .inr rfl

/-- Ticks one after another: what each of them came to, and what they left. -/
structure Ticks (σ : Type) where
  results : List (Except Fault Status)
  core : Core
  memory : σ

/-- `n` ticks, whatever each of them comes to. -/
def ticks {σ : Type} [Memory σ] (c : Core) (m : σ) : Nat → Ticks σ
  | 0 => ⟨[], c, m⟩
  | n + 1 =>
    let x := c.ticks m n
    let t := x.core.tick x.memory
    ⟨x.results ++ [t.result], t.core, t.memory⟩

end Core

namespace Machine

variable {m m' m'' : Machine} {n : Nat} {pc : Word}

theorem StepsTo.preserves {P : Machine → Prop} (hstep : ∀ m, P m → P m.step.2) (hm : P m)
    (h : m.StepsTo m') : P m' := by
  induction h with
  | refl => exact hm
  | step _ ih => exact hstep _ ih

theorem step_settings (m : Machine) : m.step.2.settings = m.settings := by
  simp only [step]
  split <;> rfl

theorem step_instructions (m : Machine) :
    m.step.2.memory.instructions = m.memory.instructions := by
  rw [step_memory]
  rcases m.core.tick_memory_cases m.memory with h | h
  · rw [h]
  · rw [h, Harvard.instructions_serve]

theorem StepsTo.settings (h : m.StepsTo m') : m'.settings = m.settings :=
  h.preserves (P := fun a => a.settings = m.settings) (fun a ha => a.step_settings.trans ha) rfl

theorem StepsTo.instructions (h : m.StepsTo m') :
    m'.memory.instructions = m.memory.instructions :=
  h.preserves (P := fun a => a.memory.instructions = m.memory.instructions)
    (fun a ha => a.step_instructions.trans ha) rfl

theorem StepsTo.instruction?_eq (h : m.StepsTo m') (a : Word) :
    m'.memory.instruction? a = m.memory.instruction? a := by
  rw [Harvard.instruction?, Harvard.instruction?, h.instructions]

/-- The core is between instructions, or has one on its way. -/
def InFlight (m : Machine) : Prop := m.core.InFlight m.memory

theorem reset_inFlight (m : Machine) : m.reset.InFlight := .fetch rfl

theorem InFlight.stride (h : m.InFlight) :
    m.core.Stride m.memory (m.step.1, m.step.2.core, m.step.2.memory) := by
  rw [step_result, step_core, step_memory]
  exact Core.InFlight.stride h

theorem InFlight.step (h : m.InFlight) : m.step.2.InFlight := h.stride.inFlight h

theorem InFlight.steps (h : m.InFlight) (hs : m.StepsTo m') : m'.InFlight :=
  hs.preserves (fun _ ha => ha.step) h

/-- What a step leaves behind that completes the instruction of `r`. -/
structure Completes (m : Machine) (r : Retirement) (e : Completion) (m' : Machine) : Prop where
  fetched : m.memory.instruction? r.pc = some r.instr
  opcode : Opcode.decode r.instr = .ok r.opcode
  supported : r.instr.Supported r.opcode
  effect : r.instr.execute r.opcode r.pc m.core.registers m.memory = (.ok e, m'.memory)
  nextPc : r.nextPc = e.pc
  phase : m'.core.phase = .fetch
  pc : m'.core.latches.pc = e.pc
  registers : m'.core.registers = e.registers

theorem InFlight.completes {r : Retirement} (h : m.InFlight)
    (hs : m.step = (.ok (.retired r), m')) : ∃ e, m.Completes r e m' := by
  have ht := h.stride
  rw [hs] at ht
  rcases m' with ⟨_, memory, core, _, _⟩
  dsimp only at ht
  cases ht with
  | stalled hr => cases stalls_ok_iff.mp hr
  | @retired _ e _ _ _ hw ho hsup he hq hpc hregs =>
    exact ⟨e, congrArg Prod.fst hw, ho, hsup, he, rfl, hq, hpc, hregs⟩

theorem step_of_no_instruction (hp : m.core.phase = .fetch)
    (hw : m.memory.instruction? m.core.latches.pc = none) : m.step.1 = .ok .halted := by
  have hfetch : Memory.fetch m.memory m.core.latches.pc = (none, m.memory) := by
    simp only [Memory.fetch, hw]
  rw [step_result]
  exact congrArg Prod.fst (Core.outcome_tick_fetch_end hp hfetch)

theorem distance_step_lt (h : m.step.1 = .ok .running) :
    m.step.2.core.phase.distance < m.core.phase.distance := by
  rw [step_result] at h
  rw [step_core]
  exact Core.distance_tick_lt h

theorem runInstruction_ne_running (m : Machine) : m.runInstruction.1 ≠ .ok .running :=
  advance_ne_running (fun m => m.core.phase.distance_pos) (fun _ => distance_step_lt)
    (Nat.le_refl m.core.phase.distance)

/-- Completing an instruction ends with a step that completes it, fails or halts. -/
theorem runInstruction_eq_step (m : Machine) :
    ∃ m₁, m.StepsTo m₁ ∧ m₁.step = m.runInstruction :=
  exists_last_step (fun _ h => .step h) .refl m.runInstruction_ne_running

/-- A run goes on after a step that comes to `s`. -/
def GoesOn (settings : Settings) : Status → Prop
  | .running => True
  | .retired r => ¬ (settings.general.stopOnSelfLoop && r.selfLoop)
  | .halted => False

/-- A run of `m` that has gone on for `k` steps is at `m'`. -/
inductive RunsTo (m : Machine) : Nat → Machine → Prop where
  | refl : RunsTo m 0 m
  | step {k : Nat} {s : Status} {a b : Machine} (h : RunsTo m k a) (hs : a.step = (.ok s, b))
      (hgo : GoesOn b.settings s) : RunsTo m (k + 1) b

/-- The step that a run ends with, unless its budget ends it. -/
inductive LastStep (m : Machine) : Except Fault Stop × Machine → Prop where
  | fault {f : Fault} {a : Machine} (h : m.step = (.error f, a)) : LastStep m (.error f, a)
  | halt {a : Machine} (h : m.step = (.ok .halted, a)) :
    LastStep m (.ok (.endOfProgram a.core.latches.pc), a)
  | loop {r : Retirement} {a : Machine} (h : m.step = (.ok (.retired r), a))
      (hloop : (a.settings.general.stopOnSelfLoop && r.selfLoop) = true) :
    LastStep m (.ok (.selfLoop r.pc), a)

theorem RunsTo.stepsTo {k : Nat} (h : m.RunsTo k m') : m.StepsTo m' := by
  induction h with
  | refl => exact .refl
  | @step _ _ a b _ hs _ ih =>
    have hab : a.step.2 = b := by rw [hs]
    rw [← hab]
    exact .step ih

theorem RunsTo.cycles {k : Nat} (h : m.RunsTo k m') :
    m'.tally.cycles = m.tally.cycles + k := by
  induction h with
  | refl => rfl
  | @step k s a b _ hs hgo ih =>
    have hne : s ≠ .halted := by
      rintro rfl
      exact hgo
    have htally : b.tally = a.tally.observe s := by
      have ht := a.step_tally
      rwa [← step_result, hs] at ht
    rw [htally, Tally.cycles_observe hne, ih, Nat.add_assoc]

theorem RunsTo.budget {k : Nat} (h : m.RunsTo k m') : m'.budget = m.budget - k := by
  have hc := h.cycles
  unfold Machine.budget
  rw [h.stepsTo.settings]
  omega

theorem RunsTo.cons {k : Nat} {s : Status} {a : Machine} (hs : m.step = (.ok s, a))
    (hgo : GoesOn a.settings s) (h : a.RunsTo k m') : m.RunsTo (k + 1) m' := by
  induction h with
  | refl => exact .step .refl hs hgo
  | step _ hs' hgo' ih => exact .step ih hs' hgo'

theorem spend_succ {s : Status} (hs : m.step = (.ok s, m')) (hgo : GoesOn m'.settings s) :
    spend (n + 1) m = spend n m' := by
  rw [spend, hs]
  cases s with
  | running => rfl
  | retired r => exact if_neg hgo
  | halted => exact absurd hgo id

theorem RunsTo.spend_add {k : Nat} (h : m.RunsTo k m') (n : Nat) :
    spend (n + k) m = spend n m' := by
  induction h generalizing n with
  | refl => rfl
  | step _ hs hgo ih =>
    rw [← spend_succ hs hgo, ← ih]
    congr 1
    omega

/-- A run goes on until its budget is used up or one step ends it. -/
theorem spend_cases (n : Nat) (m : Machine) :
    ∃ k m₁, m.RunsTo k m₁ ∧
      (k = n ∧ spend n m = (.ok (.cycleLimit m₁.tally.cycles), m₁) ∨
        k < n ∧ m₁.LastStep (spend n m)) := by
  induction n generalizing m with
  | zero => exact ⟨0, m, .refl, .inl ⟨rfl, rfl⟩⟩
  | succ n ih =>
    -- A step that the run goes on after leaves the rest to the induction hypothesis.
    have hrest : ∀ s a, m.step = (.ok s, a) → GoesOn a.settings s → ∃ k m₁, m.RunsTo k m₁ ∧
        (k = n + 1 ∧ spend (n + 1) m = (.ok (.cycleLimit m₁.tally.cycles), m₁) ∨
          k < n + 1 ∧ m₁.LastStep (spend (n + 1) m)) := by
      intro s a hs hgo
      obtain ⟨k, m₁, hk, hend⟩ := ih a
      rw [spend_succ hs hgo]
      refine ⟨k + 1, m₁, hk.cons hs hgo, ?_⟩
      exact hend.imp (fun h => ⟨by omega, h.2⟩) (fun h => ⟨by omega, h.2⟩)
    rcases hs : m.step with ⟨f | s, a⟩
    · refine ⟨0, m, .refl, .inr ⟨by omega, ?_⟩⟩
      rw [spend, hs]
      exact .fault hs
    · cases s with
      | running => exact hrest _ _ hs trivial
      | halted =>
        refine ⟨0, m, .refl, .inr ⟨by omega, ?_⟩⟩
        rw [spend, hs]
        exact .halt hs
      | retired r =>
        by_cases hloop : (a.settings.general.stopOnSelfLoop && r.selfLoop) = true
        · refine ⟨0, m, .refl, .inr ⟨by omega, ?_⟩⟩
          rw [spend, hs]
          simp only [hloop, if_true]
          exact .loop hs hloop
        · exact hrest _ _ hs hloop

/-- Apart from the log, a run is what it spends its budget on. -/
theorem run_eq_spend (m : Machine) :
    m.run.1 = (spend m.budget m).1 ∧ m.run.2.core = (spend m.budget m).2.core ∧
      m.run.2.memory = (spend m.budget m).2.memory := by
  unfold run
  split
  · next hs => simp [hs]
  · next hs => simp [hs]

/-- A run that reports a loop has just completed an instruction that goes back to itself. -/
theorem run_eq_selfLoop (h : m.run = (.ok (.selfLoop pc), m')) :
    ∃ m₁ r log, m.StepsTo m₁ ∧ m₁.step = (.ok (.retired r), { m' with log }) ∧ r.pc = pc ∧
      r.nextPc = pc := by
  obtain ⟨k, m₁, hk, hend⟩ := spend_cases m.budget m
  unfold run at h
  rcases hspend : spend m.budget m with ⟨f | stop, a⟩
  · rw [hspend] at h
    cases h
  · rw [hspend] at h hend
    cases h
    rcases hend with ⟨-, hlimit⟩ | ⟨-, hlast⟩
    · cases hlimit
    · cases hlast with
      | @loop r _ hs hloop =>
        have hself : r.nextPc = r.pc := by
          simpa [Retirement.selfLoop] using (Bool.and_eq_true_iff.mp hloop).2
        exact ⟨m₁, r, a.log, hk.stepsTo, hs, rfl, hself⟩

end Machine

end Multicycle
