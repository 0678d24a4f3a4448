import Multicycle.Proofs.Runs

/-! Bit 0 of the program counter: only an indirect jump can set it, since its target is taken as the
sum comes out. -/
namespace Multicycle

namespace Word

theorem getLsbD_zero_add (x y : Word) : (x + y).getLsbD 0 = (x.getLsbD 0 ^^ y.getLsbD 0) := by
  rw [BitVec.getLsbD_add (by decide), BitVec.carry_zero, Bool.xor_false]

theorem getLsbD_zero_add_four (x : Word) : (x + 4).getLsbD 0 = x.getLsbD 0 := by
  rw [getLsbD_zero_add]
  exact Bool.xor_false _

end Word

theorem Opcode.getLsbD_zero_add_immediate {op : Opcode} (h : op = .branch ∨ op = .jal)
    (w : Instruction) (x : Word) : (x + op.immediate w).getLsbD 0 = x.getLsbD 0 := by
  rw [Word.getLsbD_zero_add, getLsbD_immediate op w (by decide)]
  rcases h with rfl | rfl <;> exact Bool.xor_false _

namespace Signals

variable {p : Phase} {w : Instruction} {s : Signals}

theorem keeps_pc_of_signals (h : p.signals w = .ok s)
    (hp : p ∉ [.fetch, .branch, .jalrTarget, .jalTarget]) :
    s.pcUpdate = false ∧ s.branch = none := by
  cases p with
  | fetch | branch | jalrTarget | jalTarget => exact absurd (by decide) hp
  | decode =>
    obtain ⟨op, -, rfl⟩ := map_eq_ok_iff.mp h
    cases op <;> exact ⟨rfl, rfl⟩
  | executeImm | executeReg =>
    obtain ⟨_, -, rfl⟩ := map_eq_ok_iff.mp h
    exact ⟨rfl, rfl⟩
  | _ =>
    cases h
    exact ⟨rfl, rfl⟩

end Signals

namespace Core

variable {σ : Type} [Memory σ] {c : Core} {m : σ} {op : Opcode}

theorem tick_pc_unchanged (hp : c.phase ∉ [.fetch, .branch, .jalrTarget, .jalTarget]) :
    (c.tick m).core.latches.pc = c.latches.pc := by
  cases c.ends m with
  | rejected _ ht | denied _ _ ht | ended _ _ ht => rw [ht]
  | committed hplan _ _ ht =>
    obtain ⟨s, hs, hd, -, -⟩ := plan_eq_ok hplan
    obtain ⟨hl, -, rfl, -⟩ := Datapath.wire_eq_ok hd
    obtain ⟨hu, hb⟩ := Signals.keeps_pc_of_signals hs hp
    rw [ht]
    simp [commit, Plan.commit, Datapath.evaluate, Datapath.nextLatches, Datapath.pcWrite,
      Datapath.branchTaken, hu, hb, hl]

/-- Where an indirect jump goes: the sum as it is. -/
def jumpTarget (c : Core) : Word :=
  c.registers.read c.latches.instr.rs1 + Opcode.jalr.immediate c.latches.instr

theorem pc_of_outcome {r : Except Fault Status} {c' : Core} {m' : σ}
    (h : (c.tick m).outcome = (r, c', m')) : (c.tick m).core.latches.pc = c'.latches.pc :=
  congrArg (·.2.1.latches.pc) h

namespace Decoded

theorem tick_pc_jalrTarget (h : c.Decoded m op) (hp : c.phase = .jalrTarget) :
    (c.tick m).core.latches.pc = c.jumpTarget := by
  have hop : op = .jalr := by
    have hmem := h.phase
    rw [hp] at hmem
    revert hmem
    cases op <;> decide
  subst hop
  rw [pc_of_outcome (outcome_tick_jalrTarget hp h.opcode), imm_eq, h.a]
  rfl

theorem parity_aluOut (h : c.Decoded m op) (hp : c.phase = .branch ∨ c.phase = .jalTarget) :
    c.latches.aluOut.getLsbD 0 = c.latches.pc.getLsbD 0 := by
  have hop : op = .branch ∨ op = .jal := by
    have hmem := h.phase
    rcases hp with hp | hp <;> rw [hp] at hmem <;> revert hmem <;> cases op <;> decide
  have hout : c.latches.aluOut = c.latches.oldPc + op.immediate c.latches.instr := by
    rcases hp with hp | hp <;> exact h.aluOut_eq hp rfl
  have hpc : c.latches.pc = c.latches.oldPc + 4 := by
    rcases hp with hp | hp <;> exact h.pc_eq hp
  rw [hout, hpc, Opcode.getLsbD_zero_add_immediate hop, Word.getLsbD_zero_add_four]

theorem tick_pc_branch (h : c.Decoded m op) (hp : c.phase = .branch)
    (hs : ¬ Stalls (c.tick m).result) :
    (c.tick m).core.latches.pc.getLsbD 0 = c.latches.pc.getLsbD 0 := by
  obtain ⟨s, hsig⟩ := exists_signals hs
  rw [hp] at hsig
  obtain ⟨k, hk, -⟩ := map_eq_ok_iff.mp hsig
  rw [pc_of_outcome (outcome_tick_branch hp h.opcode hk)]
  change (if _ then _ else _ : Word).getLsbD 0 = _
  split
  · exact h.parity_aluOut (.inl hp)
  · rfl

theorem tick_pc_jalTarget (h : c.Decoded m op) (hp : c.phase = .jalTarget) :
    (c.tick m).core.latches.pc.getLsbD 0 = c.latches.pc.getLsbD 0 := by
  rw [pc_of_outcome (outcome_tick_jalTarget hp h.opcode)]
  exact h.parity_aluOut (.inr hp)

end Decoded

/-- In every other phase, bit 0 of the program counter stays as it is. -/
theorem InFlight.parity_pc_tick (h : c.InFlight m) (hp : c.phase ≠ .jalrTarget) :
    (c.tick m).core.latches.pc.getLsbD 0 = c.latches.pc.getLsbD 0 := by
  by_cases hs : Stalls (c.tick m).result
  · rw [tick_core_unchanged hs]
  · cases hq : c.phase with
    | fetch =>
      obtain ⟨w, m', hw⟩ := exists_fetched hq hs
      rw [pc_of_outcome (outcome_tick_fetch hq hw)]
      exact Word.getLsbD_zero_add_four _
    | branch =>
      obtain ⟨op, h⟩ := h.exists_decoded (by simp [hq]) (by simp [hq])
      exact h.tick_pc_branch hq hs
    | jalTarget =>
      obtain ⟨op, h⟩ := h.exists_decoded (by simp [hq]) (by simp [hq])
      exact h.tick_pc_jalTarget hq
    | jalrTarget => exact absurd hq hp
    | _ => rw [tick_pc_unchanged (by simp [hq])]

end Core

namespace Machine

variable {m m' : Machine}

theorem InFlight.parity_pc_step (h : m.InFlight) (hp : m.core.phase ≠ .jalrTarget) :
    m.step.2.core.latches.pc.getLsbD 0 = m.core.latches.pc.getLsbD 0 := by
  rw [step_core]
  exact Core.InFlight.parity_pc_tick h hp

theorem InFlight.pc_step_jalrTarget (h : m.InFlight) (hp : m.core.phase = .jalrTarget) :
    m.step.2.core.latches.pc = m.core.jumpTarget := by
  obtain ⟨op, hd⟩ := Core.InFlight.exists_decoded h (by simp [hp]) (by simp [hp])
  rw [step_core]
  exact hd.tick_pc_jalrTarget hp

/-- Steps from `m` in which each indirect jump on the way goes to an even address. -/
inductive StepsEvenly (m : Machine) : Machine → Prop where
  | refl : StepsEvenly m m
  | step {m' : Machine} (h : StepsEvenly m m')
      (jump : m'.core.phase = .jalrTarget → m'.core.jumpTarget.getLsbD 0 = false) :
    StepsEvenly m m'.step.2

theorem StepsEvenly.stepsTo (h : m.StepsEvenly m') : m.StepsTo m' := by
  induction h with
  | refl => exact .refl
  | step _ _ ih => exact .step ih

theorem StepsEvenly.parity_pc (h : m.StepsEvenly m') (hflight : m.InFlight)
    (hm : m.core.latches.pc.getLsbD 0 = false) : m'.core.latches.pc.getLsbD 0 = false := by
  induction h with
  | refl => exact hm
  | @step a h hjump ih =>
    have ha := hflight.steps h.stepsTo
    by_cases hp : a.core.phase = .jalrTarget
    · rw [ha.pc_step_jalrTarget hp]
      exact hjump hp
    · rw [ha.parity_pc_step hp]
      exact ih

/-- At even addresses, the program counter stays even as long as the sums that indirect jumps go to
are even. -/
theorem pc_even_unless_jump
    (hprogram : ∀ a w, m.memory.instruction? a = some w → a.getLsbD 0 = false) :
    (∀ m', m.reset.StepsEvenly m' → m'.core.latches.pc.getLsbD 0 = false) ∧
      ∀ m', m.reset.StepsTo m' →
        (m'.core.phase = .jalrTarget → m'.step.2.core.latches.pc = m'.core.jumpTarget) ∧
        (m'.core.phase ≠ .jalrTarget →
          m'.step.2.core.latches.pc.getLsbD 0 = m'.core.latches.pc.getLsbD 0) ∧
        (m'.core.phase = .fetch → m'.core.latches.pc.getLsbD 0 = true →
          m'.step.1 = .ok .halted) := by
  have hreset : m.reset.core.latches.pc.getLsbD 0 = false := by
    change resetPc.getLsbD 0 = false
    decide
  refine ⟨fun m' h => h.parity_pc m.reset_inFlight hreset, fun m' h => ?_⟩
  have hflight := m.reset_inFlight.steps h
  refine ⟨hflight.pc_step_jalrTarget, hflight.parity_pc_step, fun hp hodd => ?_⟩
  refine step_of_no_instruction hp ?_
  rw [h.instruction?_eq]
  cases hw : m.reset.memory.instruction? m'.core.latches.pc with
  | none => rfl
  | some w =>
    rw [hprogram _ w hw] at hodd
    cases hodd

/-- An indirect jump to an even sum, and the three ticks up to its landing. -/
theorem pc_even_unless_jump_even :
    let m := (Machine.start {} (.ofProgram [0x00008067, 0x00100293] none) {}).setRegister 1 4
    let m₂ := m.reset.step.2.step.2
    m.reset.StepsEvenly m₂.step.2 ∧ m₂.core.phase = .jalrTarget ∧ m₂.step.2.core.latches.pc = 4 ∧
      m₂.step.2.core.latches.pc.getLsbD 0 = false := by
  intro m m₂
  have hprogram : ∀ a w, m.memory.instruction? a = some w → a.getLsbD 0 = false := by
    intro a w hw
    have hmap : m.memory.instruction? a =
        if 4 = a then some 0x00100293 else if 0 = a then some 0x00008067 else none := by
      change (Harvard.ofProgram [0x00008067, 0x00100293] none).instruction? a = _
      simp [Harvard.ofProgram, Harvard.loadProgram, Harvard.instruction?, Harvard.empty,
        Std.ExtTreeMap.getElem?_insert, wordBytes]
    have ha : a = 0 ∨ a = 4 := by grind
    rcases ha with rfl | rfl <;> decide
  obtain ⟨heven, hsteps⟩ := pc_even_unless_jump hprogram
  have h₁ : m.reset.step.2.core.phase = .decode := by
    subst m₂ m
    rfl
  have h₂ : m₂.core.phase = .jalrTarget := by
    subst m₂ m
    rfl
  have hjump : m₂.core.jumpTarget = 4 := by
    subst m₂ m
    rfl
  have h : m.reset.StepsEvenly m₂.step.2 := by
    refine .step (.step (.step .refl ?_) ?_) ?_
    · rintro ⟨⟩
    · simp [h₁]
    · rw [hjump]
      decide
  have hpc := (hsteps m₂ (.step (.step .refl))).1 h₂
  exact ⟨h, h₂, hpc.trans hjump, heven _ h⟩

/-- An indirect jump to an odd sum is reported as the end of the program. -/
theorem odd_jump_ends_program :
    let settings : Settings := { general := { maxCycles := 8 } }
    let m := (Machine.start settings (.ofProgram [0x00008067, 0x00100293] none) {}).setRegister 1 5
    m.reset.StepsTo m.reset.runInstruction.2 ∧
      m.reset.runInstruction.2.core.latches.pc.getLsbD 0 = true ∧
        m.reset.run.1 = .ok (.endOfProgram 5) := by
  intro settings m
  obtain ⟨m₁, hm₁, hstep⟩ := m.reset.runInstruction_eq_step
  rw [← hstep]
  refine ⟨.step hm₁, ?_, ?_⟩
  · rw [hstep]
    subst m settings
    rfl
  · subst m settings
    rfl

end Machine

end Multicycle
