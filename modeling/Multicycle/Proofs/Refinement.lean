import Multicycle.Harvard
import Multicycle.Proofs.Phases
import Multicycle.Proofs.Semantics

/-! The phases of an instruction taken together have the effect of the instruction as a whole. -/
namespace Multicycle

/-- What shows of a core and its memory at the end of an instruction. -/
structure Observation (σ : Type) where
  result : Except Fault Status
  phase : Phase
  pc : Word
  registers : Register.File
  cycle : Nat
  memory : σ

def Observation.of {σ : Type} (o : Except Fault Status × Core × σ) : Observation σ :=
  ⟨o.1, o.2.1.phase, o.2.1.latches.pc, o.2.1.registers, o.2.1.cycle, o.2.2⟩

namespace Core

variable {σ : Type} [Memory σ] {c c' : Core} {m m' m'' : σ} {w : Instruction} {op : Opcode}
  {n : Nat} {t : Word}

theorem imm_eq (c : Core) (op : Opcode) : c.imm op = op.immediate c.latches.instr :=
  op.assemble_layout c.latches.instr

theorem advance_of_turn (h : (c.tick m).outcome = (.ok .running, c', m')) :
    advance bareBeat (n + 1) (c, m) = advance bareBeat n (c', m') := advance_of_running h

theorem advance_of_end {r : Except Fault Status} (h : (c.tick m).outcome = (r, c', m'))
    (hr : r ≠ .ok .running) : advance bareBeat (n + 1) (c, m) = (r, c', m') := by
  have hdone : (bareBeat (c, m)).1 ≠ .ok .running := by rwa [bareBeat, h]
  rw [advance_of_done hdone, bareBeat, h]

theorem advance_of_turns {c'' : Core} (hx : (c.tick m).outcome = (.ok .running, c', m'))
    (hy : (c'.tick m').outcome = (.ok .running, c'', m'')) :
    advance bareBeat (n + 2) (c, m) = advance bareBeat n (c'', m'') := by
  rw [advance_of_turn hx, advance_of_turn hy]

theorem advance_of_turn_end {c'' : Core} {r : Except Fault Status}
    (hx : (c.tick m).outcome = (.ok .running, c', m')) (hy : (c'.tick m').outcome = (r, c'', m''))
    (hr : r ≠ .ok .running) : advance bareBeat (n + 2) (c, m) = (r, c'', m'') := by
  rw [advance_of_turn hx, advance_of_end hy hr]

/-- The core with `w` fetched and decoded. What the arithmetic unit last put out is `t`. -/
def decoded (c : Core) (w : Instruction) (op : Opcode) (t : Word) : Core :=
  { c with
    latches :=
      { pc := c.latches.pc + 4
        oldPc := c.latches.pc
        instr := w
        a := c.registers.read w.rs1
        b := c.registers.read w.rs2
        aluOut := t
        data := c.latches.data }
    phase := .afterDecode op
    cycle := c.cycle + 2 }

/-- Of the state before the fetch, only registers, program counter and, without a target, the last
output matter. -/
theorem outcome_runInstruction_decoded (hphase : c.phase = .fetch)
    (hfetch : Memory.fetch m c.latches.pc = (some w, m')) (ho : Opcode.decode w = .ok op) :
    ∃ t, (op = .branch ∨ op = .jal → t = c.latches.pc + op.immediate w) ∧
      (c.runInstruction m).outcome = advance bareBeat 3 (c.decoded w op t, m') := by
  have hf := outcome_tick_fetch hphase hfetch
  rw [outcome_runInstruction, hphase, Phase.distance, advance_of_turns hf (outcome_tick_decode rfl ho)]
  refine ⟨_, ?_, rfl⟩
  rintro (rfl | rfl) <;> exact congrArg (c.latches.pc + ·) (Opcode.assemble_layout _ w)

/-- What is to be seen once `c` has carried out `w`; a memory fault leaves it in the phase of the
access. -/
def expected (c : Core) (w : Instruction) (op : Opcode) :
    Except MemoryFault Completion × σ → Observation σ
  | (.ok e, m) =>
    { result := .ok (.retired ⟨c.latches.pc, w, op, e.pc, e.taken⟩)
      phase := .fetch
      pc := e.pc
      registers := e.registers
      cycle := c.cycle + op.cycles
      memory := m }
  | (.error e, m) =>
    { result := .error (.memory e)
      phase := if op = .load then .memRead else .memWrite
      pc := c.latches.pc + 4
      registers := c.registers
      cycle := c.cycle + 3
      memory := m }

/-- What is left of the instruction after decoding shows what `w` does at once. -/
def Refines (c : Core) (w : Instruction) (op : Opcode) (t : Word) (m : σ) : Prop :=
  Observation.of (advance bareBeat 3 (c.decoded w op t, m)) =
    c.expected w op (w.execute op c.latches.pc c.registers m)

/-- The core at the end of the third tick of a memory access, its address computed. -/
def addressed (c : Core) (w : Instruction) (op : Opcode) (t : Word) : Core :=
  (c.decoded w op t).turn (if op = .load then .memRead else .memWrite)
    { (c.decoded w op t).reread with aluOut := c.registers.read w.rs1 + op.immediate w }

theorem outcome_tick_decoded (hop : op = .load ∨ op = .store) (ho : Opcode.decode w = .ok op) :
    ((c.decoded w op t).tick m).outcome = (.ok .running, c.addressed w op t, m) := by
  have hphase : (c.decoded w op t).phase = .memAddress := by rcases hop with rfl | rfl <;> rfl
  rw [outcome_tick_memAddress hphase ho, imm_eq]
  rfl

theorem refines_load (ho : Opcode.decode w = .ok .load) : Refines c w .load t m := by
  unfold Refines
  rw [advance_of_turn (outcome_tick_decoded (.inl rfl) ho)]
  rcases hv : Memory.load m (c.registers.read w.rs1 + Opcode.load.immediate w) with ⟨e | v, m'⟩
  · have hx := outcome_tick_memRead_denied (c := c.addressed w .load t) rfl ho hv
    rw [advance_of_end hx (by simp)]
    simp only [Instruction.execute, hv]
    rfl
  · have hx := outcome_tick_memRead (c := c.addressed w .load t) rfl ho hv
    rw [advance_of_turn_end hx (outcome_tick_memWriteBack rfl ho) (by simp)]
    simp only [Instruction.execute, hv]
    rfl

theorem refines_store (ho : Opcode.decode w = .ok .store) : Refines c w .store t m := by
  unfold Refines
  rw [advance_of_turn (outcome_tick_decoded (.inr rfl) ho)]
  rcases hv : Memory.store m (c.registers.read w.rs1 + Opcode.store.immediate w)
    (c.registers.read w.rs2) with ⟨e | u, m'⟩
  · have hx := outcome_tick_memWrite_denied (c := c.addressed w .store t) rfl ho hv
    rw [advance_of_end hx (by simp)]
    simp only [Instruction.execute, hv]
    rfl
  · have hx := outcome_tick_memWrite (c := c.addressed w .store t) rfl ho hv
    rw [advance_of_end hx (by simp)]
    simp only [Instruction.execute, hv]
    rfl

theorem refines_opImm (ho : Opcode.decode w = .ok .opImm) : Refines c w .opImm t m := by
  have hx := outcome_tick_executeImm (c := c.decoded w .opImm t) (m := m) rfl ho
    (Alu.Op.decode_opImm w)
  rw [imm_eq] at hx
  simp only [Refines, Instruction.execute, Instruction.eval_secondOperand]
  rw [advance_of_turn_end hx (outcome_tick_aluWriteBack rfl ho) (by simp)]
  rfl

theorem refines_opReg (ho : Opcode.decode w = .ok .opReg) (hs : w.Supported .opReg) :
    Refines c w .opReg t m := by
  have hx := outcome_tick_executeReg (c := c.decoded w .opReg t) (m := m) rfl ho
    (Alu.Op.decode_opReg hs)
  unfold Refines Instruction.execute
  rw [advance_of_turn_end hx (outcome_tick_aluWriteBack rfl ho) (by simp)]
  rfl

theorem refines_branch (ho : Opcode.decode w = .ok .branch) (hs : w.Supported .branch)
    (ht : t = c.latches.pc + Opcode.branch.immediate w) : Refines c w .branch t m := by
  subst ht
  have hx := outcome_tick_branch
    (c := c.decoded w .branch (c.latches.pc + Opcode.branch.immediate w)) (m := m) rfl ho
    (Condition.decode_of_funct3 hs.1 hs.2)
  unfold Refines Instruction.execute
  rw [advance_of_end hx (by simp)]
  rfl

theorem refines_jalr (ho : Opcode.decode w = .ok .jalr) : Refines c w .jalr t m := by
  have hx := outcome_tick_jalrTarget (c := c.decoded w .jalr t) (m := m) rfl ho
  rw [imm_eq] at hx
  unfold Refines Instruction.execute
  rw [advance_of_turn_end hx (outcome_tick_jalrWriteBack rfl ho) (by simp)]
  rfl

theorem refines_jal (ho : Opcode.decode w = .ok .jal)
    (ht : t = c.latches.pc + Opcode.jal.immediate w) : Refines c w .jal t m := by
  subst ht
  have hx := outcome_tick_jalTarget
    (c := c.decoded w .jal (c.latches.pc + Opcode.jal.immediate w)) (m := m) rfl ho
  unfold Refines Instruction.execute
  rw [advance_of_turn_end hx (outcome_tick_aluWriteBack rfl ho) (by simp)]
  rfl

theorem refines_lui (ho : Opcode.decode w = .ok .lui) : Refines c w .lui t m := by
  have hx := outcome_tick_lui (c := c.decoded w .lui t) (m := m) rfl ho
  rw [imm_eq] at hx
  unfold Refines Instruction.execute
  rw [advance_of_end hx (by simp)]
  rfl

theorem refines_auipc (ho : Opcode.decode w = .ok .auipc) : Refines c w .auipc t m := by
  have hx := outcome_tick_auipc (c := c.decoded w .auipc t) (m := m) rfl ho
  rw [imm_eq] at hx
  unfold Refines Instruction.execute
  rw [advance_of_end hx (by simp)]
  rfl

theorem refines_decoded (ho : Opcode.decode w = .ok op) (hs : w.Supported op)
    (ht : op = .branch ∨ op = .jal → t = c.latches.pc + op.immediate w) : Refines c w op t m := by
  cases op with
  | load => exact refines_load ho
  | store => exact refines_store ho
  | opImm => exact refines_opImm ho
  | opReg => exact refines_opReg ho hs
  | branch => exact refines_branch ho hs (ht (.inl rfl))
  | jalr => exact refines_jalr ho
  | jal => exact refines_jal ho (ht (.inr rfl))
  | lui => exact refines_lui ho
  | auipc => exact refines_auipc ho

/-- A core that fetches `w` at address `p` completes it with the effect of the whole instruction,
whatever the other latches held. -/
theorem runInstruction_refines_execute (hphase : c.phase = .fetch)
    (hfetch : Memory.fetch m c.latches.pc = (some w, m')) (ho : Opcode.decode w = .ok op)
    (hs : w.Supported op) :
    Observation.of (c.runInstruction m).outcome =
      c.expected w op (w.execute op c.latches.pc c.registers m') := by
  obtain ⟨t, ht, hrun⟩ := outcome_runInstruction_decoded hphase hfetch ho
  rw [hrun]
  exact refines_decoded ho hs ht

/-- One call from the fetch of `w` on has exactly the effect of the instruction. -/
theorem runInstruction_effect (hphase : c.phase = .fetch)
    (hfetch : Memory.fetch m c.latches.pc = (some w, m')) (ho : Opcode.decode w = .ok op)
    (hs : w.Supported op) :
    Observation.of (c.runInstruction m).outcome =
        c.expected w op (w.execute op c.latches.pc c.registers m') ∧
      (Memory.Steady σ → ∀ f, (c.runInstruction m).result = .error f →
        (c.runInstruction m).memory = m) := by
  have hobs := runInstruction_refines_execute hphase hfetch ho hs
  refine ⟨hobs, ?_⟩
  intro _ f hf
  have hm' : m' = m := by
    have hk := Memory.Steady.fetch_keeps m c.latches.pc
    rw [hfetch] at hk
    exact hk
  subst hm'
  have hresult : (c.runInstruction m').result = _ := congrArg Observation.result hobs
  have hmemory : (c.runInstruction m').memory = _ := congrArg Observation.memory hobs
  rcases hx : w.execute op c.latches.pc c.registers m' with ⟨e | e, m₁⟩
  · have hkeep := Instruction.execute_memory_of_error (congrArg Prod.fst hx)
    rw [hx] at hmemory hkeep
    exact hmemory.trans hkeep
  · rw [hx, hf] at hresult
    cases hresult

/-- A jump through the register that it links to, from the last word of the address space. -/
theorem runInstruction_effect_jalr :
    let w : Instruction := 0x004080e7
    let c : Core :=
      { latches := { pc := 0xfffffffc, instr := 0x73, a := 9, aluOut := 7 }
        registers := Register.File.write {} 1 0x1001 }
    let m := (Harvard.empty none).loadProgram 0xfffffffc [w]
    Memory.fetch m c.latches.pc = (some w, m) ∧ Opcode.decode w = .ok .jalr ∧
      Observation.of (c.runInstruction m).outcome =
        { result := .ok (.retired ⟨0xfffffffc, w, .jalr, 0x1005, none⟩)
          phase := .fetch
          pc := 0x1005
          registers := Register.File.write (Register.File.write {} 1 0x1001) 1 0
          cycle := 4
          memory := m } := by
  intro w c m
  have hfetch : Memory.fetch m c.latches.pc = (some w, m) :=
    Harvard.fetch_loadProgram_singleton _ _ _
  have ho : Opcode.decode w = .ok .jalr := Opcode.decode_eq_ok_iff.mpr (by decide)
  refine ⟨hfetch, ho, ?_⟩
  have hpc : c.registers.read w.rs1 + Opcode.jalr.immediate w = 0x1005 := by decide
  have hlink : c.latches.pc + 4 = 0 := by decide
  have hrd : w.rd = 1 := by decide
  rw [(runInstruction_effect (c := c) rfl hfetch ho trivial).1]
  simp only [expected, Instruction.execute, hpc, hlink, hrd]
  rfl

end Core

end Multicycle
