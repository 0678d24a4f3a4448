import Multicycle.Proofs.Script

/-! What the latches hold in each phase of an instruction, for a core whose registers nothing but its
own ticks writes. -/
namespace Multicycle.Core

variable {σ : Type} [Memory σ] {c : Core} {m : σ} {op : Opcode} {i : Word}

/-- Ticks and resets in any order. A preset may fall between the read of an operand and its use. -/
inductive Clocked : Core → Prop where
  | start (s : Settings) : Clocked (.ofSettings s)
  | tick {c : Core} {σ : Type} [Memory σ] (m : σ) (h : Clocked c) : Clocked (c.tick m).core
  | reset {c : Core} (h : Clocked c) : Clocked c.reset

theorem Clocked.underway (h : c.Clocked) : c.Underway := by
  induction h with
  | start s => exact .fetch rfl
  | tick m _ ih => exact ih.tick m
  | reset _ _ => exact .fetch rfl

/-- What waits to be written back, by the opcodes whose result the arithmetic unit has put out. -/
inductive Computed (c : Core) (i : Word) : Opcode → Prop where
  | link (pc : c.latches.pc = c.latches.oldPc + i) (out : c.latches.aluOut = c.latches.oldPc + 4) :
    Computed c i .jal
  | immediate {o : Alu.Op} (pc : c.latches.pc = c.latches.oldPc + 4)
      (operation : Alu.Op.decode c.latches.instr .opImm = .ok o)
      (out : c.latches.aluOut = o.eval (c.registers.read c.latches.instr.rs1) i) :
    Computed c i .opImm
  | register {o : Alu.Op} (pc : c.latches.pc = c.latches.oldPc + 4)
      (operation : Alu.Op.decode c.latches.instr .opReg = .ok o)
      (out : c.latches.aluOut = o.eval (c.registers.read c.latches.instr.rs1)
        (c.registers.read c.latches.instr.rs2)) :
    Computed c i .opReg

/-- The latches of a core past decoding an instruction of opcode `op` and immediate `i`, with the
registers as they are now. -/
structure Latched (c : Core) (op : Opcode) (i : Word) : Prop where
  a : c.latches.a = c.registers.read c.latches.instr.rs1
  b : c.latches.b = c.registers.read c.latches.instr.rs2
  pc : c.phase ≠ .aluWriteBack → c.phase ≠ .jalrWriteBack → c.latches.pc = c.latches.oldPc + 4
  target : c.phase = .branch ∨ c.phase = .jalTarget → c.latches.aluOut = c.latches.oldPc + i
  address : c.phase = .memRead ∨ c.phase = .memWrite →
    c.latches.aluOut = c.registers.read c.latches.instr.rs1 + i
  computed : c.phase = .aluWriteBack → c.Computed i op
  returned : c.phase = .jalrWriteBack →
    c.latches.pc = c.registers.read c.latches.instr.rs1 + i

theorem duePc_of_ne {p : Phase} (ha : p ≠ .aluWriteBack) (hj : p ≠ .jalrWriteBack) :
    c.duePc op p = c.latches.oldPc + 4 := by
  unfold duePc
  split
  · exact absurd rfl ha
  · exact absurd rfl hj
  · rfl

namespace Decoded

theorem phase_ne_decode (h : c.Decoded m op) : c.phase ≠ .decode := by
  intro hp
  have hmem := h.phase
  rw [hp] at hmem
  revert hmem
  cases op <;> decide

theorem pc_aluWriteBack (h : c.Decoded m op) (hp : c.phase = .aluWriteBack) (hop : op ≠ .jal) :
    c.latches.pc = c.latches.oldPc + 4 := by
  have hpc := h.pc_eq hp
  unfold duePc at hpc
  rwa [if_neg hop] at hpc

/-- Three opcodes meet in the phase that writes back what the arithmetic unit has put out. -/
theorem computed (h : c.Decoded m op) (hp : c.phase = .aluWriteBack) :
    c.Computed (op.immediate c.latches.instr) op := by
  have hmem := h.phase
  rw [hp] at hmem
  cases op with
  | opImm =>
    refine .immediate (h.pc_aluWriteBack hp (by decide)) (Alu.Op.decode_opImm _) ?_
    rw [← Instruction.eval_secondOperand]
    exact h.aluOut_eq hp rfl
  | opReg =>
    have hs : c.latches.instr.Supported .opReg := h.supported hp
    exact .register (h.pc_aluWriteBack hp (by decide)) (Alu.Op.decode_opReg hs)
      (h.aluOut_eq hp rfl)
  | jal => exact .link (h.pc_eq hp) (h.aluOut_eq hp rfl)
  | _ =>
    exact absurd hmem (by decide)

theorem latched (h : c.Decoded m op) : c.Latched op (op.immediate c.latches.instr) where
  a := h.a
  b := h.b
  pc ha hj := h.pc.trans (duePc_of_ne ha hj)
  target := by
    rintro (hp | hp)
    · exact h.aluOut_eq hp rfl
    · exact h.aluOut_eq hp rfl
  address := by
    rintro (hp | hp)
    · exact h.aluOut_eq hp rfl
    · exact h.aluOut_eq hp rfl
  computed := h.computed
  returned hp := h.pc_eq hp

end Decoded

theorem InFlight.pc_decode (h : c.InFlight m) (hp : c.phase = .decode) :
    c.latches.pc = c.latches.oldPc + 4 := by
  cases h with
  | fetch hf => cases hp.symm.trans hf
  | decode _ hpc _ => exact hpc
  | past h => exact absurd hp h.phase_ne_decode

/-- Over any memories, and wherever they fail the core, the latches hold in each phase what the
instruction has come to. -/
theorem Clocked.latches_hold (h : c.Clocked) :
    (c.phase = .decode → c.latches.pc = c.latches.oldPc + 4) ∧
      (c.phase ≠ .fetch → c.phase ≠ .decode →
        ∃ op i, Opcode.decode c.latches.instr = .ok op ∧ c.latches.instr.immediate = .ok i ∧
          c.phase ∈ op.path ∧ c.Latched op i) := by
  have hflight : c.InFlight c.script := h.underway
  refine ⟨hflight.pc_decode, ?_⟩
  intro hf hd
  obtain ⟨op, hdec⟩ := hflight.exists_decoded hf hd
  have hi : c.latches.instr.immediate = .ok (op.immediate c.latches.instr) :=
    Instruction.immediate_eq_ok_iff.mpr ⟨op, hdec.opcode, op.assemble_layout _⟩
  exact ⟨op, _, hdec.opcode, hi, List.mem_of_mem_drop hdec.phase, hdec.latched⟩

/-- A load from the last word of the address space, which the memory has just refused. -/
theorem Clocked.latches_hold_denied :
    let w : Instruction := 0xffc02083
    let m := Harvard.ofProgram [w] none
    let c : Core :=
      { phase := .memRead, latches := { pc := 4, instr := w, aluOut := 0xfffffffc }, cycle := 3 }
    c.Clocked ∧ (c.tick m).result = .error (.memory (.unpopulated 0xfffffffc)) ∧
      (c.tick m).core.Clocked ∧ (c.tick m).core.phase = .memRead ∧
      (c.tick m).core.Latched .load 0xfffffffc := by
  intro w m c
  have hw : Memory.fetch m 0 = (some w, m) := Harvard.fetch_loadProgram_singleton _ _ _
  have ho : Opcode.decode w = .ok .load := Opcode.decode_eq_ok_iff.mpr (by decide)
  have hi : w.immediate = .ok 0xfffffffc :=
    Instruction.immediate_eq_ok_iff.mpr ⟨.load, ho, by decide⟩
  let c₁ : Core :=
    { phase := .decode, latches := { pc := 4, instr := w, aluOut := 4 }, cycle := 1 }
  let c₂ : Core :=
    { phase := .memAddress, latches := { pc := 4, instr := w, aluOut := 4 }, cycle := 2 }
  have h₁ : ((ofSettings {}).tick m).core = c₁ :=
    congrArg (·.2.1) (outcome_tick_fetch (c := ofSettings {}) rfl hw)
  have h₂ : (c₁.tick m).core = c₂ := by
    refine (congrArg (·.2.1) (outcome_tick_decode (c := c₁) (m := m) rfl ho)).trans ?_
    dsimp only
    decide
  have h₃ : (c₂.tick m).core = c := by
    refine (congrArg (·.2.1) (outcome_tick_memAddress (c := c₂) (m := m) rfl ho)).trans ?_
    dsimp only
    decide
  have hc : c.Clocked := by
    rw [← h₃, ← h₂, ← h₁]
    exact .tick m (.tick m (.tick m (.start {})))
  have hv : Memory.load m c.latches.aluOut = (.error (.unpopulated 0xfffffffc), m) := by
    simp [Memory.load, Harvard.load, Harvard.peek?, m, c, Harvard.ofProgram, Harvard.empty]
  have ht := outcome_tick_memRead_denied (c := c) rfl ho hv
  have hcore : (c.tick m).core = c := congrArg (·.2.1) ht
  have hc' : (c.tick m).core.Clocked := .tick m hc
  obtain ⟨op, i, hop, himm, -, hlatched⟩ :=
    hc'.latches_hold.2 (by rw [hcore]; decide) (by rw [hcore]; decide)
  rw [hcore] at hop himm
  cases hop.symm.trans ho
  cases himm.symm.trans hi
  exact ⟨hc, congrArg (·.1) ht, hc', by rw [hcore], hlatched⟩

end Multicycle.Core
