import Multicycle.Proofs.Decoding
import Multicycle.Proofs.Immediate
import Multicycle.Register.File

/-! What each instruction does as a whole, without the phases that it takes. -/
namespace Multicycle

/-- What a completed instruction leaves behind. -/
structure Completion where
  pc : Word
  registers : Register.File
  taken : Option Bool := none

namespace Instruction

/-- A branch needs a condition, and only addition and the right shift have an alternate between
registers. -/
def Supported (w : Instruction) (op : Opcode) : Prop :=
  match op with
  | .opReg => w.bit 30 = true → w.funct3 = 0b000 ∨ w.funct3 = 0b101
  | .branch => w.funct3 ≠ 0b010 ∧ w.funct3 ≠ 0b011
  | _ => True

theorem supported_opReg_iff {w : Instruction} :
    w.Supported .opReg ↔ ∃ o, Alu.Op.decode w .opReg = .ok o := by
  constructor
  · intro h
    exact ⟨_, Alu.Op.decode_opReg h⟩
  · rintro ⟨o, ho⟩ hb
    refine Classical.byContradiction fun hf => ?_
    obtain ⟨h0, h5⟩ := not_or.mp hf
    cases ho.symm.trans (Alu.Op.decode_opReg_eq_error_iff.mpr ⟨hb, h0, h5, rfl⟩)

theorem supported_branch_iff {w : Instruction} :
    w.Supported .branch ↔ ∃ k, Condition.decode w = .ok k := by
  constructor
  · rintro ⟨h2, h3⟩
    exact ⟨_, Condition.decode_of_funct3 h2 h3⟩
  · rintro ⟨k, hk⟩
    refine not_or.mp fun hf => ?_
    cases hk.symm.trans (Condition.decode_eq_error_iff.mpr ⟨hf, rfl⟩)

/-- The second operand of a register-immediate instruction. A shift counts by bits 24 to 20. -/
def secondOperand (w : Instruction) : Word :=
  if w.funct3 = 0b001 ∨ w.funct3 = 0b101 then BitVec.ofNat 32 w.rs2
  else Opcode.opImm.immediate w

/-- The instruction `w` of opcode `op`, carried out at address `p` with the registers `f`. -/
def execute {σ : Type} [Memory σ] (w : Instruction) (op : Opcode) (p : Word) (f : Register.File)
    (m : σ) : Except MemoryFault Completion × σ :=
  let a := f.read w.rs1
  let b := f.read w.rs2
  let i := op.immediate w
  match op with
  | .load =>
    match Memory.load m (a + i) with
    | (.ok v, m) => (.ok { pc := p + 4, registers := f.write w.rd v }, m)
    | (.error e, m) => (.error e, m)
  | .store =>
    match Memory.store m (a + i) b with
    | (.ok _, m) => (.ok { pc := p + 4, registers := f }, m)
    | (.error e, m) => (.error e, m)
  | .opImm =>
    let o := Alu.Op.selected w.funct3 (w.funct3 == 0b101 && w.bit 30)
    (.ok { pc := p + 4, registers := f.write w.rd (o.eval a w.secondOperand) }, m)
  | .opReg =>
    let o := Alu.Op.selected w.funct3 (w.bit 30)
    (.ok { pc := p + 4, registers := f.write w.rd (o.eval a b) }, m)
  | .branch =>
    let taken := (Condition.selected w.funct3).holds a b
    (.ok { pc := if taken then p + i else p + 4, registers := f, taken := some taken }, m)
  | .jalr => (.ok { pc := a + i, registers := f.write w.rd (p + 4) }, m)
  | .jal => (.ok { pc := p + i, registers := f.write w.rd (p + 4) }, m)
  | .lui => (.ok { pc := p + 4, registers := f.write w.rd i }, m)
  | .auipc => (.ok { pc := p + 4, registers := f.write w.rd (p + i) }, m)

variable {σ : Type} [Memory σ] {w : Instruction} {op : Opcode} {p : Word} {f : Register.File} {m : σ}

theorem execute_memory_of_error [Memory.Steady σ] {e : MemoryFault}
    (h : (w.execute op p f m).1 = .error e) : (w.execute op p f m).2 = m := by
  cases op with
  | load =>
    simp only [execute] at h ⊢
    have hk := Memory.Steady.load_keeps m (f.read w.rs1 + Opcode.load.immediate w)
    rcases hv : Memory.load m (f.read w.rs1 + Opcode.load.immediate w) with ⟨e' | v, m'⟩
    · rw [hv] at hk
      exact hk
    · simp [hv] at h
  | store =>
    simp only [execute] at h ⊢
    rcases hv : Memory.store m (f.read w.rs1 + Opcode.store.immediate w) (f.read w.rs2)
      with ⟨e' | u, m'⟩
    · have hk := Memory.Steady.store_keeps m (f.read w.rs1 + Opcode.store.immediate w)
        (f.read w.rs2) (by rw [hv])
      rw [hv] at hk
      exact hk
    · simp [hv] at h
  | _ => cases h

/-- The arithmetic unit may be given the whole immediate, also where the operation is a shift. -/
theorem eval_secondOperand (w : Instruction) (alternate : Bool) (a : Word) :
    (Alu.Op.selected w.funct3 alternate).eval a w.secondOperand =
      (Alu.Op.selected w.funct3 alternate).eval a (Opcode.opImm.immediate w) := by
  unfold secondOperand
  split
  · next h =>
    have hpart : (Alu.Op.selected w.funct3 alternate).part = .shifter := by
      rcases h with h | h <;> rw [h] <;> cases alternate <;> rfl
    refine Alu.Op.eval_congr_shiftAmount hpart ?_ a
    have hlt := w.rs2_lt
    rw [Alu.Op.shiftAmount_immediate, Alu.Op.shiftAmount, BitVec.toNat_setWidth, BitVec.toNat_ofNat]
    unfold shiftBits
    omega
  · rfl

end Instruction

end Multicycle
