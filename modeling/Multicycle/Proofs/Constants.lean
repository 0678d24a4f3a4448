import Mathlib.Algebra.Group.Nat.Defs
import Multicycle.Proofs.Encoding
import Multicycle.Proofs.Refinement

/-! Constants made of two immediates: the upper bits by one instruction, and what the lower bits add
to them by the next. -/
namespace Multicycle

namespace Instruction

/-- The word with a register and 20 bits for the upper part of an immediate. -/
def typeU (op : Opcode) (rd upper : Nat) : Instruction :=
  BitVec.ofNat 20 upper ++ BitVec.ofNat 5 rd ++ BitVec.ofNat 7 op.code

/-- The word with two registers and an immediate of 12 bits. -/
def typeI (op : Opcode) (funct3 rd rs1 : Nat) (i : Int) : Instruction :=
  BitVec.ofInt 12 i ++ BitVec.ofNat 5 rs1 ++ BitVec.ofNat 3 funct3 ++ BitVec.ofNat 5 rd ++
    BitVec.ofNat 7 op.code

def lui (rd upper : Nat) : Instruction := typeU .lui rd upper

def addi (rd rs1 : Nat) (i : Int) : Instruction := typeI .opImm Alu.Op.add.funct3 rd rs1 i

variable {w : Instruction} {low width n rd rs1 funct3 : Nat}

theorem field_of_extract (h : w.extractLsb' low width = BitVec.ofNat width n) (hn : n < 2 ^ width) :
    w.field low width = n := by
  unfold field
  rw [h, BitVec.toNat_ofNat, Nat.mod_eq_of_lt hn]

theorem code_lt (op : Opcode) : op.code < 2 ^ 7 := by cases op <;> decide

theorem decode_typeU (op : Opcode) (rd upper : Nat) :
    Opcode.decode (typeU op rd upper) = .ok op := by
  rw [Opcode.decode_eq_ok_iff]
  symm
  apply field_of_extract _ (code_lt op)
  exact BitVec.extractLsb'_append_eq_right

theorem decode_typeI (op : Opcode) (funct3 rd rs1 : Nat) (i : Int) :
    Opcode.decode (typeI op funct3 rd rs1 i) = .ok op := by
  rw [Opcode.decode_eq_ok_iff]
  symm
  apply field_of_extract _ (code_lt op)
  exact BitVec.extractLsb'_append_eq_right

theorem rd_typeU (op : Opcode) (hrd : rd < 32) (upper : Nat) : (typeU op rd upper).rd = rd := by
  apply field_of_extract _ hrd
  unfold typeU
  rw [BitVec.extractLsb'_append_eq_of_le (by decide)]
  exact BitVec.extractLsb'_append_eq_right

theorem value_lui (rd upper : Nat) :
    Opcode.lui.value (lui rd upper) = 4096 * ((upper % 2 ^ 20 : Nat) : Int) := by
  have hupper : (lui rd upper).extractLsb' 12 20 = BitVec.ofNat 20 upper := by
    unfold lui typeU
    rw [BitVec.extractLsb'_append_eq_of_le (by decide)]
    exact BitVec.extractLsb'_append_eq_left
  unfold Opcode.value
  rw [hupper, BitVec.toNat_ofNat]

theorem rd_typeI (op : Opcode) (funct3 : Nat) (hrd : rd < 32) (rs1 : Nat) (i : Int) :
    (typeI op funct3 rd rs1 i).rd = rd := by
  apply field_of_extract _ hrd
  unfold typeI
  rw [BitVec.extractLsb'_append_eq_of_le (by decide)]
  exact BitVec.extractLsb'_append_eq_right

theorem funct3_typeI (op : Opcode) (hfunct3 : funct3 < 8) (rd rs1 : Nat) (i : Int) :
    (typeI op funct3 rd rs1 i).funct3 = funct3 := by
  apply field_of_extract _ hfunct3
  unfold typeI
  rw [BitVec.extractLsb'_append_eq_of_le (by decide),
    BitVec.extractLsb'_append_eq_of_le (by decide)]
  exact BitVec.extractLsb'_append_eq_right

theorem rs1_typeI (op : Opcode) (funct3 rd : Nat) (hrs1 : rs1 < 32) (i : Int) :
    (typeI op funct3 rd rs1 i).rs1 = rs1 := by
  apply field_of_extract _ hrs1
  unfold typeI
  rw [BitVec.extractLsb'_append_eq_of_le (by decide),
    BitVec.extractLsb'_append_eq_of_le (by decide),
    BitVec.extractLsb'_append_eq_of_le (by decide)]
  exact BitVec.extractLsb'_append_eq_right

theorem value_addi (rd rs1 : Nat) {i : Int} (hi : Opcode.opImm.Represents i) :
    Opcode.opImm.value (addi rd rs1 i) = i := by
  have himmediate : (addi rd rs1 i).extractLsb' 20 12 = BitVec.ofInt 12 i := by
    unfold addi typeI
    rw [BitVec.extractLsb'_append_eq_of_le (by decide),
      BitVec.extractLsb'_append_eq_of_le (by decide),
      BitVec.extractLsb'_append_eq_of_le (by decide)]
    exact BitVec.extractLsb'_append_eq_left
  obtain ⟨hlo, hhi⟩ := hi
  change ((addi rd rs1 i).extractLsb' 20 12).toInt = i
  rw [himmediate, BitVec.toInt_ofInt, Int.bmod_def]
  omega

theorem immediate_eq_ofInt_value (op : Opcode) (w : Instruction) :
    op.immediate w = BitVec.ofInt 32 (op.value w) := by
  rw [Opcode.ofInt_value, Opcode.assemble_layout]

variable {σ : Type} [Memory σ]

theorem execute_lui (hrd : rd < 32) (upper : Nat) (p : Word) (f : Register.File) (m : σ) :
    (lui rd upper).execute .lui p f m =
      (.ok { pc := p + 4
             registers := f.write rd (BitVec.ofInt 32 (4096 * ((upper % 2 ^ 20 : Nat) : Int))) },
        m) := by
  have hfield : (lui rd upper).rd = rd := rd_typeU .lui hrd upper
  unfold execute
  dsimp only
  rw [hfield, immediate_eq_ofInt_value, value_lui]

theorem execute_addi (hrd : rd < 32) (hrs1 : rs1 < 32) {i : Int} (hi : Opcode.opImm.Represents i)
    (p : Word) (f : Register.File) (m : σ) :
    (addi rd rs1 i).execute .opImm p f m =
      (.ok { pc := p + 4, registers := f.write rd (f.read rs1 + BitVec.ofInt 32 i) }, m) := by
  have hfield : (addi rd rs1 i).rd = rd := rd_typeI .opImm _ hrd rs1 i
  have hsource : (addi rd rs1 i).rs1 = rs1 := rs1_typeI .opImm _ rd hrs1 i
  have hfunct3 : (addi rd rs1 i).funct3 = 0 := funct3_typeI .opImm (by decide) rd rs1 i
  unfold execute
  dsimp only
  rw [eval_secondOperand, hfield, hsource, hfunct3, immediate_eq_ofInt_value, value_addi _ _ hi]
  rfl

end Instruction

namespace Constant

/-- The low 12 bits of a constant, read as a signed number. -/
def lower (v : Word) : Int := (v.setWidth 12).toInt

/-- The upper 20 bits, and one more where the lower bits are going to be taken off. -/
def upper (v : Word) : Nat := (v.toNat + 0x800) >>> 12 % 2 ^ 20

theorem upper_add_lower (v : Word) :
    BitVec.ofInt 32 (4096 * (upper v : Int)) + BitVec.ofInt 32 (lower v) = v := by
  have hlt := v.isLt
  have hlower : lower v = (v.toNat : Int).bmod (2 ^ 12) := BitVec.toInt_setWidth v
  have hsum : (4096 * (upper v : Int) + lower v) % 2 ^ 32 = v.toNat := by
    rw [hlower, Int.bmod_def]
    unfold upper
    rw [Nat.shiftRight_eq_div_pow]
    omega
  rw [← BitVec.ofInt_add]
  apply BitVec.eq_of_toNat_eq
  rw [BitVec.toNat_ofInt]
  omega

theorem represents_lower (v : Word) : Opcode.opImm.Represents (lower v) :=
  ⟨BitVec.le_toInt _, Int.le_of_lt_add_one BitVec.toInt_lt⟩

end Constant

theorem Register.File.write_again {rd : Nat} (f : Register.File) (hpos : 0 < rd) (hrd : rd < 32)
    (v v' : Word) :
    ((f.write rd v).write rd v').read rd = v' ∧
    (∀ i, i % 32 ≠ rd → ((f.write rd v).write rd v').get? i = f.get? i) ∧
    ∀ i, i ≠ rd → (i ∈ ((f.write rd v).write rd v').modified ↔ i ∈ f.modified) := by
  have hrd' : rd % 32 ≠ 0 := by omega
  refine ⟨?_, fun i hi => ?_, fun i hi => ?_⟩
  · rw [Register.File.read_write, if_pos ⟨hrd', rfl⟩]
  · have hne : ¬(rd % 32 ≠ 0 ∧ rd % 32 = i % 32) := by omega
    rw [Register.File.get?_write, if_neg hne, Register.File.get?_write, if_neg hne]
  · rw [Register.File.modified_write, if_neg hrd', Register.File.modified_write, if_neg hrd',
      Register.mem_insertAscending, Register.mem_insertAscending]
    simp only [hi, false_or]

namespace Core

open Instruction Constant

variable {σ : Type} [Memory σ] {c : Core} {m m₁ m₂ : σ} {v : Word} {rd : Nat}

/-- Two instructions make any constant in any register but the first, in seven ticks, and touch no
data. -/
theorem runInstruction_materialises (hpos : 0 < rd) (hrd : rd < 32) (hphase : c.phase = .fetch)
    (hlui : Memory.fetch m c.latches.pc = (some (lui rd (upper v)), m₁))
    (haddi : Memory.fetch m₁ (c.latches.pc + 4) = (some (addi rd rd (lower v)), m₂)) :
    let first := c.runInstruction m
    let second := first.core.runInstruction first.memory
    first.result = .ok (.retired
      ⟨c.latches.pc, lui rd (upper v), .lui, c.latches.pc + 4, none⟩) ∧
    second.result = .ok (.retired
      ⟨c.latches.pc + 4, addi rd rd (lower v), .opImm, c.latches.pc + 8, none⟩) ∧
    second.core.phase = .fetch ∧ second.core.latches.pc = c.latches.pc + 8 ∧
    second.core.cycle = c.cycle + 7 ∧ second.core.registers.read rd = v ∧
    (∀ i, i % 32 ≠ rd → second.core.registers.get? i = c.registers.get? i) ∧
    (∀ i, i ≠ rd → (i ∈ second.core.registers.modified ↔ i ∈ c.registers.modified)) ∧
    second.memory = m₂ ∧ (Memory.Steady σ → second.memory = m) := by
  intro first second
  have hfirst := runInstruction_refines_execute hphase hlui (decode_typeU .lui rd _) trivial
  rw [execute_lui hrd] at hfirst
  have hpc : first.core.latches.pc = c.latches.pc + 4 := congrArg Observation.pc hfirst
  have hnext : Memory.fetch first.memory first.core.latches.pc =
      (some (addi rd rd (lower v)), m₂) := by
    have hmemory : first.memory = m₁ := congrArg Observation.memory hfirst
    rw [hmemory, hpc]
    exact haddi
  have hsecond := runInstruction_refines_execute (congrArg Observation.phase hfirst) hnext
    (decode_typeI .opImm _ rd rd _) trivial
  rw [execute_addi hrd hrd (represents_lower v)] at hsecond
  have hpc' : first.core.latches.pc + 4 = c.latches.pc + 8 := by
    rw [hpc, BitVec.add_assoc]
    rfl
  have hwritten : first.core.registers = c.registers.write rd
      (BitVec.ofInt 32 (4096 * ((upper v % 2 ^ 20 : Nat) : Int))) :=
    congrArg Observation.registers hfirst
  have hread : first.core.registers.read rd + BitVec.ofInt 32 (lower v) = v := by
    rw [hwritten, Register.File.read_write, if_pos ⟨by omega, rfl⟩, upper, Nat.mod_mod]
    exact upper_add_lower v
  have hregisters : second.core.registers = first.core.registers.write rd v := by
    rw [← hread]
    exact congrArg Observation.registers hsecond
  rw [hwritten] at hregisters
  obtain ⟨hconstant, hothers, hmodified⟩ := c.registers.write_again hpos hrd
    (BitVec.ofInt 32 (4096 * ((upper v % 2 ^ 20 : Nat) : Int))) v
  rw [← hregisters] at hconstant hothers hmodified
  refine ⟨congrArg Observation.result hfirst, ?_, congrArg Observation.phase hsecond,
    (congrArg Observation.pc hsecond).trans hpc', ?_, hconstant, hothers, hmodified,
    congrArg Observation.memory hsecond, fun _ => ?_⟩
  · rw [← hpc, ← hpc']
    exact congrArg Observation.result hsecond
  · have hcycle : first.core.cycle = c.cycle + 3 := congrArg Observation.cycle hfirst
    have hcycle' : second.core.cycle = first.core.cycle + 4 := congrArg Observation.cycle hsecond
    rw [hcycle', hcycle]
  · have hkeep := Memory.Steady.fetch_keeps m c.latches.pc
    have hkeep' := Memory.Steady.fetch_keeps m₁ (c.latches.pc + 4)
    rw [hlui] at hkeep
    rw [haddi] at hkeep'
    exact (congrArg Observation.memory hsecond).trans (hkeep'.trans hkeep)

/-- One of the topmost constants, of which nothing is left for the upper part, around the end of the
address space. -/
theorem runInstruction_materialises_topmost :
    let c : Core := { latches := { pc := 0xfffffffc, instr := 0x73, aluOut := 7 } }
    let m := (Harvard.empty none).loadProgram 0xfffffffc [lui 31 0, addi 31 31 (-2048)]
    upper 0xfffff800 = 0 ∧ lower 0xfffff800 = -2048 ∧
      Memory.fetch m c.latches.pc = (some (lui 31 0), m) ∧
      Memory.fetch m (c.latches.pc + 4) = (some (addi 31 31 (-2048)), m) ∧
      let second := (c.runInstruction m).core.runInstruction (c.runInstruction m).memory
      second.core.latches.pc = 4 ∧ second.core.cycle = 7 ∧
        second.core.registers.read 31 = 0xfffff800 ∧ second.memory = m := by
  intro c m
  have hfirst : m.instruction? 0xfffffffc = some (lui 31 0) := by decide
  have hsecond : m.instruction? (c.latches.pc + 4) = some (addi 31 31 (-2048)) := by decide
  have hlui : Memory.fetch m c.latches.pc = (some (lui 31 0), m) := Prod.ext hfirst rfl
  have haddi : Memory.fetch m (c.latches.pc + 4) = (some (addi 31 31 (-2048)), m) :=
    Prod.ext hsecond rfl
  obtain ⟨-, -, -, hpc, hcycle, hread, -, -, -, hmemory⟩ :=
    runInstruction_materialises (v := 0xfffff800) (by decide) (by decide) rfl hlui haddi
  exact ⟨by decide, by decide, hlui, haddi, hpc.trans (by decide), hcycle, hread,
    hmemory inferInstance⟩

end Core

end Multicycle
