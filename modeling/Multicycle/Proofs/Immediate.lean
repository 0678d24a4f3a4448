import Multicycle.Alu
import Multicycle.Instruction.Immediate

/-! The bits of an immediate: what the layouts gather is what the instruction formats show. -/
namespace Multicycle

namespace Layout

/-- Bit `j` comes from the entry `j` places before the last, and the bits beyond the layout's width
come from its first entry. -/
theorem getLsbD_assemble (layout : Layout) (w : Instruction) {j : Nat} (hj : j < 32) :
    (layout.assemble w).getLsbD j = (layout.getD (layout.length - 1 - j) .zero).read w := by
  have hget : ∀ i, (layout.map (·.read w)).getD i false = (layout.getD i .zero).read w := by
    intro i
    simp only [List.getD_eq_getElem?_getD, List.getElem?_map]
    cases layout[i]? <;> rfl
  unfold assemble
  rw [BitVec.getLsbD_signExtend, BitVec.msb_eq_getLsbD_last, BitVec.getLsbD_ofBoolListBE,
    BitVec.getLsbD_ofBoolListBE, hget, hget, List.length_map]
  by_cases h : j < layout.length
  · simp [hj, h]
  · -- past the width both sides read the sign, which an empty layout does not have
    have h0 : layout.length - 1 - j = 0 := by omega
    rw [h0]
    cases layout with
    | nil => simp [BitSource.read]
    | cons s ss =>
      simp only [List.length_cons, Nat.add_sub_cancel] at h ⊢
      simp [hj, h]

end Layout

namespace Opcode

/-- The sign-extended immediate of `w`, cut out of the word as the instruction formats show it. -/
def immediate (op : Opcode) (w : Instruction) : Word :=
  match op with
  | load | opImm | jalr => (w.extractLsb' 20 12).signExtend 32
  | store => (w.extractLsb' 25 7 ++ w.extractLsb' 7 5).signExtend 32
  | branch =>
    (w.extractLsb' 31 1 ++ w.extractLsb' 7 1 ++ w.extractLsb' 25 6 ++ w.extractLsb' 8 4 ++
      0#1).signExtend 32
  | jal =>
    (w.extractLsb' 31 1 ++ w.extractLsb' 12 8 ++ w.extractLsb' 20 1 ++ w.extractLsb' 21 10 ++
      0#1).signExtend 32
  | lui | auipc => w.extractLsb' 12 20 ++ 0#12
  | opReg => 0

/-- Where bit `j` of the immediate stands in the word. -/
def source (op : Opcode) (j : Nat) : BitSource :=
  match op with
  | load | opImm | jalr => .word (min (20 + j) 31)
  | store => if j < 5 then .word (7 + j) else .word (min (20 + j) 31)
  | branch =>
    if j = 0 then .zero else if j < 5 then .word (7 + j) else if j < 11 then .word (20 + j)
    else if j = 11 then .word 7 else .word 31
  | jal =>
    if j = 0 then .zero else if j < 11 then .word (20 + j) else if j = 11 then .word 20
    else if j < 20 then .word j else .word 31
  | lui | auipc => if j < 12 then .zero else .word j
  | opReg => .zero

theorem getD_layout (op : Opcode) {j : Nat} (hj : j < 32) :
    op.layout.getD (op.layout.length - 1 - j) .zero = op.source j := by
  revert j
  cases op <;> decide

theorem getLsbD_immediate (op : Opcode) (w : Instruction) {j : Nat} (hj : j < 32) :
    (op.immediate w).getLsbD j = (op.source j).read w := by
  cases op <;>
    simp only [immediate, source, BitVec.getLsbD_signExtend, BitVec.msb_eq_getLsbD_last,
      BitVec.getLsbD_append, BitVec.getLsbD_extractLsb'] <;>
    grind [BitSource.read, Instruction.bit]

theorem assemble_layout (op : Opcode) (w : Instruction) :
    op.layout.assemble w = op.immediate w := by
  apply BitVec.eq_of_getLsbD_eq
  intro j hj
  rw [Layout.getLsbD_assemble _ _ hj, getD_layout op hj, getLsbD_immediate op w hj]

end Opcode

namespace Alu.Op

/-- The five low bits of an immediate that a shift counts by are the second source field. -/
theorem shiftAmount_immediate (w : Instruction) :
    shiftAmount (Opcode.opImm.immediate w) = w.rs2 := by
  have h : (Opcode.opImm.immediate w).setWidth 5 = w.extractLsb' 20 5 := by
    apply BitVec.eq_of_getLsbD_eq
    intro j hj
    rw [BitVec.getLsbD_setWidth, Opcode.getLsbD_immediate _ _ (by omega : j < 32),
      BitVec.getLsbD_extractLsb']
    have hm : min (20 + j) 31 = 20 + j := by omega
    simp only [Opcode.source, BitSource.read, Instruction.bit, hm]
  exact congrArg BitVec.toNat h

theorem eval_congr_shiftAmount {op : Alu.Op} (hop : op.part = .shifter) {b b' : Word}
    (h : shiftAmount b = shiftAmount b') (a : Word) : op.eval a b = op.eval a b' := by
  cases op with
  | sll | srl | sra => simp only [eval, h]
  | _ => cases hop

end Alu.Op

end Multicycle
