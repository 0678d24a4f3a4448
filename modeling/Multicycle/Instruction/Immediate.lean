import Multicycle.Instruction.Opcode

/-! Immediates: which bits of the word they are made of, and their sign-extended value. -/
namespace Multicycle

/-- Where one bit of an immediate comes from. -/
inductive BitSource where
  | word (position : Nat)
  | zero
  deriving DecidableEq, Repr

namespace BitSource

def read (w : Instruction) : BitSource → Bool
  | word i => w.bit i
  | zero => false

end BitSource

/-- The bits of an immediate, most significant first. -/
abbrev Layout := List BitSource

namespace Layout

/-- Bits `high` down to `low` of the word. -/
def span (high low : Nat) : Layout := (List.range' low (high + 1 - low)).reverse.map .word

def zeros (n : Nat) : Layout := List.replicate n .zero

def typeI : Layout := span 31 20
def typeS : Layout := span 31 25 ++ span 11 7
def typeB : Layout := span 31 31 ++ span 7 7 ++ span 30 25 ++ span 11 8 ++ zeros 1
def typeJ : Layout := span 31 31 ++ span 19 12 ++ span 20 20 ++ span 30 21 ++ zeros 1
def typeU : Layout := span 31 12 ++ zeros 12

/-- The named bits of `w` as a number of the layout's width, sign-extended to a word. -/
def assemble (layout : Layout) (w : Instruction) : Word :=
  (BitVec.ofBoolListBE (layout.map (·.read w))).signExtend 32

@[simp] theorem assemble_nil (w : Instruction) : assemble [] w = 0 := rfl

end Layout

namespace Opcode

/-- Register-register instructions carry no immediate. -/
def layout : Opcode → Layout
  | load | opImm | jalr => .typeI
  | store => .typeS
  | branch => .typeB
  | jal => .typeJ
  | lui | auipc => .typeU
  | opReg => []

theorem length_layout_le (op : Opcode) : op.layout.length ≤ 32 := by cases op <;> decide

end Opcode

namespace Instruction

def immediate (w : Instruction) : Except Fault Word :=
  (Opcode.decode w).map fun op => op.layout.assemble w

theorem immediate_eq_ok_iff {w : Instruction} {v : Word} :
    w.immediate = .ok v ↔ ∃ op, Opcode.decode w = .ok op ∧ op.layout.assemble w = v :=
  map_eq_ok_iff

end Instruction

end Multicycle
