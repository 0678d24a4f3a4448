import Multicycle.Instruction.Fields

/-! The supported major opcodes. -/
namespace Multicycle

inductive Opcode where
  | load
  | store
  | opImm
  | opReg
  | branch
  | jalr
  | jal
  | lui
  | auipc
  deriving DecidableEq, Repr

namespace Opcode

def code : Opcode → Nat
  | load => 0b0000011
  | opImm => 0b0010011
  | auipc => 0b0010111
  | store => 0b0100011
  | opReg => 0b0110011
  | lui => 0b0110111
  | branch => 0b1100011
  | jalr => 0b1100111
  | jal => 0b1101111

/-- Ascending by code. -/
def all : List Opcode := [load, opImm, auipc, store, opReg, lui, branch, jalr, jal]

def ofCode? (n : Nat) : Option Opcode := all.find? (·.code == n)

@[simp] theorem ofCode?_code (op : Opcode) : ofCode? op.code = some op := by cases op <;> rfl

theorem ofCode?_eq_some_iff {n : Nat} {op : Opcode} : ofCode? n = some op ↔ op.code = n := by
  constructor
  · intro h
    simpa using List.find?_some h
  · rintro rfl
    exact ofCode?_code op

def decode (w : Instruction) : Except Fault Opcode :=
  match ofCode? w.opcode with
  | some op => .ok op
  | none => .error (.unknownOpcode w.opcode w)

theorem decode_eq_ok_iff {w : Instruction} {op : Opcode} :
    decode w = .ok op ↔ op.code = w.opcode := by
  rw [← ofCode?_eq_some_iff, decode]
  cases ofCode? w.opcode <;> simp

/-- The one funct3 that the manual gives an opcode whose funct3 selects nothing here. -/
def funct3? : Opcode → Option Nat
  | load => some 0b010
  | store => some 0b010
  | jalr => some 0b000
  | _ => none

end Opcode

end Multicycle
