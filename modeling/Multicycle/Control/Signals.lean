import Multicycle.Alu
import Multicycle.Condition
import Multicycle.Control.Phase

/-! The control signals of each phase. -/
namespace Multicycle

inductive OperandA where
  | pc
  | oldPc
  | rs1
  deriving DecidableEq, Repr

inductive OperandB where
  | rs2
  | imm
  | four
  deriving DecidableEq, Repr

inductive ResultSource where
  | aluOut
  | aluResult
  | memData
  | imm
  deriving DecidableEq, Repr

inductive AddressSource where
  | pc
  | result
  deriving DecidableEq, Repr

structure AluSelect where
  a : OperandA
  b : OperandB
  op : Alu.Op
  deriving DecidableEq, Repr

/-- An idle arithmetic unit has no selection; the defaults write nothing. -/
structure Signals where
  irWrite : Bool := false
  pcUpdate : Bool := false
  branch : Option Condition := none
  regWrite : Bool := false
  memRead : Bool := false
  memWrite : Bool := false
  address : AddressSource := .pc
  alu : Option AluSelect := none
  result : ResultSource := .aluOut
  deriving DecidableEq, Repr

namespace Signals

def usesImmediate (s : Signals) : Bool :=
  s.result == .imm || s.alu.any (·.b == .imm)

end Signals

namespace AluSelect

def nextPc : AluSelect := ⟨.pc, .four, .add⟩
def link : AluSelect := ⟨.oldPc, .four, .add⟩
def pcRelative : AluSelect := ⟨.oldPc, .imm, .add⟩
def registerRelative : AluSelect := ⟨.rs1, .imm, .add⟩

end AluSelect

namespace Alu.Op

/-- Bit 30 counts only between registers and in shifts to the right; elsewhere it belongs to an
immediate. -/
def codeOf (w : Instruction) (op : Opcode) : Nat :=
  2 * w.funct3 + if op = .opReg ∨ w.funct3 = 0b101 then (w.bit 30).toNat else 0

def decode (w : Instruction) (op : Opcode) : Except Fault Alu.Op :=
  match ofCode? (codeOf w op) with
  | some o => .ok o
  | none => .error (.unknownAluCode (codeOf w op) w)

end Alu.Op

namespace Phase

/-- The signals of phase `p` while the instruction register holds `w`. -/
def signals (p : Phase) (w : Instruction) : Except Fault Signals :=
  match p with
  | fetch => .ok { irWrite := true, pcUpdate := true, alu := some .nextPc, result := .aluResult }
  | decode => (Opcode.decode w).map fun
    | .branch | .jal => { alu := some .pcRelative }
    | .jalr => { alu := some .registerRelative }
    | _ => {}
  | memAddress => .ok { alu := some .registerRelative }
  | memRead => .ok { memRead := true, address := .result }
  | memWriteBack => .ok { regWrite := true, result := .memData }
  | memWrite => .ok { memWrite := true, address := .result }
  | executeImm => (Alu.Op.decode w .opImm).map fun op => { alu := some ⟨.rs1, .imm, op⟩ }
  | executeReg => (Alu.Op.decode w .opReg).map fun op => { alu := some ⟨.rs1, .rs2, op⟩ }
  | aluWriteBack => .ok { regWrite := true }
  | branch => (Condition.decode w).map fun c => { branch := some c }
  | jalrTarget => .ok { pcUpdate := true, alu := some .registerRelative, result := .aluResult }
  | jalrWriteBack => .ok { regWrite := true, alu := some .link, result := .aluResult }
  | jalTarget => .ok { pcUpdate := true, alu := some .link }
  | lui => .ok { regWrite := true, result := .imm }
  | auipc => .ok { regWrite := true, alu := some .pcRelative, result := .aluResult }

end Phase

end Multicycle
