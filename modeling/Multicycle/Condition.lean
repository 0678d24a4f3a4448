import Multicycle.Instruction.Fields

/-! Branch conditions. -/
namespace Multicycle

inductive Condition where
  | eq
  | ne
  | lt
  | ge
  | ltu
  | geu
  deriving DecidableEq, Repr

namespace Condition

def all : List Condition := [eq, ne, lt, ge, ltu, geu]

def funct3 : Condition → Nat
  | eq => 0b000
  | ne => 0b001
  | lt => 0b100
  | ge => 0b101
  | ltu => 0b110
  | geu => 0b111

def ofFunct3? (n : Nat) : Option Condition := all.find? (·.funct3 == n)

@[simp] theorem ofFunct3?_funct3 (c : Condition) : ofFunct3? c.funct3 = some c := by
  cases c <;> rfl

/-- Looks at funct3 alone, whatever the opcode. -/
def decode (w : Instruction) : Except Fault Condition :=
  match ofFunct3? w.funct3 with
  | some c => .ok c
  | none => .error (.unknownCondition w.funct3 w)

def holds (c : Condition) (a b : Word) : Bool :=
  match c with
  | eq => a == b
  | ne => a != b
  | lt => a.slt b
  | ge => !a.slt b
  | ltu => a.ult b
  | geu => !a.ult b

end Condition

end Multicycle
