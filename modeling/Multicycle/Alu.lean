import Multicycle.Basic

/-! Arithmetic and logic on words. -/
namespace Multicycle.Alu

inductive Op where
  | add
  | sub
  | sll
  | slt
  | sltu
  | xor
  | srl
  | sra
  | or
  | and
  deriving DecidableEq, Repr

/-- The parts of the unit that share the operations among them. -/
inductive Part where
  | arithmetic
  | logic
  | shifter
  deriving DecidableEq, Repr

namespace Op

def all : List Op := [add, sub, sll, slt, sltu, xor, srl, sra, or, and]

/-- Twice the funct3 that selects the operation, plus one for the alternate of a pair. -/
def code : Op → Nat
  | add => 0b0000
  | sub => 0b0001
  | sll => 0b0010
  | slt => 0b0100
  | sltu => 0b0110
  | xor => 0b1000
  | srl => 0b1010
  | sra => 0b1011
  | or => 0b1100
  | and => 0b1110

def ofCode? (n : Nat) : Option Op := all.find? (·.code == n)

@[simp] theorem ofCode?_code (op : Op) : ofCode? op.code = some op := by cases op <;> rfl

def funct3 (op : Op) : Nat := op.code / 2

/-- The alternate of a pair has bit 30 of the word set, which is bit 5 of funct7. -/
def funct7 (op : Op) : Nat := (op.code % 2) <<< 5

def part : Op → Part
  | add | sub => .arithmetic
  | slt | sltu | xor | or | and => .logic
  | sll | srl | sra => .shifter

def shiftAmount (b : Word) : Nat := (b.setWidth shiftBits).toNat

def eval (op : Op) (a b : Word) : Word :=
  match op with
  | add => a + b
  | sub => a - b
  | sll => a <<< shiftAmount b
  | slt => if a.slt b then 1 else 0
  | sltu => if a.ult b then 1 else 0
  | xor => a ^^^ b
  | srl => a >>> shiftAmount b
  | sra => a.sshiftRight (shiftAmount b)
  | or => a ||| b
  | and => a &&& b

end Op

namespace Part

/-- A part answers zero for an operation that is not its own. -/
def eval (part : Part) (op : Op) (a b : Word) : Word :=
  if op.part = part then op.eval a b else 0

end Part

end Multicycle.Alu
