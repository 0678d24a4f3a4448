import Multicycle.Control.Signals
import Multicycle.Instruction.Immediate
import Multicycle.Register.File

/-! What one tick computes from the state before it. -/
namespace Multicycle

/-- The clocked state apart from the register file. -/
structure Latches where
  pc : Word := 0
  oldPc : Word := 0
  instr : Instruction := 0
  a : Word := 0
  b : Word := 0
  aluOut : Word := 0
  data : Word := 0
  deriving DecidableEq, Repr

/-- What is written at the end of a tick. -/
structure Commit where
  next : Latches
  regWrite : Option (Nat × Word)
  memWrite : Option (Word × Word)
  branchTaken : Option Bool
  deriving DecidableEq, Repr

structure AluActivity where
  a : Word
  b : Word
  result : Word
  deriving DecidableEq, Repr

structure Datapath where
  latches : Latches
  registers : Register.File
  signals : Signals
  immediate : Word

namespace Datapath

/-- The immediate is decoded only where the signals use it, since the instruction register may hold
a word of no supported opcode otherwise. -/
def wire (latches : Latches) (registers : Register.File) (signals : Signals) :
    Except Fault Datapath :=
  if signals.usesImmediate then
    latches.instr.immediate.map fun imm => ⟨latches, registers, signals, imm⟩
  else .ok ⟨latches, registers, signals, 0⟩

variable (d : Datapath)

def operandA : OperandA → Word
  | .pc => d.latches.pc
  | .oldPc => d.latches.oldPc
  | .rs1 => d.latches.a

def operandB : OperandB → Word
  | .rs2 => d.latches.b
  | .imm => d.immediate
  | .four => BitVec.ofNat 32 wordBytes

def alu : Option AluActivity :=
  d.signals.alu.map fun s =>
    ⟨d.operandA s.a, d.operandB s.b, s.op.eval (d.operandA s.a) (d.operandB s.b)⟩

/-- The result bus; an idle arithmetic unit drives zero. -/
def result : Word :=
  match d.signals.result with
  | .aluOut => d.latches.aluOut
  | .aluResult => d.alu.elim 0 (·.result)
  | .memData => d.latches.data
  | .imm => d.immediate

def address : Word :=
  match d.signals.address with
  | .pc => d.latches.pc
  | .result => d.result

def branchTaken : Option Bool := d.signals.branch.map (·.holds d.latches.a d.latches.b)

def pcWrite : Bool := d.signals.pcUpdate || d.branchTaken == some true

def latched (fetched : Option Word) : Option Word := if d.signals.irWrite then fetched else none

/-- The latches after the tick. The operand latches always follow the registers that the instruction
before the tick names. -/
def nextLatches (fetched loaded : Option Word) : Latches where
  pc := if d.pcWrite then d.result else d.latches.pc
  oldPc := if (d.latched fetched).isSome then d.latches.pc else d.latches.oldPc
  instr := (d.latched fetched).getD d.latches.instr
  a := d.registers.read d.latches.instr.rs1
  b := d.registers.read d.latches.instr.rs2
  aluOut := d.alu.elim d.latches.aluOut (·.result)
  data := if d.signals.memRead then loaded.getD d.latches.data else d.latches.data

/-- Everything to commit, given the word fetched and the word loaded in this tick. -/
def evaluate (fetched loaded : Option Word) : Commit where
  next := d.nextLatches fetched loaded
  regWrite := if d.signals.regWrite then some (d.latches.instr.rd, d.result) else none
  memWrite := if d.signals.memWrite then some (d.address, d.latches.b) else none
  branchTaken := d.branchTaken

end Datapath

end Multicycle
