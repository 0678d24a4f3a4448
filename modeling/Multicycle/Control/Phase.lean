import Multicycle.Instruction.Opcode

/-! The phases of an instruction and the order an instruction goes through them. -/
namespace Multicycle

inductive Phase where
  | fetch
  | decode
  | memAddress
  | memRead
  | memWriteBack
  | memWrite
  | executeImm
  | executeReg
  | aluWriteBack
  | branch
  | jalrTarget
  | jalrWriteBack
  | jalTarget
  | lui
  | auipc
  deriving DecidableEq, Repr

namespace Phase

def all : List Phase :=
  [fetch, decode, memAddress, memRead, memWriteBack, memWrite, executeImm, executeReg,
    aluWriteBack, branch, jalrTarget, jalrWriteBack, jalTarget, lui, auipc]

def name : Phase → String
  | fetch => "Fetch"
  | decode => "Decode"
  | memAddress => "MemAdr"
  | memRead => "MemRead"
  | memWriteBack => "MemWriteBack"
  | memWrite => "MemWrite"
  | executeImm => "Execute I"
  | executeReg => "Execute R"
  | aluWriteBack => "ALU writeback"
  | branch => "Branch"
  | jalrTarget => "JumpAndLinkRegister"
  | jalrWriteBack => "JALR writeback"
  | jalTarget => "JumpAndLink"
  | lui => "LoadUpperImmediate"
  | auipc => "AddUpperImmediateToPC"

def afterDecode : Opcode → Phase
  | .load | .store => memAddress
  | .opImm => executeImm
  | .opReg => executeReg
  | .branch => branch
  | .jalr => jalrTarget
  | .jal => jalTarget
  | .lui => lui
  | .auipc => auipc

/-- The phase after `p` while the instruction register holds `w`. -/
def next (p : Phase) (w : Instruction) : Except Fault Phase :=
  match p with
  | fetch => .ok decode
  | decode => (Opcode.decode w).map afterDecode
  | memAddress => (Opcode.decode w).map fun op => if op = .load then memRead else memWrite
  | memRead => .ok memWriteBack
  | executeImm | executeReg | jalTarget => .ok aluWriteBack
  | jalrTarget => .ok jalrWriteBack
  | memWriteBack | memWrite | aluWriteBack | branch | jalrWriteBack | lui | auipc => .ok fetch

/-- The phases visited from `p` on, up to and with the return to fetching or the first fault. -/
def walk (w : Instruction) : Nat → Phase → List Phase × Option Fault
  | 0, p => ([p], none)
  | n + 1, p =>
    match p.next w with
    | .error f => ([p], some f)
    | .ok fetch => ([p, fetch], none)
    | .ok q => let (qs, stop) := walk w n q; (p :: qs, stop)

/-- How many moves lead back to fetching, at most. -/
def distance : Phase → Nat
  | fetch => 5
  | decode => 4
  | memAddress => 3
  | memRead | executeImm | executeReg | jalTarget | jalrTarget => 2
  | memWriteBack | memWrite | aluWriteBack | branch | jalrWriteBack | lui | auipc => 1

theorem distance_pos (p : Phase) : 0 < p.distance := by cases p <;> decide

theorem distance_le (p : Phase) : p.distance ≤ 5 := by cases p <;> decide

theorem distance_next_lt {p q : Phase} {w : Instruction} (h : p.next w = .ok q) (hq : q ≠ fetch) :
    q.distance < p.distance := by
  cases p with
  | decode =>
    obtain ⟨op, -, rfl⟩ := map_eq_ok_iff.mp h
    cases op <;> decide
  | memAddress =>
    obtain ⟨op, -, rfl⟩ := map_eq_ok_iff.mp h
    split <;> decide
  | fetch | memRead | executeImm | executeReg | jalTarget | jalrTarget =>
    cases h
    decide
  | memWriteBack | memWrite | aluWriteBack | branch | jalrWriteBack | lui | auipc =>
    exact absurd (Except.ok.inj h).symm hq

end Phase

namespace Opcode

/-- The phases of an instruction, from its fetch to its last. -/
def path : Opcode → List Phase
  | load => [.fetch, .decode, .memAddress, .memRead, .memWriteBack]
  | store => [.fetch, .decode, .memAddress, .memWrite]
  | opImm => [.fetch, .decode, .executeImm, .aluWriteBack]
  | opReg => [.fetch, .decode, .executeReg, .aluWriteBack]
  | branch => [.fetch, .decode, .branch]
  | jalr => [.fetch, .decode, .jalrTarget, .jalrWriteBack]
  | jal => [.fetch, .decode, .jalTarget, .aluWriteBack]
  | lui => [.fetch, .decode, .lui]
  | auipc => [.fetch, .decode, .auipc]

/-- Ticks an instruction takes. -/
def cycles (op : Opcode) : Nat := op.path.length

end Opcode

end Multicycle
