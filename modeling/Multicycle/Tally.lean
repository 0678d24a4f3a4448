import Multicycle.Core.Basic

/-! Counts of what a machine has done, and their printed report. -/
namespace Multicycle

structure Tally where
  cycles : Nat := 0
  instructions : Nat := 0
  load : Nat := 0
  store : Nat := 0
  opReg : Nat := 0
  opImm : Nat := 0
  branchTaken : Nat := 0
  branchNotTaken : Nat := 0
  jal : Nat := 0
  jalr : Nat := 0
  lui : Nat := 0
  auipc : Nat := 0
  deriving DecidableEq, Repr

namespace Tally

/-- Counts a retired instruction by its opcode; a branch also by whether it was taken. -/
def count (t : Tally) (opcode : Opcode) (branchTaken : Option Bool) : Tally :=
  let t := { t with instructions := t.instructions + 1 }
  match opcode with
  | .load => { t with load := t.load + 1 }
  | .store => { t with store := t.store + 1 }
  | .opReg => { t with opReg := t.opReg + 1 }
  | .opImm => { t with opImm := t.opImm + 1 }
  | .branch =>
    if branchTaken == some true then { t with branchTaken := t.branchTaken + 1 }
    else { t with branchNotTaken := t.branchNotTaken + 1 }
  | .jal => { t with jal := t.jal + 1 }
  | .jalr => { t with jalr := t.jalr + 1 }
  | .lui => { t with lui := t.lui + 1 }
  | .auipc => { t with auipc := t.auipc + 1 }

def record (t : Tally) (r : Retirement) : Tally := t.count r.opcode r.branchTaken

/-- Counts a tick by what came of it; a halt is no tick. -/
def observe (t : Tally) : Status → Tally
  | .running => { t with cycles := t.cycles + 1 }
  | .retired r => { t with cycles := t.cycles + 1 }.record r
  | .halted => t

def branches (t : Tally) : Nat := t.branchTaken + t.branchNotTaken

/-- Cycles per instruction, zero before anything retired. -/
def cpi (t : Tally) : Float :=
  if t.instructions = 0 then 0.0
  else t.cycles.toUInt64.toFloat / t.instructions.toUInt64.toFloat

def mix (t : Tally) : List (String × Nat) :=
  [("op.load", t.load), ("op.store", t.store), ("op.alu_reg", t.opReg), ("op.alu_imm", t.opImm),
    ("op.branch_taken", t.branchTaken), ("op.branch_not_taken", t.branchNotTaken),
    ("op.jal", t.jal), ("op.jalr", t.jalr), ("op.lui", t.lui), ("op.auipc", t.auipc)]

/-- The share of `n` among the retired instructions, in percent. -/
def percent (t : Tally) (n : Nat) : Float :=
  n.toUInt64.toFloat / (max t.instructions 1).toUInt64.toFloat * 100.0

def rule (c : Char) : String := String.ofList (List.replicate 58 c)

def label (width : Nat) (name : String) : String := String.ofList (name.toList.rightpad width ' ')

def mixRow (t : Tally) (name : String) (n : Nat) : String :=
  "  " ++ label 22 name ++ " " ++ toString n ++ " (" ++ Text.fixed 2 (t.percent n) ++ "%)"

/-- The lines of the report, given the text of the time that the run took. -/
def reportLines (t : Tally) (seconds : String) : List String :=
  [rule '=', "MULTI-CYCLE RV32I SIMULATION STATISTICS", rule '=',
    label 24 "host_seconds" ++ " " ++ seconds ++ " s",
    label 24 "sim_cycles" ++ " " ++ toString t.cycles,
    label 24 "sim_insts" ++ " " ++ toString t.instructions,
    label 24 "sim_cpi" ++ " " ++ Text.fixed 4 t.cpi,
    rule '-', "INSTRUCTION MIX"] ++
  t.mix.map (fun (name, n) => t.mixRow name n) ++ [rule '=']

def report (t : Tally) (seconds : String) : String :=
  String.join ((t.reportLines seconds).map (· ++ "\n"))

end Tally

end Multicycle
