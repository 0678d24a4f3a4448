import Multicycle.Core.Basic

/-! What a machine reports while it works. -/
namespace Multicycle

/-- Most severe first. -/
inductive Level where
  | error
  | warn
  | info
  | debug
  | trace
  deriving DecidableEq, Repr

namespace Level

def rank : Level → Nat
  | error => 0
  | warn => 1
  | info => 2
  | debug => 3
  | trace => 4

def name : Level → String
  | error => "ERROR"
  | warn => "WARN"
  | info => "INFO"
  | debug => "DEBUG"
  | trace => "TRACE"

end Level

inductive Event where
  /-- A committed tick: the program counter after it, the instruction register before it. -/
  | clock (cycle : Nat) (phase next : Phase) (pc : Word) (instr : Instruction)
  | retired (r : Retirement)
  | loadedImage (words : Nat)
  | stopped (stop : Stop) (cycles instructions : Nat)
  | fatal (pc : Word) (phase : Phase) (fault : Fault)
  deriving DecidableEq, Repr

namespace Opcode

def label : Opcode → String
  | load => "Load"
  | store => "Store"
  | opImm => "OpImm"
  | opReg => "OpReg"
  | branch => "Branch"
  | jalr => "Jalr"
  | jal => "Jal"
  | lui => "Lui"
  | auipc => "Auipc"

end Opcode

namespace Stop

def text : Stop → String
  | endOfProgram pc => "EndOfProgram \x7b pc: " ++ toString pc.toNat ++ " \x7d"
  | selfLoop pc => "SelfLoop \x7b pc: " ++ toString pc.toNat ++ " \x7d"
  | cycleLimit cycles => "CycleLimit \x7b cycles: " ++ toString cycles ++ " \x7d"

end Stop

namespace Event

def level : Event → Level
  | clock .. => .trace
  | retired _ => .debug
  | loadedImage _ => .info
  | stopped .. => .info
  | fatal .. => .warn

def message : Event → String
  | clock .. => "clock"
  | retired _ => "retired"
  | loadedImage _ => "loaded memory image"
  | stopped .. => "simulation stopped"
  | fatal .. => "fatal simulation error"

/-- Names and texts, in the order of printing. -/
def fields : Event → List (String × String)
  | clock cycle phase next pc instr =>
    [("cycle", toString cycle), ("state", phase.name), ("next", next.name),
      ("pc", Text.word0x pc), ("instr", Text.word0x instr)]
  | retired r =>
    [("pc", Text.word0x r.pc), ("inst", Text.word0x r.instr), ("class", r.opcode.label),
      ("next_pc", Text.word0x r.nextPc)]
  | loadedImage words => [("words", toString words)]
  | stopped stop cycles instructions =>
    [("outcome", stop.text), ("cycles", toString cycles), ("instructions", toString instructions)]
  | fatal pc phase fault =>
    [("pc", Text.word0x pc), ("state", phase.name), ("error", fault.message)]

def reaches (e : Event) (threshold : Level) : Bool := e.level.rank ≤ threshold.rank

end Event

/-- The events kept so far, of those that reach the threshold; without one, none is kept. -/
structure Log where
  threshold : Option Level := none
  events : Array Event := #[]
  deriving DecidableEq, Repr

namespace Log

def add (l : Log) (e : Event) : Log :=
  if l.threshold.any e.reaches then { l with events := l.events.push e } else l

def addAll (l : Log) (es : List Event) : Log := es.foldl add l

def drain (l : Log) : Array Event × Log := (l.events, { l with events := #[] })

end Log

end Multicycle
