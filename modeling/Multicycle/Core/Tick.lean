import Multicycle.Event

/-! One tick of the clock, and the ticks of one instruction. -/
namespace Multicycle

/-- What the core has decided to do in a tick. -/
structure Plan where
  datapath : Datapath
  next : Phase
  retiring : Option Opcode

/-- A tick done: what came of it, the core and memory after it, and its events. -/
structure Tick (σ : Type) where
  result : Except Fault Status
  core : Core
  memory : σ
  events : List Event

/-- A part of a tick. It may use the memory, and a result of its own leaves the rest undone. -/
def Attempt (σ α : Type) : Type := σ → Except (Except Fault Status) α × σ

namespace Attempt

variable {σ α : Type}

instance : Monad (Attempt σ) where
  pure a := fun m => (.ok a, m)
  bind x f := fun m =>
    match x m with
    | (.ok a, m) => f a m
    | (.error result, m) => (.error result, m)

def check (x : Except Fault α) : Attempt σ α := fun m => (x.mapError .error, m)

variable [Memory σ]

/-- Where there is no instruction to fetch, the program has come to its end. -/
def fetch (s : Signals) (pc : Word) : Attempt σ (Option Word) := fun m =>
  if s.irWrite then
    match Memory.fetch m pc with
    | (some w, m) => (.ok (some w), m)
    | (none, m) => (.error (.ok .halted), m)
  else (.ok none, m)

def load (d : Datapath) : Attempt σ (Option Word) := fun m =>
  if d.signals.memRead then
    match Memory.load m d.address with
    | (.ok v, m) => (.ok (some v), m)
    | (.error e, m) => (.error (.error (.memory e)), m)
  else (.ok none, m)

def store (k : Commit) : Attempt σ Unit := fun m =>
  match k.memWrite with
  | some (a, v) =>
    match Memory.store m a v with
    | (.ok (), m) => (.ok (), m)
    | (.error e, m) => (.error (.error (.memory e)), m)
  | none => (.ok (), m)

end Attempt

namespace Core

/-- The opcode of the instruction that a tick into `next` completes; the next fetch ends one. -/
def retiring (c : Core) (next : Phase) : Except Fault (Option Opcode) :=
  if next = .fetch then (Opcode.decode c.latches.instr).map some else .ok none

def commit (c : Core) (next : Phase) (k : Commit) : Core :=
  { c with
    latches := k.next
    phase := next
    registers := k.regWrite.elim c.registers fun (rd, v) => c.registers.write rd v
    cycle := c.cycle + 1 }

def retirement (c : Core) (k : Commit) (opcode : Opcode) : Retirement :=
  ⟨c.latches.oldPc, c.latches.instr, opcode, k.next.pc, k.branchTaken⟩

def status (c : Core) (p : Plan) (k : Commit) : Status :=
  p.retiring.elim .running fun opcode => .retired (c.retirement k opcode)

def events (c : Core) (p : Plan) (k : Commit) : List Event :=
  .clock c.cycle c.phase p.next k.next.pc c.latches.instr ::
    match p.retiring with
    | some opcode => if c.traceInstructions then [.retired (c.retirement k opcode)] else []
    | none => []

variable {σ : Type} [Memory σ]

/-- All of a tick that can go wrong, the store last. -/
def attempt (c : Core) : Attempt σ (Plan × Commit) := do
  let signals ← .check (c.phase.signals c.latches.instr)
  let fetched ← .fetch signals c.latches.pc
  let datapath ← .check (Datapath.wire c.latches c.registers signals)
  let loaded ← .load datapath
  let k := datapath.evaluate fetched loaded
  let next ← .check (c.phase.next c.latches.instr)
  let retiring ← .check (c.retiring next)
  .store k
  return (⟨datapath, next, retiring⟩, k)

/-- One tick. A fault, or no instruction at the program counter, leaves the core as it was. -/
def tick (c : Core) (m : σ) : Tick σ :=
  match c.attempt m with
  | (.ok (p, k), m) => ⟨.ok (c.status p k), c.commit p.next k, m, c.events p k⟩
  | (.error result, m) => ⟨result, c, m, []⟩

/-- A tick, its events behind those so far. -/
def beat : Core × σ × List Event → Except Fault Status × Core × σ × List Event
  | (c, m, es) =>
    let t := c.tick m
    (t.result, t.core, t.memory, es ++ t.events)

/-- Completes the instruction in flight, which takes no more ticks than lead back to fetching. -/
def runInstruction (c : Core) (m : σ) : Tick σ :=
  let (result, c, m, events) := advance beat c.phase.distance (c, m, [])
  ⟨result, c, m, events⟩

end Core

end Multicycle
