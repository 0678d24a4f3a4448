import Multicycle.Core.Tick
import Multicycle.Image
import Multicycle.Tally

/-! A core with its own memory, and runs of it. -/
namespace Multicycle

structure Machine where
  settings : Settings
  memory : Harvard
  core : Core
  tally : Tally := {}
  log : Log := {}

namespace Machine

def start (settings : Settings) (memory : Harvard) (log : Log) : Machine :=
  { settings, memory, core := .ofSettings settings, log }

/-- A machine with the program of an image file, given the file's bytes if it exists. -/
def ofImageFile (settings : Settings) (bytes : Option ByteArray) (log : Log) :
    Except Image.LoadFault Machine :=
  (Image.parseFile bytes).map fun program =>
    start settings (.ofProgram program settings.memory.dataCapacity)
      (log.add (.loadedImage program.length))

/-- Back to the start of the program with nothing counted; registers and memory keep their
contents. -/
def reset (m : Machine) : Machine := { m with core := m.core.reset, tally := {} }

def setRegister (m : Machine) (i : Nat) (v : Word) : Machine :=
  { m with core := m.core.setRegister i v }

def poke (m : Machine) (a v : Word) : Machine := { m with memory := m.memory.poke a v }

def loadProgram (m : Machine) (base : Word) (words : List Word) : Machine :=
  { m with memory := m.memory.loadProgram base words }

/-- One tick of the core, counted. A fatal fault is reported in the log. -/
def step (m : Machine) : Except Fault Status × Machine :=
  let t := m.core.tick m.memory
  let log := m.log.addAll t.events
  match t.result with
  | .ok s => (.ok s, { m with core := t.core, memory := t.memory, tally := m.tally.observe s, log })
  | .error f =>
    let log := if f.fatal then log.add (.fatal t.core.latches.pc t.core.phase f) else log
    (.error f, { m with core := t.core, memory := t.memory, log })

theorem step_result (m : Machine) : m.step.1 = (m.core.tick m.memory).result := by
  simp only [step]
  split <;> simp [*]

theorem step_core (m : Machine) : m.step.2.core = (m.core.tick m.memory).core := by
  simp only [step]
  split <;> rfl

theorem step_memory (m : Machine) : m.step.2.memory = (m.core.tick m.memory).memory := by
  simp only [step]
  split <;> rfl

def runInstruction (m : Machine) : Except Fault Status × Machine :=
  advance step m.core.phase.distance m

/-- Steps until the program ends, parks in a loop of one instruction, or has used up a budget of `n`
ticks. -/
def spend : Nat → Machine → Except Fault Stop × Machine
  | 0, m => (.ok (.cycleLimit m.tally.cycles), m)
  | n + 1, m =>
    match m.step with
    | (.error f, m) => (.error f, m)
    | (.ok .running, m) => spend n m
    | (.ok .halted, m) => (.ok (.endOfProgram m.core.latches.pc), m)
    | (.ok (.retired r), m) =>
      if m.settings.general.stopOnSelfLoop && r.selfLoop then (.ok (.selfLoop r.pc), m)
      else spend n m

def budget (m : Machine) : Nat := m.settings.general.maxCycles - m.tally.cycles

def run (m : Machine) : Except Fault Stop × Machine :=
  match spend m.budget m with
  | (.error f, m) => (.error f, m)
  | (.ok stop, m) =>
    (.ok stop, { m with log := m.log.add (.stopped stop m.tally.cycles m.tally.instructions) })

end Machine

end Multicycle
