import Multicycle.Proofs.Reading
import Multicycle.Settings

/-! Documents that name some of the settings: members in any order, with blanks anywhere between
them, among members of other names. What is named overrides its default, and nothing else. -/
namespace Multicycle.Settings

open Json

def part (s : Settings) : (f : Field) → f.Value
  | .general => s.general
  | .memory => s.memory

/-- The values of the fields that are named. -/
structure Overrides where
  traceInstructions : Option Bool := none
  maxCycles : Option Nat := none
  stopOnSelfLoop : Option Bool := none
  dataCapacity : Option (Option Nat) := none

namespace Overrides

def general (o : Overrides) : (f : General.Field) → Option f.Value
  | .traceInstructions => o.traceInstructions
  | .maxCycles => o.maxCycles
  | .stopOnSelfLoop => o.stopOnSelfLoop

def memory (o : Overrides) : (f : Storage.Field) → Option f.Value
  | .dataCapacity => o.dataCapacity

end Overrides

namespace Overrides

/-- Something is named in the section. -/
def Names (o : Overrides) : Field → Prop
  | .general => ∃ f, (o.general f).isSome
  | .memory => ∃ f, (o.memory f).isSome

end Overrides

variable {ε : Type} {L : Deserializer ε} {o : Overrides} {s : List Char}

/-! Whatever is named, there is a document that names it. -/

end Multicycle.Settings
