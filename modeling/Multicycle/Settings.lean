import Multicycle.Json.Deserializer

/-! Settings of a machine, and how they are declared to be read from JSON documents. -/
namespace Multicycle

/-- Enough for any program that comes to an end, and a bound on all others. -/
def defaultMaxCycles : Nat := 10000000

structure General where
  traceInstructions : Bool := false
  maxCycles : Nat := defaultMaxCycles
  stopOnSelfLoop : Bool := true
  deriving DecidableEq, Repr

structure Storage where
  dataCapacity : Option Nat := none
  deriving DecidableEq, Repr

structure Settings where
  general : General := {}
  memory : Storage := {}
  deriving DecidableEq, Repr

variable {ε : Type} (L : Json.Deserializer ε)

namespace General

inductive Field where
  | traceInstructions
  | maxCycles
  | stopOnSelfLoop
  deriving DecidableEq, Repr

namespace Field

def key : Field → String
  | traceInstructions => "trace_instructions"
  | maxCycles => "max_cycles"
  | stopOnSelfLoop => "stop_on_self_loop"

def Value : Field → Type
  | traceInstructions => Bool
  | maxCycles => Nat
  | stopOnSelfLoop => Bool

/-- Stated apart from the defaults of the record itself. -/
def fallback : (f : Field) → f.Value
  | traceInstructions => (default : Bool)
  | maxCycles => defaultMaxCycles
  | stopOnSelfLoop => true

end Field

def ofFields (v : (f : Field) → f.Value) : General :=
  ⟨v .traceInstructions, v .maxCycles, v .stopOnSelfLoop⟩

def declaration : Json.Declaration L.Reader General where
  Field := Field
  fields := [.traceInstructions, .maxCycles, .stopOnSelfLoop]
  mem_fields f := by cases f <;> decide
  key := Field.key
  key_injective {f g} h := by cases f <;> cases g <;> first | rfl | exact absurd h (by decide)
  Value := Field.Value
  reader
    | .traceInstructions => L.bool
    | .maxCycles => L.natural
    | .stopOnSelfLoop => L.bool
  fallback := Field.fallback
  build := ofFields

end General

namespace Storage

inductive Field where
  | dataCapacity
  deriving DecidableEq, Repr

namespace Field

def key : Field → String
  | dataCapacity => "data_capacity"

def Value : Field → Type
  | dataCapacity => Option Nat

def fallback : (f : Field) → f.Value
  | dataCapacity => (default : Option Nat)

end Field

def ofFields (v : (f : Field) → f.Value) : Storage := ⟨v .dataCapacity⟩

def declaration : Json.Declaration L.Reader Storage where
  Field := Field
  fields := [.dataCapacity]
  mem_fields f := by cases f; decide
  key := Field.key
  key_injective {f g} _ := by cases f; cases g; rfl
  Value := Field.Value
  reader
    | .dataCapacity => L.optional L.natural
  fallback := Field.fallback
  build := ofFields

end Storage

namespace Settings

inductive Field where
  | general
  | memory
  deriving DecidableEq, Repr

namespace Field

def key : Field → String
  | general => "general"
  | memory => "memory"

def Value : Field → Type
  | general => General
  | memory => Storage

def fallback : (f : Field) → f.Value
  | general => ({} : General)
  | memory => ({} : Storage)

end Field

def ofFields (v : (f : Field) → f.Value) : Settings := ⟨v .general, v .memory⟩

def declaration : Json.Declaration L.Reader Settings where
  Field := Field
  fields := [.general, .memory]
  mem_fields f := by cases f <;> decide
  key := Field.key
  key_injective {f g} h := by cases f <;> cases g <;> first | rfl | exact absurd h (by decide)
  Value := Field.Value
  reader
    | .general => L.record (General.declaration L)
    | .memory => L.record (Storage.declaration L)
  fallback := Field.fallback
  build := ofFields

def fromJson (text : String) : Except ε Settings := L.fromText (L.record (declaration L)) text

end Settings

end Multicycle
