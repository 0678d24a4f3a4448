import Multicycle.Text

/-! Words, memories, and why a tick cannot be carried out. -/
namespace Multicycle

/-- Instructions, data, addresses and register values. -/
abbrev Word := BitVec 32

def wordBytes : Nat := 4

def resetPc : Word := 0

def shiftBits : Nat := 5

inductive MemoryFault where
  | unpopulated (address : Word)
  | full (address : Word) (capacity : Nat)
  deriving DecidableEq, Repr

namespace MemoryFault

def message : MemoryFault → String
  | unpopulated a => "data address " ++ Text.word0x a ++ " is not populated"
  | full a capacity =>
    "data memory is full (" ++ toString capacity ++ " words), cannot store to " ++ Text.word0x a

end MemoryFault

/-- Any access may change the memory. Where there is no instruction, the program ends. -/
class Memory (σ : Type) where
  fetch : σ → Word → Option Word × σ
  load : σ → Word → Except MemoryFault Word × σ
  store : σ → Word → Word → Except MemoryFault Unit × σ

/-- Reading changes nothing, and neither does a store that fails. -/
class Memory.Steady (σ : Type) [Memory σ] : Prop where
  fetch_keeps (m : σ) (a : Word) : (fetch m a).2 = m
  load_keeps (m : σ) (a : Word) : (load m a).2 = m
  store_keeps (m : σ) (a v : Word) {e : MemoryFault} :
    (store m a v).1 = .error e → (store m a v).2 = m

inductive Fault where
  | unknownOpcode (opcode : Nat) (word : Word)
  | unknownCondition (funct3 : Nat) (word : Word)
  | unknownAluCode (code : Nat) (word : Word)
  | memory (cause : MemoryFault)
  deriving DecidableEq, Repr

namespace Fault

def message : Fault → String
  | unknownOpcode opcode w =>
    "unsupported opcode " ++ Text.binary0b 7 opcode ++ " in instruction " ++ Text.word0x w
  | unknownCondition funct3 w =>
    "unsupported branch condition funct3=" ++ Text.binary0b 3 funct3 ++ " in instruction " ++
      Text.word0x w
  | unknownAluCode code w =>
    "unsupported ALU control code " ++ Text.binary0b 4 code ++ " in instruction " ++ Text.word0x w
  | memory cause => cause.message

/-- Only a missing data word can be supplied from outside and the tick tried again. -/
def fatal : Fault → Bool
  | memory (.unpopulated _) => false
  | _ => true

end Fault

theorem bind_eq_ok_iff {ε α β : Type} {x : Except ε α} {f : α → Except ε β} {b : β} :
    x >>= f = .ok b ↔ ∃ a, x = .ok a ∧ f a = .ok b := by
  cases x <;> simp [bind, Except.bind]

theorem bind_eq_error_iff {ε α β : Type} {x : Except ε α} {f : α → Except ε β} {e : ε} :
    x >>= f = .error e ↔ x = .error e ∨ ∃ a, x = .ok a ∧ f a = .error e := by
  cases x <;> simp [bind, Except.bind]

theorem map_eq_ok_iff {ε α β : Type} {x : Except ε α} {f : α → β} {b : β} :
    x.map f = .ok b ↔ ∃ a, x = .ok a ∧ f a = b := by
  cases x <;> simp [Except.map]

theorem map_eq_error_iff {ε α β : Type} {x : Except ε α} {g : α → β} {e : ε} :
    x.map g = .error e ↔ x = .error e := by
  cases x <;> simp [Except.map]

end Multicycle
