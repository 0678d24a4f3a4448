import Std.Data.ExtTreeMap
import Multicycle.Basic

/-! A memory whose instructions and data are apart: stores never change the program. -/
namespace Multicycle

/-- Words by byte address. `capacity` bounds how many data words stores may fill; `none` is no
bound. -/
structure Harvard where
  instructions : Std.ExtTreeMap Word Word := ∅
  data : Std.ExtTreeMap Word Word := ∅
  capacity : Option Nat := none

namespace Harvard

def empty (capacity : Option Nat) : Harvard := { capacity }

/-- Words placed one after another from `base` on, around the end of the address space. -/
def loadProgram (m : Harvard) (base : Word) : List Word → Harvard
  | [] => m
  | w :: ws =>
    loadProgram { m with instructions := m.instructions.insert base w }
      (base + BitVec.ofNat 32 wordBytes) ws

def ofProgram (program : List Word) (capacity : Option Nat) : Harvard :=
  (empty capacity).loadProgram 0 program

def instruction? (m : Harvard) (a : Word) : Option Word := m.instructions[a]?

def instructionCount (m : Harvard) : Nat := m.instructions.size

def peek? (m : Harvard) (a : Word) : Option Word := m.data[a]?

def dataCount (m : Harvard) : Nat := m.data.size

/-- Puts a data word whatever the capacity. -/
def poke (m : Harvard) (a v : Word) : Harvard := { m with data := m.data.insert a v }

/-- No room for a word at an address that has none yet. -/
def fullAt (m : Harvard) (a : Word) : Option Nat :=
  if m.data.contains a then none else m.capacity.filter (· ≤ m.dataCount)

def load (m : Harvard) (a : Word) : Except MemoryFault Word :=
  match m.peek? a with
  | some v => .ok v
  | none => .error (.unpopulated a)

def store (m : Harvard) (a v : Word) : Except MemoryFault Harvard :=
  match m.fullAt a with
  | some capacity => .error (.full a capacity)
  | none => .ok (m.poke a v)

theorem peek?_poke (m : Harvard) (a v b : Word) :
    (m.poke a v).peek? b = if a = b then some v else m.peek? b := by
  simp [peek?, poke, Std.ExtTreeMap.getElem?_insert]

theorem dataCount_poke (m : Harvard) (a v : Word) :
    (m.poke a v).dataCount = if (m.peek? a).isSome then m.dataCount else m.dataCount + 1 := by
  simp [dataCount, poke, peek?, Std.ExtTreeMap.size_insert]

@[simp] theorem data_loadProgram (m : Harvard) (base : Word) (ws : List Word) :
    (m.loadProgram base ws).data = m.data := by
  induction ws generalizing m base with
  | nil => rfl
  | cons w ws ih => rw [loadProgram, ih]

@[simp] theorem capacity_loadProgram (m : Harvard) (base : Word) (ws : List Word) :
    (m.loadProgram base ws).capacity = m.capacity := by
  induction ws generalizing m base with
  | nil => rfl
  | cons w ws ih => rw [loadProgram, ih]

instance : Memory Harvard where
  fetch m a := (m.instruction? a, m)
  load m a := (m.load a, m)
  store m a v :=
    match m.store a v with
    | .ok m' => (.ok (), m')
    | .error e => (.error e, m)

variable {m m' : Harvard} {a v : Word} {k : Nat}

theorem load_eq_ok (h : Memory.load m a = (.ok v, m')) : m.peek? a = some v ∧ m' = m := by
  simp only [Memory.load, load] at h
  split at h
  · next hv =>
    cases h
    exact ⟨hv, rfl⟩
  · cases h

theorem load_eq_error_iff {e : MemoryFault} :
    (Memory.load m a).1 = .error e ↔ e = .unpopulated a ∧ m.peek? a = none := by
  simp only [Memory.load, load]
  cases m.peek? a with
  | some v => simp
  | none => simp [eq_comm]

theorem fullAt_eq_some_iff :
    m.fullAt a = some k ↔ m.peek? a = none ∧ m.capacity = some k ∧ k ≤ m.dataCount := by
  have hcontains : m.data.contains a = (m.peek? a).isSome :=
    Std.ExtTreeMap.contains_eq_isSome_getElem?
  rw [fullAt, hcontains]
  cases m.peek? a with
  | some v => simp
  | none => simp [Option.filter_eq_some_iff]

theorem store_eq_ok {u : Unit} (h : Memory.store m a v = (.ok u, m')) : m' = m.poke a v := by
  simp only [Memory.store, store] at h
  cases hfull : m.fullAt a with
  | some k =>
    rw [hfull] at h
    cases h
  | none =>
    rw [hfull] at h
    cases h
    rfl

theorem store_eq_error_iff {e : MemoryFault} :
    (Memory.store m a v).1 = .error e ↔ ∃ k, e = .full a k ∧ m.fullAt a = some k := by
  simp only [Memory.store, store]
  cases m.fullAt a with
  | some k => simp [eq_comm]
  | none => simp

theorem fetch_loadProgram_singleton (m : Harvard) (a w : Word) :
    Memory.fetch (m.loadProgram a [w]) a = (some w, m.loadProgram a [w]) := by
  simp [Memory.fetch, instruction?, loadProgram]

instance : Memory.Steady Harvard where
  fetch_keeps _ _ := rfl
  load_keeps _ _ := rfl
  store_keeps m a v e h := by
    simp only [Memory.store] at h ⊢
    split at h <;> simp_all

end Harvard

end Multicycle
