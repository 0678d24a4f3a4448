import Multicycle.Proofs.Coherence

/-! Any operations on a memory: its data are the words last put there, its room bounds what stores
may add to them, and they have nothing to do with its program. -/
namespace Multicycle.Harvard

inductive Operation where
  | store (address value : Word)
  | poke (address value : Word)
  | loadProgram (base : Word) (words : List Word)
  deriving DecidableEq, Repr

namespace Operation

def onData : Operation → Bool
  | store .. | poke .. => true
  | loadProgram .. => false

end Operation

/-- The memory after an operation, be it refused or not. -/
def perform (m : Harvard) : Operation → Harvard
  | .store a v => (Memory.store m a v).2
  | .poke a v => m.poke a v
  | .loadProgram base words => m.loadProgram base words

/-- The word that an operation puts into the data. A store that fails puts none. -/
def put? (m : Harvard) : Operation → Option (Word × Word)
  | .store a v =>
    match (Memory.store m a v).1 with
    | .ok _ => some (a, v)
    | .error _ => none
  | .poke a v => some (a, v)
  | .loadProgram .. => none

/-- A memory, and the words that operations have put into its data, of which the latest comes
first. -/
structure Contents where
  now : Harvard
  puts : List (Word × Word)

namespace Contents

def addresses (x : Contents) : List Word := x.puts.map Prod.fst

def act (x : Contents) (o : Operation) : Contents :=
  ⟨x.now.perform o, (x.now.put? o).toList ++ x.puts⟩

end Contents

/-- What operations make of an empty memory of the given capacity. -/
def contents (capacity : Option Nat) (operations : List Operation) : Contents :=
  operations.foldl Contents.act ⟨empty capacity, []⟩

variable {m : Harvard} {capacity : Option Nat} {x : Contents} {o : Operation}

theorem peek?_empty (capacity : Option Nat) (a : Word) : (empty capacity).peek? a = none := by
  simp [empty, peek?]

theorem filled_empty (capacity : Option Nat) (puts : List (Word × Word)) :
    (empty capacity).filled puts = (puts.map Prod.fst).dedup := by
  simp [filled, peek?_empty]

theorem store_cases (m : Harvard) (a v : Word) :
    Memory.store m a v = (.ok (), m.poke a v) ∧ m.fullAt a = none ∨
      ∃ k, Memory.store m a v = (.error (.full a k), m) ∧ m.fullAt a = some k := by
  simp only [Memory.store, store]
  cases hfull : m.fullAt a with
  | none => exact .inl ⟨rfl, rfl⟩
  | some k => exact .inr ⟨k, rfl, rfl⟩

/-- Of the data and the capacity, an operation changes what it puts into the data. -/
theorem perform_data (m : Harvard) (o : Operation) :
    (m.perform o).data = (m.overwrite (m.put? o).toList).data ∧
      (m.perform o).capacity = m.capacity := by
  cases o with
  | store a v =>
    simp only [perform, put?]
    rcases m.store_cases a v with ⟨hs, -⟩ | ⟨k, hs, -⟩
    · rw [hs]
      exact ⟨rfl, rfl⟩
    · rw [hs]
      exact ⟨rfl, rfl⟩
  | poke a v => exact ⟨rfl, rfl⟩
  | loadProgram base words => exact ⟨data_loadProgram m base words, capacity_loadProgram m base words⟩

theorem data_overwrite_congr {m m' : Harvard} (h : m.data = m'.data) (puts : List (Word × Word)) :
    (m.overwrite puts).data = (m'.overwrite puts).data := by
  induction puts with
  | nil => exact h
  | cons w puts ih => exact congrArg (·.insert w.1 w.2) ih

namespace Contents

/-- The data are the words put there, in an empty memory of the given capacity. -/
structure Kept (capacity : Option Nat) (x : Contents) : Prop where
  data : x.now.data = ((empty capacity).overwrite x.puts).data
  capacity : x.now.capacity = capacity

theorem Kept.act (h : x.Kept capacity) (o : Operation) : (x.act o).Kept capacity := by
  obtain ⟨hdata, hcapacity⟩ := x.now.perform_data o
  refine ⟨?_, hcapacity.trans h.capacity⟩
  change (x.now.perform o).data = ((empty capacity).overwrite (_ ++ x.puts)).data
  rw [hdata, overwrite_append]
  exact data_overwrite_congr h.data _

theorem kept_contents (capacity : Option Nat) (operations : List Operation) :
    (contents capacity operations).Kept capacity :=
  List.foldlRecOn operations Contents.act ⟨rfl, rfl⟩ fun _ h o _ => h.act o

theorem Kept.peek? (h : x.Kept capacity) (a : Word) : x.now.peek? a = x.puts.lookup a := by
  have hp : x.now.peek? a = ((empty capacity).overwrite x.puts).peek? a :=
    congrArg (·[a]?) h.data
  rw [hp, peek?_overwrite, latest, peek?_empty, Option.or_none]

theorem Kept.dataCount (h : x.Kept capacity) : x.now.dataCount = x.addresses.dedup.length := by
  have hd : x.now.dataCount = ((empty capacity).overwrite x.puts).dataCount :=
    congrArg (·.size) h.data
  rw [hd, dataCount_overwrite, filled_empty]
  exact Nat.zero_add _

theorem Kept.peek?_eq_none_iff (h : x.Kept capacity) {a : Word} :
    x.now.peek? a = none ↔ a ∉ x.addresses := by
  rw [h.peek?, lookup_eq_none_iff]
  rfl

/-- What the memory of `x` answers and does next, whose data had no words and `capacity` at the
start. -/
structure Faithful (capacity : Option Nat) (x : Contents) : Prop where
  peeked : ∀ a, x.now.peek? a = x.puts.lookup a
  loaded : ∀ a v, Memory.load x.now a = (.ok v, x.now) ↔ x.puts.lookup a = some v
  missed : ∀ a, Memory.load x.now a = (.error (.unpopulated a), x.now) ↔ a ∉ x.addresses
  counted : x.now.dataCount = x.addresses.dedup.length
  /-- A store fails where there is no room for a new address, and leaves the memory as it was. -/
  refused : ∀ a v e, (Memory.store x.now a v).1 = .error e ↔
    ∃ n, e = .full a n ∧ capacity = some n ∧ a ∉ x.addresses ∧ n ≤ x.now.dataCount
  kept : ∀ a v e, (Memory.store x.now a v).1 = .error e → (Memory.store x.now a v).2 = x.now
  /-- An address that has a word can always be given another. -/
  overwritten : ∀ a v, a ∈ x.addresses → Memory.store x.now a v = (.ok (), x.now.poke a v)
  grows : ∀ o, x.now.dataCount ≤ (x.now.perform o).dataCount
  program : ∀ o : Operation, o.onData = true →
    (∀ a, (x.now.perform o).instruction? a = x.now.instruction? a) ∧
      (x.now.perform o).instructionCount = x.now.instructionCount
  data : ∀ o : Operation, o.onData = false →
    (∀ a, (x.now.perform o).peek? a = x.now.peek? a) ∧
      (x.now.perform o).dataCount = x.now.dataCount

end Contents

theorem le_dataCount_poke (m : Harvard) (a v : Word) : m.dataCount ≤ (m.poke a v).dataCount := by
  rw [dataCount_poke]
  split
  · exact Nat.le_refl _
  · exact Nat.le_succ _

theorem le_dataCount_perform (m : Harvard) (o : Operation) :
    m.dataCount ≤ (m.perform o).dataCount := by
  cases o with
  | store a v =>
    rcases m.store_cases a v with ⟨hs, -⟩ | ⟨k, hs, -⟩
    · rw [perform, hs]
      exact m.le_dataCount_poke a v
    · have hm : m.perform (.store a v) = m := by rw [perform, hs]
      exact Nat.le_of_eq (congrArg Harvard.dataCount hm).symm
  | poke a v => exact m.le_dataCount_poke a v
  | loadProgram base words =>
    exact Nat.le_of_eq (congrArg (·.size) (data_loadProgram m base words)).symm

/-- Where there is room for a word, or there is one already, a store keeps to the capacity. -/
theorem dataCount_store_le {n : Nat} {a v : Word} (hcap : m.capacity = some n)
    (h : m.dataCount ≤ n) : (Memory.store m a v).2.dataCount ≤ n := by
  rcases m.store_cases a v with ⟨hs, hfull⟩ | ⟨k, hs, -⟩
  · rw [hs, dataCount_poke]
    split
    · exact h
    · next hnone =>
      refine Nat.lt_of_not_le fun hle => ?_
      have hk := fullAt_eq_some_iff.mpr ⟨Option.not_isSome_iff_eq_none.mp hnone, hcap, hle⟩
      rw [hfull] at hk
      cases hk
  · rw [hs]
    exact h

theorem instructions_perform (ho : o.onData = true) :
    (m.perform o).instructions = m.instructions := by
  cases o with
  | store a v =>
    rcases m.store_cases a v with ⟨hs, -⟩ | ⟨k, hs, -⟩
    · rw [perform, hs]
      rfl
    · rw [perform, hs]
  | poke a v => rfl
  | loadProgram base words => cases ho

theorem data_perform (ho : o.onData = false) : (m.perform o).data = m.data := by
  cases o with
  | loadProgram base words => exact data_loadProgram m base words
  | store a v | poke a v => cases ho

namespace Contents

theorem Kept.faithful (h : x.Kept capacity) : x.Faithful capacity where
  peeked := h.peek?
  loaded a v := by
    rw [← h.peek?]
    simp only [Memory.load, load]
    cases x.now.peek? a <;> simp
  missed a := by
    rw [← h.peek?_eq_none_iff]
    simp only [Memory.load, load]
    cases x.now.peek? a <;> simp
  counted := h.dataCount
  refused a v e := by
    rw [store_eq_error_iff]
    refine exists_congr fun n => and_congr_right fun _ => ?_
    rw [fullAt_eq_some_iff, h.peek?_eq_none_iff, h.capacity, and_left_comm]
  kept a v _ he := Memory.Steady.store_keeps x.now a v he
  overwritten a v ha := by
    rcases x.now.store_cases a v with ⟨hs, -⟩ | ⟨k, -, hfull⟩
    · exact hs
    · exact absurd ha (h.peek?_eq_none_iff.mp (fullAt_eq_some_iff.mp hfull).1)
  grows o := x.now.le_dataCount_perform o
  program o ho :=
    ⟨fun a => congrArg (·[a]?) (instructions_perform ho),
      congrArg (·.size) (instructions_perform ho)⟩
  data o ho := ⟨fun a => congrArg (·[a]?) (data_perform ho), congrArg (·.size) (data_perform ho)⟩

theorem le_dataCount_foldl (x : Contents) (operations : List Operation) :
    x.now.dataCount ≤ (operations.foldl act x).now.dataCount :=
  List.foldlRecOn operations act (Nat.le_refl _) fun y h o _ =>
    Nat.le_trans h (y.now.le_dataCount_perform o)

/-- Without pokes, the room is never overdrawn. -/
theorem dataCount_contents_le {n : Nat} {operations : List Operation}
    (hops : ∀ a v, .poke a v ∉ operations) :
    (contents (some n) operations).now.dataCount ≤ n := by
  suffices h : ∀ x : Contents, x.now.capacity = some n ∧ x.now.dataCount ≤ n →
      ∀ o ∈ operations, (x.act o).now.capacity = some n ∧ (x.act o).now.dataCount ≤ n by
    exact (List.foldlRecOn operations act ⟨rfl, Nat.zero_le n⟩ h).2
  rintro x ⟨hcap, hle⟩ o ho
  refine ⟨(x.now.perform_data o).2.trans hcap, ?_⟩
  cases o with
  | store a v => exact dataCount_store_le hcap hle
  | poke a v => exact absurd ho (hops a v)
  | loadProgram base words =>
    exact Nat.le_trans (Nat.le_of_eq (congrArg (·.size) (data_perform rfl))) hle

/-- Each address holds the word last put there, and a store fails only for want of room and then
changes nothing. -/
theorem bounded_store_faithful (capacity : Option Nat) (operations : List Operation) :
    let x := contents capacity operations
    x.Faithful capacity ∧
      (∀ more, x.now.dataCount ≤ (contents capacity (operations ++ more)).now.dataCount) ∧
      ((∀ a v, .poke a v ∉ operations) → ∀ n, capacity = some n → x.now.dataCount ≤ n) := by
  refine ⟨(kept_contents capacity operations).faithful, fun more => ?_, ?_⟩
  · unfold contents
    rw [List.foldl_append]
    exact le_dataCount_foldl _ more
  · rintro hops n rfl
    exact dataCount_contents_le hops

/-- A memory for one word, overdrawn by two pokes, refuses a store to a new address alone. -/
theorem bounded_store_faithful_overdrawn :
    let x := contents (some 1)
      [.poke 0x10 7, .poke 0x14 8, .store 0x18 1, .store 0x10 9, .loadProgram 0x10 [0x13]]
    x.puts = [(0x10, 9), (0x14, 8), (0x10, 7)] ∧ x.now.dataCount = 2 ∧
      x.now.peek? 0x10 = some 9 ∧ x.now.instruction? 0x10 = some 0x13 ∧
      (Memory.store x.now 0x18 1).1 = .error (.full 0x18 1) ∧
      Memory.store x.now 0x14 0 = (.ok (), x.now.poke 0x14 0) ∧
      (contents (some 1) [.store 0 5, .store 4 6]).now.dataCount ≤ 1 := by
  intro x
  obtain ⟨hx, -, -⟩ := bounded_store_faithful (some 1)
    [.poke 0x10 7, .poke 0x14 8, .store 0x18 1, .store 0x10 9, .loadProgram 0x10 [0x13]]
  obtain ⟨-, -, hroom⟩ := bounded_store_faithful (some 1) [.store 0 5, .store 4 6]
  change x.Faithful (some 1) at hx
  have hputs : x.puts = [(0x10, 9), (0x14, 8), (0x10, 7)] := by
    subst x
    rfl
  have haddresses : x.addresses = [0x10, 0x14, 0x10] := congrArg (·.map Prod.fst) hputs
  have hcount := hx.counted
  have hpeek := hx.peeked 0x10
  rw [haddresses] at hcount
  rw [hputs] at hpeek
  refine ⟨hputs, hcount, hpeek, ?_, (hx.refused 0x18 1 _).mpr ⟨1, rfl, rfl, ?_, ?_⟩,
    hx.overwritten 0x14 0 ?_, hroom (by simp) 1 rfl⟩
  · subst x
    rfl
  · rw [haddresses]
    decide
  · rw [hcount]
    decide
  · rw [haddresses]
    decide

end Contents

end Multicycle.Harvard
