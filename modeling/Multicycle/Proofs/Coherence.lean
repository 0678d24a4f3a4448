import Mathlib.Data.List.Dedup
import Multicycle.Proofs.Precision
import Multicycle.Proofs.Runs

/-! A run keeps its program, and its data are those of the start with the completed stores over
them. -/
namespace Multicycle

namespace Harvard

variable {m : Harvard} {a : Word} {stores : List (Word × Word)}

/-- The word at `a` after `stores`, of which the latest comes first. -/
def latest (m : Harvard) (stores : List (Word × Word)) (a : Word) : Option Word :=
  (stores.lookup a).or (m.peek? a)

/-- The addresses that `stores` give a first word. -/
def filled (m : Harvard) (stores : List (Word × Word)) : List Word :=
  (stores.map Prod.fst).dedup.filter fun a => (m.peek? a).isNone

/-- The memory after `stores`, of which the latest comes first. -/
def overwrite (m : Harvard) (stores : List (Word × Word)) : Harvard :=
  stores.foldr (fun w m => m.poke w.1 w.2) m

theorem overwrite_append (m : Harvard) (later earlier : List (Word × Word)) :
    m.overwrite (later ++ earlier) = (m.overwrite earlier).overwrite later := by
  simp only [overwrite, List.foldr_append]

theorem peek?_overwrite (m : Harvard) (stores : List (Word × Word)) (a : Word) :
    (m.overwrite stores).peek? a = m.latest stores a := by
  induction stores with
  | nil => rfl
  | cons w stores ih =>
    change ((m.overwrite stores).poke w.1 w.2).peek? a = ((w :: stores).lookup a).or (m.peek? a)
    rw [peek?_poke, ih, List.lookup_cons]
    by_cases h : a = w.1
    · simp [h]
    · have hne : (a == w.1) = false := by simpa using h
      rw [if_neg (Ne.symm h), hne]
      rfl

theorem instruction?_overwrite (m : Harvard) (stores : List (Word × Word)) (a : Word) :
    (m.overwrite stores).instruction? a = m.instruction? a := by
  induction stores with
  | nil => rfl
  | cons w stores ih => exact ih

theorem capacity_overwrite (m : Harvard) (stores : List (Word × Word)) :
    (m.overwrite stores).capacity = m.capacity := by
  induction stores with
  | nil => rfl
  | cons w stores ih => exact ih

theorem lookup_eq_none_iff : stores.lookup a = none ↔ a ∉ stores.map Prod.fst := by
  rw [List.lookup_eq_none_iff, List.mem_map]
  constructor
  · rintro h ⟨w, hw, rfl⟩
    simpa using h w hw
  · intro h w hw
    have hne : a ≠ w.1 := fun ha => h ⟨w, hw, ha.symm⟩
    simpa using hne

theorem latest_eq_none_iff :
    m.latest stores a = none ↔ a ∉ stores.map Prod.fst ∧ m.peek? a = none := by
  rw [latest, Option.or_eq_none_iff, lookup_eq_none_iff]

theorem latest_of_notMem (h : a ∉ stores.map Prod.fst) : m.latest stores a = m.peek? a := by
  rw [latest, lookup_eq_none_iff.mpr h, Option.none_or]

theorem filled_cons (m : Harvard) (w : Word × Word) (stores : List (Word × Word)) :
    m.filled (w :: stores) =
      if (m.latest stores w.1).isSome then m.filled stores else w.1 :: m.filled stores := by
  have hsome : (m.latest stores w.1).isSome = true ↔
      w.1 ∈ stores.map Prod.fst ∨ (m.peek? w.1).isSome = true := by
    rw [Option.isSome_iff_ne_none, Ne, latest_eq_none_iff, not_and_or, not_not,
      Option.isSome_iff_ne_none]
  unfold filled
  rw [List.map_cons]
  by_cases hmem : w.1 ∈ stores.map Prod.fst
  · rw [List.dedup_cons_of_mem hmem, if_pos (hsome.mpr (.inl hmem))]
  · rw [List.dedup_cons_of_notMem hmem]
    cases hw : m.peek? w.1 with
    | none =>
      have hnone : ¬ (m.latest stores w.1).isSome = true := by
        rw [hsome, hw]
        simpa using hmem
      rw [if_neg hnone, List.filter_cons_of_pos (by simp [hw])]
    | some v =>
      have hinit : (m.latest stores w.1).isSome = true := hsome.mpr (.inr (by simp [hw]))
      rw [if_pos hinit, List.filter_cons_of_neg (by simp [hw])]

theorem dataCount_overwrite (m : Harvard) (stores : List (Word × Word)) :
    (m.overwrite stores).dataCount = m.dataCount + (m.filled stores).length := by
  induction stores with
  | nil => rfl
  | cons w stores ih =>
    change ((m.overwrite stores).poke w.1 w.2).dataCount = _
    rw [dataCount_poke, peek?_overwrite, ih, filled_cons]
    split
    · rfl
    · exact Nat.add_assoc ..

end Harvard

namespace Instruction

/-- Where `w` of opcode `op` accesses the data, with the registers `f`. -/
def effectiveAddress (w : Instruction) (op : Opcode) (f : Register.File) : Word :=
  f.read w.rs1 + op.immediate w

variable {w : Instruction} {op : Opcode} {p : Word} {f : Register.File} {m m' : Harvard}
  {e : Completion}

theorem execute_store_eq_ok (h : w.execute .store p f m = (.ok e, m')) :
    m' = m.poke (w.effectiveAddress .store f) (f.read w.rs2) := by
  simp only [execute] at h
  rcases hv : Memory.store m (f.read w.rs1 + Opcode.store.immediate w) (f.read w.rs2)
    with ⟨e' | u, m₁⟩
  · rw [hv] at h
    cases h
  · rw [hv] at h
    cases h
    exact Harvard.store_eq_ok hv

theorem execute_load_eq_ok (h : w.execute .load p f m = (.ok e, m')) :
    ∃ v, m.peek? (w.effectiveAddress .load f) = some v ∧ e.registers = f.write w.rd v := by
  simp only [execute] at h
  rcases hv : Memory.load m (f.read w.rs1 + Opcode.load.immediate w) with ⟨e' | v, m₁⟩
  · rw [hv] at h
    cases h
  · rw [hv] at h
    cases h
    exact ⟨v, (Harvard.load_eq_ok hv).1, rfl⟩

theorem execute_memory_of_ne_store (hop : op ≠ .store) : (w.execute op p f m).2 = m := by
  cases op with
  | store => exact absurd rfl hop
  | load =>
    simp only [execute]
    rcases hv : Memory.load m (f.read w.rs1 + Opcode.load.immediate w) with ⟨e' | v, m₁⟩ <;>
      exact congrArg Prod.snd hv.symm
  | _ => rfl

end Instruction

namespace Opcode

/-- The phase in which an instruction accesses the data, if it has one. -/
def access : Opcode → Option Phase
  | load => some .memRead
  | store => some .memWrite
  | _ => none

theorem eq_of_access {op op' : Opcode} {p : Phase} (ha : op.access = some p) (hp : p ∈ op'.path) :
    op' = op := by
  cases op with
  | load =>
    cases ha
    exact Phase.eq_load_of_mem_path (.inl rfl) hp
  | store =>
    cases ha
    exact Phase.eq_store_of_mem_path rfl hp
  | _ => cases ha

end Opcode

namespace Core

/-- The tick ahead is the one in which an instruction of opcode `op` accesses the data at `a`. -/
structure Accesses (c : Core) (op : Opcode) (a : Word) : Prop where
  opcode : Opcode.decode c.latches.instr = .ok op
  phase : op.access = some c.phase
  address : c.latches.instr.effectiveAddress op c.registers = a

section Address

variable {σ : Type} [Memory σ] {c : Core} {m : σ} {op : Opcode} {p : Phase} {a : Word}

theorem Decoded.aluOut_of_access (h : c.Decoded m op) (ha : op.access = some c.phase) :
    c.latches.aluOut = c.latches.instr.effectiveAddress op c.registers := by
  refine h.out _ ?_
  cases op with
  | load | store =>
    rw [← Option.some.inj ha]
    rfl
  | _ => cases ha

theorem InFlight.accesses_iff (h : c.InFlight m) (ha : op.access = some p) :
    c.Accesses op a ↔ c.phase = p ∧ c.latches.aluOut = a := by
  have hout : c.phase = p → Opcode.decode c.latches.instr = .ok op ∧
      c.latches.aluOut = c.latches.instr.effectiveAddress op c.registers := by
    rintro rfl
    cases h with
    | fetch hp | decode hp _ _ =>
      rw [hp] at ha
      cases op <;> cases ha
    | past hd =>
      have hop := Opcode.eq_of_access ha (List.mem_of_mem_drop hd.phase)
      subst hop
      exact ⟨hd.opcode, hd.aluOut_of_access ha⟩
  constructor
  · intro hx
    have hp : c.phase = p := Option.some.inj (hx.phase.symm.trans ha)
    exact ⟨hp, (hout hp).2.trans hx.address⟩
  · rintro ⟨hp, hv⟩
    exact ⟨(hout hp).1, ha.trans (congrArg some hp.symm), (hout hp).2.symm.trans hv⟩

theorem Consistent.tick_eq_memory_iff {e : MemoryFault} (h : c.Consistent) :
    (c.tick m).result = .error (.memory e) ↔ c.Denied m e := by
  rw [h.tick_eq_error_iff]
  constructor
  · rintro (hu | ⟨e', he, hd⟩)
    · generalize c.phase = p at hu
      cases hu
    · cases he
      exact hd
  · exact fun hd => .inr ⟨e, rfl, hd⟩

theorem Accesses.fault_of_stalls (h : c.Accesses op a) (hc : c.Consistent)
    (hs : Stalls (c.tick m).result) : ∃ e, (c.tick m).result = .error (.memory e) := by
  have hphase := h.phase
  rcases hs with hhalt | ⟨f, hf⟩
  · rw [(fetch_of_halted hhalt).1] at hphase
    cases op <;> cases hphase
  · rcases hc.tick_eq_error_iff.mp hf with hu | ⟨e, rfl, -⟩
    · generalize c.phase = q at hphase hu
      cases hu <;> cases op <;> cases hphase
    · exact ⟨e, hf⟩

end Address

variable {c : Core} {m : Harvard} {a : Word} {k : Nat}

theorem InFlight.unpopulated_iff (h : c.InFlight m) :
    (c.tick m).result = .error (.memory (.unpopulated a)) ↔
      c.Accesses .load a ∧ m.peek? a = none := by
  rw [h.consistent.tick_eq_memory_iff, h.accesses_iff rfl]
  constructor
  · intro hd
    cases hd with
    | load hp he =>
      obtain ⟨ha, hnone⟩ := Harvard.load_eq_error_iff.mp he
      cases ha
      exact ⟨⟨hp, rfl⟩, hnone⟩
    | store hp he =>
      obtain ⟨_, hfull, -⟩ := Harvard.store_eq_error_iff.mp he
      cases hfull
  · rintro ⟨⟨hp, rfl⟩, hnone⟩
    exact .load hp (Harvard.load_eq_error_iff.mpr ⟨rfl, hnone⟩)

theorem InFlight.full_iff (h : c.InFlight m) :
    (c.tick m).result = .error (.memory (.full a k)) ↔
      c.Accesses .store a ∧ m.fullAt a = some k := by
  rw [h.consistent.tick_eq_memory_iff, h.accesses_iff rfl]
  constructor
  · intro hd
    cases hd with
    | load hp he =>
      obtain ⟨hmiss, -⟩ := Harvard.load_eq_error_iff.mp he
      cases hmiss
    | store hp he =>
      obtain ⟨_, hfull, hk⟩ := Harvard.store_eq_error_iff.mp he
      cases hfull
      exact ⟨⟨hp, rfl⟩, hk⟩
  · rintro ⟨⟨hp, rfl⟩, hk⟩
    exact .store hp (Harvard.store_eq_error_iff.mpr ⟨k, rfl, hk⟩)

end Core

namespace Machine

/-- The address and word of the store that the next step completes, if it does complete one. -/
def stored? (m : Machine) : Option (Word × Word) :=
  match m.step.1 with
  | .ok (.retired r) =>
    if r.opcode = .store then
      some (r.instr.effectiveAddress .store m.core.registers, m.core.registers.read r.instr.rs2)
    else none
  | _ => none

/-- A machine on its way, and the stores completed so far, of which the latest comes first. -/
structure History where
  now : Machine
  stores : List (Word × Word)

/-- `m` after `n` steps, whatever each of them comes to. -/
def history (m : Machine) : Nat → History
  | 0 => ⟨m, []⟩
  | n + 1 =>
    let x := m.history n
    ⟨x.now.step.2, x.now.stored?.toList ++ x.stores⟩

theorem now_history_succ (m : Machine) (n : Nat) :
    (m.history (n + 1)).now = (m.history n).now.step.2 := rfl

/-- What a run that started from `m` and has come to `x` makes of its accesses to the memory. -/
structure Coherent (m : Machine) (x : History) : Prop where
  /-- The words fetched are those of the program at the start. -/
  fetched : x.now.core.phase = .fetch → ∀ w,
    m.memory.instruction? x.now.core.latches.pc = some w →
      x.now.step.1 = .ok .running ∧ x.now.step.2.core.latches.instr = w
  ended : x.now.core.phase = .fetch → m.memory.instruction? x.now.core.latches.pc = none →
    x.now.step.1 = .ok .halted
  /-- A load that completes brings the latest word at its address. -/
  loaded : ∀ r, x.now.step.1 = .ok (.retired r) → r.opcode = .load →
    ∃ v, m.memory.latest x.stores (r.instr.effectiveAddress .load x.now.core.registers) = some v ∧
      x.now.step.2.core.registers = x.now.core.registers.write r.instr.rd v
  /-- A load misses where there was no word at the start and no store has put one. -/
  missed : ∀ a, x.now.step.1 = .error (.memory (.unpopulated a)) ↔
    x.now.core.Accesses .load a ∧ m.memory.latest x.stores a = none
  /-- A store is refused where there is no word yet and the memory has no room for one more. -/
  refused : ∀ a k, x.now.step.1 = .error (.memory (.full a k)) ↔
    x.now.core.Accesses .store a ∧ m.memory.latest x.stores a = none ∧ m.memory.capacity = some k ∧
      k ≤ m.memory.dataCount + (m.memory.filled x.stores).length
  /-- An access goes through unless the memory has one of these two reasons to refuse it. -/
  served : ∀ op a, x.now.core.Accesses op a → Stalls x.now.step.1 →
    ∃ e, x.now.step.1 = .error (.memory e)
  word : ∀ a, x.now.memory.peek? a = m.memory.latest x.stores a
  /-- A step changes no word but that of the store that it completes. -/
  apart : ∀ a, (∀ v, x.now.stored? ≠ some (a, v)) →
    x.now.step.2.memory.peek? a = x.now.memory.peek? a

variable {m : Machine}

/-- Of the data, a step changes what the store that it completes says, and nothing else. -/
theorem InFlight.memory_step (h : m.InFlight) :
    m.step.2.memory = m.memory.overwrite m.stored?.toList := by
  unfold stored?
  rcases hs : m.step with ⟨f | s, m'⟩
  · have hm := step_unchanged (m := m) (.inr ⟨f, by rw [hs]⟩)
    rw [hs] at hm
    exact (congrArg Machine.memory hm :)
  · cases s with
    | running =>
      have hr : (m.core.tick m.memory).result = .ok .running := by rw [← step_result, hs]
      have hm := (Core.tick_of_running hr).2
      rw [← step_memory, hs] at hm
      exact hm
    | halted =>
      have hm := step_unchanged (m := m) (.inl (by rw [hs]))
      rw [hs] at hm
      exact (congrArg Machine.memory hm :)
    | retired r =>
      obtain ⟨e, he⟩ := h.completes hs
      have heffect := he.effect
      dsimp only
      split
      · next hop =>
        rw [hop] at heffect
        exact Instruction.execute_store_eq_ok heffect
      · next hop =>
        have hm := Instruction.execute_memory_of_ne_store (w := r.instr) (p := r.pc)
          (f := m.core.registers) (m := m.memory) hop
        rw [heffect] at hm
        exact hm

theorem InFlight.history (h : m.InFlight) (n : Nat) : (m.history n).now.InFlight := by
  induction n with
  | zero => exact h
  | succ n ih => exact ih.step

/-- The memory is that of the start with the completed stores over it. -/
theorem InFlight.memory_history (h : m.InFlight) (n : Nat) :
    (m.history n).now.memory = m.memory.overwrite (m.history n).stores := by
  induction n with
  | zero => rfl
  | succ n ih =>
    change (m.history n).now.step.2.memory = m.memory.overwrite (_ ++ (m.history n).stores)
    rw [(h.history n).memory_step, Harvard.overwrite_append, ih]

theorem InFlight.loaded {r : Retirement} (h : m.InFlight) (hs : m.step.1 = .ok (.retired r))
    (hop : r.opcode = .load) :
    ∃ v, m.memory.peek? (r.instr.effectiveAddress .load m.core.registers) = some v ∧
      m.step.2.core.registers = m.core.registers.write r.instr.rd v := by
  obtain ⟨e, he⟩ := h.completes (Prod.ext hs rfl)
  have heffect := he.effect
  rw [hop] at heffect
  rw [he.registers]
  exact Instruction.execute_load_eq_ok heffect

theorem step_of_instruction {w : Word} (hp : m.core.phase = .fetch)
    (hw : m.memory.instruction? m.core.latches.pc = some w) :
    m.step.1 = .ok .running ∧ m.step.2.core.latches.instr = w := by
  have hfetch : Memory.fetch m.memory m.core.latches.pc = (some w, m.memory) := by
    simp only [Memory.fetch, hw]
  have ht := Core.outcome_tick_fetch hp hfetch
  rw [step_result, step_core]
  exact ⟨congrArg Prod.fst ht, congrArg (·.2.1.latches.instr) ht⟩

/-- From a fetch on, the program stays as it was, and a load brings the latest store to its own
address. -/
theorem memory_coherent (hp : m.core.phase = .fetch) (n : Nat) : m.Coherent (m.history n) := by
  have hm : m.InFlight := .fetch hp
  have h := hm.history n
  have hmemory := hm.memory_history n
  have hword : ∀ a, (m.history n).now.memory.peek? a = m.memory.latest (m.history n).stores a := by
    intro a
    rw [hmemory, Harvard.peek?_overwrite]
  have hprogram : ∀ a, (m.history n).now.memory.instruction? a = m.memory.instruction? a := by
    intro a
    rw [hmemory, Harvard.instruction?_overwrite]
  constructor
  case fetched =>
    intro hq w hw
    exact step_of_instruction hq ((hprogram _).trans hw)
  case ended =>
    intro hq hw
    exact step_of_no_instruction hq ((hprogram _).trans hw)
  case loaded =>
    intro r hs hop
    rw [← hword]
    exact h.loaded hs hop
  case missed =>
    intro a
    rw [step_result, ← hword]
    exact Core.InFlight.unpopulated_iff h
  case refused =>
    intro a k
    rw [step_result, ← hword, Core.InFlight.full_iff h, Harvard.fullAt_eq_some_iff]
    rw [hmemory, Harvard.capacity_overwrite, Harvard.dataCount_overwrite]
  case served =>
    intro op a ha hs
    rw [step_result] at hs ⊢
    exact ha.fault_of_stalls (Core.InFlight.consistent h) hs
  case word => exact hword
  case apart =>
    intro a ha
    rw [h.memory_step, Harvard.peek?_overwrite]
    refine Harvard.latest_of_notMem fun hmem => ?_
    obtain ⟨w, hw, rfl⟩ := List.mem_map.mp hmem
    exact ha w.2 (Option.mem_toList.mp hw)

/-- A word stored below address zero, and loaded by another sum; it takes up the only room. -/
theorem memory_coherent_wraps :
    let m := Machine.start {}
      (.ofProgram [0x00500093, 0xfe102e23, 0xff800113, 0x00412183, 0x00102023] (some 1)) {}
    m.core.phase = .fetch ∧ (m.history 16).stores = [(0xfffffffc, 5)] ∧
      (m.history 17).now.core.registers.read 3 = 5 ∧
      (m.history 20).now.step.1 = .error (.memory (.full 0 1)) := by
  intro m
  have hstores : (m.history 16).stores = [(0xfffffffc, 5)] ∧
      (m.history 20).stores = [(0xfffffffc, 5)] := by
    subst m
    exact ⟨rfl, rfl⟩
  have hretired : (m.history 16).now.step.1 = .ok (.retired ⟨12, 0x00412183, .load, 16, none⟩) := by
    subst m
    rfl
  have haddress : Instruction.effectiveAddress 0x00412183 .load
      (m.history 16).now.core.registers = 0xfffffffc := by
    subst m
    rfl
  have haccess : (m.history 20).now.core.Accesses .store 0 := by
    subst m
    exact ⟨Opcode.decode_eq_ok_iff.mpr rfl, rfl, rfl⟩
  obtain ⟨v, hv, hregs⟩ := (memory_coherent (m := m) rfl 16).loaded _ hretired rfl
  have hfull := ((memory_coherent (m := m) rfl 20).refused 0 1).mpr
  rw [hstores.1, haddress] at hv
  rw [hstores.2] at hfull
  cases hv
  refine ⟨rfl, hstores.1, ?_, hfull ⟨haccess, rfl, rfl, by decide⟩⟩
  rw [now_history_succ, hregs, Register.File.read_write]
  rfl

/-- Whether a store to address four is refused depends on what was stored at address zero. -/
theorem store_refused_for_other_address :
    let after (first : Word) : History :=
      (Machine.start {} (.ofProgram [first, 0x00002223] (some 1)) {}).history 7
    let x := after 0x00002023
    let y := after 0x00000013
    x.now.core = y.now.core ∧ x.now.core.Accesses .store 4 ∧
      (∀ a, a ≠ 0 → x.now.memory.peek? a = y.now.memory.peek? a) ∧
      x.stores = [(0, 0)] ∧ x.now.step.1 = .error (.memory (.full 4 1)) ∧
      y.stores = [] ∧ y.now.step.1 = .ok (.retired ⟨4, 0x00002223, .store, 8, none⟩) := by
  intro after x y
  have hstores : x.stores = [(0, 0)] ∧ y.stores = [] := by
    subst x y after
    exact ⟨rfl, rfl⟩
  have hmemory : ∀ first, (after first).now.memory =
      (Harvard.ofProgram [first, 0x00002223] (some 1)).overwrite (after first).stores :=
    fun first => InFlight.memory_history (.fetch rfl) 7
  have hpeek : ∀ a, a ≠ 0 → x.now.memory.peek? a = y.now.memory.peek? a := by
    intro a ha
    rw [hmemory 0x00002023, hmemory 0x00000013, Harvard.peek?_overwrite, Harvard.peek?_overwrite,
      hstores.1, hstores.2, Harvard.latest_of_notMem (by simpa using ha)]
    rfl
  have haccess : x.now.core.Accesses .store 4 := by
    subst x after
    exact ⟨Opcode.decode_eq_ok_iff.mpr rfl, rfl, rfl⟩
  refine ⟨?_, haccess, hpeek, hstores.1, ?_, hstores.2, ?_⟩
  · subst x y after
    rfl
  · subst x after
    rfl
  · subst y after
    rfl

end Machine

end Multicycle
