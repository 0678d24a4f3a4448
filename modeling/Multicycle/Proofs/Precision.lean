import Multicycle.Proofs.Atomicity
import Multicycle.Proofs.Reachable

/-! Only the tick that completes an instruction writes a register or a word of data, so wherever a
run is cut, both are as the last completed instruction left them. -/
namespace Multicycle

namespace Phase

variable {p : Phase}

/-- The phases that write a register. -/
def writesBack : Phase → Bool
  | memWriteBack | aluWriteBack | jalrWriteBack | lui | auipc => true
  | _ => false

theorem next_of_writes (w : Instruction) (h : p.writesBack = true ∨ p = memWrite) :
    p.next w = .ok fetch := by
  rcases h with h | rfl
  · cases p with
    | memWriteBack | aluWriteBack | jalrWriteBack | lui | auipc => rfl
    | _ => cases h
  · rfl

end Phase

theorem Signals.regWrite_of_signals {p : Phase} {w : Instruction} {s : Signals}
    (h : p.signals w = .ok s) : s.regWrite = p.writesBack := by
  cases p with
  | decode =>
    obtain ⟨op, -, rfl⟩ := map_eq_ok_iff.mp h
    cases op <;> rfl
  | executeImm | executeReg | branch =>
    obtain ⟨_, -, rfl⟩ := map_eq_ok_iff.mp h
    rfl
  | _ =>
    cases h
    rfl

namespace Register.File

theorem write_zero (f : File) (v : Word) : f.write 0 v = f := by
  simp [write, Bank.write?_eq_none_iff.mpr]

theorem get?_write_of_ne {i j : Nat} (f : File) (v : Word) (h : j % 32 = 0 ∨ j % 32 ≠ i % 32) :
    (f.write i v).get? j = f.get? j := by
  rw [get?_write, if_neg]
  omega

theorem mem_modified_write_of_ne {i j : Nat} (f : File) (v : Word) (h : j ≠ i) :
    j ∈ (f.write i v).modified ↔ j ∈ f.modified := by
  rw [modified_write]
  split
  · rfl
  · simp [mem_insertAscending, h]

end Register.File

namespace Core

variable {σ : Type} [Memory σ] {c : Core} {m : σ} {p : Plan}

theorem registers_commit (hp : c.plan = .ok p) (r : Reply) :
    (c.commit p.next (p.commit r)).registers =
      if c.phase.writesBack then c.registers.write c.latches.instr.rd p.datapath.result
      else c.registers := by
  obtain ⟨s, hs, hd, -, -⟩ := plan_eq_ok hp
  obtain ⟨hl, -, rfl, -⟩ := Datapath.wire_eq_ok hd
  have hw := Signals.regWrite_of_signals hs
  simp only [commit, Plan.commit, Datapath.evaluate, hw, hl]
  split <;> rfl

theorem request_ne_store (hp : c.phase ≠ .memWrite) (a v : Word) : c.request ≠ .store a v := by
  unfold request
  split
  · simp
  · simp
  · next h => exact absurd h hp
  · simp

/-- The instruction stays in flight through the phases that write nothing. -/
theorem not_writes_of_running (hp : c.plan = .ok p) (hr : p.retiring = none) :
    ¬ (c.phase.writesBack = true ∨ c.phase = .memWrite) := by
  obtain ⟨_, _, _, hnext, _⟩ := plan_eq_ok hp
  intro h
  have hq := Phase.next_of_writes c.latches.instr h
  exact (retiring_eq_none_iff hp).mp hr (Except.ok.inj (hnext.symm.trans hq))

/-- What the completion of an instruction may have written: nothing, one register or one word. -/
inductive Wrote (c : Core) (m : σ) : Register.File → σ → Prop where
  | nothing : Wrote c m c.registers m
  | register (v : Word) (h : c.latches.instr.rd ≠ 0) :
    Wrote c m (c.registers.write c.latches.instr.rd v) m
  | data {m' : σ} (h : Memory.store m c.latches.aluOut c.latches.b = (.ok (), m')) :
    Wrote c m c.registers m'

theorem Wrote.other_registers {f : Register.File} {m' : σ} (h : c.Wrote m f m') :
    (∀ j, j % 32 = 0 ∨ j % 32 ≠ c.latches.instr.rd → f.get? j = c.registers.get? j) ∧
      ∀ j, j ≠ c.latches.instr.rd → (j ∈ f.modified ↔ j ∈ c.registers.modified) := by
  have hrd := Nat.mod_eq_of_lt c.latches.instr.rd_lt
  cases h with
  | nothing | data _ => exact ⟨fun _ _ => rfl, fun _ _ => Iff.rfl⟩
  | register v _ =>
    refine ⟨fun j hj => ?_, fun j hj => Register.File.mem_modified_write_of_ne _ _ hj⟩
    rw [← hrd] at hj
    exact Register.File.get?_write_of_ne _ _ hj

section Steady

variable [Memory.Steady σ]

/-- Before an instruction completes, its ticks write nothing. -/
theorem tick_of_running (h : (c.tick m).result = .ok .running) :
    (c.tick m).core.registers = c.registers ∧ (c.tick m).memory = m := by
  cases c.ends m with
  | rejected _ ht | denied _ _ ht | ended _ _ ht =>
    rw [ht] at h
    cases h
  | @committed p r m' hp hr hne ht =>
    rw [ht] at h ⊢
    have hretiring : p.retiring = none := by
      cases hq : p.retiring with
      | none => rfl
      | some op => simp [status, hq] at h
    have hw := not_or.mp (not_writes_of_running hp hretiring)
    constructor
    · change (c.commit p.next (p.commit r)).registers = c.registers
      rw [registers_commit hp, if_neg hw.1]
    · have hk := Request.serve_read_keeps (m := m) (request_ne_store hw.2)
      rw [hr] at hk
      exact hk

/-- The tick that completes an instruction writes one register at most, or one word, not both. -/
theorem wrote_of_retired {r : Retirement} (h : (c.tick m).result = .ok (.retired r)) :
    c.Wrote m (c.tick m).core.registers (c.tick m).memory := by
  cases c.ends m with
  | rejected _ ht | denied _ _ ht | ended _ _ ht =>
    rw [ht] at h
    cases h
  | @committed p reply m' hp hr hne ht =>
    rw [ht]
    change c.Wrote m (c.commit p.next (p.commit reply)).registers m'
    rw [registers_commit hp]
    by_cases hq : c.phase = .memWrite
    · have hstore : Memory.store m c.latches.aluOut c.latches.b = (.ok (), m') := by
        simp only [request, hq, Request.serve] at hr
        rcases hs : Memory.store m c.latches.aluOut c.latches.b with ⟨e | u, m₁⟩
        · simp [hs, Except.map] at hr
        · rw [hs] at hr
          cases hr
          rfl
      rw [hq]
      exact .data hstore
    · have hk := Request.serve_read_keeps (m := m) (request_ne_store hq)
      rw [hr] at hk
      change m' = m at hk
      rw [hk]
      split
      · by_cases hrd : c.latches.instr.rd = 0
        · rw [hrd, Register.File.write_zero]
          exact .nothing
        · exact .register _ hrd
      · exact .nothing

end Steady

inductive Act where
  | tick
  | reset
  deriving DecidableEq, Repr

/-- A core and its memory on a run, and the registers and memory that the last instruction to
complete left behind. -/
structure Course (σ : Type) where
  core : Core
  memory : σ
  left : Register.File × σ

namespace Course

/-- Before any instruction has completed, what the run started with counts as left. -/
def start (c : Core) (m : σ) : Course σ := ⟨c, m, c.registers, m⟩

def act (x : Course σ) : Act → Course σ
  | .tick =>
    let t := x.core.tick x.memory
    { core := t.core
      memory := t.memory
      left :=
        match t.result with
        | .ok (.retired _) => (t.core.registers, t.memory)
        | _ => x.left }
  | .reset => { x with core := x.core.reset }

/-- Registers and memory are those of an instruction boundary. -/
def Precise (x : Course σ) : Prop := x.core.registers = x.left.1 ∧ x.memory = x.left.2

variable [Memory.Steady σ] {x : Course σ}

theorem Precise.tick (h : x.Precise) : (x.act .tick).Precise := by
  unfold Precise act
  dsimp only
  -- A tick that stalls or goes on leaves both as they were; the others are boundaries themselves.
  rcases hr : (x.core.tick x.memory).result with f | s
  · have hs : Stalls (x.core.tick x.memory).result := .inr ⟨f, hr⟩
    rw [tick_core_unchanged hs, tick_memory_unchanged hs]
    exact h
  · cases s with
    | running =>
      obtain ⟨hregs, hmemory⟩ := tick_of_running hr
      rw [hregs, hmemory]
      exact h
    | retired r => exact ⟨rfl, rfl⟩
    | halted =>
      have hs : Stalls (x.core.tick x.memory).result := .inl hr
      rw [tick_core_unchanged hs, tick_memory_unchanged hs]
      exact h

theorem Precise.act (h : x.Precise) (a : Act) : (x.act a).Precise := by
  cases a with
  | tick => exact h.tick
  | reset => exact h

theorem precise_foldl (c : Core) (m : σ) (acts : List Act) :
    (acts.foldl Course.act (start c m)).Precise :=
  List.foldlRecOn acts Course.act ⟨rfl, rfl⟩ fun _ h a _ => h.act a

end Course

end Core

namespace Machine

inductive Call where
  | step
  | runInstruction
  | run
  | reset
  deriving DecidableEq, Repr

def call (m : Machine) : Call → Machine
  | .step => m.step.2
  | .runInstruction => m.runInstruction.2
  | .run => m.run.2
  | .reset => m.reset

/-- Ticks and resets lead the core and memory of `m` to those of `m'`. -/
def Acts (m m' : Machine) : Prop :=
  ∃ acts : List Core.Act,
    let x := acts.foldl Core.Course.act (.start m.core m.memory)
    m'.core = x.core ∧ m'.memory = x.memory

variable {m m' : Machine}

theorem Acts.append (h : m.Acts m') {m'' : Machine} (a : Core.Act)
    (ha : ∀ x : Core.Course Harvard, m'.core = x.core → m'.memory = x.memory →
      m''.core = (x.act a).core ∧ m''.memory = (x.act a).memory) : m.Acts m'' := by
  obtain ⟨acts, hcore, hmemory⟩ := h
  refine ⟨acts ++ [a], ?_⟩
  rw [List.foldl_append]
  exact ha _ hcore hmemory

theorem Acts.step (h : m.Acts m') : m.Acts m'.step.2 := by
  refine h.append .tick fun x hcore hmemory => ?_
  rw [step_core, step_memory, hcore, hmemory]
  exact ⟨rfl, rfl⟩

theorem Acts.call (h : m.Acts m') (k : Call) : m.Acts (m'.call k) := by
  cases k with
  | step => exact h.step
  | runInstruction => exact runInstruction_preserves (P := m.Acts) (fun _ => Acts.step) h
  | run => exact run_preserves (P := m.Acts) (fun _ => Acts.step) (fun _ _ h => h) h
  | reset =>
    refine h.append .reset fun x hcore hmemory => ⟨?_, hmemory⟩
    exact congrArg Core.reset hcore

theorem acts_foldl (m : Machine) (calls : List Call) : m.Acts (calls.foldl call m) :=
  List.foldlRecOn calls call ⟨[], rfl, rfl⟩ fun _ h k _ => h.call k

end Machine

/-- After any ticks, calls and resets, registers and memory are those that the last completed
instruction left. -/
theorem only_completion_writes :
    (∀ {σ : Type} [Memory σ] [Memory.Steady σ] (c : Core) (m : σ),
      ((c.tick m).result = .ok .running →
        (c.tick m).core.registers = c.registers ∧ (c.tick m).memory = m) ∧
      (∀ r, (c.tick m).result = .ok (.retired r) →
        c.Wrote m (c.tick m).core.registers (c.tick m).memory ∧
        (∀ j, j % 32 = 0 ∨ j % 32 ≠ c.latches.instr.rd →
          (c.tick m).core.registers.get? j = c.registers.get? j) ∧
        ∀ j, j ≠ c.latches.instr.rd →
          (j ∈ (c.tick m).core.registers.modified ↔ j ∈ c.registers.modified)) ∧
      ∀ acts : List Core.Act,
        let x := acts.foldl Core.Course.act (.start c m)
        x.core.registers = x.left.1 ∧ x.memory = x.left.2) ∧
    ∀ (m : Machine) (calls : List Machine.Call), ∃ acts : List Core.Act,
      let x := acts.foldl Core.Course.act (.start m.core m.memory)
      let m' := calls.foldl Machine.call m
      m'.core = x.core ∧ m'.memory = x.memory ∧
        m'.core.registers = x.left.1 ∧ m'.memory = x.left.2 := by
  constructor
  · intro σ _ _ c m
    refine ⟨Core.tick_of_running, fun r hr => ?_, Core.Course.precise_foldl c m⟩
    have hw := Core.wrote_of_retired hr
    exact ⟨hw, hw.other_registers⟩
  · intro m calls
    obtain ⟨acts, hcore, hmemory⟩ := m.acts_foldl calls
    obtain ⟨hregs, hleft⟩ := Core.Course.precise_foldl m.core m.memory acts
    refine ⟨acts, hcore, hmemory, ?_, hmemory.trans hleft⟩
    rw [hcore]
    exact hregs

/-- A jump held in the phase of a store writes the word alone. A refused store changes nothing. -/
theorem only_completion_writes_jump_refused :
    let jump : Core := { phase := .memWrite, latches := { instr := 0xef, aluOut := 0x80, b := 5 } }
    let t := jump.tick ({} : Harvard)
    let settings : Settings := { general := { maxCycles := 20 } }
    let m := Machine.start settings (.ofProgram [0x00500093, 0x00102023] (some 0)) {}
    let m' := [.run, .reset, .step].foldl Machine.call m
    t.result = .ok (.retired ⟨0, 0xef, .jal, 0, none⟩) ∧ t.memory.peek? 0x80 = some 5 ∧
      t.core.registers.get? 1 = none ∧ (jump.reset.tick m.memory).core.registers = {} ∧
      m.run.1 = .error (.memory (.full 0 0)) ∧ m'.core.registers.read 1 = 5 ∧
      ∃ acts : List Core.Act,
        let x := acts.foldl Core.Course.act (.start m.core m.memory)
        m'.core = x.core ∧ m'.core.registers = x.left.1 ∧ m'.memory = x.left.2 := by
  intro jump t settings m m'
  obtain ⟨hticks, hcalls⟩ := only_completion_writes
  have hjump : t.result = .ok (.retired ⟨0, 0xef, .jal, 0, none⟩) := by
    subst t jump
    rfl
  have hword : t.memory.peek? 0x80 = some 5 := by
    subst t jump
    rfl
  have hfetch : (jump.reset.tick m.memory).result = .ok .running := by
    subst jump m settings
    rfl
  obtain ⟨hwrote, -⟩ := (hticks jump ({} : Harvard)).2.1 _ hjump
  have hlink : t.core.registers.get? 1 = none := by
    change jump.Wrote _ t.core.registers t.memory at hwrote
    generalize t.core.registers = f, t.memory = m₁ at hwrote hword
    cases hwrote with
    | nothing | register _ _ => simp [Harvard.peek?] at hword
    | data _ => rfl
  obtain ⟨hregs, -⟩ := (hticks jump.reset m.memory).1 hfetch
  obtain ⟨acts, hcore, -, hleft, hmemory⟩ := hcalls m [.run, .reset, .step]
  refine ⟨hjump, hword, hlink, hregs, ?_, ?_, acts, hcore, hleft, hmemory⟩
  · subst m settings
    rfl
  · subst m' m settings
    rfl

end Multicycle
