import Multicycle.Harvard
import Multicycle.Proofs.Tick

/-! What a tick works out, it works out from the latches and the memory. The registers before the
tick have a say in the operands that the next tick will find, and in nothing else; and no write of a
tick shows in what the same tick reads. -/
namespace Multicycle

/-- The latches but for the operands. -/
def Latches.blankOperands (l : Latches) : Latches := { l with a := 0, b := 0 }

def Commit.blankOperands (k : Commit) : Commit := { k with next := k.next.blankOperands }

/-- What a tick works out before the memory answers, but for the next operands. -/
structure Workings where
  request : Request
  next : Phase
  retiring : Option Opcode
  commit : Reply → Commit

namespace Plan

def workings (p : Plan) : Workings :=
  ⟨p.datapath.request, p.next, p.retiring, fun r => (p.commit r).blankOperands⟩

def withRegisters (p : Plan) (f : Register.File) : Plan :=
  { p with datapath := { p.datapath with registers := f } }

theorem workings_withRegisters (p : Plan) (f : Register.File) :
    (p.withRegisters f).workings = p.workings := rfl

theorem blankOperands_commit_withRegisters (p : Plan) (f : Register.File) (r : Reply) :
    ((p.withRegisters f).commit r).blankOperands = (p.commit r).blankOperands :=
  congrFun (congrArg Workings.commit (p.workings_withRegisters f)) r

end Plan

/-- Two ticks that come to the same, the registers and the next operands apart. -/
structure Tick.Alike {σ : Type} (t u : Tick σ) : Prop where
  result : u.result = t.result
  memory : u.memory = t.memory
  phase : u.core.phase = t.core.phase
  cycle : u.core.cycle = t.core.cycle
  latches : u.core.latches.blankOperands = t.core.latches.blankOperands
  events : u.events = t.events

theorem Datapath.wire_withRegisters (l : Latches) (f g : Register.File) (s : Signals) :
    wire l g s = (wire l f s).map fun d => { d with registers := g } := by
  unfold wire
  split
  · cases l.instr.immediate <;> rfl
  · rfl

namespace Core

variable {σ : Type} [Memory σ] {c : Core} {m m' : σ} {p : Plan}

/-- The core decides what to do without a look at its registers. -/
theorem plan_withRegisters (c : Core) (f : Register.File) :
    ({ c with registers := f } : Core).plan = c.plan.map (·.withRegisters f) := by
  have hretiring : ({ c with registers := f } : Core).retiring = c.retiring := rfl
  unfold plan
  dsimp only
  rw [hretiring]
  cases c.phase.signals c.latches.instr with
  | error e => rfl
  | ok s =>
    dsimp only [bind, Except.bind]
    rw [Datapath.wire_withRegisters c.latches c.registers f s]
    cases Datapath.wire c.latches c.registers s with
    | error e => rfl
    | ok d =>
      dsimp only [Except.map]
      cases c.phase.next c.latches.instr with
      | error e => rfl
      | ok q =>
        dsimp only
        cases c.retiring q <;> rfl

/-- The next operands are read as the tick found the registers and the instruction. -/
theorem operands_commit (hp : c.plan = .ok p) (r : Reply) :
    (p.commit r).next.a = c.registers.read c.latches.instr.rs1 ∧
      (p.commit r).next.b = c.registers.read c.latches.instr.rs2 := by
  obtain ⟨s, -, hd, -, -⟩ := plan_eq_ok hp
  obtain ⟨hl, hf, -, -⟩ := Datapath.wire_eq_ok hd
  rw [← hl, ← hf]
  exact ⟨rfl, rfl⟩

/-- What a tick commits, unless it stalls. -/
def commit? (c : Core) (m : σ) : Option Commit :=
  match c.plan, (c.request.serve m).1 with
  | .ok p, .ok r => if r = .fetched none then none else some (p.commit r)
  | _, _ => none

theorem commit?_of_plan_error {e : Fault} (hp : c.plan = .error e) : c.commit? m = none := by
  unfold commit?
  rw [hp]

theorem commit?_of_denied {e : MemoryFault} (hr : c.request.serve m = (.error e, m')) :
    c.commit? m = none := by
  unfold commit?
  rw [hr]
  cases c.plan <;> rfl

theorem commit?_of_reply {r : Reply} (hp : c.plan = .ok p) (hr : c.request.serve m = (.ok r, m')) :
    c.commit? m = if r = .fetched none then none else some (p.commit r) := by
  unfold commit?
  rw [hp, hr]

/-- The core after a tick is the core before it with the commit applied, all at once. -/
theorem core_tick (c : Core) (m : σ) :
    (c.tick m).core = (c.commit? m).elim c (c.commit (c.tick m).core.phase) := by
  cases c.ends m with
  | rejected hp ht => rw [ht, commit?_of_plan_error hp, Option.elim_none]
  | denied _ hr ht => rw [ht, commit?_of_denied hr, Option.elim_none]
  | ended hp hr ht => rw [ht, commit?_of_reply hp hr, if_pos rfl, Option.elim_none]
  | committed hp hr hne ht =>
    rw [ht, commit?_of_reply hp hr, if_neg hne, Option.elim_some]
    rfl

theorem operands_tick (h : ¬ Stalls (c.tick m).result) :
    (c.tick m).core.latches.a = c.registers.read c.latches.instr.rs1 ∧
      (c.tick m).core.latches.b = c.registers.read c.latches.instr.rs2 := by
  cases c.ends m with
  | rejected _ ht | denied _ _ ht | ended _ _ ht =>
    rw [ht] at h
    exact absurd (by simp [Stalls]) h
  | @committed p r _ hp _ _ ht =>
    rw [ht]
    exact operands_commit hp r

theorem tick_withRegisters (c : Core) (f : Register.File) (m : σ) :
    (c.tick m).Alike (({ c with registers := f } : Core).tick m) := by
  have hplan := c.plan_withRegisters f
  cases c.ends m with
  | rejected hp ht =>
    rw [hp] at hplan
    rw [ht, tick_of_plan_error hplan]
    constructor <;> rfl
  | denied hp hr ht =>
    rw [hp] at hplan
    rw [ht, tick_of_denied hplan hr]
    constructor <;> rfl
  | ended hp hr ht =>
    rw [hp] at hplan
    rw [ht, tick_of_end hplan hr]
    constructor <;> rfl
  | committed hp hr hne ht =>
    rw [hp] at hplan
    rw [ht, tick_of_reply hplan hr hne]
    constructor <;> rfl

theorem commit?_withRegisters (c : Core) (f : Register.File) (m : σ) :
    (({ c with registers := f } : Core).commit? m).map Commit.blankOperands =
      (c.commit? m).map Commit.blankOperands := by
  have hrequest : ({ c with registers := f } : Core).request = c.request := rfl
  unfold commit?
  rw [c.plan_withRegisters f, hrequest]
  cases c.plan with
  | error e => rfl
  | ok p =>
    cases (c.request.serve m).1 with
    | error e => rfl
    | ok r =>
      dsimp only [Except.map]
      split
      · rfl
      · exact congrArg some (p.blankOperands_commit_withRegisters f r)

/-- A tick computes first and writes afterwards: registers have no part in what it commits, the next
operands apart. -/
theorem tick_two_phase (c : Core) (f : Register.File) (m : σ) :
    let d : Core := { c with registers := f }
    d.plan.map Plan.workings = c.plan.map Plan.workings ∧
      (d.commit? m).map Commit.blankOperands = (c.commit? m).map Commit.blankOperands ∧
      (c.tick m).Alike (d.tick m) ∧
      (c.tick m).core = (c.commit? m).elim c (c.commit (c.tick m).core.phase) ∧
      (d.tick m).core = (d.commit? m).elim d (d.commit (c.tick m).core.phase) ∧
      (¬ Stalls (c.tick m).result →
        (c.tick m).core.latches.a = c.registers.read c.latches.instr.rs1 ∧
          (c.tick m).core.latches.b = c.registers.read c.latches.instr.rs2) := by
  intro d
  have halike := c.tick_withRegisters f m
  have hworkings : d.plan.map Plan.workings = c.plan.map Plan.workings := by
    rw [c.plan_withRegisters f]
    cases c.plan <;> rfl
  have hcore := d.core_tick m
  rw [halike.phase] at hcore
  exact ⟨hworkings, c.commit?_withRegisters f m, halike, c.core_tick m, hcore, operands_tick⟩

/-- A load into its own base register, and a fetch of another instruction over it. -/
theorem tick_two_phase_own_base :
    let f := ({} : Register.File).write 1 5
    let load : Core :=
      { phase := .memWriteBack, latches := { instr := 0x0000a083, data := 9 }, registers := f }
    let fetch : Core := { latches := load.latches, registers := f }
    let m := Harvard.ofProgram [0x00012103] none
    ¬ Stalls (load.tick m).result ∧ (load.tick m).core.registers.read 1 = 9 ∧
      (load.tick m).core.latches.a = 5 ∧
      ¬ Stalls (fetch.tick m).result ∧ (fetch.tick m).core.latches.instr = 0x00012103 ∧
      (fetch.tick m).core.latches.a = 5 ∧
      (({ load with registers := {} } : Core).tick m).result = (load.tick m).result := by
  intro f load fetch m
  have hload : (load.tick m).result = .ok (.retired ⟨0, 0x0000a083, .load, 0, none⟩) := by
    subst m load f
    rfl
  have hfetch : (fetch.tick m).result = .ok .running := by
    subst m fetch load f
    rfl
  have hread : (load.tick m).core.registers.read 1 = 9 := by
    subst m load f
    rfl
  have hinstr : (fetch.tick m).core.latches.instr = 0x00012103 := by
    subst m fetch load f
    rfl
  have hbase : f.read load.latches.instr.rs1 = 5 := by
    subst load f
    rfl
  have hloaded : ¬ Stalls (load.tick m).result := by simp [hload]
  have hfetched : ¬ Stalls (fetch.tick m).result := by simp [hfetch]
  obtain ⟨-, -, halike, -, -, hoperands⟩ := tick_two_phase load {} m
  obtain ⟨-, -, -, -, -, hoperands'⟩ := tick_two_phase fetch {} m
  have ha := (hoperands hloaded).1
  have ha' := (hoperands' hfetched).1
  exact ⟨hloaded, hread, ha.trans hbase, hfetched, hinstr, ha'.trans hbase, halike.result⟩

end Core

end Multicycle
