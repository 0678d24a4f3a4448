import Multicycle.Proofs.Consistency

/-! Every counted cycle belongs to a counted instruction or to the one in flight. -/
namespace Multicycle

namespace Phase

variable {p q : Phase} {w : Instruction} {op : Opcode}

/-- How many ticks of an instruction come before the phase. -/
def position : Phase → Nat
  | fetch => 0
  | decode => 1
  | memAddress | executeImm | executeReg | branch | jalrTarget | jalTarget | lui | auipc => 2
  | memRead | memWrite | aluWriteBack | jalrWriteBack => 3
  | memWriteBack => 4

theorem getElem?_path_position (h : p ∈ op.path) : op.path[p.position]? = some p := by
  revert p
  cases op <;> decide

theorem position_next (h : p.next w = .ok q) (hq : q ≠ fetch) : q.position = p.position + 1 := by
  cases p with
  | decode =>
    obtain ⟨op, -, rfl⟩ := map_eq_ok_iff.mp h
    cases op <;> decide
  | memAddress =>
    obtain ⟨op, -, rfl⟩ := map_eq_ok_iff.mp h
    split <;> decide
  | fetch | memRead | executeImm | executeReg | jalrTarget | jalTarget =>
    cases h
    decide
  | memWriteBack | memWrite | aluWriteBack | branch | jalrWriteBack | lui | auipc =>
    exact absurd (Except.ok.inj h).symm hq

theorem cycles_of_next_fetch (hp : p ∈ op.path) (h : p.next w = .ok fetch) :
    op.cycles = p.position + 1 := by
  cases p with
  | decode =>
    obtain ⟨op', -, hf⟩ := map_eq_ok_iff.mp h
    cases op' <;> cases hf
  | memAddress =>
    obtain ⟨op', -, hf⟩ := map_eq_ok_iff.mp h
    split at hf <;> cases hf
  | fetch | memRead | executeImm | executeReg | jalrTarget | jalTarget => cases h
  | memWriteBack | memWrite | aluWriteBack | branch | jalrWriteBack | lui | auipc =>
    revert hp
    cases op <;> decide

end Phase

namespace Tally

variable {t : Tally} {k : Nat}

def spent (t : Tally) : Nat :=
  5 * t.load + 4 * (t.store + t.opReg + t.opImm + t.jal + t.jalr) +
    3 * (t.branchTaken + t.branchNotTaken + t.lui + t.auipc)

def mixed (t : Tally) : Nat :=
  t.load + t.store + t.opReg + t.opImm + t.branchTaken + t.branchNotTaken + t.jal + t.jalr + t.lui +
    t.auipc

theorem spent_count (t : Tally) (op : Opcode) (taken : Option Bool) :
    let t' := t.count op taken
    t'.cycles = t.cycles ∧ t'.instructions = t.instructions + 1 ∧
      t'.mixed = t.mixed + 1 ∧ t'.spent = t.spent + op.cycles := by
  cases op with
  | branch =>
    unfold count
    cases taken == some true with
    | true | false =>
      refine ⟨rfl, rfl, ?_, ?_⟩
      · simp [mixed]
        omega
      · simp [spent, Opcode.cycles, Opcode.path]
        omega
  | _ =>
    refine ⟨rfl, rfl, ?_, ?_⟩
    · simp [count, mixed]
      omega
    · simp [count, spent, Opcode.cycles, Opcode.path]
      omega

/-- The books of a tally while an instruction has used `k` ticks. -/
structure Balanced (t : Tally) (k : Nat) : Prop where
  instructions : t.instructions = t.mixed
  cycles : t.cycles = t.spent + k

theorem Balanced.running (h : t.Balanced k) : (t.observe .running).Balanced (k + 1) where
  instructions := h.instructions
  cycles := by
    have hc := h.cycles
    change t.cycles + 1 = t.spent + (k + 1)
    omega

theorem Balanced.retired {r : Retirement} (h : t.Balanced k) (hr : r.opcode.cycles = k + 1) :
    (t.observe (.retired r)).Balanced 0 := by
  obtain ⟨hc, hi, hm, hs⟩ := { t with cycles := t.cycles + 1 }.spent_count r.opcode r.branchTaken
  have hi' := h.instructions
  have hc' := h.cycles
  constructor
  · change (count _ _ _).instructions = _
    rw [hi, hi']
    exact hm.symm
  · change (count _ _ _).cycles = (count _ _ _).spent + 0
    rw [hc, hs, hr]
    change t.cycles + 1 = t.spent + (k + 1) + 0
    omega

theorem cycles_observe {s : Status} (h : s ≠ .halted) :
    (t.observe s).cycles = t.cycles + 1 := by
  cases s with
  | running => rfl
  | retired r => exact ({ t with cycles := t.cycles + 1 }.spent_count r.opcode r.branchTaken).1
  | halted => exact absurd rfl h

/-- A tick that fails is not counted. -/
def after (t : Tally) : Except Fault Status → Tally
  | .ok s => t.observe s
  | .error _ => t

end Tally

namespace Core

variable {σ : Type} [Memory σ] {c : Core} {p : Plan} {op : Opcode}

theorem retiring_eq_some (h : c.plan = .ok p) (hr : p.retiring = some op) :
    p.next = .fetch ∧ Opcode.decode c.latches.instr = .ok op := by
  obtain ⟨_, _, _, _, ht⟩ := plan_eq_ok h
  unfold retiring at ht
  split at ht
  · next hn =>
    obtain ⟨op', ho, hs⟩ := map_eq_ok_iff.mp ht
    rw [hr] at hs
    cases hs
    exact ⟨hn, ho⟩
  · rw [hr] at ht
    cases ht

/-- A tick as the counters see it. -/
inductive Progress (c : Core) : Except Fault Status → Core → Prop where
  | stalled {r : Except Fault Status} (h : Stalls r) : Progress c r c
  | running {c' : Core} (cycle : c'.cycle = c.cycle + 1)
      (position : c'.phase.position = c.phase.position + 1) : Progress c (.ok .running) c'
  | retired {c' : Core} {r : Retirement} (cycle : c'.cycle = c.cycle + 1)
      (phase : c'.phase = .fetch) (cycles : r.opcode.cycles = c.phase.position + 1) :
    Progress c (.ok (.retired r)) c'

theorem Progress.position_of_running {c' : Core} (h : c.Progress (.ok .running) c') :
    c'.phase.position = c.phase.position + 1 := by
  cases h with
  | stalled hr => cases stalls_ok_iff.mp hr
  | running _ hp => exact hp

theorem Consistent.progress (h : c.Consistent) (m : σ) :
    c.Progress (c.tick m).result (c.tick m).core := by
  cases c.ends m with
  | @rejected f _ ht =>
    rw [ht]
    exact .stalled (.inr ⟨f, rfl⟩)
  | denied _ _ ht =>
    rw [ht]
    exact .stalled (.inr ⟨_, rfl⟩)
  | ended _ _ ht =>
    rw [ht]
    exact .stalled (.inl rfl)
  | @committed p r _ hp _ _ ht =>
    rw [ht]
    obtain ⟨_, _, _, hnext, _⟩ := plan_eq_ok hp
    unfold status
    cases hr : p.retiring with
    | none =>
      have hq := (retiring_eq_none_iff hp).mp hr
      exact .running rfl (Phase.position_next hnext hq)
    | some op =>
      obtain ⟨hq, ho⟩ := retiring_eq_some hp hr
      rw [hq] at hnext
      exact .retired rfl hq (Phase.cycles_of_next_fetch (h.phase_mem_path ho) hnext)

end Core

namespace Machine

variable {m : Machine}

theorem step_tally (m : Machine) :
    m.step.2.tally = m.tally.after (m.core.tick m.memory).result := by
  simp only [step]
  split <;> simp [*, Tally.after]

/-- The clock and the tally of a machine agree, and the books are balanced. -/
structure Accounted (m : Machine) : Prop where
  consistent : m.core.Consistent
  clock : m.tally.cycles = m.core.cycle
  balanced : m.tally.Balanced m.core.phase.position

/-- The ticks counted are those of the clock, and each belongs to an instruction counted or to the
one in flight. -/
theorem Accounted.books (h : m.Accounted) {r : Except Fault Status} {c : Core}
    (hp : m.core.Progress r c) :
    (m.tally.after r).cycles = c.cycle ∧ (m.tally.after r).Balanced c.phase.position := by
  have hk := h.clock
  cases hp with
  | stalled hr =>
    rcases hr with rfl | ⟨f, rfl⟩
    · exact ⟨hk, h.balanced⟩
    · exact ⟨hk, h.balanced⟩
  | running hcycle hposition =>
    have hc := Tally.cycles_observe (t := m.tally) (s := .running) (by simp)
    rw [hposition]
    exact ⟨by rw [Tally.after]; omega, h.balanced.running⟩
  | @retired _ r hcycle hphase hcycles =>
    have hc := Tally.cycles_observe (t := m.tally) (s := .retired r) (by simp)
    rw [hphase]
    exact ⟨by rw [Tally.after]; omega, h.balanced.retired hcycles⟩

theorem Accounted.step (h : m.Accounted) : m.step.2.Accounted := by
  obtain ⟨hclock, hbalanced⟩ := h.books (h.consistent.progress m.memory)
  rw [← step_tally, ← step_core] at hclock hbalanced
  refine ⟨?_, hclock, hbalanced⟩
  rw [step_core]
  exact h.consistent.tick m.memory

theorem Reachable.accounted (h : m.Reachable) : m.Accounted := by
  have hstep : ∀ m : Machine, m.Accounted → m.step.2.Accounted := fun _ h => h.step
  have hfetch : ∀ c : Core, c.phase = .fetch → c.Consistent := fun c hc hf => absurd hc hf
  induction h with
  | start s memory log => exact ⟨hfetch _ rfl, rfl, rfl, rfl⟩
  | step _ ih => exact ih.step
  | runInstruction _ ih => exact runInstruction_preserves hstep ih
  | run _ ih =>
    exact run_preserves hstep (fun _ _ h => ⟨h.consistent, h.clock, h.balanced⟩) ih
  | reset _ _ => exact ⟨hfetch _ rfl, rfl, rfl, rfl⟩
  | setRegister i v _ ih => exact ⟨ih.consistent, ih.clock, ih.balanced⟩
  | edit memory _ ih => exact ⟨ih.consistent, ih.clock, ih.balanced⟩

/-- After any calls, each instruction is in the mix once, and the cycles are those of the mix and of
the instruction in flight. -/
theorem Reachable.tally_accounts (h : m.Reachable) :
    m.tally.cycles = m.core.cycle ∧
      m.tally.instructions = m.tally.load + m.tally.store + m.tally.opReg + m.tally.opImm +
        m.tally.branchTaken + m.tally.branchNotTaken + m.tally.jal + m.tally.jalr + m.tally.lui +
        m.tally.auipc ∧
      m.tally.cycles = 5 * m.tally.load +
        4 * (m.tally.store + m.tally.opReg + m.tally.opImm + m.tally.jal + m.tally.jalr) +
        3 * (m.tally.branchTaken + m.tally.branchNotTaken + m.tally.lui + m.tally.auipc) +
        m.core.phase.position ∧
      ∀ op, Opcode.decode m.core.latches.instr = .ok op →
        op.path[m.core.phase.position]? = some m.core.phase := by
  have ha := h.accounted
  refine ⟨ha.clock, ha.balanced.instructions, ha.balanced.cycles, ?_⟩
  intro op ho
  exact Phase.getElem?_path_position (h.core.consistent.phase_mem_path ho)

/-- A run that its budget stops after the fetch of a load. -/
theorem Reachable.tally_accounts_limit :
    let settings : Settings := { general := { maxCycles := 1 } }
    let m := (Machine.start settings (.ofProgram [0x00002003] none) {}).run.2
    m.Reachable ∧ m.core.phase = .decode ∧ m.tally.instructions = 0 ∧ m.tally.cycles = 1 ∧
      m.core.cycle = 1 := by
  intro settings m
  let m₀ := Machine.start settings (.ofProgram [0x00002003] none) {}
  have hm : m.Reachable := .run (.start settings _ {})
  have hfetch : Memory.fetch m₀.memory 0 = (some 0x00002003, m₀.memory) :=
    Harvard.fetch_loadProgram_singleton _ _ _
  have ht := Core.outcome_tick_fetch (c := m₀.core) rfl hfetch
  have hr : (m₀.core.tick m₀.memory).result = .ok .running := congrArg Prod.fst ht
  have hcore := (m₀.step_core).trans (congrArg (·.2.1) ht)
  have htally := m₀.step_tally
  rw [hr] at htally
  have hs : m₀.step = (.ok .running, m₀.step.2) := Prod.ext (m₀.step_result.trans hr) rfl
  have hspend : spend m₀.budget m₀ =
      (.ok (.cycleLimit m₀.step.2.tally.cycles), m₀.step.2) := by
    change spend 1 m₀ = _
    rw [spend, hs]
    rfl
  have hrun : m.core = m₀.step.2.core ∧ m.tally = m₀.step.2.tally := by
    change m₀.run.2.core = _ ∧ m₀.run.2.tally = _
    rw [Machine.run, hspend]
    exact ⟨rfl, rfl⟩
  obtain ⟨hcycles, -⟩ := hm.tally_accounts
  have hc : m.core.cycle = 1 := by rw [hrun.1, hcore]; rfl
  refine ⟨hm, ?_, ?_, hcycles.trans hc, hc⟩
  · rw [hrun.1, hcore]
    rfl
  · rw [hrun.2, htally]
    rfl

end Machine

end Multicycle
