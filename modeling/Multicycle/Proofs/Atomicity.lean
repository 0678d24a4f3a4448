import Multicycle.Machine
import Multicycle.Proofs.Phases

/-! A tick that fails or finds no instruction leaves no trace, and a word that cannot be decoded
stops the core for good. -/
namespace Multicycle

namespace Core

variable {σ : Type} [Memory σ] {c c' : Core} {m : σ} {f : Fault}

/-- No memory has a say in this: a tick commits to the core as a whole or not at all. -/
theorem tick_core_unchanged (h : Stalls (c.tick m).result) : (c.tick m).core = c := by
  cases c.ends m with
  | rejected _ ht | denied _ _ ht | ended _ _ ht => rw [ht]
  | committed _ _ _ ht =>
    rw [ht] at h
    exact absurd h (not_stalls_status _)

theorem tick_memory_unchanged [Memory.Steady σ] (h : Stalls (c.tick m).result) :
    (c.tick m).memory = m := by
  cases c.ends m with
  | rejected _ ht => rw [ht]
  | denied _ hr ht | ended _ hr ht =>
    rw [ht]
    exact Request.serve_keeps hr (by simp)
  | committed _ _ _ ht =>
    rw [ht] at h
    exact absurd h (not_stalls_status _)

theorem plan_error_of_tick (hf : ∀ e, f ≠ .memory e) (h : (c.tick m).result = .error f) :
    c.plan = .error f := by
  cases c.ends m with
  | rejected hp ht =>
    rw [ht] at h
    cases h
    exact hp
  | denied _ _ ht =>
    rw [ht] at h
    cases h
    exact absurd rfl (hf _)
  | ended _ _ ht | committed _ _ _ ht =>
    rw [ht] at h
    cases h

/-- Ticks lead from `c` to another core, each of them over a memory of its own. -/
inductive TicksTo (c : Core) : Core → Prop where
  | refl : TicksTo c c
  | tick {c' : Core} {τ : Type} [Memory τ] (m : τ) (h : TicksTo c c') : TicksTo c (c'.tick m).core

theorem TicksTo.eq_of_plan_error (h : c.TicksTo c') (hp : c.plan = .error f) : c' = c := by
  induction h with
  | refl => rfl
  | tick m _ ih =>
    rw [ih, tick_of_plan_error hp]

end Core

namespace Machine

variable {m m' : Machine} {f : Fault}

theorem step_unchanged (h : Stalls m.step.1) :
    m.step.2 = { m with log := m.step.2.log } := by
  rw [step_result] at h
  have hcore := Core.tick_core_unchanged h
  have hmemory := Core.tick_memory_unchanged h
  unfold step
  rcases h with h | ⟨f, h⟩
  · simp only [h, hcore, hmemory, Tally.observe]
  · simp only [h, hcore, hmemory]

inductive StepsTo (m : Machine) : Machine → Prop where
  | refl : StepsTo m m
  | step {m' : Machine} (h : StepsTo m m') : StepsTo m m'.step.2

theorem StepsTo.eq_of_plan_error (h : m.StepsTo m') (hp : m.core.plan = .error f) :
    m'.step.1 = .error f ∧ m' = { m with log := m'.log } := by
  have hstep : ∀ l, ({ m with log := l } : Machine).step.1 = .error f := by
    intro l
    rw [step_result, Core.tick_of_plan_error hp]
  induction h with
  | refl => exact ⟨hstep m.log, rfl⟩
  | @step a _ ih =>
    obtain ⟨herr, ha⟩ := ih
    have hb : a.step.2 = { m with log := a.step.2.log } := by
      rw [step_unchanged (.inr ⟨f, herr⟩), ha]
    refine ⟨?_, hb⟩
    rw [hb]
    exact hstep _

end Machine

/-- A tick that fails or halts changes nothing, and what cannot be decoded fails again at every
later tick. -/
theorem stalled_tick_atomic :
    Memory.Steady Harvard ∧
      (∀ {σ : Type} [Memory σ] [Memory.Steady σ] (c : Core) (m : σ), Stalls (c.tick m).result →
        (c.tick m).core = c ∧ (c.tick m).memory = m) ∧
      (∀ m : Machine, Stalls m.step.1 → m.step.2 = { m with log := m.step.2.log }) ∧
      (∀ {σ : Type} [Memory σ] (c : Core) (m : σ) (f : Fault), (∀ e, f ≠ .memory e) →
        (c.tick m).result = .error f → ∀ c', c.TicksTo c' →
          c' = c ∧ ∀ {τ : Type} [Memory τ] (m' : τ), c'.tick m' = ⟨.error f, c', m', []⟩) ∧
      (∀ (m : Machine) (f : Fault), (∀ e, f ≠ .memory e) → m.step.1 = .error f →
        ∀ m', m.StepsTo m' →
          m'.step.1 = .error f ∧ m' = { m with log := m'.log }) := by
  refine ⟨inferInstance, ?_, fun m => Machine.step_unchanged, ?_, ?_⟩
  · intro σ _ _ c m h
    exact ⟨Core.tick_core_unchanged h, Core.tick_memory_unchanged h⟩
  · intro σ _ c m f hf h c' hc
    have hp := Core.plan_error_of_tick hf h
    obtain rfl := hc.eq_of_plan_error hp
    exact ⟨rfl, fun m' => Core.tick_of_plan_error hp⟩
  · intro m f hf h m' hm
    rw [Machine.step_result] at h
    exact hm.eq_of_plan_error (Core.plan_error_of_tick hf h)

/-- A store that a full memory refuses, and a word of no opcode. -/
theorem stalled_tick_atomic_store_opcode :
    let store : Core :=
      { phase := .memWrite, latches := { instr := 0x2023, aluOut := 0x80, b := 5 } }
    let alien : Core := { phase := .decode, latches := { instr := 0x73 } }
    let full : Harvard := { capacity := some 0 }
    (store.tick full).result = .error (.memory (.full 0x80 0)) ∧ (store.tick full).core = store ∧
      (store.tick full).memory = full ∧
      (alien.tick full).result = .error (.unknownOpcode 0x73 0x73) ∧
      alien.tick (alien.tick full).memory = ⟨.error (.unknownOpcode 0x73 0x73), alien, full, []⟩ := by
  intro store alien full
  obtain ⟨-, hkeep, -, hagain, -⟩ := stalled_tick_atomic
  have hfull : Memory.store full 0x80 5 = (.error (.full 0x80 0), full) := by
    simp [full, Memory.store, Harvard.store, Harvard.fullAt, Harvard.dataCount, Option.filter]
  have ho : Opcode.decode store.latches.instr = .ok .store :=
    Opcode.decode_eq_ok_iff.mpr (by decide)
  have hs : (store.tick full).result = .error (.memory (.full 0x80 0)) :=
    congrArg Prod.fst (Core.outcome_tick_memWrite_denied (c := store) rfl ho hfull)
  have ha : (alien.tick full).result = .error (.unknownOpcode 0x73 0x73) := by rfl
  obtain ⟨hcore, hmemory⟩ := hkeep store full (.inr ⟨_, hs⟩)
  have hm := (hkeep alien full (.inr ⟨_, ha⟩)).2
  have ht := (hagain alien full _ (by simp) ha alien .refl).2 full
  refine ⟨hs, hcore, hmemory, ha, ?_⟩
  rw [hm]
  exact ht

end Multicycle
