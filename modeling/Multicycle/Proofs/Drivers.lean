import Multicycle.Proofs.Runs

/-! Ways to drive a program: instruction by instruction over a core and its memory, instruction by
instruction on a machine, and tick by tick within a budget. All of them come to the same. -/
namespace Multicycle

/-- Why a driver stops after a call that came to `r` and left `pc` as the program counter, if it
does. -/
def stopAfter (stopOnSelfLoop : Bool) (pc : Word) :
    Except Fault Status → Option (Except Fault Stop)
  | .error f => some (.error f)
  | .ok .halted => some (.ok (.endOfProgram pc))
  | .ok (.retired r) => if stopOnSelfLoop && r.selfLoop then some (.ok (.selfLoop r.pc)) else none
  | .ok .running => none

/-- What calls have come to so far: each of them, why they stopped, and what they left. -/
structure Drive (α : Type) where
  results : List (Except Fault Status)
  outcome : Option (Except Fault Stop)
  state : α

def Drive.map {α β : Type} (f : α → β) (d : Drive α) : Drive β :=
  ⟨d.results, d.outcome, f d.state⟩

/-- A call that completes an instruction, and the program counter that shows. -/
structure Driver (α : Type) where
  call : α → Except Fault Status × α
  pc : α → Word

namespace Driver

variable {α β : Type}

/-- Calls one after another, at most `n` of them. -/
def drive (d : Driver α) (stopOnSelfLoop : Bool) : Nat → α → Drive α
  | 0, x => ⟨[], none, x⟩
  | n + 1, x =>
    let (r, y) := d.call x
    match stopAfter stopOnSelfLoop (d.pc y) r with
    | some stop => ⟨[r], some stop, y⟩
    | none =>
      let rest := d.drive stopOnSelfLoop n y
      { rest with results := r :: rest.results }

variable {d : Driver α} {e : Driver β} {stop : Bool} {n : Nat} {x y : α} {r : Except Fault Status}

theorem drive_of_stop {s : Except Fault Stop} (hc : d.call x = (r, y))
    (hs : stopAfter stop (d.pc y) r = some s) : d.drive stop (n + 1) x = ⟨[r], some s, y⟩ := by
  simp only [drive, hc, hs]

theorem drive_of_go (hc : d.call x = (r, y)) (hs : stopAfter stop (d.pc y) r = none) :
    d.drive stop (n + 1) x =
      { d.drive stop n y with results := r :: (d.drive stop n y).results } := by
  simp only [drive, hc, hs]

/-- Drivers agree whose calls agree up to how the state is written down. -/
theorem drive_map {f : α → β} (hcall : ∀ x, e.call (f x) = ((d.call x).1, f (d.call x).2))
    (hpc : ∀ x, e.pc (f x) = d.pc x) (n : Nat) (x : α) :
    e.drive stop n (f x) = (d.drive stop n x).map f := by
  induction n generalizing x with
  | zero => rfl
  | succ n ih =>
    have hc : d.call x = ((d.call x).1, (d.call x).2) := rfl
    cases hs : stopAfter stop (d.pc (d.call x).2) (d.call x).1 with
    | some s =>
      rw [drive_of_stop hc hs, drive_of_stop (hcall x) (by rw [hpc, hs])]
      rfl
    | none =>
      rw [drive_of_go hc hs, drive_of_go (hcall x) (by rw [hpc, hs]), ih]
      rfl

end Driver

namespace Core

def driver {σ : Type} [Memory σ] : Driver (Core × σ) where
  call x := (x.1.runInstruction x.2).outcome
  pc x := x.1.latches.pc

end Core

namespace Machine

def driver : Driver Machine where
  call := runInstruction
  pc m := m.core.latches.pc

variable {m a : Machine} {n : Nat}

theorem runInstruction_of_running (hs : m.step = (.ok .running, a)) :
    m.runInstruction = a.runInstruction := by
  have hlt : a.core.phase.distance < m.core.phase.distance := by
    simpa [hs] using distance_step_lt (congrArg Prod.fst hs)
  obtain ⟨k, hk⟩ : ∃ k, m.core.phase.distance = k + 1 :=
    Nat.exists_eq_succ_of_ne_zero (Nat.ne_of_gt m.core.phase.distance_pos)
  rw [runInstruction, hk, advance_of_running hs]
  exact advance_eq_of_le a.runInstruction_ne_running (by omega)

theorem runInstruction_of_done (h : m.step.1 ≠ .ok .running) : m.runInstruction = m.step := by
  obtain ⟨k, hk⟩ : ∃ k, m.core.phase.distance = k + 1 :=
    Nat.exists_eq_succ_of_ne_zero (Nat.ne_of_gt m.core.phase.distance_pos)
  rw [runInstruction, hk]
  exact advance_of_done h

/-- A machine's core and memory without what it counts and logs. -/
def bare (m : Machine) : Core × Harvard := (m.core, m.memory)

theorem outcome_tick (m : Machine) :
    (m.core.tick m.memory).outcome = (m.step.1, m.step.2.bare) := by
  rw [bare, step_result, step_core, step_memory]
  rfl

theorem call_bare (m : Machine) :
    Core.driver.call m.bare = ((driver.call m).1, (driver.call m).2.bare) := by
  have hbeat : ∀ a : Machine, Core.bareBeat a.bare = (a.step.1, a.step.2.bare) := outcome_tick
  exact (m.core.outcome_runInstruction m.memory).trans (advance_map hbeat _ m)

/-- What a machine counts and logs has no part in what it does. -/
theorem drive_bare (stop : Bool) (n : Nat) (m : Machine) :
    Core.driver.drive stop n m.bare = (driver.drive stop n m).map bare :=
  Driver.drive_map call_bare (fun _ => rfl) n m

theorem drive_of_running {stop : Bool} (hs : m.step = (.ok .running, a)) :
    driver.drive stop (n + 1) m = driver.drive stop (n + 1) a := by
  have hc : driver.call m = driver.call a := runInstruction_of_running hs
  simp only [Driver.drive, hc]

theorem drive_of_lastStep {res : Except Fault Stop × Machine} (h : m.LastStep res) :
    driver.drive m.settings.general.stopOnSelfLoop 1 m =
      ⟨[m.step.1], some res.1, res.2⟩ := by
  have hsettings := m.step_settings
  cases h with
  | @fault f a hs =>
    have hc : driver.call m = (.error f, a) := (runInstruction_of_done (by simp [hs])).trans hs
    rw [hs]
    exact Driver.drive_of_stop hc rfl
  | @halt a hs =>
    have hc : driver.call m = (.ok .halted, a) := (runInstruction_of_done (by simp [hs])).trans hs
    rw [hs]
    exact Driver.drive_of_stop hc rfl
  | @loop r a hs hloop =>
    have hc : driver.call m = (.ok (.retired r), a) :=
      (runInstruction_of_done (by simp [hs])).trans hs
    rw [hs] at hsettings ⊢
    rw [hsettings] at hloop
    exact Driver.drive_of_stop hc (if_pos hloop)

/-- The driver comes by wherever a run comes by, and stops from there on as from the start. -/
theorem RunsTo.drive {k : Nat} (h : m.RunsTo k a) (j : Nat) :
    let stop := m.settings.general.stopOnSelfLoop
    ∃ i, (driver.drive stop i m).outcome = (driver.drive stop (j + 1) a).outcome ∧
      (driver.drive stop i m).state = (driver.drive stop (j + 1) a).state := by
  induction h generalizing j with
  | refl => exact ⟨j + 1, rfl, rfl⟩
  | @step k s a b h hs hgo ih =>
    have hsettings : b.settings = m.settings := (RunsTo.step h hs hgo).stepsTo.settings
    cases s with
    | running =>
      intro stop
      rw [← drive_of_running hs]
      exact ih j
    | halted => exact absurd hgo id
    | retired r =>
      obtain ⟨i, houtcome, hstate⟩ := ih (j + 1)
      have hc : driver.call a = (.ok (.retired r), b) :=
        (runInstruction_of_done (by simp [hs])).trans hs
      rw [hsettings] at hgo
      rw [Driver.drive_of_go hc (if_neg hgo)] at houtcome hstate
      exact ⟨i, houtcome, hstate⟩

/-- A run that has gone on for `k` steps has made `k` ticks, all of them such that it went on. -/
theorem RunsTo.ticks {k : Nat} (h : m.RunsTo k a) :
    let x := m.core.ticks m.memory k
    (x.core, x.memory) = a.bare ∧ ∀ r ∈ x.results, ∃ s, r = .ok s ∧ GoesOn m.settings s := by
  induction h with
  | refl => exact ⟨rfl, by simp [Core.ticks]⟩
  | @step k s a b h hs hgo ih =>
    obtain ⟨hbare, hresults⟩ := ih
    have hcore : (m.core.ticks m.memory k).core = a.core := congrArg Prod.fst hbare
    have hmemory : (m.core.ticks m.memory k).memory = a.memory := congrArg Prod.snd hbare
    have ht := a.outcome_tick
    rw [hs] at ht
    have hsettings : b.settings = m.settings := (RunsTo.step h hs hgo).stepsTo.settings
    dsimp only [Core.ticks]
    rw [hcore, hmemory]
    refine ⟨congrArg Prod.snd ht, fun r hr => ?_⟩
    rcases List.mem_append.mp hr with hr | hr
    · exact hresults r hr
    · rw [List.mem_singleton] at hr
      refine ⟨s, hr.trans (congrArg Prod.fst ht), ?_⟩
      rw [← hsettings]
      exact hgo

theorem run_eq_drive (h : ∀ k, m.run.1 ≠ .ok (.cycleLimit k)) :
    let stop := m.settings.general.stopOnSelfLoop
    ∃ n, (driver.drive stop n m).outcome = some m.run.1 ∧
      (driver.drive stop n m).state.bare = m.run.2.bare := by
  obtain ⟨hresult, hcore, hmemory⟩ := m.run_eq_spend
  obtain ⟨k, m₁, hk, ⟨-, hlimit⟩ | ⟨-, hlast⟩⟩ := spend_cases m.budget m
  · rw [hlimit] at hresult
    exact absurd hresult (h _)
  · obtain ⟨n, houtcome, hstate⟩ := hk.drive 0
    have hdrive := drive_of_lastStep hlast
    rw [hk.stepsTo.settings] at hdrive
    rw [hdrive] at houtcome hstate
    refine ⟨n, houtcome.trans (congrArg some hresult.symm), ?_⟩
    rw [hstate]
    exact Prod.ext hcore.symm hmemory.symm

theorem run_eq_ticks {k : Nat} (h : m.run.1 = .ok (.cycleLimit k)) :
    k = m.tally.cycles + m.budget ∧
      let x := m.core.ticks m.memory m.budget
      (x.core, x.memory) = m.run.2.bare ∧
        ∀ r ∈ x.results, ∃ s, r = .ok s ∧ GoesOn m.settings s := by
  obtain ⟨hresult, hcore, hmemory⟩ := m.run_eq_spend
  obtain ⟨j, m₁, hj, ⟨rfl, hlimit⟩ | ⟨-, hlast⟩⟩ := spend_cases m.budget m
  · rw [hlimit] at hresult hcore hmemory
    rw [h] at hresult
    cases hresult
    obtain ⟨hbare, hresults⟩ := hj.ticks
    exact ⟨hj.cycles, hbare.trans (Prod.ext hcore.symm hmemory.symm), hresults⟩
  · rw [h] at hresult
    generalize spend m.budget m = res at hresult hlast
    cases hlast <;> cases hresult

theorem run_of_budget_zero (h : m.budget = 0) :
    m.run.1 = .ok (.cycleLimit m.tally.cycles) ∧ m.run.2 = { m with log := m.run.2.log } := by
  rw [run, h]
  exact ⟨rfl, rfl⟩

/-- Completing instruction after instruction comes to the same as a run, but for a run that its
budget ends. -/
theorem drivers_agree (m : Machine) :
    let stop := m.settings.general.stopOnSelfLoop
    let limit := m.settings.general.maxCycles
    (∀ n, Core.driver.drive stop n m.bare = (driver.drive stop n m).map bare) ∧
      ((∀ k, m.run.1 ≠ .ok (.cycleLimit k)) →
        ∃ n, (Core.driver.drive stop n m.bare).outcome = some m.run.1 ∧
          (Core.driver.drive stop n m.bare).state = m.run.2.bare) ∧
      (∀ k, m.run.1 = .ok (.cycleLimit k) → m.tally.cycles < limit →
        k = limit ∧
          let x := m.core.ticks m.memory (limit - m.tally.cycles)
          (x.core, x.memory) = m.run.2.bare ∧
            ∀ r ∈ x.results, ∃ s, r = .ok s ∧ s ≠ .halted ∧
              ∀ r', s = .retired r' → ¬ (stop = true ∧ r'.nextPc = r'.pc)) ∧
      (limit ≤ m.tally.cycles →
        m.run.1 = .ok (.cycleLimit m.tally.cycles) ∧ m.run.2 = { m with log := m.run.2.log }) := by
  intro stop limit
  refine ⟨fun n => m.drive_bare stop n, fun h => ?_, fun k h hlt => ?_, fun h => ?_⟩
  · obtain ⟨n, houtcome, hstate⟩ := run_eq_drive h
    refine ⟨n, ?_, ?_⟩ <;> rw [drive_bare]
    · exact houtcome
    · exact hstate
  · obtain ⟨hk, hbare, hresults⟩ := run_eq_ticks h
    have hbudget : m.budget = limit - m.tally.cycles := rfl
    refine ⟨by omega, hbare, fun r hr => ?_⟩
    obtain ⟨s, hs, hgo⟩ := hresults r hr
    refine ⟨s, hs, ?_, ?_⟩
    · rintro rfl
      exact hgo
    · rintro r' rfl ⟨hstop, hself⟩
      have hloop : r'.selfLoop = true := by simp [Retirement.selfLoop, hself]
      exact hgo (Bool.and_eq_true_iff.mpr ⟨hstop, hloop⟩)
  · exact run_of_budget_zero (Nat.sub_eq_zero_of_le h)

/-- A branch to itself that completes with the last tick of the budget, the same with one tick less,
and a run after that. -/
theorem drivers_agree_last_tick :
    let m (limit : Nat) : Machine :=
      start { general := { maxCycles := limit } } (.ofProgram [0x00500093, 0x00000063] none) {}
    (m 7).run.1 = .ok (.selfLoop 4) ∧
      (∃ n, (Core.driver.drive true n (m 7).bare).outcome = some (m 7).run.1 ∧
        (Core.driver.drive true n (m 7).bare).state = (m 7).run.2.bare) ∧
      (m 6).run.1 = .ok (.cycleLimit 6) ∧
      ((m 6).core.ticks (m 6).memory 6).core = (m 6).run.2.core ∧
      (m 6).run.2.run.1 = .ok (.cycleLimit 6) ∧ (m 6).run.2.run.2.bare = (m 6).run.2.bare := by
  intro m
  have hloop : (m 7).run.1 = .ok (.selfLoop 4) := by
    subst m
    rfl
  have hlimit : (m 6).run.1 = .ok (.cycleLimit 6) := by
    subst m
    rfl
  have hspent : (m 6).run.2.tally.cycles = 6 := by
    subst m
    rfl
  have hsettings : (m 6).run.2.settings.general.maxCycles = 6 := by
    subst m
    rfl
  obtain ⟨-, hstops, -, -⟩ := drivers_agree (m 7)
  obtain ⟨-, -, hticks, -⟩ := drivers_agree (m 6)
  obtain ⟨-, -, -, hnothing⟩ := drivers_agree (m 6).run.2
  obtain ⟨-, hbare, -⟩ := hticks 6 hlimit (by decide)
  obtain ⟨hagain, hkept⟩ := hnothing (Nat.le_of_eq (hsettings.trans hspent.symm))
  refine ⟨hloop, hstops (by simp [hloop]), hlimit, congrArg Prod.fst hbare, ?_, ?_⟩
  · rw [hagain, hspent]
  · generalize (m 6).run.2 = a at hkept ⊢
    rw [hkept]
    rfl

end Machine

end Multicycle
