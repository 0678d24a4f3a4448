import Multicycle.Proofs.Runs

/-! Loops of ticks and of steps that nothing bounds from outside come to their end, and to what a
bounded number of ticks or steps comes to. -/
namespace Multicycle

/-- How many ticks or steps that came to `r` have been committed. -/
def commits : Except Fault Status → Nat
  | .ok .running | .ok (.retired _) => 1
  | .ok .halted | .error _ => 0

theorem commits_le (r : Except Fault Status) : commits r ≤ 1 := by
  unfold commits
  split
  · exact Nat.le_refl 1
  · exact Nat.le_refl 1
  · exact Nat.zero_le 1
  · exact Nat.zero_le 1

namespace Core

variable {σ : Type} [Memory σ]

/-- Ticks up to the first that does not leave the instruction in flight end with `t`, `k` of them
committed. -/
inductive Loop : Core → σ → Nat → Tick σ → Prop where
  | last {c : Core} {m : σ} (h : (c.tick m).result ≠ .ok .running) :
    Loop c m (commits (c.tick m).result) (c.tick m)
  | again {c : Core} {m : σ} {k : Nat} {t : Tick σ} (h : (c.tick m).result = .ok .running)
      (rest : Loop (c.tick m).core (c.tick m).memory k t) :
    Loop c m (k + 1) { t with events := (c.tick m).events ++ t.events }

variable {c : Core} {m : σ} {n j k : Nat} {t u : Tick σ}

theorem Loop.unique (h : Loop c m k t) (h' : Loop c m j u) : j = k ∧ u = t := by
  induction h generalizing j u with
  | last hr =>
    cases h' with
    | last _ => exact ⟨rfl, rfl⟩
    | again hr' _ => exact absurd hr' hr
  | again hr _ ih =>
    cases h' with
    | last hr' => exact absurd hr hr'
    | again _ rest =>
      obtain ⟨rfl, rfl⟩ := ih rest
      exact ⟨rfl, rfl⟩

theorem exists_loop_of_distance (h : c.phase.distance ≤ n) (es : List Event) :
    ∃ k ≤ n, ∃ t, Loop c m k t ∧
      advance beat n (c, m, es) = (t.result, t.core, t.memory, es ++ t.events) := by
  induction n generalizing c m es with
  | zero => exact absurd c.phase.distance_pos (by omega)
  | succ n ih =>
    by_cases hr : (c.tick m).result = .ok .running
    · have hlt := distance_tick_lt hr
      have hbeat : beat (c, m, es) =
          (.ok .running, (c.tick m).core, (c.tick m).memory, es ++ (c.tick m).events) := by
        rw [beat, hr]
      obtain ⟨k, hk, t, hloop, hadvance⟩ :=
        ih (c := (c.tick m).core) (m := (c.tick m).memory) (by omega) (es ++ (c.tick m).events)
      refine ⟨k + 1, Nat.succ_le_succ hk, _, .again hr hloop, ?_⟩
      rw [advance_of_running hbeat, hadvance, List.append_assoc]
    · have hcommits := commits_le (c.tick m).result
      exact ⟨_, by omega, _, .last hr, advance_of_done hr⟩

/-- The loop ends within as many ticks as lead back to fetching. -/
theorem exists_loop (c : Core) (m : σ) :
    ∃ k ≤ c.phase.distance, Loop c m k (c.runInstruction m) := by
  obtain ⟨k, hk, t, hloop, hadvance⟩ :=
    exists_loop_of_distance (c := c) (m := m) (Nat.le_refl _) []
  rw [runInstruction, hadvance]
  exact ⟨k, hk, hloop⟩

end Core

namespace Machine

/-- Steps up to the end of a run or of the cycles end with `stop`, those at `times` committed. -/
inductive Loop : Machine → List Nat → Except Fault Stop × Machine → Prop where
  | limit {m : Machine} (h : m.settings.general.maxCycles ≤ m.tally.cycles) :
    Loop m [] (.ok (.cycleLimit m.tally.cycles), m)
  | last {m : Machine} {stop : Except Fault Stop × Machine}
      (h : m.tally.cycles < m.settings.general.maxCycles) (hlast : m.LastStep stop) :
    Loop m (List.replicate (commits m.step.1) m.tally.cycles) stop
  | again {m a : Machine} {s : Status} {times : List Nat} {stop : Except Fault Stop × Machine}
      (h : m.tally.cycles < m.settings.general.maxCycles) (hs : m.step = (.ok s, a))
      (hgo : GoesOn a.settings s) (rest : Loop a times stop) : Loop m (m.tally.cycles :: times) stop

variable {m a : Machine} {times times' : List Nat} {stop stop' : Except Fault Stop × Machine}

theorem LastStep.unique (h : m.LastStep stop) (h' : m.LastStep stop') : stop' = stop := by
  cases h with
  | fault hs =>
    cases h' with
    | fault hs' =>
      cases hs.symm.trans hs'
      rfl
    | halt hs' | loop hs' _ => cases hs.symm.trans hs'
  | halt hs =>
    cases h' with
    | halt hs' =>
      cases hs.symm.trans hs'
      rfl
    | fault hs' | loop hs' _ => cases hs.symm.trans hs'
  | loop hs _ =>
    cases h' with
    | loop hs' _ =>
      cases hs.symm.trans hs'
      rfl
    | fault hs' | halt hs' => cases hs.symm.trans hs'

theorem LastStep.not_goesOn {s : Status} (h : m.LastStep stop) (hs : m.step = (.ok s, a)) :
    ¬ GoesOn a.settings s := by
  cases h with
  | fault hs' => cases hs.symm.trans hs'
  | halt hs' =>
    cases hs.symm.trans hs'
    exact id
  | loop hs' hloop =>
    cases hs.symm.trans hs'
    exact fun hgo => hgo hloop

theorem Loop.unique (h : m.Loop times stop) (h' : m.Loop times' stop') :
    times' = times ∧ stop' = stop := by
  induction h generalizing times' stop' with
  | limit hle =>
    cases h' with
    | limit _ => exact ⟨rfl, rfl⟩
    | last hlt _ | again hlt _ _ _ => exact absurd hle (Nat.not_le_of_lt hlt)
  | last hlt hlast =>
    cases h' with
    | limit hle => exact absurd hle (Nat.not_le_of_lt hlt)
    | last _ hlast' => exact ⟨rfl, hlast.unique hlast'⟩
    | again _ hs hgo _ => exact absurd hgo (hlast.not_goesOn hs)
  | again hlt hs hgo _ ih =>
    cases h' with
    | limit hle => exact absurd hle (Nat.not_le_of_lt hlt)
    | last _ hlast => exact absurd hgo (hlast.not_goesOn hs)
    | again _ hs' _ rest =>
      cases hs.symm.trans hs'
      obtain ⟨rfl, rfl⟩ := ih rest
      exact ⟨rfl, rfl⟩

theorem cycles_step (m : Machine) : m.step.2.tally.cycles = m.tally.cycles + commits m.step.1 := by
  rw [m.step_tally, ← step_result]
  rcases m.step.1 with f | s
  · rfl
  · cases s with
    | running | retired r => exact Tally.cycles_observe (by simp)
    | halted => rfl

theorem LastStep.snd_eq (h : m.LastStep stop) : m.step.2 = stop.2 := by
  cases h with
  | fault hs | halt hs | loop hs _ => rw [hs]

theorem RunsTo.loop {k j : Nat} (h : m.RunsTo k a) (hk : k ≤ m.budget)
    (ha : a.Loop (List.range' a.tally.cycles j) stop) :
    m.Loop (List.range' m.tally.cycles (k + j)) stop := by
  induction h generalizing j with
  | refl =>
    rw [Nat.zero_add]
    exact ha
  | @step k s a b h hs hgo ih =>
    have hcycles := h.cycles
    have hnext : b.tally.cycles = a.tally.cycles + 1 := by
      rw [(RunsTo.step h hs hgo).cycles, hcycles, Nat.add_assoc]
    have hlt : a.tally.cycles < a.settings.general.maxCycles := by
      rw [h.stepsTo.settings]
      unfold Machine.budget at hk
      omega
    have hloop := Loop.again hlt hs hgo ha
    rw [hnext, ← List.range'_succ] at hloop
    rw [Nat.add_right_comm, Nat.add_assoc]
    exact ih (Nat.le_of_succ_le hk) hloop

theorem run_eq_spend_log (m : Machine) :
    m.run.1 = (spend m.budget m).1 ∧
      m.run.2 = { (spend m.budget m).2 with log := m.run.2.log } := by
  unfold run
  split
  · next hs =>
    rw [hs]
    exact ⟨rfl, rfl⟩
  · next hs =>
    rw [hs]
    exact ⟨rfl, rfl⟩

/-- The loop ends as a run does, with no more steps committed than its budget. -/
theorem exists_loop (m : Machine) :
    ∃ k ≤ m.budget, m.Loop (List.range' m.tally.cycles k) (spend m.budget m) ∧
      (spend m.budget m).2.tally.cycles = m.tally.cycles + k := by
  obtain ⟨k, a, hk, hend⟩ := spend_cases m.budget m
  have hcycles := hk.cycles
  have hsettings := hk.stepsTo.settings
  rcases hend with ⟨rfl, hlimit⟩ | ⟨hlt, hlast⟩
  · have hle : a.settings.general.maxCycles ≤ a.tally.cycles := by
      rw [hsettings, hcycles, budget]
      omega
    rw [hlimit]
    exact ⟨m.budget, Nat.le_refl _, hk.loop (j := 0) (Nat.le_refl _) (.limit hle), hcycles⟩
  · have hroom : a.tally.cycles < a.settings.general.maxCycles := by
      rw [hsettings]
      unfold budget at hlt
      omega
    have htimes : List.replicate (commits a.step.1) a.tally.cycles =
        List.range' a.tally.cycles (commits a.step.1) := by
      rcases Nat.le_one_iff_eq_zero_or_eq_one.mp (commits_le a.step.1) with hc | hc
      · rw [hc]
        rfl
      · rw [hc]
        rfl
    have hloop := Loop.last hroom hlast
    rw [htimes] at hloop
    have hcommits := commits_le a.step.1
    refine ⟨k + commits a.step.1, by omega, hk.loop (Nat.le_of_lt hlt) hloop, ?_⟩
    rw [← hlast.snd_eq, a.cycles_step, hcycles, Nat.add_assoc]

end Machine

/-- Both loops end in one way: an instruction after five ticks at most, a run within its budget. -/
theorem loops_end :
    (∀ {σ : Type} [Memory σ] (c : Core) (m : σ), ∃ k ≤ 5,
      ∀ j t, c.Loop m j t ↔ j = k ∧ t = c.runInstruction m) ∧
    ∀ m : Machine,
      let limit := m.settings.general.maxCycles
      ∃ times a, (∀ ts stop, m.Loop ts stop ↔ ts = times ∧ stop = (m.run.1, a)) ∧
        m.run.2 = { a with log := m.run.2.log } ∧
        times = List.range' m.tally.cycles times.length ∧
        times.length ≤ limit - m.tally.cycles ∧ (∀ n ∈ times, n < limit) ∧
        m.run.2.tally.cycles = m.tally.cycles + times.length ∧
        m.run.2.tally.cycles ≤ max limit m.tally.cycles := by
  constructor
  · intro σ _ c m
    obtain ⟨k, hk, hloop⟩ := c.exists_loop m
    refine ⟨k, Nat.le_trans hk c.phase.distance_le, fun j t => ⟨hloop.unique, ?_⟩⟩
    rintro ⟨rfl, rfl⟩
    exact hloop
  · intro m limit
    obtain ⟨k, hk, hloop, hcycles⟩ := m.exists_loop
    have hbudget : m.budget = limit - m.tally.cycles := rfl
    obtain ⟨hresult, hafter⟩ := m.run_eq_spend_log
    have hfinal : m.run.2.tally.cycles = m.tally.cycles + k := by
      rw [hafter]
      exact hcycles
    refine ⟨List.range' m.tally.cycles k, (Machine.spend m.budget m).2, ?_, hafter, ?_⟩
    · rw [hresult]
      refine fun ts stop => ⟨hloop.unique, ?_⟩
      rintro ⟨rfl, rfl⟩
      exact hloop
    · rw [List.length_range', hfinal]
      refine ⟨rfl, Nat.le_trans hk (Nat.le_of_eq hbudget), ?_, rfl, by omega⟩
      intro n hn
      obtain ⟨hge, hlt⟩ := List.mem_range'_1.mp hn
      omega

/-- An instruction, one that a full memory refuses, a run out of budget, and a run without any. -/
theorem loops_end_limit :
    let m (limit : Nat) : Machine :=
      .start { general := { maxCycles := limit } } (.ofProgram [0x00500093, 0x00002023] (some 0)) {}
    (∃ k ≤ 5, (m 6).core.Loop (m 6).memory k ((m 6).core.runInstruction (m 6).memory)) ∧
      (m 6).run.1 = .ok (.cycleLimit 6) ∧ (m 6).run.2.tally.cycles ≤ 6 ∧
      (m 6).run.2.run.2.tally.cycles ≤ 6 ∧ (m 8).run.1 = .error (.memory (.full 0 0)) ∧
      ∃ a, (m 8).Loop [0, 1, 2, 3, 4, 5, 6] (.error (.memory (.full 0 0)), a) := by
  intro m
  obtain ⟨hticks, hruns⟩ := loops_end
  have hlimit : (m 6).run.1 = .ok (.cycleLimit 6) := by
    subst m
    rfl
  have hfault : (m 8).run.1 = .error (.memory (.full 0 0)) := by
    subst m
    rfl
  have hcycles : (m 8).run.2.tally.cycles = 7 := by
    subst m
    rfl
  have hspent : (m 6).run.2.tally.cycles = 6 := by
    subst m
    rfl
  have hsettings : (m 6).run.2.settings.general.maxCycles = 6 := by
    subst m
    rfl
  obtain ⟨k, hk, hloop⟩ := hticks (m 6).core (m 6).memory
  obtain ⟨_, _, -, -, -, -, -, -, hmax⟩ := hruns (m 6)
  obtain ⟨_, _, -, -, -, -, -, -, hmax'⟩ := hruns (m 6).run.2
  obtain ⟨times, a, hends, -, htimes, -, -, hcount, -⟩ := hruns (m 8)
  rw [hsettings, hspent] at hmax'
  rw [hcycles] at hcount
  have hlength : times.length = 7 := by
    change 7 = 0 + times.length at hcount
    omega
  rw [hlength] at htimes
  have hend := (hends _ _).mpr ⟨rfl, rfl⟩
  rw [hfault, htimes] at hend
  exact ⟨⟨k, hk, (hloop _ _).mpr ⟨rfl, rfl⟩⟩, hlimit, hmax, hmax', hfault, a, hend⟩

end Multicycle
