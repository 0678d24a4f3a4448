import Mathlib.Data.List.Chain
import Multicycle.Proofs.Termination

/-! What a core reports from a reset on: its clock events count the ticks that have been committed
and link each phase to the next, and its retirements stand where instructions are complete. -/
namespace Multicycle

/-- What a clock event shows. -/
structure Reading where
  cycle : Nat
  phase : Phase
  next : Phase
  pc : Word
  instr : Instruction
  deriving DecidableEq, Repr

def Reading.event (k : Reading) : Event := .clock k.cycle k.phase k.next k.pc k.instr

theorem Reading.event_injective {j k : Reading} (h : j.event = k.event) : j = k := by
  cases j
  cases k
  cases h
  rfl

namespace Event

def reading? : Event → Option Reading
  | clock cycle phase next pc instr => some ⟨cycle, phase, next, pc, instr⟩
  | _ => none

@[simp] theorem reading?_event (k : Reading) : k.event.reading? = some k := rfl

end Event

/-- What the clock events of a log show, in order. -/
def readings (log : List Event) : List Reading := log.filterMap Event.reading?

theorem readings_append (log events : List Event) :
    readings (log ++ events) = readings log ++ readings events := List.filterMap_append

theorem readings_event_cons (k : Reading) (rest : List Event) :
    readings (k.event :: rest) = k :: readings rest := by
  rw [readings, List.filterMap_cons_some (Event.reading?_event k)]
  rfl

/-- Retirements stand right behind the clock events that lead back to fetching, and nowhere else. -/
def Marked (traceInstructions : Bool) (log : List Event) : Prop :=
  ∀ i, (∃ r, log[i]? = some (.retired r)) ↔ traceInstructions = true ∧
    ∃ j k, i = j + 1 ∧ log[j]? = some (Reading.event k) ∧ k.next = .fetch

section Append

variable {log rest : List Event} {k : Reading}

theorem getElem?_append_of_eq_some {j : Nat} {e : Event} (h : log[j]? = some e)
    (events : List Event) : (log ++ events)[j]? = some e := by
  rw [List.getElem?_append_left (List.getElem?_eq_some_iff.mp h).1, h]

theorem getElem?_append_length (log : List Event) (e : Event) (rest : List Event) :
    (log ++ e :: rest)[log.length]? = some e := by
  rw [List.getElem?_append_right (Nat.le_refl _), Nat.sub_self]
  rfl

theorem getElem?_append_behind (log : List Event) (e : Event) (rest : List Event) (j : Nat) :
    (log ++ e :: rest)[log.length + 1 + j]? = rest[j]? := by
  rw [List.getElem?_append_right (by omega), Nat.add_assoc, Nat.add_sub_cancel_left,
    Nat.add_comm 1, List.getElem?_cons_succ]

/-- What a tick adds to the log, with `rest` behind the clock event. -/
theorem Marked.append {trace : Bool} (h : Marked trace log)
    (hrest : rest = [] ∧ ¬ (trace = true ∧ k.next = .fetch) ∨
      ∃ r, rest = [.retired r] ∧ trace = true ∧ k.next = .fetch) :
    Marked trace (log ++ k.event :: rest) := by
  intro i
  constructor
  · rintro ⟨r, hr⟩
    rcases Nat.lt_trichotomy i log.length with hi | rfl | hi
    · rw [List.getElem?_append_left hi] at hr
      obtain ⟨htrace, j, k', hij, hk', hnext⟩ := (h i).mp ⟨r, hr⟩
      exact ⟨htrace, j, k', hij, getElem?_append_of_eq_some hk' _, hnext⟩
    · rw [getElem?_append_length] at hr
      cases hr
    · obtain ⟨j, rfl⟩ := Nat.exists_eq_add_of_lt hi
      rw [Nat.add_right_comm, getElem?_append_behind] at hr
      rcases hrest with ⟨rfl, -⟩ | ⟨r', rfl, htrace, hnext⟩
      · cases hr
      · have hj : j = 0 := by
          have hlt := (List.getElem?_eq_some_iff.mp hr).1
          simpa using hlt
        subst hj
        exact ⟨htrace, log.length, k, rfl, getElem?_append_length _ _ _, hnext⟩
  · rintro ⟨htrace, j, k', rfl, hk', hnext⟩
    rcases Nat.lt_trichotomy j log.length with hj | rfl | hj
    · rw [List.getElem?_append_left hj] at hk'
      obtain ⟨r, hr⟩ := (h (j + 1)).mpr ⟨htrace, j, k', rfl, hk', hnext⟩
      exact ⟨r, getElem?_append_of_eq_some hr _⟩
    · rw [getElem?_append_length] at hk'
      cases Reading.event_injective (Option.some.inj hk')
      rcases hrest with ⟨-, hnot⟩ | ⟨r, rfl, -, -⟩
      · exact absurd ⟨htrace, hnext⟩ hnot
      · exact ⟨r, getElem?_append_behind _ _ _ 0⟩
    · obtain ⟨j, rfl⟩ := Nat.exists_eq_add_of_lt hj
      rw [Nat.add_right_comm, getElem?_append_behind] at hk'
      rcases hrest with ⟨rfl, -⟩ | ⟨r', rfl, -, -⟩
      · cases hk'
      · cases j with
        | zero => cases hk'
        | succ j => cases hk'

end Append

namespace Core

variable {σ : Type} [Memory σ] {c : Core} {m : σ}

/-- What the clock event of a tick is to show. -/
def reading (c : Core) (t : Tick σ) : Reading :=
  ⟨c.cycle, c.phase, t.core.phase, t.core.latches.pc, c.latches.instr⟩

/-- What a tick reports goes with what it has come to. -/
inductive Reports (c : Core) (t : Tick σ) : Prop where
  | stalled (result : Stalls t.result) (core : t.core = c) (events : t.events = [])
  | running (result : t.result = .ok .running) (cycle : t.core.cycle = c.cycle + 1)
      (next : t.core.phase ≠ .fetch) (events : t.events = [(c.reading t).event])
  | retired (r : Retirement) (result : t.result = .ok (.retired r))
      (cycle : t.core.cycle = c.cycle + 1) (next : t.core.phase = .fetch)
      (events : t.events =
        (c.reading t).event :: if c.traceInstructions then [.retired r] else [])

theorem reports (c : Core) (m : σ) : c.Reports (c.tick m) := by
  cases c.ends m with
  | rejected _ ht =>
    rw [ht]
    exact .stalled (.inr ⟨_, rfl⟩) rfl rfl
  | denied _ _ ht =>
    rw [ht]
    exact .stalled (.inr ⟨_, rfl⟩) rfl rfl
  | ended _ _ ht =>
    rw [ht]
    exact .stalled (.inl rfl) rfl rfl
  | @committed p r _ hp _ _ ht =>
    have hnone := retiring_eq_none_iff hp
    rw [ht]
    cases hr : p.retiring with
    | none =>
      refine .running ?_ rfl (hnone.mp hr) ?_
      · simp [status, hr]
      · simp only [events, hr]
        rfl
    | some op =>
      have hnext : p.next = .fetch := by
        by_contra hne
        rw [hnone.mpr hne] at hr
        cases hr
      refine .retired (c.retirement (p.commit r) op) ?_ rfl hnext ?_
      · simp [status, hr]
      · simp only [events, hr]
        rfl

theorem traceInstructions_tick (c : Core) (m : σ) :
    (c.tick m).core.traceInstructions = c.traceInstructions := by
  cases c.ends m with
  | rejected _ ht | denied _ _ ht | ended _ _ ht | committed _ _ _ ht => rw [ht] <;> rfl

inductive Call where
  | tick
  | runInstruction
  deriving DecidableEq, Repr

def call (c : Core) (m : σ) : Call → Tick σ
  | .tick => c.tick m
  | .runInstruction => c.runInstruction m

/-- The ticks up to the first that does not leave the instruction in flight, at most `n` of them. -/
def turns : Nat → Core → σ → List (Core × Tick σ)
  | 0, _, _ => []
  | n + 1, c, m =>
    let t := c.tick m
    (c, t) ::
      match t.result with
      | .ok .running => turns n t.core t.memory
      | _ => []

theorem turns_of_running {n : Nat} (h : (c.tick m).result = .ok .running) :
    turns (n + 1) c m = (c, c.tick m) :: turns n (c.tick m).core (c.tick m).memory := by
  simp only [turns, h]

theorem turns_of_done {n : Nat} (h : (c.tick m).result ≠ .ok .running) :
    turns (n + 1) c m = [(c, c.tick m)] := by
  rw [turns]
  split
  · next hr => exact absurd hr h
  · rfl

theorem exists_last_turn {n : Nat} (h : (advance bareBeat n (c, m)).1 ≠ .ok .running) :
    ∃ us u, turns n c m = us ++ [u] ∧ (∀ v ∈ us, v.2.result = .ok .running) ∧
      advance bareBeat n (c, m) = u.2.outcome := by
  induction n generalizing c m with
  | zero => exact absurd rfl h
  | succ n ih =>
    by_cases hr : (c.tick m).result = .ok .running
    · have hbeat : bareBeat (c, m) = (.ok .running, (c.tick m).core, (c.tick m).memory) :=
        Prod.ext hr rfl
      rw [advance_of_running hbeat] at h ⊢
      obtain ⟨us, u, hturns, hus, hu⟩ := ih h
      refine ⟨(c, c.tick m) :: us, u, ?_, ?_, hu⟩
      · rw [turns_of_running hr, hturns]
        rfl
      · intro v hv
        rcases List.mem_cons.mp hv with rfl | hv
        · exact hr
        · exact hus v hv
    · exact ⟨[], (c, c.tick m), turns_of_done hr, by simp, advance_of_done hr⟩

def callTurns (c : Core) (m : σ) : Call → List (Core × Tick σ)
  | .tick => [(c, c.tick m)]
  | .runInstruction => turns c.phase.distance c m

end Core

/-- A core and its memory, the ticks that calls have made, and the log that they have left. -/
structure Chronicle (σ : Type) where
  core : Core
  memory : σ
  turns : List (Core × Tick σ) := []
  log : List Event := []

namespace Chronicle

variable {σ : Type} {x : Chronicle σ} {trace : Bool}

/-- `turns` and `log` tell how the core has come from a reset to where it is. -/
structure Faithful (traceInstructions : Bool) (x : Chronicle σ) : Prop where
  trace : x.core.traceInstructions = traceInstructions
  log_eq : x.log = x.turns.flatMap (·.2.events)
  reports : ∀ u ∈ x.turns, u.1.Reports u.2
  cycles : (readings x.log).map (·.cycle) = List.range x.core.cycle
  first : ∀ k ∈ (readings x.log).head?, k.phase = .fetch
  linked : (readings x.log).IsChain fun j k => j.next = k.phase
  /-- A core that has reported nothing is at the start of its program. -/
  phase : x.core.phase = ((readings x.log).getLast?.map (·.next)).getD .fetch
  pc : x.core.latches.pc = ((readings x.log).getLast?.map (·.pc)).getD resetPc
  marked : Marked traceInstructions x.log

theorem Faithful.start (c : Core) (m : σ) :
    Faithful c.traceInstructions (⟨c.reset, m, [], []⟩ : Chronicle σ) where
  trace := rfl
  log_eq := rfl
  reports _ hu := by cases hu
  cycles := rfl
  first _ hk := by cases hk
  linked := .nil
  phase := rfl
  pc := rfl
  marked i := by simp

/-- A tick that is committed shows its clock, and its retirement behind it if it has one to show. -/
theorem Faithful.commit (h : x.Faithful trace) {t : Tick σ} {rest : List Event}
    (hreports : x.core.Reports t) (htrace : t.core.traceInstructions = x.core.traceInstructions)
    (hcycle : t.core.cycle = x.core.cycle + 1)
    (hevents : t.events = (x.core.reading t).event :: rest) (hreadings : readings rest = [])
    (hmarked : Marked trace (x.log ++ t.events)) :
    Faithful trace ⟨t.core, t.memory, x.turns ++ [(x.core, t)], x.log ++ t.events⟩ := by
  have hlog : readings (x.log ++ t.events) = readings x.log ++ [x.core.reading t] := by
    rw [readings_append, hevents, readings_event_cons, hreadings]
  constructor
  case trace => exact htrace.trans h.trace
  case log_eq =>
    rw [List.flatMap_append, ← h.log_eq]
    simp
  case reports =>
    intro u hu
    rcases List.mem_append.mp hu with hu | hu
    · exact h.reports u hu
    · rw [List.mem_singleton.mp hu]
      exact hreports
  case cycles =>
    rw [hlog, List.map_append, h.cycles, hcycle, List.range_succ]
    rfl
  case first =>
    rw [hlog]
    intro k hk
    cases hl : readings x.log with
    | nil =>
      have hphase := h.phase
      rw [hl] at hk hphase
      cases hk
      exact hphase
    | cons j js =>
      rw [hl] at hk
      exact h.first k (by rwa [hl])
  case linked =>
    rw [hlog, List.isChain_append]
    refine ⟨h.linked, List.isChain_singleton _, ?_⟩
    intro j hj k hk
    cases hk
    have hphase := h.phase
    rw [Option.mem_def.mp hj] at hphase
    exact hphase.symm
  case phase | pc =>
    rw [hlog, List.getLast?_concat]
    rfl
  case marked => exact hmarked

theorem Faithful.stall (h : x.Faithful trace) {t : Tick σ} (hreports : x.core.Reports t)
    (hcore : t.core = x.core) (hevents : t.events = []) :
    Faithful trace ⟨t.core, t.memory, x.turns ++ [(x.core, t)], x.log ++ t.events⟩ := by
  rw [hcore, hevents, List.append_nil]
  refine { h with log_eq := ?_, reports := ?_ }
  · rw [List.flatMap_append, ← h.log_eq]
    simp [hevents]
  · intro u hu
    rcases List.mem_append.mp hu with hu | hu
    · exact h.reports u hu
    · rw [List.mem_singleton.mp hu]
      exact hreports

variable [Memory σ]

def call (x : Chronicle σ) (k : Core.Call × (σ → σ)) : Chronicle σ :=
  let m := k.2 x.memory
  let t := x.core.call m k.1
  ⟨t.core, t.memory, x.turns ++ x.core.callTurns m k.1, x.log ++ t.events⟩

def tick (x : Chronicle σ) (m : σ) : Chronicle σ :=
  let t := x.core.tick m
  ⟨t.core, t.memory, x.turns ++ [(x.core, t)], x.log ++ t.events⟩

theorem Faithful.tick (h : x.Faithful trace) (m : σ) : (x.tick m).Faithful trace := by
  have hreports := x.core.reports m
  have htrace := x.core.traceInstructions_tick m
  unfold Chronicle.tick
  dsimp only
  generalize x.core.tick m = t at hreports htrace ⊢
  cases hreports with
  | stalled result core events => exact h.stall (.stalled result core events) core events
  | running result cycle next events =>
    refine h.commit (.running result cycle next events) htrace cycle events rfl ?_
    rw [events]
    exact h.marked.append (.inl ⟨rfl, fun hk => next hk.2⟩)
  | retired r result cycle next events =>
    refine h.commit (.retired r result cycle next events) htrace cycle events ?_ ?_
    · split <;> rfl
    · rw [events, h.trace]
      cases trace with
      | true => exact h.marked.append (.inr ⟨r, rfl, rfl, next⟩)
      | false => exact h.marked.append (.inl ⟨rfl, fun hk => Bool.noConfusion hk.1⟩)

theorem Faithful.advance (h : x.Faithful trace) (n : Nat) (m : σ) :
    let (_, c, m', log) := Multicycle.advance Core.beat n (x.core, m, x.log)
    Faithful trace ⟨c, m', x.turns ++ Core.turns n x.core m, log⟩ := by
  induction n generalizing x m with
  | zero =>
    dsimp only [Multicycle.advance, Core.turns]
    rw [List.append_nil]
    exact { h with }
  | succ n ih =>
    have htick := h.tick m
    by_cases hr : (x.core.tick m).result = .ok .running
    · have hbeat : Core.beat (x.core, m, x.log) =
          (.ok .running, (x.core.tick m).core, (x.core.tick m).memory, (x.tick m).log) := by
        rw [Core.beat, hr]
        rfl
      have hnext := ih htick (x.core.tick m).memory
      dsimp only [Chronicle.tick] at hnext
      rw [advance_of_running hbeat, Core.turns_of_running hr]
      rwa [List.append_assoc] at hnext
    · rw [advance_of_done hr, Core.turns_of_done hr]
      exact htick

theorem Faithful.call (h : x.Faithful trace) (k : Core.Call × (σ → σ)) :
    (x.call k).Faithful trace := by
  obtain ⟨k, edit⟩ := k
  cases k with
  | tick => exact h.tick (edit x.memory)
  | runInstruction =>
    have hadvance := h.advance x.core.phase.distance (edit x.memory)
    rw [Core.advance_beat_eq] at hadvance
    exact hadvance

end Chronicle

/-- From a reset on, whatever is called for over a changing memory, the log tells each tick's cycle,
phase and retirement without a gap. -/
theorem chronicle_faithful {σ : Type} [Memory σ] :
    (∀ s, (Core.ofSettings s).reset = .ofSettings s) ∧
    (∀ (c : Core) (m : σ) (calls : List (Core.Call × (σ → σ))),
      (calls.foldl Chronicle.call ⟨c.reset, m, [], []⟩).Faithful c.traceInstructions) ∧
    ∀ (c : Core) (m : σ) (k : Core.Call), ∃ us u, c.callTurns m k = us ++ [u] ∧
      (∀ v ∈ us, v.2.result = .ok .running) ∧ (c.call m k).outcome = u.2.outcome := by
  refine ⟨fun _ => rfl, fun c m calls => ?_, fun c m k => ?_⟩
  · exact List.foldlRecOn calls Chronicle.call (.start c m) fun _ h k _ => h.call k
  · cases k with
    | tick => exact ⟨[], _, rfl, by simp, rfl⟩
    | runInstruction =>
      have hdone := c.runInstruction_ne_running m
      rw [← Tick.outcome_fst, Core.outcome_runInstruction] at hdone
      obtain ⟨us, u, hturns, hus, hu⟩ := Core.exists_last_turn hdone
      exact ⟨us, u, hturns, hus, (c.outcome_runInstruction m).trans hu⟩

/-- A load called for again once its word is there, up to the end of the program. -/
theorem chronicle_faithful_retry :
    let c : Core := .ofSettings { general := { traceInstructions := true } }
    let calls : List (Core.Call × (Harvard → Harvard)) :=
      [(.tick, id), (.runInstruction, id), (.runInstruction, (·.poke 0x40 9)),
        (.runInstruction, id)]
    let x := calls.foldl Chronicle.call ⟨c.reset, .ofProgram [0x04002503] none, [], []⟩
    x.turns.map (·.2.result) =
        [.ok .running, .ok .running, .ok .running, .error (.memory (.unpopulated 0x40)),
          .ok .running, .ok (.retired ⟨0, 0x04002503, .load, 4, none⟩), .ok .halted] ∧
      (readings x.log).map (·.cycle) = [0, 1, 2, 3, 4] ∧
      x.log[5]? = some (.retired ⟨0, 0x04002503, .load, 4, none⟩) ∧
      ∃ k, x.log[4]? = some (Reading.event k) ∧ k.next = .fetch := by
  intro c calls x
  obtain ⟨-, hfaithful, -⟩ := chronicle_faithful (σ := Harvard)
  have hx := hfaithful c (.ofProgram [0x04002503] none) calls
  change x.Faithful true at hx
  have hcycle : x.core.cycle = 5 := by
    subst x calls c
    rfl
  have hretired : x.log[5]? = some (.retired ⟨0, 0x04002503, .load, 4, none⟩) := by
    subst x calls c
    rfl
  have hcycles := hx.cycles
  rw [hcycle] at hcycles
  obtain ⟨-, j, k, hj, hk, hnext⟩ := (hx.marked 5).mp ⟨_, hretired⟩
  cases hj
  refine ⟨?_, hcycles, hretired, k, hk, hnext⟩
  subst x calls c
  rfl

end Multicycle
