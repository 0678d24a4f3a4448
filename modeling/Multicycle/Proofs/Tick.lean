import Multicycle.Core.Tick

/-! One tick taken apart: how it can end, what it asks of the memory, and the state that each phase
leaves behind. -/
namespace Multicycle

/-- An access to a memory, if any. -/
inductive Request where
  | idle
  | fetch (address : Word)
  | load (address : Word)
  | store (address value : Word)
  deriving DecidableEq, Repr

inductive Reply where
  | done
  | fetched (word : Option Word)
  | loaded (word : Word)
  deriving DecidableEq, Repr

namespace Request

def serve {σ : Type} [Memory σ] (r : Request) (m : σ) : Except MemoryFault Reply × σ :=
  match r with
  | idle => (.ok .done, m)
  | fetch a => let (w, m) := Memory.fetch m a; (.ok (.fetched w), m)
  | load a => let (w, m) := Memory.load m a; (w.map .loaded, m)
  | store a v => let (u, m) := Memory.store m a v; (u.map fun _ => .done, m)

end Request

namespace Reply

def fetched? : Reply → Option Word
  | fetched w => w
  | _ => none

def loaded? : Reply → Option Word
  | loaded w => some w
  | _ => none

end Reply

namespace Datapath

/-- The access that the signals ask for. -/
def request (d : Datapath) : Request :=
  if d.signals.irWrite then .fetch d.latches.pc
  else if d.signals.memRead then .load d.address
  else if d.signals.memWrite then .store d.address d.latches.b
  else .idle

end Datapath

namespace Plan

def commit (p : Plan) (reply : Reply) : Commit := p.datapath.evaluate reply.fetched? reply.loaded?

end Plan

namespace Attempt

variable {σ α β : Type} {x : Attempt σ α} {f : α → Attempt σ β} {m m' : σ}

theorem bind_of_ok {a : α} (h : x m = (.ok a, m')) : (x >>= f) m = f a m' := by
  simp only [bind, h]

theorem bind_of_error {r : Except Fault Status} (h : x m = (.error r, m')) :
    (x >>= f) m = (.error r, m') := by
  simp only [bind, h]

instance : LawfulMonad (Attempt σ) :=
  LawfulMonad.mk' _
    (fun x => by
      funext m
      rcases h : x m with ⟨_ | _, _⟩ <;> simp only [Functor.map, h, Function.comp, id])
    (fun _ _ => rfl)
    (fun x _ _ => by
      funext m
      rcases h : x m with ⟨_ | _, _⟩ <;> simp only [bind, h])

theorem check_ok (a : α) : (check (.ok a) : Attempt σ α) = pure a := rfl

theorem check_bind {y : Except Fault α} {a : α} (h : y = .ok a) : (check y >>= f) m = f a m :=
  bind_of_ok (by rw [h]; rfl)

theorem check_bind_error {y : Except Fault α} {e : Fault} (h : y = .error e) :
    (check y >>= f) m = (.error (.error e), m) := bind_of_error (by rw [h]; rfl)

variable [Memory σ] {s : Signals} {d : Datapath} {k : Commit}

theorem fetch_idle {pc : Word} (h : s.irWrite = false) : fetch s pc m = (.ok none, m) := by
  simp only [fetch, h]
  rfl

theorem load_idle (h : d.signals.memRead = false) : load d m = (.ok none, m) := by
  simp only [load, h]
  rfl

theorem store_idle (h : k.memWrite = none) : store k m = (.ok (), m) := by
  simp only [store, h]

end Attempt

/-- A tick without its events. -/
def Tick.outcome {σ : Type} (t : Tick σ) : Except Fault Status × Core × σ :=
  (t.result, t.core, t.memory)

theorem Tick.outcome_fst {σ : Type} (t : Tick σ) : t.outcome.1 = t.result := rfl

/-- Nothing comes of a tick that halts or fails. -/
def Stalls (r : Except Fault Status) : Prop := r = .ok .halted ∨ ∃ f, r = .error f

@[simp] theorem stalls_ok_iff {s : Status} : Stalls (.ok s) ↔ s = .halted := by simp [Stalls]

namespace Signals

variable {p : Phase} {w : Instruction} {s : Signals}

theorem enables_of_signals (h : p.signals w = .ok s) :
    s.irWrite = (p == .fetch) ∧ s.memRead = (p == .memRead) ∧ s.memWrite = (p == .memWrite) := by
  cases p with
  | decode =>
    obtain ⟨op, -, rfl⟩ := map_eq_ok_iff.mp h
    cases op <;> exact ⟨rfl, rfl, rfl⟩
  | executeImm | executeReg | branch =>
    obtain ⟨_, -, rfl⟩ := map_eq_ok_iff.mp h
    exact ⟨rfl, rfl, rfl⟩
  | _ =>
    cases h
    exact ⟨rfl, rfl, rfl⟩

/-- At most one access is enabled at a time. -/
theorem alone_of_signals (h : p.signals w = .ok s) :
    (s.irWrite = true → s.memRead = false ∧ s.memWrite = false) ∧
      (s.memRead = true → s.memWrite = false) := by
  obtain ⟨hf, hr, hw⟩ := enables_of_signals h
  rw [hf, hr, hw]
  cases p <;> decide

end Signals

namespace Datapath

variable {l : Latches} {f : Register.File} {s : Signals} {d : Datapath}

theorem wire_eq_ok (h : wire l f s = .ok d) :
    d.latches = l ∧ d.registers = f ∧ d.signals = s ∧
      (s.usesImmediate = true → l.instr.immediate = .ok d.immediate) := by
  unfold wire at h
  split at h
  · obtain ⟨imm, hi, rfl⟩ := map_eq_ok_iff.mp h
    exact ⟨rfl, rfl, rfl, fun _ => hi⟩
  · next hu =>
    cases h
    exact ⟨rfl, rfl, rfl, fun hu' => absurd hu' hu⟩

variable {σ : Type} [Memory σ] {m m' : σ}

/-- The calls to the memory in one tick, each made where the signals enable it. -/
def calls (d : Datapath) : Attempt σ Commit := do
  let fetched ← .fetch d.signals d.latches.pc
  let loaded ← .load d
  .store (d.evaluate fetched loaded)
  return d.evaluate fetched loaded

/-- What the calls come to, once the memory has answered the one that is made. -/
def settle (d : Datapath) : Except MemoryFault Reply → Except (Except Fault Status) Commit
  | .error e => .error (.error (.memory e))
  | .ok (.fetched none) => .error (.ok .halted)
  | .ok reply => .ok (d.evaluate reply.fetched? reply.loaded?)

theorem store_idle (h : d.signals.memWrite = false) (fetched loaded : Option Word) :
    Attempt.store (d.evaluate fetched loaded) m = (.ok (), m) :=
  Attempt.store_idle (by simp [evaluate, h])

theorem calls_fetching (hf : d.signals.irWrite = true) (hr : d.signals.memRead = false)
    (hw : d.signals.memWrite = false) :
    d.calls m =
      (d.settle ((Request.fetch d.latches.pc).serve m).1, ((Request.fetch d.latches.pc).serve m).2) := by
  unfold calls
  rcases hm : Memory.fetch m d.latches.pc with ⟨_ | w, m'⟩
  · have hcall : Attempt.fetch d.signals d.latches.pc m = (.error (.ok .halted), m') := by
      simp only [Attempt.fetch, hf, hm]
      rfl
    rw [Attempt.bind_of_error hcall, Request.serve, hm]
    rfl
  · have hcall : Attempt.fetch d.signals d.latches.pc m = (.ok (some w), m') := by
      simp only [Attempt.fetch, hf, hm]
      rfl
    rw [Attempt.bind_of_ok hcall, Attempt.bind_of_ok (Attempt.load_idle hr),
      Attempt.bind_of_ok (store_idle hw _ _), Request.serve, hm]
    rfl

theorem calls_loading (hf : d.signals.irWrite = false) (hr : d.signals.memRead = true)
    (hw : d.signals.memWrite = false) :
    d.calls m =
      (d.settle ((Request.load d.address).serve m).1, ((Request.load d.address).serve m).2) := by
  unfold calls
  rw [Attempt.bind_of_ok (Attempt.fetch_idle hf)]
  rcases hm : Memory.load m d.address with ⟨e | v, m'⟩
  · have hcall : Attempt.load d m = (.error (.error (.memory e)), m') := by
      simp only [Attempt.load, hr, hm]
      rfl
    rw [Attempt.bind_of_error hcall, Request.serve, hm]
    rfl
  · have hcall : Attempt.load d m = (.ok (some v), m') := by
      simp only [Attempt.load, hr, hm]
      rfl
    rw [Attempt.bind_of_ok hcall, Attempt.bind_of_ok (store_idle hw _ _), Request.serve, hm]
    rfl

theorem calls_storing (hf : d.signals.irWrite = false) (hr : d.signals.memRead = false)
    (hw : d.signals.memWrite = true) :
    d.calls m = (d.settle ((Request.store d.address d.latches.b).serve m).1,
      ((Request.store d.address d.latches.b).serve m).2) := by
  have hk : (d.evaluate none none).memWrite = some (d.address, d.latches.b) := if_pos hw
  unfold calls
  rw [Attempt.bind_of_ok (Attempt.fetch_idle hf), Attempt.bind_of_ok (Attempt.load_idle hr)]
  rcases hm : Memory.store m d.address d.latches.b with ⟨e | u, m'⟩
  · have hcall : Attempt.store (d.evaluate none none) m = (.error (.error (.memory e)), m') := by
      simp only [Attempt.store, hk, hm]
    rw [Attempt.bind_of_error hcall, Request.serve, hm]
    rfl
  · have hcall : Attempt.store (d.evaluate none none) m = (.ok (), m') := by
      simp only [Attempt.store, hk, hm]
    rw [Attempt.bind_of_ok hcall, Request.serve, hm]
    rfl

/-- The calls are the one request that the signals make. -/
theorem calls_eq {w : Instruction} {p : Phase} (h : p.signals w = .ok d.signals) (m : σ) :
    d.calls m = (d.settle (d.request.serve m).1, (d.request.serve m).2) := by
  obtain ⟨hfetch, hread⟩ := Signals.alone_of_signals h
  unfold request
  split
  · next hf => exact calls_fetching hf (hfetch hf).1 (hfetch hf).2
  · next hf =>
    have hf := Bool.eq_false_iff.mpr hf
    split
    · next hr => exact calls_loading hf hr (hread hr)
    · next hr =>
      have hr := Bool.eq_false_iff.mpr hr
      split
      · next hw => exact calls_storing hf hr hw
      · next hw =>
        unfold calls
        rw [Attempt.bind_of_ok (Attempt.fetch_idle hf), Attempt.bind_of_ok (Attempt.load_idle hr),
          Attempt.bind_of_ok (store_idle (Bool.eq_false_iff.mpr hw) _ _)]
        rfl

end Datapath

namespace Request

variable {σ : Type} [Memory σ] [Memory.Steady σ] {m m' : σ}

theorem serve_read_keeps {r : Request} (h : ∀ a v, r ≠ .store a v) : (r.serve m).2 = m := by
  cases r with
  | idle => rfl
  | fetch a => exact Memory.Steady.fetch_keeps m a
  | load a => exact Memory.Steady.load_keeps m a
  | store a v => exact absurd rfl (h a v)

theorem store_serve_keeps {a v : Word} {e : MemoryFault} (h : ((store a v).serve m).1 = .error e) :
    ((store a v).serve m).2 = m := by
  simp only [serve] at h ⊢
  cases hs : (Memory.store m a v).1 with
  | error e' => exact Memory.Steady.store_keeps m a v hs
  | ok u => simp [hs, Except.map] at h

theorem serve_keeps {r : Request} {answer : Except MemoryFault Reply}
    (hr : r.serve m = (answer, m')) (h : answer ≠ .ok .done) : m' = m := by
  cases hs : r with
  | store a v =>
    subst hs
    cases answer with
    | error e =>
      have hk := store_serve_keeps (congrArg Prod.fst hr)
      rw [hr] at hk
      exact hk
    | ok reply =>
      have ha := congrArg Prod.fst hr
      obtain ⟨u, -, hu⟩ := map_eq_ok_iff.mp ha
      exact absurd (congrArg Except.ok hu.symm) h
  | _ =>
    have hk := serve_read_keeps (m := m) (r := r) (by rw [hs]; simp)
    rw [hr] at hk
    exact hk

end Request

namespace Core

variable {σ : Type} [Memory σ] {c : Core} {m m' : σ} {p : Plan} {op : Opcode}

/-- What the phase asks of the memory. -/
def request (c : Core) : Request :=
  match c.phase with
  | .fetch => .fetch c.latches.pc
  | .memRead => .load c.latches.aluOut
  | .memWrite => .store c.latches.aluOut c.latches.b
  | _ => .idle

/-- What the core decides in a tick, its calls to the memory left out. -/
def plan (c : Core) : Except Fault Plan := do
  let signals ← c.phase.signals c.latches.instr
  let datapath ← Datapath.wire c.latches c.registers signals
  let next ← c.phase.next c.latches.instr
  let retiring ← c.retiring next
  return ⟨datapath, next, retiring⟩

theorem plan_eq_ok (h : c.plan = .ok p) :
    ∃ s, c.phase.signals c.latches.instr = .ok s ∧
      Datapath.wire c.latches c.registers s = .ok p.datapath ∧
      c.phase.next c.latches.instr = .ok p.next ∧
      c.retiring p.next = .ok p.retiring := by
  simp only [plan, bind_eq_ok_iff] at h
  obtain ⟨s, hs, d, hd, q, hq, r, hr, h⟩ := h
  cases h
  exact ⟨s, hs, hd, hq, hr⟩

theorem plan_of_signals_error {f : Fault} (h : c.phase.signals c.latches.instr = .error f) :
    c.plan = .error f := by
  rw [plan, h]
  rfl

theorem retiring_eq_none_iff (h : c.plan = .ok p) : p.retiring = none ↔ p.next ≠ .fetch := by
  obtain ⟨_, _, _, _, hr⟩ := plan_eq_ok h
  simp only [retiring] at hr
  split at hr
  · next hf =>
    obtain ⟨op, _, ho⟩ := map_eq_ok_iff.mp hr
    simp [← ho, hf]
  · next hf =>
    simp [← Except.ok.inj hr, hf]

theorem request_of_plan (h : c.plan = .ok p) : p.datapath.request = c.request := by
  obtain ⟨s, hs, hd, -, -⟩ := plan_eq_ok h
  obtain ⟨hl, -, rfl, -⟩ := Datapath.wire_eq_ok hd
  obtain ⟨hf, hr, hw⟩ := Signals.enables_of_signals hs
  unfold Datapath.request request
  rw [hf, hr, hw, hl]
  cases hp : c.phase with
  | memRead | memWrite =>
    rw [hp] at hs
    have ha : p.datapath.address = c.latches.aluOut := by
      simp [Datapath.address, Datapath.result, ← Except.ok.inj hs, hl]
    simp [ha]
  | _ => rfl

/-- In a phase that reads the memory, nothing else can go wrong. -/
theorem reads_idle_of_plan_error {f : Fault} {s : Signals} (h : c.plan = .error f)
    (hs : c.phase.signals c.latches.instr = .ok s) : s.irWrite = false ∧ s.memRead = false := by
  obtain ⟨hf, hr, -⟩ := Signals.enables_of_signals hs
  have hfetch : c.phase ≠ .fetch := by
    intro hp
    rw [plan, hp] at h
    cases h
  have hload : c.phase ≠ .memRead := by
    intro hp
    rw [plan, hp] at h
    cases h
  rw [hf, hr]
  simp [hfetch, hload]

/-- A tick that cannot be planned fails before it has called the memory. -/
theorem attempt_of_plan_error {f : Fault} (h : c.plan = .error f) :
    c.attempt m = (.error (.error f), m) := by
  have hreads := fun s => reads_idle_of_plan_error (s := s) h
  simp only [plan, bind_eq_error_iff] at h
  unfold attempt
  rcases h with hs | ⟨s, hs, h⟩
  · exact Attempt.check_bind_error hs
  obtain ⟨hfetch, hload⟩ := hreads s hs
  rw [Attempt.check_bind hs, Attempt.bind_of_ok (Attempt.fetch_idle hfetch)]
  rcases h with hd | ⟨d, hd, h⟩
  · exact Attempt.check_bind_error hd
  obtain ⟨-, -, rfl, -⟩ := Datapath.wire_eq_ok hd
  rw [Attempt.check_bind hd, Attempt.bind_of_ok (Attempt.load_idle hload)]
  rcases h with hq | ⟨q, hq, h⟩
  · exact Attempt.check_bind_error hq
  rw [Attempt.check_bind hq]
  rcases h with hr | ⟨r, hr, h⟩
  · exact Attempt.check_bind_error hr
  · cases h

theorem attempt_of_plan (h : c.plan = .ok p) :
    (c.attempt : Attempt σ _) = do return (p, ← p.datapath.calls) := by
  obtain ⟨s, hs, hd, hq, hr⟩ := plan_eq_ok h
  obtain ⟨hl, -, rfl, -⟩ := Datapath.wire_eq_ok hd
  simp only [attempt, Datapath.calls, hs, hd, hq, hr, hl, Attempt.check_ok, pure_bind, bind_assoc]

/-- The memory is asked what the phase asks of it, and the tick comes to what it answers. -/
theorem attempt_of_serve {answer : Except MemoryFault Reply} (h : c.plan = .ok p)
    (hr : c.request.serve m = (answer, m')) :
    c.attempt m = ((p.datapath.settle answer).map (p, ·), m') := by
  obtain ⟨s, hs, hd, -, -⟩ := plan_eq_ok h
  obtain ⟨-, -, rfl, -⟩ := Datapath.wire_eq_ok hd
  have hcalls := Datapath.calls_eq hs m
  rw [request_of_plan h, hr] at hcalls
  rw [attempt_of_plan h]
  cases hsettle : p.datapath.settle answer with
  | error r =>
    rw [hsettle] at hcalls
    exact Attempt.bind_of_error hcalls
  | ok k =>
    rw [hsettle] at hcalls
    exact Attempt.bind_of_ok hcalls

/-- The four ways for a tick to end. All but the last leave the core as it was. -/
inductive Ends (c : Core) (m : σ) (t : Tick σ) : Prop where
  | rejected {f : Fault} (plan : c.plan = .error f) (tick : t = ⟨.error f, c, m, []⟩)
  | denied {p : Plan} {e : MemoryFault} {m' : σ} (plan : c.plan = .ok p)
      (reply : c.request.serve m = (.error e, m')) (tick : t = ⟨.error (.memory e), c, m', []⟩)
  | ended {p : Plan} {m' : σ} (plan : c.plan = .ok p)
      (reply : c.request.serve m = (.ok (.fetched none), m')) (tick : t = ⟨.ok .halted, c, m', []⟩)
  | committed {p : Plan} {r : Reply} {m' : σ} (plan : c.plan = .ok p)
      (reply : c.request.serve m = (.ok r, m')) (ne : r ≠ .fetched none)
      (tick : t = ⟨.ok (c.status p (p.commit r)), c.commit p.next (p.commit r), m',
        c.events p (p.commit r)⟩)

theorem memory_tick (c : Core) (m : σ) : (c.tick m).memory = (c.attempt m).2 := by
  unfold tick
  split <;> simp [*]

theorem tick_of_plan_error {f : Fault} (h : c.plan = .error f) :
    c.tick m = ⟨.error f, c, m, []⟩ := by
  simp only [tick, attempt_of_plan_error h]

theorem tick_of_denied {e : MemoryFault} (hp : c.plan = .ok p)
    (hr : c.request.serve m = (.error e, m')) : c.tick m = ⟨.error (.memory e), c, m', []⟩ := by
  simp only [tick, attempt_of_serve hp hr, Datapath.settle, Except.map]

theorem tick_of_end (hp : c.plan = .ok p) (hr : c.request.serve m = (.ok (.fetched none), m')) :
    c.tick m = ⟨.ok .halted, c, m', []⟩ := by
  simp only [tick, attempt_of_serve hp hr, Datapath.settle, Except.map]

theorem tick_of_reply {r : Reply} (hp : c.plan = .ok p)
    (hr : c.request.serve m = (.ok r, m')) (hne : r ≠ .fetched none) :
    c.tick m = ⟨.ok (c.status p (p.commit r)), c.commit p.next (p.commit r), m',
      c.events p (p.commit r)⟩ := by
  have hsettle : p.datapath.settle (.ok r) = .ok (p.commit r) := by
    unfold Datapath.settle
    split
    · next h => cases h
    · next h => exact absurd (Except.ok.inj h) hne
    · next h =>
      cases h
      rfl
  simp only [tick, attempt_of_serve hp hr, hsettle, Except.map]

theorem ends (c : Core) (m : σ) : Ends c m (c.tick m) := by
  cases hp : c.plan with
  | error f => exact .rejected hp (tick_of_plan_error hp)
  | ok p =>
    rcases hr : c.request.serve m with ⟨e | r, m'⟩
    · exact .denied hp hr (tick_of_denied hp hr)
    · by_cases hne : r = .fetched none
      · subst hne
        exact .ended hp hr (tick_of_end hp hr)
      · exact .committed hp hr hne (tick_of_reply hp hr hne)

theorem memory_tick_of_plan (hp : c.plan = .ok p) : (c.tick m).memory = (c.request.serve m).2 := by
  cases c.ends m with
  | rejected hp' _ =>
    rw [hp] at hp'
    cases hp'
  | denied _ hr ht | ended _ hr ht | committed _ hr _ ht => rw [ht, hr]

theorem distance_tick_lt (h : (c.tick m).result = .ok .running) :
    (c.tick m).core.phase.distance < c.phase.distance := by
  cases c.ends m with
  | rejected _ ht | denied _ _ ht | ended _ _ ht => simp [ht] at h
  | committed hp _ _ ht =>
    obtain ⟨_, _, _, hnext, _⟩ := plan_eq_ok hp
    rw [ht] at h ⊢
    refine Phase.distance_next_lt hnext ((retiring_eq_none_iff hp).mp ?_)
    cases hr : Plan.retiring _ with
    | none => rfl
    | some op => simp [status, hr] at h

/-- A tick as a step of the loop, its events left out. -/
def bareBeat (x : Core × σ) : Except Fault Status × Core × σ := (x.1.tick x.2).outcome

theorem outcome_runInstruction (c : Core) (m : σ) :
    (c.runInstruction m).outcome = advance bareBeat c.phase.distance (c, m) :=
  (advance_map (f := fun x : Core × σ × List Event => (x.1, x.2.1)) (fun _ => rfl)
    c.phase.distance (c, m, [])).symm

/-- Events from before have no part in what the loop does. -/
theorem advance_beat_eq (n : Nat) (c : Core) (m : σ) (es : List Event) :
    advance beat n (c, m, es) =
      let x := advance beat n (c, m, [])
      (x.1, x.2.1, x.2.2.1, es ++ x.2.2.2) := by
  let after (x : Core × σ × List Event) := (x.1, x.2.1, es ++ x.2.2)
  have hbeat (x : Core × σ × List Event) : beat (after x) = ((beat x).1, after (beat x).2) := by
    simp [after, beat]
  have h := advance_map hbeat n (c, m, [])
  simp only [after, List.append_nil] at h
  exact h

theorem runInstruction_ne_running (c : Core) (m : σ) :
    (c.runInstruction m).result ≠ .ok .running := by
  have hloop : (advance bareBeat c.phase.distance (c, m)).1 ≠ .ok .running :=
    advance_ne_running (fun x => x.1.phase.distance_pos) (fun _ => distance_tick_lt)
      (Nat.le_refl c.phase.distance)
  rwa [← outcome_runInstruction] at hloop

theorem not_stalls_status (k : Commit) : ¬ Stalls (.ok (c.status p k)) := by
  rintro (h | ⟨f, h⟩)
  · cases hr : p.retiring <;> simp [status, hr] at h
  · cases h

end Core

end Multicycle
