import Multicycle.Proofs.Walks

/-! A memory that keeps a record of its calls. A core that runs over it does as it does without. -/
namespace Multicycle

/-- A call to a memory, and its answer. -/
structure Exchange where
  request : Request
  answer : Except MemoryFault Reply

/-- What goes on record of a request and its answer: an idle one makes no call. -/
def Request.entry (r : Request) (answer : Except MemoryFault Reply) : List Exchange :=
  if r = .idle then [] else [⟨r, answer⟩]

/-- A memory with the calls it has had, the latest at the end. -/
structure Recorded (σ : Type) where
  memory : σ
  exchanges : List Exchange := []

namespace Recorded

variable {σ : Type}

/-- Changes that the memory's owner makes are no calls. -/
def edit (f : σ → σ) (x : Recorded σ) : Recorded σ := { x with memory := f x.memory }

variable [Memory σ]

instance : Memory (Recorded σ) where
  fetch x a :=
    let (w, m) := Memory.fetch x.memory a
    (w, ⟨m, x.exchanges ++ [⟨.fetch a, .ok (.fetched w)⟩]⟩)
  load x a :=
    let (v, m) := Memory.load x.memory a
    (v, ⟨m, x.exchanges ++ [⟨.load a, v.map .loaded⟩]⟩)
  store x a v :=
    let (u, m) := Memory.store x.memory a v
    (u, ⟨m, x.exchanges ++ [⟨.store a v, u.map fun _ => .done⟩]⟩)

theorem serve_eq (r : Request) (x : Recorded σ) :
    r.serve x = ((r.serve x.memory).1,
      ⟨(r.serve x.memory).2, x.exchanges ++ r.entry (r.serve x.memory).1⟩) := by
  cases r with
  | idle => simp [Request.serve, Request.entry]
  | fetch a | load a | store a v => rfl

end Recorded

namespace Walk

variable {σ : Type}

/-- A run without the record of its calls. -/
def unrecorded (y : Walk (Recorded σ)) : Walk σ := ⟨y.core, y.memory.memory, y.visits⟩

end Walk

namespace Attempt

variable {σ α β : Type}

/-- `x` never makes more than `n` calls. -/
def Calls (x : Attempt (Recorded σ) α) (n : Nat) : Prop :=
  ∀ r, (x r).2.exchanges.length ≤ r.exchanges.length + n

variable {x : Attempt (Recorded σ) α} {f : α → Attempt (Recorded σ) β} {n k : Nat}

theorem calls_pure (a : α) : Calls (pure a : Attempt (Recorded σ) α) 0 := fun _ => Nat.le_refl _

theorem Calls.bind (hx : Calls x n) (hf : ∀ a, Calls (f a) k) : Calls (x >>= f) (n + k) := by
  intro r
  have hfirst := hx r
  rcases h : x r with ⟨_ | a, r'⟩
  · rw [h] at hfirst
    rw [bind_of_error h]
    exact Nat.le_trans hfirst (by omega)
  · have hrest := hf a r'
    rw [h] at hfirst
    dsimp only at hfirst
    rw [bind_of_ok h]
    omega

variable [Memory σ]

theorem calls_fetch (s : Signals) (pc : Word) :
    Calls (fetch s pc : Attempt (Recorded σ) _) s.irWrite.toNat := by
  intro r
  cases h : s.irWrite with
  | false => simp [fetch_idle h]
  | true => cases hm : (Memory.fetch r.memory pc).1 <;> simp [fetch, h, Memory.fetch, hm]

theorem calls_load (d : Datapath) :
    Calls (load d : Attempt (Recorded σ) _) d.signals.memRead.toNat := by
  intro r
  cases h : d.signals.memRead with
  | false => simp [load_idle h]
  | true => cases hm : (Memory.load r.memory d.address).1 <;> simp [load, h, Memory.load, hm]

theorem calls_store (d : Datapath) (fetched loaded : Option Word) :
    Calls (store (d.evaluate fetched loaded) : Attempt (Recorded σ) _) d.signals.memWrite.toNat := by
  intro r
  cases h : d.signals.memWrite with
  | false => simp [Datapath.store_idle h]
  | true =>
    have hk : (d.evaluate fetched loaded).memWrite = some (d.address, d.latches.b) := if_pos h
    cases hm : (Memory.store r.memory d.address d.latches.b).1 <;>
      simp [store, hk, Memory.store, hm]

theorem calls_datapath (d : Datapath) :
    Calls (d.calls : Attempt (Recorded σ) _)
      (d.signals.irWrite.toNat + (d.signals.memRead.toNat + (d.signals.memWrite.toNat + 0))) :=
  (calls_fetch _ _).bind fun _ => (calls_load d).bind fun _ => (calls_store d _ _).bind fun _ =>
    calls_pure _

end Attempt

namespace Core

variable {σ : Type} [Memory σ] {c : Core} {m : σ}

/-- Each call needs a signal of its own, and the signals of a phase enable at most one. -/
theorem length_exchanges_tick_le (c : Core) (x : Recorded σ) :
    (c.tick x).memory.exchanges.length ≤ x.exchanges.length + 1 := by
  rw [memory_tick]
  cases hp : c.plan with
  | error f =>
    rw [attempt_of_plan_error hp]
    exact Nat.le_succ _
  | ok p =>
    obtain ⟨s, hs, hd, -, -⟩ := plan_eq_ok hp
    obtain ⟨-, -, rfl, -⟩ := Datapath.wire_eq_ok hd
    obtain ⟨hf, hr, hw⟩ := Signals.enables_of_signals hs
    have hone : p.datapath.signals.irWrite.toNat + (p.datapath.signals.memRead.toNat +
        (p.datapath.signals.memWrite.toNat + 0)) ≤ 1 := by
      rw [hf, hr, hw]
      cases c.phase <;> decide
    have hcalls := (Attempt.calls_datapath p.datapath).bind (fun k => Attempt.calls_pure (p, k)) x
    rw [attempt_of_plan hp]
    exact Nat.le_trans hcalls (Nat.add_le_add_left hone _)

/-- The calls that a tick makes. -/
def exchanges (c : Core) (m : σ) : List Exchange := (c.tick (⟨m, []⟩ : Recorded σ)).memory.exchanges

theorem length_exchanges_le (c : Core) (m : σ) : (c.exchanges m).length ≤ 1 := by
  have h := c.length_exchanges_tick_le (⟨m, []⟩ : Recorded σ)
  rwa [List.length_nil, Nat.zero_add] at h

theorem exchanges_of_plan {p : Plan} (hp : c.plan = .ok p) :
    c.exchanges m = c.request.entry (c.request.serve m).1 := by
  rw [exchanges, memory_tick_of_plan hp, Recorded.serve_eq]
  rfl

theorem exchanges_of_plan_error {f : Fault} (hp : c.plan = .error f) : c.exchanges m = [] := by
  rw [exchanges, tick_of_plan_error hp]

theorem exchanges_of_halted (h : (c.tick m).result = .ok .halted) :
    c.exchanges m = [⟨.fetch c.latches.pc, .ok (.fetched none)⟩] := by
  obtain ⟨hp, hw⟩ := fetch_of_halted h
  have hplan : ∃ p, c.plan = .ok p := ⟨_, by rw [plan, hp]; rfl⟩
  obtain ⟨p, hplan⟩ := hplan
  rw [exchanges_of_plan hplan, request, hp]
  simp [Request.entry, Request.serve, hw]

theorem tick_recorded (c : Core) (x : Recorded σ) :
    let t := c.tick x.memory
    c.tick x = ⟨t.result, t.core, ⟨t.memory, x.exchanges ++ c.exchanges x.memory⟩, t.events⟩ := by
  cases c.ends x.memory with
  | rejected hp ht => rw [ht, tick_of_plan_error hp, exchanges_of_plan_error hp, List.append_nil]
  | denied hp hr ht =>
    have hs := Recorded.serve_eq c.request x
    rw [ht, exchanges_of_plan hp]
    rw [hr] at hs ⊢
    exact tick_of_denied hp hs
  | ended hp hr ht =>
    have hs := Recorded.serve_eq c.request x
    rw [ht, exchanges_of_plan hp]
    rw [hr] at hs ⊢
    exact tick_of_end hp hs
  | committed hp hr hne ht =>
    have hs := Recorded.serve_eq c.request x
    rw [ht, exchanges_of_plan hp]
    rw [hr] at hs ⊢
    exact tick_of_reply hp hs hne

/-- Ticks in a row, with an edit by the memory's owner before each. No outcome ends them. -/
def walk (c : Core) (m : σ) (edits : List (σ → σ)) : Walk σ := edits.foldl Walk.tick ⟨c, m, []⟩

theorem walk_concat (c : Core) (m : σ) (edits : List (σ → σ)) (edit : σ → σ) :
    c.walk m (edits ++ [edit]) = (c.walk m edits).tick edit := by
  simp only [walk, List.foldl_append, List.foldl_cons, List.foldl_nil]

/-- The same ticks, with the calls on record. -/
def recorded (c : Core) (m : σ) (edits : List (σ → σ)) : Walk (Recorded σ) :=
  c.walk ⟨m, []⟩ (edits.map Recorded.edit)

theorem recorded_concat (c : Core) (m : σ) (edits : List (σ → σ)) (edit : σ → σ) :
    c.recorded m (edits ++ [edit]) = (c.recorded m edits).tick (Recorded.edit edit) := by
  rw [recorded, List.map_append, List.map_singleton, walk_concat, recorded]

end Core

namespace Walk

variable {σ : Type} [Memory σ]

theorem unrecorded_tick (y : Walk (Recorded σ)) (edit : σ → σ) :
    (y.tick (Recorded.edit edit)).unrecorded = y.unrecorded.tick edit := by
  simp only [unrecorded, tick, Core.tick_recorded, Recorded.edit]

theorem exchanges_tick (y : Walk (Recorded σ)) (edit : σ → σ) :
    (y.tick (Recorded.edit edit)).memory.exchanges =
      y.memory.exchanges ++ y.core.exchanges (edit y.memory.memory) := by
  simp only [tick, Core.tick_recorded, Recorded.edit]

end Walk

theorem Core.unrecorded_recorded {σ : Type} [Memory σ] (c : Core) (m : σ) (edits : List (σ → σ)) :
    (c.recorded m edits).unrecorded = c.walk m edits := by
  induction edits using List.reverseRecOn with
  | nil => rfl
  | append_singleton edits edit ih =>
    rw [recorded_concat, walk_concat, Walk.unrecorded_tick, ih]

end Multicycle
