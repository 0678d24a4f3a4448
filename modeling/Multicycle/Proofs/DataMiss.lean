import Multicycle.Proofs.Runs

/-! A run that misses a data word goes on, once it has the word, as if the word had been there from
the start. -/
namespace Multicycle

namespace Harvard

variable {m : Harvard} {a b v w : Word}

theorem poke_comm (hab : a ≠ b) : (m.poke a v).poke b w = (m.poke b w).poke a v := by
  simp only [poke, mk.injEq, true_and, and_true]
  apply Std.ExtTreeMap.ext_getElem?
  intro k
  grind

theorem load_poke_of_ne (hab : a ≠ b) : (m.poke a v).load b = m.load b := by
  simp only [load, peek?_poke, if_neg hab]

theorem load_of_unpopulated (ha : m.peek? a = none) : m.load a = .error (.unpopulated a) := by
  simp only [load, ha]

theorem peek?_of_load (h : m.load b = .error (.unpopulated a)) : m.peek? a = none := by
  unfold load at h
  split at h
  · cases h
  · next hb =>
    cases h
    exact hb

theorem store_of_unbounded (hm : m.capacity = none) : m.store b w = .ok (m.poke b w) := by
  simp [store, fullAt, hm]

/-- An access that neither asks for the missing word at `a` nor puts it there is as with it. -/
theorem serve_poke {r : Request} (hcap : m.capacity = none) (ha : (r.serve m).2.peek? a = none)
    (hmiss : (r.serve m).1 ≠ .error (.unpopulated a)) :
    r.serve (m.poke a v) = ((r.serve m).1, (r.serve m).2.poke a v) := by
  cases r with
  | idle => rfl
  | fetch b => rfl
  | load b =>
    have hab : a ≠ b := by
      rintro rfl
      have hl : m.load a = .error (.unpopulated a) := load_of_unpopulated ha
      exact hmiss (by simp only [Request.serve, Memory.load, hl, Except.map])
    simp only [Request.serve, Memory.load, load_poke_of_ne hab]
  | store b w =>
    have hp : (m.poke a v).capacity = none := hcap
    simp only [Request.serve, Memory.store, store_of_unbounded hcap, store_of_unbounded hp,
      peek?_poke] at ha ⊢
    have hab : a ≠ b := by
      rintro rfl
      simp at ha
    rw [poke_comm hab]

theorem peek?_of_serve {r : Request} (ha : (r.serve m).2.peek? a = none) : m.peek? a = none := by
  rcases serve_memory_cases r m with h | ⟨b, v, h⟩
  · rwa [h] at ha
  · rw [h, peek?_poke] at ha
    split at ha
    · cases ha
    · exact ha

theorem capacity_serve (r : Request) (m : Harvard) : (r.serve m).2.capacity = m.capacity := by
  rcases serve_memory_cases r m with h | ⟨a, v, h⟩ <;> rw [h]
  rfl

end Harvard

namespace Core

variable {c : Core} {m : Harvard} {a v : Word}

/-- The memory takes part in a tick only through its reply. -/
theorem tick_poke (hcap : m.capacity = none) (ha : (c.tick m).memory.peek? a = none)
    (hmiss : (c.tick m).result ≠ .error (.memory (.unpopulated a))) :
    c.tick (m.poke a v) = { c.tick m with memory := (c.tick m).memory.poke a v } := by
  cases c.ends m with
  | rejected hp ht => rw [tick_of_plan_error hp, ht]
  | denied hp hr ht =>
    rw [ht] at ha hmiss ⊢
    have hs := Harvard.serve_poke (v := v) hcap (by rw [hr]; exact ha)
      (by rw [hr]; intro he; cases he; exact hmiss rfl)
    rw [hr] at hs
    exact tick_of_denied hp hs
  | ended hp hr ht =>
    rw [ht] at ha ⊢
    have hs := Harvard.serve_poke (v := v) hcap (by rw [hr]; exact ha) (by rw [hr]; simp)
    rw [hr] at hs
    exact tick_of_end hp hs
  | committed hp hr hne ht =>
    rw [ht] at ha ⊢
    have hs := Harvard.serve_poke (v := v) hcap (by rw [hr]; exact ha) (by rw [hr]; simp)
    rw [hr] at hs
    exact tick_of_reply hp hs hne

theorem plan_ne_memory {f : Fault} (h : c.plan = .error f) (e : MemoryFault) : f ≠ .memory e := by
  have hopcode : ∀ {w : Instruction} {f : Fault}, Opcode.decode w = .error f → f ≠ .memory e := by
    intro w f hf
    rw [(Opcode.decode_eq_error_iff.mp hf).2]
    simp
  simp only [plan, bind_eq_error_iff] at h
  rcases h with hs | ⟨s, -, hd | ⟨d, -, hn | ⟨q, -, hr | ⟨r, -, ht⟩⟩⟩⟩
  · have hu := Phase.signals_eq_error_iff.mp hs
    generalize c.phase = p at hu
    cases hu <;> simp
  · unfold Datapath.wire at hd
    split at hd
    · exact hopcode (map_eq_error_iff.mp (map_eq_error_iff.mp hd))
    · cases hd
  · generalize c.phase = p at hn
    cases p with
    | decode | memAddress => exact hopcode (map_eq_error_iff.mp hn)
    | _ => cases hn
  · unfold retiring at hr
    split at hr
    · exact hopcode (map_eq_error_iff.mp hr)
    · cases hr
  · cases ht

theorem peek?_of_miss (hcap : m.capacity = none)
    (h : (c.tick m).result = .error (.memory (.unpopulated a))) : m.peek? a = none := by
  cases c.ends m with
  | rejected hp ht =>
    rw [ht] at h
    cases h
    exact absurd rfl (plan_ne_memory hp _)
  | denied hp hr ht =>
    rw [ht] at h
    cases h
    have hd := serve_request_eq_error_iff.mp (congrArg Prod.fst hr)
    cases hd with
    | load _ hl => exact Harvard.peek?_of_load hl
    | store _ hl =>
      simp only [Memory.store, Harvard.store_of_unbounded hcap] at hl
      cases hl
  | ended _ _ ht | committed _ _ _ ht =>
    rw [ht] at h
    cases h

theorem tick_events_of_stalls (h : Stalls (c.tick m).result) : (c.tick m).events = [] := by
  cases c.ends m with
  | rejected _ ht | denied _ _ ht | ended _ _ ht => rw [ht]
  | committed _ _ _ ht =>
    rw [ht] at h
    exact absurd h (not_stalls_status _)

theorem peek?_of_tick (ha : (c.tick m).memory.peek? a = none) : m.peek? a = none := by
  rcases c.tick_memory_cases m with h | h
  · rwa [h] at ha
  · rw [h] at ha
    exact Harvard.peek?_of_serve ha

end Core

namespace Machine

variable {m m' : Machine} {n : Nat} {a v : Word}

theorem step_poke (hcap : m.memory.capacity = none) (ha : m.step.2.memory.peek? a = none)
    (hmiss : m.step.1 ≠ .error (.memory (.unpopulated a))) :
    (m.poke a v).step = (m.step.1, m.step.2.poke a v) := by
  rw [step_memory] at ha
  rw [step_result] at hmiss
  have ht := Core.tick_poke (v := v) hcap ha hmiss
  have hm : (m.poke a v).core.tick (m.poke a v).memory = m.core.tick (m.memory.poke a v) := rfl
  unfold step
  rw [hm, ht]
  rcases m.core.tick m.memory with ⟨_ | _, _, _, _⟩ <;> rfl

theorem step_of_miss (h : m.step.1 = .error (.memory (.unpopulated a))) : m.step.2 = m := by
  rw [step_result] at h
  have hcore := Core.tick_core_unchanged (.inr ⟨_, h⟩)
  have hmemory := Core.tick_memory_unchanged (.inr ⟨_, h⟩)
  have hevents := Core.tick_events_of_stalls (.inr ⟨_, h⟩)
  simp [step, h, hcore, hmemory, hevents, Log.addAll, Fault.fatal]

theorem step_capacity (m : Machine) : m.step.2.memory.capacity = m.memory.capacity := by
  rw [step_memory]
  rcases m.core.tick_memory_cases m.memory with h | h
  · rw [h]
  · rw [h, Harvard.capacity_serve]

theorem StepsTo.capacity (h : m.StepsTo m') : m'.memory.capacity = m.memory.capacity :=
  h.preserves (P := fun a => a.memory.capacity = m.memory.capacity)
    (fun a ha => a.step_capacity.trans ha) rfl

/-- A run that comes by without the word at `a` also comes by with it. -/
theorem RunsTo.poke {k : Nat} (h : m.RunsTo k m') (hcap : m.memory.capacity = none)
    (ha : m'.memory.peek? a = none) : (m.poke a v).RunsTo k (m'.poke a v) := by
  induction h with
  | refl => exact .refl
  | @step _ s m₁ m₂ h hs hgo ih =>
    have hcap₁ : m₁.memory.capacity = none := h.stepsTo.capacity.trans hcap
    have hm₂ : m₁.step.2 = m₂ := by rw [hs]
    have ha₁ : m₁.memory.peek? a = none := by
      rw [← hm₂, step_memory] at ha
      exact Core.peek?_of_tick ha
    have hstep : (m₁.poke a v).step = (m₁.step.1, m₁.step.2.poke a v) :=
      step_poke hcap₁ (by rw [hm₂]; exact ha) (by rw [hs]; simp)
    rw [hs] at hstep
    exact .step (ih ha₁) hstep hgo

/-- A run that ends with a miss has come to the machine that it leaves behind, and there the word is
missing. -/
theorem run_eq_miss (hcap : m.memory.capacity = none)
    (h : m.run.1 = .error (.memory (.unpopulated a))) :
    ∃ k < m.budget, m.RunsTo k m.run.2 ∧ m.run.2.memory.peek? a = none := by
  obtain ⟨k, m₁, hk, hend⟩ := spend_cases m.budget m
  unfold run at h ⊢
  rcases hspend : spend m.budget m with ⟨f | stop, m₂⟩
  · rw [hspend] at h hend
    cases h
    rcases hend with ⟨-, hlimit⟩ | ⟨hlt, hlast⟩
    · cases hlimit
    · cases hlast with
      | fault hs =>
        have hmiss : m₁.step.1 = .error (.memory (.unpopulated a)) := by rw [hs]
        have hm₂ : m₂ = m₁ := by rw [← step_of_miss hmiss, hs]
        subst hm₂
        rw [step_result] at hmiss
        have hnone := Core.peek?_of_miss (hk.stepsTo.capacity.trans hcap) hmiss
        exact ⟨k, hlt, hk, hnone⟩
  · rw [hspend] at h
    cases h

/-- With the word supplied, a run goes on from a miss as if it had never stopped. -/
theorem run_poke_of_miss (hcap : m.memory.capacity = none)
    (h : m.run.1 = .error (.memory (.unpopulated a))) :
    (m.run.2.poke a v).run = (m.poke a v).run := by
  obtain ⟨k, hlt, hk, ha⟩ := run_eq_miss hcap h
  generalize m.run.2 = m₁ at hk ha ⊢
  have hspend := (hk.poke (v := v) hcap ha).spend_add (m.budget - k)
  have hbudget : (m₁.poke a v).budget = m.budget - k := hk.budget
  have hn : m.budget - k + k = (m.poke a v).budget := Nat.sub_add_cancel (Nat.le_of_lt hlt)
  rw [hn] at hspend
  rw [run, run, hbudget, hspend]

/-- The machine with words put into its memory one after another. -/
def pokeAll (m : Machine) (words : List (Word × Word)) : Machine :=
  words.foldl (fun m w => m.poke w.1 w.2) m

/-- Runs of `m` of which each missed a word that was then supplied, up to the machine that is to run
next. -/
inductive Serviced (m : Machine) : List (Word × Word) → Machine → Prop where
  | start : Serviced m [] m
  | supply {words : List (Word × Word)} {m' : Machine} {a : Word} (v : Word)
      (h : Serviced m words m') (miss : m'.run.1 = .error (.memory (.unpopulated a))) :
    Serviced m (words ++ [(a, v)]) (m'.run.2.poke a v)

theorem capacity_pokeAll (m : Machine) (words : List (Word × Word)) :
    (m.pokeAll words).memory.capacity = m.memory.capacity := by
  induction words generalizing m with
  | nil => rfl
  | cons w words ih => exact ih (m.poke w.1 w.2)

theorem Serviced.run_eq {words : List (Word × Word)} (hcap : m.memory.capacity = none)
    (h : m.Serviced words m') : m'.run = (m.pokeAll words).run := by
  induction h with
  | start => rfl
  | @supply words m' a v _ hmiss ih =>
    have hcap' := (m.capacity_pokeAll words).trans hcap
    have hlast : m.pokeAll (words ++ [(a, v)]) = (m.pokeAll words).poke a v := by
      simp [pokeAll]
    rw [ih] at hmiss ⊢
    rw [hlast]
    exact run_poke_of_miss hcap' hmiss

/-- In an unbounded memory, a run that misses words which are then supplied comes to what one run
with them comes to. -/
theorem supplied_miss_invisible (hcap : m.memory.capacity = none) :
    (∀ a, m.run.1 = .error (.memory (.unpopulated a)) →
        ∀ v, (m.run.2.poke a v).run = (m.poke a v).run) ∧
      ∀ words m', m.Serviced words m' → m'.run = (m.pokeAll words).run :=
  ⟨fun _ h _ => run_poke_of_miss hcap h, fun _ _ h => h.run_eq hcap⟩

/-- Two loads, of which the second adds its word's address to what the first brought. -/
theorem supplied_miss_invisible_twice :
    let settings : Settings := { general := { maxCycles := 20 } }
    let m := Machine.start settings (.ofProgram [0x10002503, 0x00452583, 0x00b50533] none) {}
    m.memory.capacity = none ∧ m.run.1 = .error (.memory (.unpopulated 0x100)) ∧
      (m.run.2.poke 0x100 0x20).run.1 = .error (.memory (.unpopulated 0x24)) ∧
      ((m.run.2.poke 0x100 0x20).run.2.poke 0x24 1).run =
        (m.pokeAll [(0x100, 0x20), (0x24, 1)]).run ∧
      (m.pokeAll [(0x100, 0x20), (0x24, 1)]).run.1 = .ok (.endOfProgram 12) := by
  intro settings m
  obtain ⟨-, hall⟩ := supplied_miss_invisible (m := m) rfl
  have hfirst : m.run.1 = .error (.memory (.unpopulated 0x100)) := by
    subst m settings
    rfl
  have hsecond : (m.run.2.poke 0x100 0x20).run.1 = .error (.memory (.unpopulated 0x24)) := by
    subst m settings
    rfl
  have hserviced := Serviced.supply 1 (.supply 0x20 (.start (m := m)) hfirst) hsecond
  refine ⟨rfl, hfirst, hsecond, hall _ _ hserviced, ?_⟩
  subst m settings
  rfl

end Machine

end Multicycle
