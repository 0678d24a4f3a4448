import Multicycle.Proofs.InFlight

/-! A tick gets one answer from its memory at most. So an instruction on its way is as far as its phase
says over any memory whatever, once that is said of the answers it has had. -/
namespace Multicycle

/-- A memory that has one instruction and one data word to give, at every address, and never
changes. -/
structure Script where
  instr : Instruction
  data : Word

namespace Script

instance : Memory Script where
  fetch s _ := (some s.instr, s)
  load s _ := (.ok s.data, s)
  store s _ _ := (.ok (), s)

instance : Memory.Steady Script where
  fetch_keeps _ _ := rfl
  load_keeps _ _ := rfl
  store_keeps _ _ _ _ _ := rfl

end Script

namespace Core

variable {σ : Type} [Memory σ] {c : Core} {m m' : σ} {p : Plan} {op : Opcode}

/-- The answers that the instruction in flight has had. -/
def script (c : Core) : Script := ⟨c.latches.instr, c.latches.data⟩

/-- An instruction is as far on its way as the phase says, wherever its words have come from. -/
def Underway (c : Core) : Prop := c.InFlight c.script

theorem data_commit (h : c.plan = .ok p) (hr : c.phase ≠ .memRead) (r : Reply) :
    (p.commit r).next.data = c.latches.data := by
  obtain ⟨s, hs, hd, -, -⟩ := plan_eq_ok h
  obtain ⟨hl, -, rfl, -⟩ := Datapath.wire_eq_ok hd
  have hread : p.datapath.signals.memRead = false := by
    rw [(Signals.enables_of_signals hs).2.1]
    simpa using hr
  simp [Plan.commit, Datapath.evaluate, Datapath.nextLatches, hread, hl]

/-- What a tick has been answered is in the latches after it. -/
theorem serve_script {r : Reply} (hp : c.plan = .ok p) (hr : c.request.serve m = (.ok r, m'))
    (hne : r ≠ .fetched none) :
    let s := (c.commit p.next (p.commit r)).script
    c.request.serve s = (.ok r, s) := by
  obtain ⟨s, hs, hd, -, -⟩ := plan_eq_ok hp
  obtain ⟨hl, -, rfl, -⟩ := Datapath.wire_eq_ok hd
  obtain ⟨hf, hread, -⟩ := Signals.enables_of_signals hs
  have ha := congrArg Prod.fst hr
  unfold request at ha ⊢
  cases hphase : c.phase with
  | fetch =>
    rw [hphase] at ha hf
    cases ha
    have hw := Option.ne_none_iff_exists'.mp fun h => hne (congrArg Reply.fetched h)
    obtain ⟨w, hw⟩ := hw
    simp [Request.serve, Memory.fetch, script, commit, Plan.commit, Datapath.evaluate,
      Datapath.nextLatches, Datapath.latched, hf, hw, Reply.fetched?]
  | memRead =>
    rw [hphase] at ha hread
    obtain ⟨v, -, rfl⟩ := map_eq_ok_iff.mp ha
    simp [Request.serve, Memory.load, script, commit, Plan.commit, Datapath.evaluate,
      Datapath.nextLatches, hread, Reply.loaded?, Except.map]
  | memWrite =>
    rw [hphase] at ha
    obtain ⟨_, -, rfl⟩ := map_eq_ok_iff.mp ha
    rfl
  | _ =>
    rw [hphase] at ha
    cases ha
    rfl

theorem Underway.inFlight {s : Script} (h : c.Underway)
    (hw : c.phase ≠ .fetch → s.instr = c.latches.instr)
    (hv : c.phase = .memWriteBack → s.data = c.latches.data) : c.InFlight s := by
  have hfetched (hp : c.phase ≠ .fetch) :
      Memory.fetch s c.latches.oldPc = (some c.latches.instr, s) := by
    rw [← hw hp]
    rfl
  cases h with
  | fetch hp => exact .fetch hp
  | decode hp hpc _ => exact .decode hp hpc (hfetched (by simp [hp]))
  | past h =>
    refine .past { h with fetched := hfetched h.phase_ne_fetch, loaded := fun hp => ?_ }
    rw [← hv hp]
    rfl

theorem Underway.inFlight_tick (h : c.Underway) (m : σ) : c.InFlight (c.tick m).core.script := by
  cases c.ends m with
  | rejected _ ht | denied _ _ ht | ended _ _ ht =>
    rw [ht]
    exact h
  | @committed p r _ hp _ _ ht =>
    rw [ht]
    refine h.inFlight (fun hf => instr_commit hp hf r) fun hw => data_commit hp ?_ r
    rw [hw]
    decide

/-- Over any memory, a tick takes the instruction as far as it would over the answers that it leaves
in the latches. -/
theorem Underway.stride (h : c.Underway) (m : σ) :
    c.Stride (c.tick m).core.script
      ((c.tick m).result, (c.tick m).core, (c.tick m).core.script) := by
  have hstride := (h.inFlight_tick m).stride
  cases c.ends m with
  | rejected _ ht | denied _ _ ht =>
    rw [ht]
    exact .stalled (.inr ⟨_, rfl⟩)
  | ended _ _ ht =>
    rw [ht]
    exact .stalled (.inl rfl)
  | committed hp hr hne ht =>
    rw [ht] at hstride ⊢
    rwa [tick_of_reply hp (serve_script hp hr hne) hne] at hstride

theorem Underway.tick (h : c.Underway) (m : σ) : (c.tick m).core.Underway :=
  (h.stride m).inFlight (h.inFlight_tick m)

end Core

end Multicycle
