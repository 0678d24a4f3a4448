import Multicycle.Proofs.Decoding
import Multicycle.Proofs.Phases
import Multicycle.Proofs.Reachable

/-! Past decoding, a core is on the path of the instruction that it holds, so a word that is not
supported shows in the one phase that decodes it and never later. -/
namespace Multicycle

namespace Phase

variable {p q : Phase} {w : Instruction} {op : Opcode} {f : Fault}

theorem mem_path_of_next (hp : p ∈ op.path) (ho : Opcode.decode w = .ok op) (h : p.next w = .ok q) :
    q ∈ op.path := by
  cases p with
  | decode =>
    obtain ⟨op', ho', rfl⟩ := map_eq_ok_iff.mp h
    cases ho.symm.trans ho'
    cases op <;> decide
  | memAddress =>
    obtain ⟨op', ho', rfl⟩ := map_eq_ok_iff.mp h
    cases ho.symm.trans ho'
    revert hp
    cases op <;> decide
  | _ =>
    cases h
    revert hp
    cases op <;> decide

theorem exists_next (p : Phase) (ho : Opcode.decode w = .ok op) : ∃ q, p.next w = .ok q := by
  cases p with
  | decode | memAddress => exact ⟨_, by rw [next, ho]; rfl⟩
  | _ => exact ⟨_, rfl⟩

theorem eq_load_of_mem_path (hp : p = memRead ∨ p = memWriteBack) (h : p ∈ op.path) :
    op = .load := by
  rcases hp with rfl | rfl
  · revert h
    cases op <;> decide
  · revert h
    cases op <;> decide

theorem eq_store_of_mem_path (hp : p = memWrite) (h : p ∈ op.path) : op = .store := by
  subst hp
  revert h
  cases op <;> decide

/-- What the decoders reject, each in the one phase that asks it. -/
inductive Undecodable (w : Instruction) : Phase → Fault → Prop where
  | opcode (h : ∀ op : Opcode, op.code ≠ w.opcode) :
    Undecodable w .decode (.unknownOpcode w.opcode w)
  | aluCode (hb : w.bit 30 = true) (h0 : w.funct3 ≠ 0b000) (h5 : w.funct3 ≠ 0b101) :
    Undecodable w .executeReg (.unknownAluCode (2 * w.funct3 + 1) w)
  | condition (h : w.funct3 = 0b010 ∨ w.funct3 = 0b011) :
    Undecodable w .branch (.unknownCondition w.funct3 w)

theorem signals_eq_error_iff : p.signals w = .error f ↔ Undecodable w p f := by
  cases p with
  | decode =>
    rw [signals, map_eq_error_iff, Opcode.decode_eq_error_iff]
    constructor
    · rintro ⟨h, rfl⟩
      exact .opcode h
    · intro h
      cases h with
      | opcode h => exact ⟨h, rfl⟩
  | executeImm =>
    rw [signals, map_eq_error_iff, Alu.Op.decode_opImm]
    constructor
    · intro h
      cases h
    · intro h
      cases h
  | executeReg =>
    rw [signals, map_eq_error_iff, Alu.Op.decode_opReg_eq_error_iff]
    constructor
    · rintro ⟨hb, h0, h5, rfl⟩
      exact .aluCode hb h0 h5
    · intro h
      cases h with
      | aluCode hb h0 h5 => exact ⟨hb, h0, h5, rfl⟩
  | branch =>
    rw [signals, map_eq_error_iff, Condition.decode_eq_error_iff]
    constructor
    · rintro ⟨h, rfl⟩
      exact .condition h
    · intro h
      cases h with
      | condition h => exact ⟨h, rfl⟩
  | _ =>
    constructor
    · intro h
      cases h
    · intro h
      cases h

end Phase

namespace Core

variable {σ : Type} [Memory σ] {c : Core} {m : σ} {p : Plan} {f : Fault} {op : Opcode}

/-- Past decoding, the phase lies on the path of the instruction in flight. -/
def Consistent (c : Core) : Prop :=
  c.phase ≠ .fetch → c.phase ≠ .decode →
    ∃ op, Opcode.decode c.latches.instr = .ok op ∧ c.phase ∈ op.path

namespace Consistent

variable {s : Signals}

theorem phase_mem_path (h : c.Consistent) (ho : Opcode.decode c.latches.instr = .ok op) :
    c.phase ∈ op.path := by
  by_cases hf : c.phase = .fetch
  · rw [hf]
    cases op <;> decide
  · by_cases hd : c.phase = .decode
    · rw [hd]
      cases op <;> decide
    · obtain ⟨op', ho', hmem⟩ := h hf hd
      cases ho.symm.trans ho'
      exact hmem

theorem exists_opcode (h : c.Consistent) (hf : c.phase ≠ .fetch)
    (hs : c.phase.signals c.latches.instr = .ok s) :
    ∃ op, Opcode.decode c.latches.instr = .ok op := by
  by_cases hd : c.phase = .decode
  · rw [hd] at hs
    obtain ⟨op, ho, -⟩ := map_eq_ok_iff.mp hs
    exact ⟨op, ho⟩
  · obtain ⟨op, ho, -⟩ := h hf hd
    exact ⟨op, ho⟩

theorem exists_plan (h : c.Consistent) (hs : c.phase.signals c.latches.instr = .ok s) :
    ∃ p, c.plan = .ok p := by
  by_cases hf : c.phase = .fetch
  · exact ⟨_, by rw [plan, hf]; rfl⟩
  · obtain ⟨op, ho⟩ := h.exists_opcode hf hs
    obtain ⟨q, hq⟩ := c.phase.exists_next ho
    exact ⟨_, plan_of_decode ho hs hq⟩

end Consistent

theorem instr_commit (h : c.plan = .ok p) (hf : c.phase ≠ .fetch) (r : Reply) :
    (p.commit r).next.instr = c.latches.instr := by
  obtain ⟨s, hs, hd, -, -⟩ := plan_eq_ok h
  obtain ⟨hl, -, rfl, -⟩ := Datapath.wire_eq_ok hd
  have hw : p.datapath.signals.irWrite = false := by
    rw [(Signals.enables_of_signals hs).1]
    simpa using hf
  simp [Plan.commit, Datapath.evaluate, Datapath.nextLatches, Datapath.latched, hw, hl]

theorem Consistent.tick (h : c.Consistent) (m : σ) : (c.tick m).core.Consistent := by
  cases c.ends m with
  | rejected _ ht | denied _ _ ht | ended _ _ ht =>
    rw [ht]
    exact h
  | @committed p r _ hp _ _ ht =>
    rw [ht]
    obtain ⟨s, hs, -, hnext, -⟩ := plan_eq_ok hp
    intro hf' hd'
    change ∃ op, Opcode.decode (p.commit r).next.instr = .ok op ∧ p.next ∈ op.path
    by_cases hf : c.phase = .fetch
    · rw [hf] at hnext
      exact absurd (Except.ok.inj hnext).symm hd'
    · rw [instr_commit hp hf]
      obtain ⟨op, ho⟩ := h.exists_opcode hf hs
      exact ⟨op, ho, Phase.mem_path_of_next (h.phase_mem_path ho) ho hnext⟩

theorem Reachable.consistent (h : c.Reachable) : c.Consistent := by
  induction h with
  | start s => exact fun hf => absurd rfl hf
  | tick m _ ih => exact ih.tick m
  | reset _ _ => exact fun hf => absurd rfl hf
  | setRegister i v _ ih => exact ih

/-- The two accesses that the memory can refuse. -/
inductive Denied (c : Core) (m : σ) : MemoryFault → Prop where
  | load {e : MemoryFault} (phase : c.phase = .memRead)
      (h : (Memory.load m c.latches.aluOut).1 = .error e) : Denied c m e
  | store {e : MemoryFault} (phase : c.phase = .memWrite)
      (h : (Memory.store m c.latches.aluOut c.latches.b).1 = .error e) : Denied c m e

theorem serve_request_eq_error_iff {e : MemoryFault} :
    (c.request.serve m).1 = .error e ↔ c.Denied m e := by
  unfold request
  constructor
  · intro h
    cases hp : c.phase with
    | memRead =>
      rw [hp] at h
      exact .load hp (map_eq_error_iff.mp h)
    | memWrite =>
      rw [hp] at h
      exact .store hp (map_eq_error_iff.mp h)
    | _ =>
      rw [hp] at h
      cases h
  · intro h
    cases h with
    | load hp h | store hp h =>
      rw [hp]
      exact map_eq_error_iff.mpr h

theorem Denied.exists_signals {e : MemoryFault} (h : c.Denied m e) :
    ∃ s, c.phase.signals c.latches.instr = .ok s := by
  cases h with
  | load hp _ | store hp _ => exact ⟨_, by rw [hp]; rfl⟩

theorem Consistent.plan_eq_error_iff (h : c.Consistent) :
    c.plan = .error f ↔ c.phase.Undecodable c.latches.instr f := by
  rw [← Phase.signals_eq_error_iff]
  constructor
  · intro hp
    cases hs : c.phase.signals c.latches.instr with
    | error f' =>
      cases (plan_of_signals_error hs).symm.trans hp
      rfl
    | ok s =>
      obtain ⟨p, hp'⟩ := h.exists_plan hs
      cases hp.symm.trans hp'
  · exact plan_of_signals_error

/-- A tick fails where its phase is the one to decode what is not supported, or the memory refuses
it, and nowhere else. -/
theorem Consistent.tick_eq_error_iff (h : c.Consistent) :
    (c.tick m).result = .error f ↔
      c.phase.Undecodable c.latches.instr f ∨ ∃ e, f = .memory e ∧ c.Denied m e := by
  constructor
  · intro hf
    cases c.ends m with
    | rejected hp ht =>
      rw [ht] at hf
      cases hf
      exact .inl (h.plan_eq_error_iff.mp hp)
    | @denied _ e _ _ hr ht =>
      rw [ht] at hf
      cases hf
      exact .inr ⟨e, rfl, serve_request_eq_error_iff.mp (by rw [hr])⟩
    | ended _ _ ht | committed _ _ _ ht =>
      rw [ht] at hf
      cases hf
  · rintro (hu | ⟨e, rfl, hd⟩)
    · rw [tick_of_plan_error (h.plan_eq_error_iff.mpr hu)]
    · obtain ⟨s, hs⟩ := hd.exists_signals
      obtain ⟨p, hp⟩ := h.exists_plan hs
      rw [tick_of_denied hp (Prod.ext (serve_request_eq_error_iff.mpr hd) rfl)]

/-- In a reachable core the phase fits the latched instruction, and a tick fails exactly where
`Undecodable` and `Denied` say. -/
theorem Reachable.tick_faults_localised (h : c.Reachable) :
    (c.phase ≠ .fetch → c.phase ≠ .decode →
        ∃ op, Opcode.decode c.latches.instr = .ok op ∧ c.phase ∈ op.path) ∧
      (c.phase = .memRead ∨ c.phase = .memWriteBack →
        Opcode.decode c.latches.instr = .ok .load) ∧
      (c.phase = .memWrite → Opcode.decode c.latches.instr = .ok .store) ∧
      (∀ {σ : Type} [Memory σ] (m : σ) (f : Fault), (c.tick m).result = .error f ↔
        c.phase.Undecodable c.latches.instr f ∨ ∃ e, f = .memory e ∧ c.Denied m e) ∧
      (c.phase ∉ [.decode, .executeReg, .branch, .memRead, .memWrite] →
        ∀ {σ : Type} [Memory σ] (m : σ) (f : Fault), (c.tick m).result ≠ .error f) ∧
      ∀ s, c.phase.signals c.latches.instr = .ok s →
        (∃ d, Datapath.wire c.latches c.registers s = .ok d) ∧
          ∃ q, c.phase.next c.latches.instr = .ok q ∧ ∃ r, c.retiring q = .ok r := by
  have hc := h.consistent
  refine ⟨hc, ?_, ?_, fun m f => hc.tick_eq_error_iff, ?_, ?_⟩
  · intro hp
    have hne : c.phase ≠ .fetch ∧ c.phase ≠ .decode := by
      rcases hp with hp | hp <;> simp [hp]
    obtain ⟨op, ho, hmem⟩ := hc hne.1 hne.2
    rwa [← Phase.eq_load_of_mem_path hp hmem]
  · intro hp
    obtain ⟨op, ho, hmem⟩ := hc (by simp [hp]) (by simp [hp])
    rwa [← Phase.eq_store_of_mem_path hp hmem]
  · intro hp σ _ m f hf
    rcases hc.tick_eq_error_iff.mp hf with hu | ⟨e, -, hd⟩
    · generalize c.phase = q at hp hu
      cases hu <;> simp at hp
    · cases hd with
      | load hq _ | store hq _ => simp [hq] at hp
  · intro s hs
    obtain ⟨p, hplan⟩ := hc.exists_plan hs
    obtain ⟨s', hs', hd, hq, hr⟩ := plan_eq_ok hplan
    cases hs.symm.trans hs'
    exact ⟨⟨_, hd⟩, _, hq, _, hr⟩

/-- The bit of a subtraction on a shift to the left. -/
theorem Reachable.tick_faults_localised_shift :
    let w : Instruction := 0x40001033
    let c : Core :=
      { phase := .executeReg, latches := { pc := 4, instr := w, aluOut := 4 }, cycle := 2 }
    c.Reachable ∧
      ∀ {σ : Type} [Memory σ] (m : σ), (c.tick m).result = .error (.unknownAluCode 0b0011 w) := by
  intro w c
  let m := Harvard.ofProgram [w] none
  have hfetch : Memory.fetch m 0 = (some w, m) := Harvard.fetch_loadProgram_singleton _ _ _
  have ho : Opcode.decode w = .ok .opReg := Opcode.decode_eq_ok_iff.mpr (by decide)
  have h₁ : ((ofSettings {}).tick m).core =
      { phase := .decode, latches := { pc := 4, instr := w, aluOut := 4 }, cycle := 1 } :=
    congrArg (·.2.1) (outcome_tick_fetch (c := ofSettings {}) rfl hfetch)
  have h₂ : (((ofSettings {}).tick m).core.tick m).core = c := by
    rw [h₁]
    have ht := congrArg (·.2.1) (outcome_tick_decode (m := m)
      (c := { phase := .decode, latches := { pc := 4, instr := w, aluOut := 4 }, cycle := 1 }) rfl ho)
    refine ht.trans ?_
    dsimp only
    decide
  have hc : c.Reachable := by
    rw [← h₂]
    exact .tick m (.tick m (.start {}))
  obtain ⟨-, -, -, hiff, -⟩ := hc.tick_faults_localised
  have hu : Phase.Undecodable w .executeReg (.unknownAluCode 0b0011 w) :=
    .aluCode (w := 0x40001033) (by decide) (by decide) (by decide)
  exact ⟨hc, fun m => (hiff m _).mpr (.inl hu)⟩

end Core

end Multicycle
