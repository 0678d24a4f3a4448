import Multicycle.Proofs.Runs

/-! Which words a machine carries out, and that it stops at the others before they write
anything. -/
namespace Multicycle

namespace Instruction

/-- A word that every decoder on its way accepts. -/
def Executable (w : Instruction) : Prop := ∃ op, Opcode.decode w = .ok op ∧ w.Supported op

/-- The fields of `w` are such as the manual assigns to an instruction of opcode `op`, all the bits
of funct7 included. -/
def Canonical (w : Instruction) (op : Opcode) : Prop :=
  (∀ n ∈ op.funct3?, w.funct3 = n) ∧
    match op with
    | .branch => w.funct3 ≠ 0b010 ∧ w.funct3 ≠ 0b011
    | .opReg =>
      w.funct7 = 0 ∨ w.funct7 = 0b0100000 ∧ (w.funct3 = 0b000 ∨ w.funct3 = 0b101)
    | .opImm =>
      (w.funct3 = 0b001 → w.funct7 = 0) ∧
        (w.funct3 = 0b101 → w.funct7 = 0 ∨ w.funct7 = 0b0100000)
    | _ => True

end Instruction

namespace Core

variable {σ : Type} [Memory σ] {c : Core} {m : σ} {w : Instruction}

/-- An instruction that is not executable gets no further than the phase that decodes it. -/
theorem InFlight.position_le (h : c.InFlight m) (hw : (Memory.fetch m c.address).1 = some w)
    (hx : ¬ w.Executable) : c.phase.position ≤ 2 := by
  by_cases hf : c.phase = .fetch
  · rw [hf]
    decide
  · obtain rfl := h.instr_eq hf hw
    cases h with
    | fetch hp => exact absurd hp hf
    | decode hp _ _ =>
      rw [hp]
      decide
    | @past op h =>
      have hs : ¬ c.latches.instr.Supported op := fun hs => hx ⟨op, h.opcode, hs⟩
      cases op with
      | branch =>
        have hp : c.phase = .branch := List.mem_singleton.mp h.phase
        rw [hp]
        decide
      | opReg =>
        rcases h.phase_of_pair rfl with hp | hp
        · rw [hp]
          decide
        · exact absurd (h.supported hp) hs
      | _ => exact absurd trivial hs

theorem InFlight.result_of_not_executable [Memory.Steady σ] (h : c.InFlight m)
    (hw : (Memory.fetch m c.address).1 = some w) (hx : ¬ w.Executable) :
    (c.tick m).result = .ok .running ∨
      ∃ f, c.phase.Undecodable w f ∧ (c.tick m).result = .error f := by
  have ht := h.stride
  unfold Tick.outcome at ht
  rcases hr : (c.tick m).result with f | s
  · refine .inr ⟨f, ?_, rfl⟩
    rcases h.consistent.tick_eq_error_iff.mp hr with hu | ⟨e, -, hd⟩
    · have hf : c.phase ≠ .fetch := by
        intro hf
        rw [hf] at hu
        cases hu
      rwa [h.instr_eq hf hw] at hu
    · -- the phases that ask for data come after all that decode
      have hp := h.position_le hw hx
      cases hd with
      | load hq _ | store hq _ =>
        rw [hq] at hp
        exact absurd hp (by decide)
  · cases s with
    | running => exact .inl rfl
    | halted =>
      obtain ⟨hp, hnone⟩ := fetch_of_halted hr
      rw [address, if_pos hp, hnone] at hw
      cases hw
    | retired r =>
      rw [hr] at ht
      generalize (c.tick m).core = c', (c.tick m).memory = m' at ht
      cases ht with
      | stalled hs => cases stalls_ok_iff.mp hs
      | @retired op _ _ _ hp _ ho hs _ _ _ _ =>
        obtain rfl := h.instr_eq hp hw
        exact absurd ⟨op, ho, hs⟩ hx

end Core

namespace Machine

variable {m m' : Machine} {n : Nat} {w : Instruction}

/-- A step in the midst of an instruction that is not executable takes it further without writing
anything, or fails to decode it. -/
theorem step_of_not_executable (h : m.InFlight)
    (hw : m.memory.instruction? m.core.address = some w) (hx : ¬ w.Executable) :
    (∃ m₁, m.step = (.ok .running, m₁) ∧ m₁.InFlight ∧
        m₁.memory.instruction? m₁.core.address = some w ∧
        m₁.core.registers = m.core.registers ∧ m₁.memory = m.memory ∧
        m₁.core.phase.position = m.core.phase.position + 1) ∨
      ∃ f log, m.step = (.error f, { m with log }) ∧ m.core.phase.Undecodable w f := by
  have hr := Core.InFlight.result_of_not_executable h hw hx
  have ht := h.stride
  have hflight := h.step
  have hprogress := h.consistent.progress m.memory
  rw [← step_result] at hr hprogress
  rw [← step_core] at hprogress
  rcases hs : m.step with ⟨r, m₁⟩
  rw [hs] at hr ht hflight hprogress
  rcases hr with rfl | ⟨f, hu, rfl⟩
  · obtain ⟨hmemory, haddress, hregs⟩ := ht.running
    refine .inl ⟨m₁, rfl, hflight, ?_, hregs, hmemory, hprogress.position_of_running⟩
    rw [haddress, hmemory]
    exact hw
  · have hm₁ := step_unchanged (m := m) (.inr ⟨f, by rw [hs]⟩)
    rw [hs] at hm₁
    exact .inr ⟨f, m₁.log, Prod.ext rfl hm₁, hu⟩

/-- On an instruction that is not executable, a run writes nothing, and ends with a decoding fault if
its budget lasts. -/
theorem spend_of_not_executable (h : m.InFlight)
    (hw : m.memory.instruction? m.core.address = some w) (hx : ¬ w.Executable) :
    (spend n m).2.core.registers = m.core.registers ∧ (spend n m).2.memory = m.memory ∧
      (2 < m.core.phase.position + n →
        ∃ f, (spend n m).2.core.phase.Undecodable w f ∧ (spend n m).1 = .error f) := by
  induction n generalizing m with
  | zero =>
    have hp := Core.InFlight.position_le h hw hx
    refine ⟨rfl, rfl, fun hn => ?_⟩
    omega
  | succ n ih =>
    rcases step_of_not_executable h hw hx with
      ⟨m₁, hs, hflight, hw₁, hregs, hmemory, hposition⟩ | ⟨f, log, hs, hu⟩
    · rw [spend_succ hs trivial]
      obtain ⟨hregs₁, hmemory₁, herror⟩ := ih hflight hw₁
      exact ⟨hregs₁.trans hregs, hmemory₁.trans hmemory, fun hn => herror (by omega)⟩
    · rw [spend, hs]
      exact ⟨rfl, rfl, fun _ => ⟨f, hu, rfl⟩⟩

/-- From a reset, only supported instructions complete; any other word ends the run at its decoding,
if the budget lasts. -/
theorem only_supported_completes (m : Machine) :
    (∀ m' r, m.reset.StepsTo m' → m'.step.1 = .ok (.retired r) →
        m.memory.instruction? r.pc = some r.instr ∧ Opcode.decode r.instr = .ok r.opcode ∧
          r.instr.Supported r.opcode) ∧
      ∀ k m' (w : Instruction), m.reset.RunsTo k m' → k ≤ m.settings.general.maxCycles →
        m'.core.phase = .fetch → m.memory.instruction? m'.core.latches.pc = some w →
        ¬ w.Executable →
          m.reset.run.2.core.registers = m'.core.registers ∧ m.reset.run.2.memory = m'.memory ∧
            (k + 2 < m.settings.general.maxCycles →
              ∃ f, m.reset.run.2.core.phase.Undecodable w f ∧ m.reset.run.1 = .error f) := by
  constructor
  · intro m' r hm' hs
    obtain ⟨e, he⟩ := (m.reset_inFlight.steps hm').completes (Prod.ext hs rfl)
    exact ⟨(hm'.instruction?_eq r.pc).symm.trans he.fetched, he.opcode, he.supported⟩
  · intro k m' w hk hle hp hw hx
    have hflight := m.reset_inFlight.steps hk.stepsTo
    have haddress : m'.core.address = m'.core.latches.pc := if_pos hp
    have hw' : m'.memory.instruction? m'.core.address = some w := by
      rw [haddress, hk.stepsTo.instruction?_eq]
      exact hw
    obtain ⟨hresult, hcore, hmemory⟩ := m.reset.run_eq_spend
    have hbudget : m.settings.general.maxCycles - k + k = m.reset.budget := Nat.sub_add_cancel hle
    rw [hresult, hcore, hmemory, ← hbudget, hk.spend_add]
    obtain ⟨hregs, hmemory, herror⟩ := spend_of_not_executable
      (n := m.settings.general.maxCycles - k) hflight hw' hx
    refine ⟨hregs, hmemory, fun hn => herror ?_⟩
    omega

/-- A subtraction, and a shift with the same bit set after it. -/
theorem only_supported_completes_shift :
    let settings : Settings := { general := { maxCycles := 8 } }
    let m := Machine.start settings (.ofProgram [0x400000b3, 0x40001033] none) {}
    let m₃ := m.reset.step.2.step.2.step.2
    m₃.step.1 = .ok (.retired ⟨0, 0x400000b3, .opReg, 4, none⟩) ∧
      Instruction.Supported 0x400000b3 .opReg ∧ m.reset.RunsTo 4 m₃.step.2 ∧
      m.reset.run.1 = .error (.unknownAluCode 0b0011 0x40001033) ∧
      m.reset.run.2.core.registers = m₃.step.2.core.registers := by
  intro settings m m₃
  obtain ⟨hcompletes, hstops⟩ := only_supported_completes m
  have h₀ : m.reset.step.1 = .ok .running := by
    subst m₃ m settings
    rfl
  have h₁ : m.reset.step.2.step.1 = .ok .running := by
    subst m₃ m settings
    rfl
  have h₂ : m.reset.step.2.step.2.step.1 = .ok .running := by
    subst m₃ m settings
    rfl
  have h₃ : m₃.step.1 = .ok (.retired ⟨0, 0x400000b3, .opReg, 4, none⟩) := by
    subst m₃ m settings
    rfl
  obtain ⟨-, -, hsupported⟩ := hcompletes m₃ _ (.step (.step (.step .refl))) h₃
  have hk₂ : m.reset.RunsTo 2 m.reset.step.2.step.2 :=
    .step (.step .refl (Prod.ext h₀ rfl) trivial) (Prod.ext h₁ rfl) trivial
  have hk : m.reset.RunsTo 4 m₃.step.2 :=
    .step (.step hk₂ (Prod.ext h₂ rfl) trivial) (Prod.ext h₃ rfl)
      (by simp [GoesOn, Retirement.selfLoop])
  have hx : ¬ Instruction.Executable 0x40001033 := by
    rintro ⟨op, ho, hs⟩
    have hop : Opcode.decode 0x40001033 = .ok .opReg := Opcode.decode_eq_ok_iff.mpr (by decide)
    cases hop.symm.trans ho
    exact absurd (hs (by decide)) (by decide)
  have hphase : m₃.step.2.core.phase = .fetch := by
    subst m₃ m settings
    rfl
  have hw : m.memory.instruction? m₃.step.2.core.latches.pc = some 0x40001033 := by
    subst m₃ m settings
    rfl
  obtain ⟨hregs, -, -⟩ := hstops 4 m₃.step.2 _ hk (by decide) hphase hw hx
  refine ⟨h₃, hsupported, hk, ?_, hregs⟩
  subst m₃ m settings
  rfl

/-- The decoders look at bit 30 of funct7 alone: a multiplication is carried out as an addition. -/
theorem completes_multiplication :
    let m := ((Machine.start {} (.ofProgram [0x022081b3] none) {}).setRegister 1 2).setRegister 2 3
    m.reset.runInstruction.1 = .ok (.retired ⟨0, 0x022081b3, .opReg, 4, none⟩) ∧
      m.reset.runInstruction.2.core.registers.read 3 = 5 ∧
        ¬ Instruction.Canonical 0x022081b3 .opReg := by
  intro m
  refine ⟨?_, ?_, ?_⟩
  · subst m
    rfl
  · subst m
    rfl
  · rintro ⟨-, h⟩
    revert h
    change ¬ (Instruction.funct7 0x022081b3 = 0 ∨ _)
    decide

end Machine

end Multicycle
