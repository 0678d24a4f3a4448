import Multicycle.Proofs.Runs

/-! What a run leaves behind that reports a loop of one instruction: the loop goes on for ever and
shows nothing new, unless it is a jump that overwrites the register its target comes from. -/
namespace Multicycle

namespace Instruction

/-- An indirect jump that links over its own base register, and goes elsewhere from there. -/
def Relinks (w : Instruction) : Prop :=
  Opcode.decode w = .ok .jalr ∧ w.rd = w.rs1 ∧ w.rd ≠ 0 ∧ Opcode.jalr.immediate w ≠ -4

/-- Where the registers read as those of `g`, carrying out `w` at `p` leads back to `p` and leaves
them that way. -/
def Idles (w : Instruction) (op : Opcode) (p : Word) (g : Register.File) : Prop :=
  ∀ f : Register.File, (∀ i, f.read i = g.read i) → ∀ m : Harvard,
    ∃ e, w.execute op p f m = (.ok e, m) ∧ e.pc = p ∧ ∀ i, e.registers.read i = g.read i

variable {w : Instruction} {op : Opcode} {p : Word} {f : Register.File} {m m' : Harvard}
  {e : Completion}

theorem execute_jalr (h : w.execute .jalr p f m = (.ok e, m')) :
    e.pc = f.read w.rs1 + Opcode.jalr.immediate w ∧ e.registers = f.write w.rd (p + 4) := by
  cases h
  exact ⟨rfl, rfl⟩

theorem read_write_again {f g : Register.File} {i : Nat} {v : Word}
    (h : ∀ j, g.read j = (f.write i v).read j) (j : Nat) :
    (g.write i v).read j = (f.write i v).read j := by
  rw [Register.File.read_write, h, Register.File.read_write]
  split <;> rfl

theorem opcode_jumps (h : w.execute op p f m = (.ok e, m')) (hpc : e.pc = p) :
    op = .branch ∨ op = .jalr ∨ op = .jal := by
  have hnext : e.pc = p + 4 → False := by
    rw [hpc]
    bv_omega
  cases op with
  | branch | jalr | jal => simp
  | load | store =>
    simp only [execute] at h
    split at h <;> cases h
    exact absurd rfl hnext
  | _ =>
    cases h
    exact absurd rfl hnext

theorem idles_branch (h : w.execute .branch p f m = (.ok e, m')) (hpc : e.pc = p) :
    w.Idles .branch p e.registers := by
  cases h
  intro g hg m
  refine ⟨_, rfl, ?_, hg⟩
  have hreads : ∀ i, g.read i = f.read i := hg
  simp only [hreads]
  exact hpc

theorem idles_jal (h : w.execute .jal p f m = (.ok e, m')) (hpc : e.pc = p) :
    w.Idles .jal p e.registers := by
  cases h
  intro g hg m
  exact ⟨_, rfl, hpc, read_write_again hg⟩

theorem idles_jalr (h : w.execute .jalr p f m = (.ok e, m')) (hpc : e.pc = p)
    (hw : w.rd = w.rs1 → w.rd ≠ 0 → Opcode.jalr.immediate w = -4) :
    w.Idles .jalr p e.registers := by
  obtain ⟨htarget, hregs⟩ := execute_jalr h
  intro g hg m
  rw [hregs] at hg ⊢
  refine ⟨_, rfl, ?_, read_write_again hg⟩
  change g.read w.rs1 + Opcode.jalr.immediate w = p
  rw [hg, Register.File.read_write]
  split
  · next hr =>
    rw [Nat.mod_eq_of_lt w.rd_lt, Nat.mod_eq_of_lt w.rs1_lt] at hr
    rw [hw hr.2 hr.1]
    bv_omega
  · exact htarget.symm.trans hpc

/-- A jump that has relinked finds the next instruction in its base register. -/
theorem Relinks.pc_ne (hw : w.Relinks) (h : w.execute .jalr p f m = (.ok e, m')) {g : Register.File}
    (hg : ∀ i, g.read i = e.registers.read i) : g.read w.rs1 + Opcode.jalr.immediate w ≠ p := by
  obtain ⟨-, hr, h0, hi⟩ := hw
  have hbase : g.read w.rs1 = p + 4 := by
    have hrd := w.rd_lt
    rw [hg, (execute_jalr h).2, Register.File.read_write, ← hr, if_pos]
    omega
  rw [hbase]
  bv_omega

/-- An instruction that has led back to itself does so again, if it keeps where it comes from. -/
theorem idles_of_selfLoop (h : w.execute op p f m = (.ok e, m')) (hpc : e.pc = p)
    (ho : Opcode.decode w = .ok op) (hw : ¬ w.Relinks) : w.Idles op p e.registers := by
  rcases opcode_jumps h hpc with rfl | rfl | rfl
  · exact idles_branch h hpc
  · refine idles_jalr h hpc fun hr h0 => ?_
    exact Classical.byContradiction fun hi => hw ⟨ho, hr, h0, hi⟩
  · exact idles_jal h hpc

end Instruction

namespace Core

variable {c : Core} {m : Harvard} {w : Instruction} {op : Opcode} {p : Word} {g : Register.File}

/-- The instruction at `p` on its way, or about to be fetched, over registers that read as `g`. -/
structure Circles (c : Core) (m : Harvard) (p : Word) (g : Register.File) : Prop where
  flight : c.InFlight m
  address : c.address = p
  registers : ∀ i, c.registers.read i = g.read i

theorem Circles.not_stalls (h : c.Circles m p g) (hw : m.instruction? p = some w)
    (ho : Opcode.decode w = .ok op) (hs : w.Supported op) (hop : op ≠ .load ∧ op ≠ .store) :
    ¬ Stalls (c.tick m).result := by
  rw [← h.address] at hw
  by_cases hp : c.phase = .fetch
  · rw [Core.address, if_pos hp] at hw
    have hfetch : Memory.fetch m c.latches.pc = (some w, m) := Prod.ext hw rfl
    have ht : (c.tick m).result = .ok .running := congrArg Prod.fst (outcome_tick_fetch hp hfetch)
    rw [ht]
    simp
  · obtain rfl := h.flight.instr_eq hp hw
    exact h.flight.not_stalls hp ho hs hop

/-- Where the instruction at `p` idles, a step that brings something about leads around. -/
theorem Stride.circles {t : Except Fault Status × Core × Harvard} (ht : c.Stride m t)
    (h : c.Circles m p g) (hgo : ¬ Stalls t.1) (hw : m.instruction? p = some w)
    (ho : Opcode.decode w = .ok op) (hi : w.Idles op p g) :
    t.2.2 = m ∧ t.2.1.Circles m p g ∧
      ∀ r, t.1 = .ok (.retired r) → r.pc = p ∧ r.nextPc = p := by
  have hflight := ht.inFlight h.flight
  rcases t with ⟨f | s, c', m'⟩
  · exact absurd (.inr ⟨f, rfl⟩) hgo
  · cases s with
    | halted => exact absurd (.inl rfl) hgo
    | running =>
      obtain ⟨rfl, haddress, hregs⟩ := ht.running
      refine ⟨rfl, ⟨hflight, haddress.trans h.address, ?_⟩, by simp⟩
      simp only [hregs]
      exact h.registers
    | retired r =>
      cases ht with
      | stalled hr => exact absurd hr hgo
      | retired hp hfetch ho' hs' heff hq hpc hregs =>
        rw [← h.address] at hw
        obtain rfl := h.flight.instr_eq hp hw
        cases ho.symm.trans ho'
        have hold := h.address
        rw [Core.address, if_neg hp] at hold
        obtain ⟨e, he, hback, hreads⟩ := hi c.registers h.registers m
        rw [← hold] at he
        cases heff.symm.trans he
        refine ⟨rfl, ⟨hflight, ?_, ?_⟩, ?_⟩
        · rw [Core.address, if_pos hq, hpc, hback]
        · simp only [hregs]
          exact hreads
        · rintro r ⟨⟩
          exact ⟨hold, hback⟩

end Core

namespace Machine

variable {m m' : Machine} {w : Instruction} {op : Opcode} {p : Word}

/-- `m'` goes on, completes nothing but an instruction at `p` that leads back to `p`, and shows the
registers and data of `m`. -/
structure IdlesAt (m m' : Machine) (p : Word) : Prop where
  goesOn : ¬ Stalls m'.step.1
  loops : ∀ r, m'.step.1 = .ok (.retired r) → r.pc = p ∧ r.nextPc = p
  registers : ∀ i, m'.core.registers.read i = m.core.registers.read i
  data : ∀ a, m'.memory.peek? a = m.memory.peek? a

/-- However many steps are made, nothing happens but the instruction at `p`, to no effect. -/
def Parked (m : Machine) (p : Word) : Prop := ∀ m', m.StepsTo m' → m.IdlesAt m' p

theorem step_of_circles {g : Register.File} (hc : m.core.Circles m.memory p g)
    (hw : m.memory.instruction? p = some w) (ho : Opcode.decode w = .ok op) (hs : w.Supported op)
    (hop : op ≠ .load ∧ op ≠ .store) (hi : w.Idles op p g) :
    ¬ Stalls m.step.1 ∧ (∀ r, m.step.1 = .ok (.retired r) → r.pc = p ∧ r.nextPc = p) ∧
      m.step.2.memory = m.memory ∧ m.step.2.core.Circles m.memory p g := by
  have hgo : ¬ Stalls m.step.1 := by
    rw [step_result]
    exact hc.not_stalls hw ho hs hop
  have hflight : m.InFlight := hc.flight
  obtain ⟨hmemory, hcircles, hloops⟩ := hflight.stride.circles hc hgo hw ho hi
  exact ⟨hgo, hloops, hmemory, hcircles⟩

theorem parked_of_idles (hflight : m.InFlight) (hp : m.core.address = p)
    (hw : m.memory.instruction? p = some w) (ho : Opcode.decode w = .ok op) (hs : w.Supported op)
    (hop : op ≠ .load ∧ op ≠ .store) (hi : w.Idles op p m.core.registers) : m.Parked p := by
  have hstep : ∀ a : Machine,
      a.memory = m.memory ∧ a.core.Circles m.memory p m.core.registers →
        ¬ Stalls a.step.1 ∧ (∀ r, a.step.1 = .ok (.retired r) → r.pc = p ∧ r.nextPc = p) ∧
          a.step.2.memory = m.memory ∧ a.step.2.core.Circles m.memory p m.core.registers := by
    rintro a ⟨hmemory, hc⟩
    rw [← hmemory] at hc hw ⊢
    exact step_of_circles hc hw ho hs hop hi
  -- At every step the same instruction is on its way, over the same memory and registers.
  intro m' hm'
  have h := hm'.preserves
    (P := fun a => a.memory = m.memory ∧ a.core.Circles m.memory p m.core.registers)
    (fun a ha => (hstep a ha).2.2) ⟨rfl, hflight, hp, fun _ => rfl⟩
  obtain ⟨hgo, hloops, -⟩ := hstep m' h
  exact ⟨hgo, hloops, h.2.registers, fun a => by rw [h.1]⟩

theorem Parked.exists_completes (h : m.Parked p) (hflight : m.InFlight) :
    ∃ m₁ r e m₂, m.StepsTo m₁ ∧ m₁.Completes r e m₂ ∧ r.pc = p ∧ e.pc = p := by
  obtain ⟨m₁, hm₁, hstep⟩ := m.runInstruction_eq_step
  have hidle := h m₁ hm₁
  rcases hs : m₁.step with ⟨f | s, m₂⟩
  · exact absurd (.inr ⟨f, by rw [hs]⟩) hidle.goesOn
  · cases s with
    | running => exact absurd (by rw [← hstep, hs]) m.runInstruction_ne_running
    | halted => exact absurd (.inl (by rw [hs])) hidle.goesOn
    | retired r =>
      obtain ⟨hpc, hnext⟩ := hidle.loops r (by rw [hs])
      obtain ⟨e, he⟩ := (hflight.steps hm₁).completes hs
      exact ⟨m₁, r, e, m₂, hm₁, he, hpc, he.nextPc.symm.trans hnext⟩

namespace Completes

variable {r : Retirement} {e : Completion}

theorem parked (h : m.Completes r e m') (hw : m'.memory.instruction? r.pc = some r.instr)
    (hback : e.pc = r.pc) (hrelinks : ¬ Instruction.Relinks r.instr) : m'.Parked r.pc := by
  have hi := Instruction.idles_of_selfLoop h.effect hback h.opcode hrelinks
  rw [← h.registers] at hi
  have hop : r.opcode ≠ .load ∧ r.opcode ≠ .store := by
    rcases Instruction.opcode_jumps h.effect hback with hop | hop | hop <;> simp [hop]
  have haddress : m'.core.address = r.pc := (if_pos h.phase).trans (h.pc.trans hback)
  exact parked_of_idles (.fetch h.phase) haddress hw h.opcode h.supported hop hi

theorem not_parked (h : m.Completes r e m') (hw : m'.memory.instruction? r.pc = some r.instr)
    (hrelinks : Instruction.Relinks r.instr) : ¬ m'.Parked r.pc := by
  intro hparked
  obtain ⟨m₁, r₁, e₁, m₂, hm₁, h₁, hpc, hback⟩ := hparked.exists_completes (.fetch h.phase)
  have hw₁ := h₁.fetched
  rw [hpc, hm₁.instruction?_eq] at hw₁
  have hinstr : r₁.instr = r.instr := Option.some.inj (hw₁.symm.trans hw)
  have heff := h.effect
  have heff₁ := h₁.effect
  have ho₁ := h₁.opcode
  rw [hinstr] at heff₁ ho₁
  rw [Except.ok.inj (h.opcode.symm.trans hrelinks.1)] at heff
  rw [Except.ok.inj (ho₁.symm.trans hrelinks.1)] at heff₁
  have hreads : ∀ i, m₁.core.registers.read i = e.registers.read i := by
    intro i
    rw [(hparked m₁ hm₁).registers, h.registers]
  exact hrelinks.pc_ne heff hreads ((Instruction.execute_jalr heff₁).1.symm.trans hback)

end Completes

/-- A run that reports a loop leaves a parked machine, except where the instruction is a jump over
its own base register. -/
theorem run_selfLoop_parked_iff (h : m.reset.run = (.ok (.selfLoop p), m')) :
    ∃ w : Instruction, m.memory.instruction? p = some w ∧ (m'.Parked p ↔ ¬ w.Relinks) := by
  obtain ⟨m₁, r, log, hm₁, hs, rfl, hnext⟩ := run_eq_selfLoop h
  obtain ⟨e, he⟩ := (m.reset_inFlight.steps hm₁).completes hs
  have hw : m.memory.instruction? r.pc = some r.instr :=
    (hm₁.instruction?_eq r.pc).symm.trans he.fetched
  have hw' : m'.memory.instruction? r.pc = some r.instr := by
    have hi := (StepsTo.step hm₁).instruction?_eq r.pc
    rw [hs] at hi
    exact hi.trans hw
  have he' : m₁.Completes r e m' := { he with }
  have hback : e.pc = r.pc := he.nextPc.symm.trans hnext
  refine ⟨r.instr, hw, ?_, he'.parked hw' hback⟩
  intro hparked hrelinks
  exact he'.not_parked hw' hrelinks hparked

/-- A branch that always goes back to itself, after an instruction of another kind. -/
theorem run_selfLoop_parked_iff_branch :
    let settings : Settings := { general := { maxCycles := 8 } }
    let m := Machine.start settings (.ofProgram [0x00500093, 0x00000063] none) {}
    m.reset.run.1 = .ok (.selfLoop 4) ∧ m.reset.run.2.Parked 4 := by
  intro settings m
  have hrun : m.reset.run.1 = .ok (.selfLoop 4) := by
    subst m settings
    rfl
  obtain ⟨w, hw, hiff⟩ := run_selfLoop_parked_iff (Prod.ext hrun rfl)
  have hinstr : m.memory.instruction? 4 = some 0x00000063 := by
    subst m settings
    rfl
  cases hinstr.symm.trans hw
  refine ⟨hrun, hiff.mpr fun hrelinks => ?_⟩
  have ho : Opcode.decode 0x00000063 = .ok .branch := Opcode.decode_eq_ok_iff.mpr (by decide)
  cases ho.symm.trans hrelinks.1

/-- An indirect jump over its own base register is reported as a loop, and leaves it the next
time. -/
theorem not_parked_of_relinking :
    let settings : Settings := { general := { maxCycles := 8 } }
    let m := Machine.start settings (.ofProgram [0x000080e7] none) {}
    m.reset.run.1 = .ok (.selfLoop 0) ∧ ¬ m.reset.run.2.Parked 0 := by
  intro settings m
  have hrun : m.reset.run.1 = .ok (.selfLoop 0) := by
    subst m settings
    rfl
  have hstep : m.reset.run.2.step.2.step.2.step.2.step.1 =
      .ok (.retired ⟨0, 0x000080e7, .jalr, 4, none⟩) := by
    subst m settings
    rfl
  refine ⟨hrun, fun h => ?_⟩
  have hidle := h _ (.step (.step (.step .refl)))
  exact absurd (hidle.loops _ hstep).2 (by decide)

end Machine

end Multicycle
