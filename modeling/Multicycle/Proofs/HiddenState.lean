import Multicycle.Proofs.Consistency
import Multicycle.Proofs.Precision
import Multicycle.Proofs.Runs

/-! A tick depends on the phase, on the latches that the instruction in flight still uses and on
what the registers read as. Nothing else that a core holds ever shows. -/
namespace Multicycle

namespace Latches

/-- The latches that ticks from phase `p` on use before they write them; the others are blank. -/
def live (l : Latches) (p : Phase) : Latches :=
  match p with
  | .fetch => { pc := l.pc }
  | .decode | .jalrWriteBack | .lui | .auipc => { l with a := 0, b := 0, aluOut := 0, data := 0 }
  | .memAddress | .executeImm | .jalrTarget => { l with b := 0, aluOut := 0, data := 0 }
  | .executeReg => { l with aluOut := 0, data := 0 }
  | .memRead | .aluWriteBack | .jalTarget => { l with a := 0, b := 0, data := 0 }
  | .memWrite => { l with a := 0, data := 0 }
  | .memWriteBack => { l with a := 0, b := 0, aluOut := 0 }
  | .branch => { l with data := 0 }

variable {l : Latches} {p : Phase}

theorem pc_live (l : Latches) (p : Phase) : (l.live p).pc = l.pc := by cases p <;> rfl

theorem instr_live (hp : p ≠ .fetch) :
    (l.live p).instr = l.instr ∧ (l.live p).oldPc = l.oldPc := by
  cases p with
  | fetch => exact absurd rfl hp
  | _ => exact ⟨rfl, rfl⟩

end Latches

namespace Register.File

theorem read_mod (f : File) (i : Nat) : f.read (i % 32) = f.read i := by
  unfold read
  rw [get?_mod]

/-- Whether a register is unwritten or holds zero makes no difference to what a write leaves. -/
theorem read_write_congr {f g : File} (h : f.read = g.read) (i : Nat) (v : Word) :
    (f.write i v).read = (g.write i v).read := by
  funext j
  rw [read_write, read_write, h]

end Register.File

/-- As much of a core as its ticks depend on. -/
structure View where
  phase : Phase
  latches : Latches
  read : Nat → Word

namespace Core

def view (c : Core) : View := ⟨c.phase, c.latches.live c.phase, c.registers.read⟩

variable {σ : Type} {c d : Core} {m : σ} {q : Phase} {l l' : Latches} {v : Word}
  {r : Except Fault Status}

/-- An outcome with no more of the core than its view. -/
def shown (o : Except Fault Status × Core × σ) : Except Fault Status × View × σ :=
  (o.1, o.2.1.view, o.2.2)

theorem phase_eq_of_view (h : c.view = d.view) : c.phase = d.phase := congrArg View.phase h

theorem read_eq_of_view (h : c.view = d.view) : c.registers.read = d.registers.read :=
  congrArg View.read h

theorem live_eq_of_view (h : c.view = d.view) :
    c.latches.live c.phase = d.latches.live c.phase := by
  have hl : c.latches.live c.phase = d.latches.live d.phase := congrArg View.latches h
  rwa [← phase_eq_of_view h] at hl

theorem pc_eq_of_view (h : c.view = d.view) : c.latches.pc = d.latches.pc := by
  have hl := congrArg Latches.pc (live_eq_of_view h)
  rwa [Latches.pc_live, Latches.pc_live] at hl

theorem instr_eq_of_view (h : c.view = d.view) (hf : c.phase ≠ .fetch) :
    c.latches.instr = d.latches.instr ∧ c.latches.oldPc = d.latches.oldPc := by
  have hl := live_eq_of_view h
  have hinstr := congrArg Latches.instr hl
  have hold := congrArg Latches.oldPc hl
  rw [(Latches.instr_live hf).1, (Latches.instr_live hf).1] at hinstr
  rw [(Latches.instr_live hf).2, (Latches.instr_live hf).2] at hold
  exact ⟨hinstr, hold⟩

theorem shown_turn (h : c.view = d.view) (hl : l.live q = l'.live q) :
    shown (r, c.turn q l, m) = shown (r, d.turn q l', m) := by
  have hv : (c.turn q l).view = (d.turn q l').view := by
    change (⟨q, l.live q, c.registers.read⟩ : View) = ⟨q, l'.live q, d.registers.read⟩
    rw [hl, read_eq_of_view h]
  simp only [shown, hv]

theorem shown_retired {op : Opcode} (h : c.view = d.view) (hf : c.phase ≠ .fetch)
    (hl : l.pc = c.latches.pc) (hl' : l'.pc = d.latches.pc) :
    shown (.ok (.retired ⟨c.latches.oldPc, c.latches.instr, op, c.latches.pc, none⟩),
        c.finish l v, m) =
      shown (.ok (.retired ⟨d.latches.oldPc, d.latches.instr, op, d.latches.pc, none⟩),
        d.finish l' v, m) := by
  obtain ⟨hinstr, hold⟩ := instr_eq_of_view h hf
  have hpc := pc_eq_of_view h
  have hv : (c.finish l v).view = (d.finish l' v).view := by
    change (⟨.fetch, { pc := l.pc }, (c.registers.write c.latches.instr.rd v).read⟩ : View) =
      ⟨.fetch, { pc := l'.pc }, (d.registers.write d.latches.instr.rd v).read⟩
    rw [hl, hl', hpc, hinstr, Register.File.read_write_congr (read_eq_of_view h)]
  simp only [shown, hold, hinstr, hpc, hv]

theorem shown_unchanged (h : c.view = d.view) : shown (r, c, m) = shown (r, d, m) := by
  simp only [shown, h]

variable [Memory σ]

theorem shown_tick_fetch (h : c.view = d.view) (hp : c.phase = .fetch) :
    shown (c.tick m).outcome = shown (d.tick m).outcome := by
  have hq : d.phase = .fetch := (phase_eq_of_view h).symm.trans hp
  have hpc := pc_eq_of_view h
  rcases hw : Memory.fetch m d.latches.pc with ⟨_ | w, m'⟩
  · have hw' : Memory.fetch m c.latches.pc = (none, m') := by rw [hpc, hw]
    rw [outcome_tick_fetch_end hp hw', outcome_tick_fetch_end hq hw]
    exact shown_unchanged h
  · have hw' : Memory.fetch m c.latches.pc = (some w, m') := by rw [hpc, hw]
    rw [outcome_tick_fetch hp hw', outcome_tick_fetch hq hw]
    refine shown_turn h ?_
    simp only [Latches.live, hpc]

theorem shown_tick_memRead {op : Opcode} (h : c.view = d.view) (hp : c.phase = .memRead)
    (ho : Opcode.decode c.latches.instr = .ok op) :
    shown (c.tick m).outcome = shown (d.tick m).outcome := by
  have hq : d.phase = .memRead := (phase_eq_of_view h).symm.trans hp
  have hpc := pc_eq_of_view h
  obtain ⟨hinstr, hold⟩ := instr_eq_of_view h (by simp [hp])
  have ho' : Opcode.decode d.latches.instr = .ok op := by rwa [← hinstr]
  have hlive := live_eq_of_view h
  rw [hp] at hlive
  have hout : c.latches.aluOut = d.latches.aluOut := (congrArg Latches.aluOut hlive :)
  rcases hv : Memory.load m d.latches.aluOut with ⟨e | v, m'⟩
  · rw [outcome_tick_memRead_denied hp ho (by rw [hout, hv]),
      outcome_tick_memRead_denied hq ho' hv]
    exact shown_unchanged h
  · rw [outcome_tick_memRead hp ho (by rw [hout, hv]), outcome_tick_memRead hq ho' hv]
    refine shown_turn h ?_
    simp only [Latches.live, reread, hpc, hold, hinstr]

theorem shown_tick_memWrite {op : Opcode} (h : c.view = d.view) (hp : c.phase = .memWrite)
    (ho : Opcode.decode c.latches.instr = .ok op) :
    shown (c.tick m).outcome = shown (d.tick m).outcome := by
  have hq : d.phase = .memWrite := (phase_eq_of_view h).symm.trans hp
  have hpc := pc_eq_of_view h
  obtain ⟨hinstr, hold⟩ := instr_eq_of_view h (by simp [hp])
  have ho' : Opcode.decode d.latches.instr = .ok op := by rwa [← hinstr]
  have hlive := live_eq_of_view h
  rw [hp] at hlive
  have hout : c.latches.aluOut = d.latches.aluOut := (congrArg Latches.aluOut hlive :)
  have hb : c.latches.b = d.latches.b := (congrArg Latches.b hlive :)
  rcases hv : Memory.store m d.latches.aluOut d.latches.b with ⟨e | u, m'⟩
  · rw [outcome_tick_memWrite_denied hp ho (by rw [hout, hb, hv]),
      outcome_tick_memWrite_denied hq ho' hv]
    exact shown_unchanged h
  · rw [outcome_tick_memWrite hp ho (by rw [hout, hb, hv]), outcome_tick_memWrite hq ho' hv, hold,
      hinstr, hpc]
    refine shown_turn h ?_
    simp only [Latches.live, reread, hpc]

theorem shown_tick_writesBack {op : Opcode} (h : c.view = d.view) (hw : c.phase.writesBack = true)
    (ho : Opcode.decode c.latches.instr = .ok op) :
    shown (c.tick m).outcome = shown (d.tick m).outcome := by
  have hf : c.phase ≠ .fetch := by
    intro hf
    simp [hf, Phase.writesBack] at hw
  have hphase := phase_eq_of_view h
  have hlive := live_eq_of_view h
  obtain ⟨hinstr, hold⟩ := instr_eq_of_view h hf
  have hi : c.imm op = d.imm op := by rw [imm, imm, hinstr]
  have ho' : Opcode.decode d.latches.instr = .ok op := by rwa [← hinstr]
  cases hp : c.phase with
  | memWriteBack =>
    rw [hp] at hlive hphase
    have hdata : c.latches.data = d.latches.data := (congrArg Latches.data hlive :)
    rw [outcome_tick_memWriteBack hp ho, outcome_tick_memWriteBack hphase.symm ho', hdata]
    exact shown_retired h hf rfl rfl
  | aluWriteBack =>
    rw [hp] at hlive hphase
    have hout : c.latches.aluOut = d.latches.aluOut := (congrArg Latches.aluOut hlive :)
    rw [outcome_tick_aluWriteBack hp ho, outcome_tick_aluWriteBack hphase.symm ho', hout]
    exact shown_retired h hf rfl rfl
  | jalrWriteBack =>
    rw [hp] at hphase
    rw [outcome_tick_jalrWriteBack hp ho, outcome_tick_jalrWriteBack hphase.symm ho']
    have hlink : c.latches.oldPc + 4 = d.latches.oldPc + 4 := by rw [hold]
    rw [hlink]
    exact shown_retired h hf rfl rfl
  | lui =>
    rw [hp] at hphase
    rw [outcome_tick_lui hp ho, outcome_tick_lui hphase.symm ho', hi]
    exact shown_retired h hf rfl rfl
  | auipc =>
    rw [hp] at hphase
    rw [outcome_tick_auipc hp ho, outcome_tick_auipc hphase.symm ho']
    have hsum : c.latches.oldPc + c.imm op = d.latches.oldPc + d.imm op := by rw [hold, hi]
    rw [hsum]
    exact shown_retired h hf rfl rfl
  | _ => simp [hp, Phase.writesBack] at hw

/-- A tick past the fetch that the decoders let pass. -/
theorem shown_tick_decoded {op : Opcode} {s : Signals} (h : c.view = d.view)
    (hf : c.phase ≠ .fetch) (ho : Opcode.decode c.latches.instr = .ok op)
    (hs : c.phase.signals c.latches.instr = .ok s) :
    shown (c.tick m).outcome = shown (d.tick m).outcome := by
  have hphase := phase_eq_of_view h
  have hlive := live_eq_of_view h
  have hread := read_eq_of_view h
  have hpc := pc_eq_of_view h
  obtain ⟨hinstr, hold⟩ := instr_eq_of_view h hf
  have hi : c.imm op = d.imm op := by rw [imm, imm, hinstr]
  have ho' : Opcode.decode d.latches.instr = .ok op := by rwa [← hinstr]
  cases hp : c.phase with
  | fetch => exact absurd hp hf
  | memRead => exact shown_tick_memRead h hp ho
  | memWrite => exact shown_tick_memWrite h hp ho
  | memWriteBack | aluWriteBack | jalrWriteBack | lui | auipc =>
    exact shown_tick_writesBack h (by rw [hp]; rfl) ho
  | decode =>
    rw [hp] at hphase
    rw [outcome_tick_decode hp ho, outcome_tick_decode hphase.symm ho']
    refine shown_turn h ?_
    -- Only a branch and a jump to a fixed offset use what the unit puts out here.
    cases op <;> simp only [Phase.afterDecode, Latches.live, reread, hpc, hold, hinstr, hread, hi]
  | memAddress =>
    rw [hp] at hlive hphase
    have ha : c.latches.a = d.latches.a := (congrArg Latches.a hlive :)
    rw [outcome_tick_memAddress hp ho, outcome_tick_memAddress hphase.symm ho']
    refine shown_turn h ?_
    split <;> simp only [Latches.live, reread, hpc, hold, hinstr, hread, hi, ha]
  | executeImm =>
    rw [hp] at hs hlive hphase
    obtain ⟨o, hd, -⟩ := map_eq_ok_iff.mp hs
    have ha : c.latches.a = d.latches.a := (congrArg Latches.a hlive :)
    rw [outcome_tick_executeImm hp ho hd,
      outcome_tick_executeImm hphase.symm ho' (by rwa [← hinstr])]
    refine shown_turn h ?_
    simp only [Latches.live, reread, hpc, hold, hinstr, hi, ha]
  | executeReg =>
    rw [hp] at hs hlive hphase
    obtain ⟨o, hd, -⟩ := map_eq_ok_iff.mp hs
    have ha : c.latches.a = d.latches.a := (congrArg Latches.a hlive :)
    have hb : c.latches.b = d.latches.b := (congrArg Latches.b hlive :)
    rw [outcome_tick_executeReg hp ho hd,
      outcome_tick_executeReg hphase.symm ho' (by rwa [← hinstr])]
    refine shown_turn h ?_
    simp only [Latches.live, reread, hpc, hold, hinstr, ha, hb]
  | branch =>
    rw [hp] at hs hlive hphase
    obtain ⟨k, hk, -⟩ := map_eq_ok_iff.mp hs
    have ha : c.latches.a = d.latches.a := (congrArg Latches.a hlive :)
    have hb : c.latches.b = d.latches.b := (congrArg Latches.b hlive :)
    have hout : c.latches.aluOut = d.latches.aluOut := (congrArg Latches.aluOut hlive :)
    rw [outcome_tick_branch hp ho hk, outcome_tick_branch hphase.symm ho' (by rwa [← hinstr]),
      hold, hinstr, hpc, ha, hb, hout]
    exact shown_turn h rfl
  | jalrTarget =>
    rw [hp] at hlive hphase
    have ha : c.latches.a = d.latches.a := (congrArg Latches.a hlive :)
    rw [outcome_tick_jalrTarget hp ho, outcome_tick_jalrTarget hphase.symm ho']
    refine shown_turn h ?_
    simp only [Latches.live, reread, hold, hinstr, hi, ha]
  | jalTarget =>
    rw [hp] at hlive hphase
    have hout : c.latches.aluOut = d.latches.aluOut := (congrArg Latches.aluOut hlive :)
    rw [outcome_tick_jalTarget hp ho, outcome_tick_jalTarget hphase.symm ho']
    refine shown_turn h ?_
    simp only [Latches.live, reread, hold, hinstr, hout]

theorem shown_tick_undecodable {f : Fault} (h : c.view = d.view) (hf : c.phase ≠ .fetch)
    (hs : c.phase.signals c.latches.instr = .error f) :
    shown (c.tick m).outcome = shown (d.tick m).outcome := by
  have hsd : d.phase.signals d.latches.instr = .error f := by
    rw [← phase_eq_of_view h, ← (instr_eq_of_view h hf).1, hs]
  rw [tick_of_plan_error (plan_of_signals_error hs),
    tick_of_plan_error (plan_of_signals_error hsd)]
  exact shown_unchanged h

theorem shown_tick (h : c.view = d.view) (hc : c.Consistent) :
    shown (c.tick m).outcome = shown (d.tick m).outcome := by
  by_cases hf : c.phase = .fetch
  · exact shown_tick_fetch h hf
  · cases hs : c.phase.signals c.latches.instr with
    | error f => exact shown_tick_undecodable h hf hs
    | ok s =>
      obtain ⟨op, ho⟩ := hc.exists_opcode hf hs
      exact shown_tick_decoded h hf ho hs

theorem Consistent.ticks (hc : c.Consistent) (m : σ) (n : Nat) :
    (c.ticks m n).core.Consistent := by
  induction n with
  | zero => exact hc
  | succ n ih => exact ih.tick _

/-- Cores that look alike go through the same ticks. -/
theorem ticks_eq_of_view (h : c.view = d.view) (hc : c.Consistent) (m : σ) (n : Nat) :
    (c.ticks m n).results = (d.ticks m n).results ∧
      (c.ticks m n).core.view = (d.ticks m n).core.view ∧
      (c.ticks m n).memory = (d.ticks m n).memory := by
  induction n with
  | zero => exact ⟨rfl, h, rfl⟩
  | succ n ih =>
    obtain ⟨hresults, hview, hmemory⟩ := ih
    have hshown := shown_tick (m := (c.ticks m n).memory) hview (hc.ticks m n)
    rw [hmemory] at hshown
    have hresult := congrArg Prod.fst hshown
    have hcore := congrArg (·.2.1) hshown
    have hleft := congrArg (·.2.2) hshown
    refine ⟨?_, ?_, ?_⟩
    · change (c.ticks m n).results ++ [((c.ticks m n).core.tick (c.ticks m n).memory).result] = _
      rw [hresults, hmemory]
      exact congrArg (fun r => (d.ticks m n).results ++ [r]) hresult
    · change ((c.ticks m n).core.tick (c.ticks m n).memory).core.view = _
      rw [hmemory]
      exact hcore
    · change ((c.ticks m n).core.tick (c.ticks m n).memory).memory = _
      rw [hmemory]
      exact hleft

/-- Between instructions a core shows only its program counter and what its registers read as, over
any memory and any ticks. -/
theorem hidden_state_never_shows (hc : c.phase = .fetch) (hd : d.phase = .fetch)
    (hpc : c.latches.pc = d.latches.pc)
    (hread : ∀ i < 32, c.registers.read i = d.registers.read i) (m : σ) (n : Nat) :
    (c.ticks m n).results = (d.ticks m n).results ∧
      (c.ticks m n).core.phase = (d.ticks m n).core.phase ∧
      (c.ticks m n).core.latches.pc = (d.ticks m n).core.latches.pc ∧
      (c.ticks m n).memory = (d.ticks m n).memory ∧
      ∀ i, (c.ticks m n).core.registers.read i = (d.ticks m n).core.registers.read i := by
  have hregs : c.registers.read = d.registers.read := by
    funext i
    rw [← Register.File.read_mod c.registers, ← Register.File.read_mod d.registers]
    exact hread _ (Nat.mod_lt i (by decide))
  have hview : c.view = d.view := by
    simp only [view, hc, hd, Latches.live, hpc, hregs]
  have hconsistent : c.Consistent := fun hf => absurd hc hf
  obtain ⟨hresults, hend, hmemory⟩ := ticks_eq_of_view hview hconsistent m n
  exact ⟨hresults, phase_eq_of_view hend, pc_eq_of_view hend, hmemory,
    congrFun (read_eq_of_view hend)⟩

/-- Neither an operand that an old instruction left nor an unwritten register shows in where a jump
goes. -/
theorem hidden_state_never_shows_jalr :
    let f : Register.File := ({} : Register.File).write 3 5
    let stale : Latches := { instr := 0x00018000, a := 1, data := 2 }
    let c : Core := { latches := stale, registers := f, cycle := 7 }
    let d : Core := { registers := f.write 2 0 }
    let m := Harvard.ofProgram [0x008100e7] none
    (∀ i < 32, c.registers.read i = d.registers.read i) ∧
      c.registers.get? 2 ≠ d.registers.get? 2 ∧
      (c.ticks m 2).core.latches.aluOut = 13 ∧ (d.ticks m 2).core.latches.aluOut = 8 ∧
      (c.ticks m 5).results = [.ok .running, .ok .running, .ok .running,
        .ok (.retired ⟨0, 0x008100e7, .jalr, 8, none⟩), .ok .halted] := by
  intro f stale c d m
  have hread : ∀ i < 32, c.registers.read i = d.registers.read i := by decide
  have hout : (c.ticks m 2).core.latches.aluOut = 13 ∧ (d.ticks m 2).core.latches.aluOut = 8 := by
    subst m d c stale f
    exact ⟨rfl, rfl⟩
  have hresults : (d.ticks m 5).results = [.ok .running, .ok .running, .ok .running,
      .ok (.retired ⟨0, 0x008100e7, .jalr, 8, none⟩), .ok .halted] := by
    subst m d f
    rfl
  obtain ⟨heq, -⟩ := hidden_state_never_shows (c := c) (d := d) rfl rfl rfl hread m 5
  exact ⟨hread, by decide, hout.1, hout.2, heq.trans hresults⟩

end Core

end Multicycle
