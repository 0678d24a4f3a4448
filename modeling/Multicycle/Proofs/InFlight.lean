import Multicycle.Proofs.Atomicity
import Multicycle.Proofs.Consistency
import Multicycle.Proofs.Refinement

/-! An instruction on its way from its fetch: what its latches hold in each phase, and what a tick is
to the instruction as a whole. -/
namespace Multicycle.Core

variable {σ : Type} [Memory σ] {c c' : Core} {m m' : σ} {op : Opcode} {p q : Phase}

/-- The word after the instruction, or its target once a jump has gone there. -/
def duePc (c : Core) (op : Opcode) : Phase → Word
  | .aluWriteBack =>
    if op = .jal then c.latches.oldPc + op.immediate c.latches.instr else c.latches.oldPc + 4
  | .jalrWriteBack => c.registers.read c.latches.instr.rs1 + op.immediate c.latches.instr
  | _ => c.latches.oldPc + 4

/-- What the arithmetic unit has put out, in the phases that use it. -/
def dueOut (c : Core) (op : Opcode) (p : Phase) : Option Word :=
  let w := c.latches.instr
  let a := c.registers.read w.rs1
  match p, op with
  | .branch, _ | .jalTarget, _ => some (c.latches.oldPc + op.immediate w)
  | .memRead, _ | .memWrite, _ => some (a + op.immediate w)
  | .aluWriteBack, .jal => some (c.latches.oldPc + 4)
  | .aluWriteBack, .opImm =>
    some ((Alu.Op.selected w.funct3 (w.funct3 == 0b101 && w.bit 30)).eval a w.secondOperand)
  | .aluWriteBack, .opReg =>
    some ((Alu.Op.selected w.funct3 (w.bit 30)).eval a (c.registers.read w.rs2))
  | _, _ => none

/-- An instruction of opcode `op` past decoding. -/
structure Decoded (c : Core) (m : σ) (op : Opcode) : Prop where
  opcode : Opcode.decode c.latches.instr = .ok op
  phase : c.phase ∈ op.path.drop 2
  fetched : Memory.fetch m c.latches.oldPc = (some c.latches.instr, m)
  a : c.latches.a = c.registers.read c.latches.instr.rs1
  b : c.latches.b = c.registers.read c.latches.instr.rs2
  pc : c.latches.pc = c.duePc op c.phase
  out : ∀ v ∈ c.dueOut op c.phase, c.latches.aluOut = v
  loaded : c.phase = .memWriteBack →
    Memory.load m (c.registers.read c.latches.instr.rs1 + op.immediate c.latches.instr) =
      (.ok c.latches.data, m)
  supported : c.phase = .aluWriteBack → c.latches.instr.Supported op

/-- A core between instructions, or with one on its way. -/
inductive InFlight (c : Core) (m : σ) : Prop where
  | fetch (phase : c.phase = .fetch)
  | decode (phase : c.phase = .decode) (pc : c.latches.pc = c.latches.oldPc + 4)
      (fetched : Memory.fetch m c.latches.oldPc = (some c.latches.instr, m))
  | past {op : Opcode} (h : c.Decoded m op)

/-- A tick as the instructions see it: nothing, a start, a move that shows nothing yet, or a
completion. -/
inductive Stride (c : Core) (m : σ) : Except Fault Status × Core × σ → Prop where
  | stalled {r : Except Fault Status} (h : Stalls r) : Stride c m (r, c, m)
  | started {w : Instruction} {c' : Core} (phase : c.phase = .fetch)
      (fetched : Memory.fetch m c.latches.pc = (some w, m)) (next : c'.phase = .decode)
      (oldPc : c'.latches.oldPc = c.latches.pc) (instr : c'.latches.instr = w)
      (registers : c'.registers = c.registers) (flight : c'.InFlight m) :
    Stride c m (.ok .running, c', m)
  | continued {c' : Core} (phase : c.phase ≠ .fetch) (next : c'.phase ≠ .fetch)
      (oldPc : c'.latches.oldPc = c.latches.oldPc) (instr : c'.latches.instr = c.latches.instr)
      (registers : c'.registers = c.registers) (flight : c'.InFlight m) :
    Stride c m (.ok .running, c', m)
  | retired {op : Opcode} {e : Completion} {c' : Core} {m' : σ} (phase : c.phase ≠ .fetch)
      (fetched : Memory.fetch m c.latches.oldPc = (some c.latches.instr, m))
      (opcode : Opcode.decode c.latches.instr = .ok op)
      (supported : c.latches.instr.Supported op)
      (effect : c.latches.instr.execute op c.latches.oldPc c.registers m = (.ok e, m'))
      (next : c'.phase = .fetch) (pc : c'.latches.pc = e.pc)
      (registers : c'.registers = e.registers) :
    Stride c m (.ok (.retired ⟨c.latches.oldPc, c.latches.instr, op, e.pc, e.taken⟩), c', m')

/-- Where the instruction in flight comes from, or the next one will. -/
def address (c : Core) : Word := if c.phase = .fetch then c.latches.pc else c.latches.oldPc

/-- Before an instruction completes, nothing but the core's own latches has changed. -/
theorem Stride.running (h : c.Stride m (.ok .running, c', m')) :
    m' = m ∧ c'.address = c.address ∧ c'.registers = c.registers := by
  cases h with
  | stalled hr => cases stalls_ok_iff.mp hr
  | started hp _ hq hold _ hregs _ =>
    refine ⟨rfl, ?_, hregs⟩
    rw [address, address, if_pos hp, if_neg (by simp [hq]), hold]
  | continued hp hq hold _ hregs _ =>
    refine ⟨rfl, ?_, hregs⟩
    rw [address, address, if_neg hp, if_neg hq, hold]

theorem Stride.inFlight {t : Except Fault Status × Core × σ} (h : c.Stride m t)
    (hc : c.InFlight m) : t.2.1.InFlight t.2.2 := by
  cases h with
  | stalled _ => exact hc
  | started _ _ _ _ _ _ flight => exact flight
  | continued _ _ _ _ _ flight => exact flight
  | retired _ _ _ _ _ next _ _ => exact .fetch next

theorem exists_signals (hs : ¬ Stalls (c.tick m).result) :
    ∃ s, c.phase.signals c.latches.instr = .ok s := by
  cases h : c.phase.signals c.latches.instr with
  | ok s => exact ⟨s, rfl⟩
  | error f => exact absurd (.inr ⟨f, by rw [tick_of_plan_error (plan_of_signals_error h)]⟩) hs

theorem exists_fetched (hp : c.phase = .fetch) (hs : ¬ Stalls (c.tick m).result) :
    ∃ w m', Memory.fetch m c.latches.pc = (some w, m') := by
  rcases hw : Memory.fetch m c.latches.pc with ⟨_ | w, m'⟩
  · have hend := congrArg Prod.fst (outcome_tick_fetch_end hp hw)
    exact absurd (.inl hend) hs
  · exact ⟨w, m', rfl⟩

namespace Decoded

variable {x y z : Word}

theorem phase_ne_fetch (h : c.Decoded m op) : c.phase ≠ .fetch := by
  intro hp
  have hmem := h.phase
  rw [hp] at hmem
  revert hmem
  cases op <;> decide

theorem phase_of_pair (h : c.Decoded m op) (ho : op.path.drop 2 = [p, q]) :
    c.phase = p ∨ c.phase = q := by
  simpa [ho] using h.phase

theorem pc_eq (h : c.Decoded m op) (hp : c.phase = p) : c.latches.pc = c.duePc op p := by
  rw [h.pc, hp]

theorem aluOut_eq {v : Word} (h : c.Decoded m op) (hp : c.phase = p)
    (hv : c.dueOut op p = some v) : c.latches.aluOut = v := by
  rw [← hp] at hv
  exact h.out v hv

theorem stride_turn (h : c.Decoded m op) (hq : q ∈ op.path.drop 2) (hx : x = c.duePc op q)
    (hy : ∀ v ∈ c.dueOut op q, y = v)
    (hz : q = .memWriteBack →
      Memory.load m (c.registers.read c.latches.instr.rs1 + op.immediate c.latches.instr) =
        (.ok z, m))
    (hs : q = .aluWriteBack → c.latches.instr.Supported op) :
    c.Stride m (.ok .running,
      c.turn q { c.reread with pc := x, aluOut := y, data := z }, m) := by
  have hnext : (c.turn q { c.reread with pc := x, aluOut := y, data := z }).Decoded m op :=
    { opcode := h.opcode
      phase := hq
      fetched := h.fetched
      a := rfl
      b := rfl
      pc := hx
      out := hy
      loaded := hz
      supported := hs }
  exact .continued h.phase_ne_fetch hnext.phase_ne_fetch rfl rfl rfl (.past hnext)

/-- A tick that completes the instruction and writes its destination. -/
theorem stride_finish {l : Latches} {v : Word} (h : c.Decoded m op)
    (hs : c.latches.instr.Supported op)
    (he : c.latches.instr.execute op c.latches.oldPc c.registers m =
      (.ok { pc := l.pc, registers := c.registers.write c.latches.instr.rd v }, m)) :
    c.Stride m (.ok (.retired ⟨c.latches.oldPc, c.latches.instr, op, l.pc, none⟩),
      c.finish l v, m) :=
  .retired h.phase_ne_fetch h.fetched h.opcode hs he rfl rfl rfl

theorem stride_memAddress (h : c.Decoded m op) (hp : c.phase = .memAddress)
    (hq : (if op = .load then Phase.memRead else .memWrite) ∈ op.path.drop 2) :
    c.Stride m (c.tick m).outcome := by
  rw [outcome_tick_memAddress hp h.opcode, imm_eq, h.a]
  refine h.stride_turn hq ((h.pc_eq hp).trans ?_) ?_ ?_ ?_
  · split <;> rfl
  · split <;> simp [dueOut]
  · split <;> simp
  · split <;> simp

theorem stride_load [Memory.Steady σ] (h : c.Decoded m .load) (hs : ¬ Stalls (c.tick m).result) :
    c.Stride m (c.tick m).outcome := by
  have hphase : c.phase = .memAddress ∨ c.phase = .memRead ∨ c.phase = .memWriteBack := by
    simpa [Opcode.path] using h.phase
  rcases hphase with hp | hp | hp
  · exact h.stride_memAddress hp (by decide)
  · have hpc : c.latches.pc = c.latches.oldPc + 4 := h.pc_eq hp
    have ha := h.aluOut_eq hp rfl
    rcases hv : Memory.load m c.latches.aluOut with ⟨e | v, m'⟩
    · have ht := congrArg Prod.fst (outcome_tick_memRead_denied hp h.opcode hv)
      exact absurd (.inr ⟨_, ht⟩) hs
    · have hm := Memory.Steady.load_keeps m c.latches.aluOut
      rw [hv] at hm
      subst hm
      rw [outcome_tick_memRead hp h.opcode hv]
      exact h.stride_turn (by decide) hpc (by simp [dueOut]) (fun _ => ha ▸ hv) (by simp)
  · have hpc : c.latches.pc = c.latches.oldPc + 4 := h.pc_eq hp
    rw [outcome_tick_memWriteBack hp h.opcode]
    refine h.stride_finish (l := c.reread) trivial ?_
    simp only [Instruction.execute, h.loaded hp, reread, hpc]

theorem stride_store (h : c.Decoded m .store) (hs : ¬ Stalls (c.tick m).result) :
    c.Stride m (c.tick m).outcome := by
  rcases h.phase_of_pair rfl with hp | hp
  · exact h.stride_memAddress hp (by decide)
  · have hpc : c.latches.pc = c.latches.oldPc + 4 := h.pc_eq hp
    have ha := h.aluOut_eq hp rfl
    rcases hv : Memory.store m c.latches.aluOut c.latches.b with ⟨e | u, m'⟩
    · have ht := congrArg Prod.fst (outcome_tick_memWrite_denied hp h.opcode hv)
      exact absurd (.inr ⟨_, ht⟩) hs
    · rw [outcome_tick_memWrite hp h.opcode hv]
      rw [ha, h.b] at hv
      refine .retired (e := { pc := c.latches.pc, registers := c.registers }) h.phase_ne_fetch
        h.fetched h.opcode trivial ?_ rfl rfl rfl
      simp only [Instruction.execute, hv, hpc]

theorem stride_opImm (h : c.Decoded m .opImm) : c.Stride m (c.tick m).outcome := by
  rcases h.phase_of_pair rfl with hp | hp
  · have hpc : c.latches.pc = c.latches.oldPc + 4 := h.pc_eq hp
    rw [outcome_tick_executeImm hp h.opcode (Alu.Op.decode_opImm _), imm_eq, h.a,
      ← Instruction.eval_secondOperand]
    exact h.stride_turn (by decide) hpc (by simp [dueOut]) (by simp) (fun _ => trivial)
  · have hpc : c.latches.pc = c.latches.oldPc + 4 := h.pc_eq hp
    have ha := h.aluOut_eq hp rfl
    rw [outcome_tick_aluWriteBack hp h.opcode]
    refine h.stride_finish (l := c.reread) trivial ?_
    simp only [Instruction.execute, reread, hpc, ha]

theorem stride_opReg (h : c.Decoded m .opReg) (hs : ¬ Stalls (c.tick m).result) :
    c.Stride m (c.tick m).outcome := by
  rcases h.phase_of_pair rfl with hp | hp
  · have hpc : c.latches.pc = c.latches.oldPc + 4 := h.pc_eq hp
    obtain ⟨s, hsig⟩ := exists_signals hs
    rw [hp] at hsig
    obtain ⟨o, ho, -⟩ := map_eq_ok_iff.mp hsig
    have hw := Instruction.supported_opReg_iff.mpr ⟨o, ho⟩
    rw [outcome_tick_executeReg hp h.opcode (Alu.Op.decode_opReg hw), h.a, h.b]
    exact h.stride_turn (by decide) hpc (by simp [dueOut]) (by simp) (fun _ => hw)
  · have hpc : c.latches.pc = c.latches.oldPc + 4 := h.pc_eq hp
    have ha := h.aluOut_eq hp rfl
    rw [outcome_tick_aluWriteBack hp h.opcode]
    refine h.stride_finish (l := c.reread) (h.supported hp) ?_
    simp only [Instruction.execute, reread, hpc, ha]

theorem stride_branch (h : c.Decoded m .branch) (hs : ¬ Stalls (c.tick m).result) :
    c.Stride m (c.tick m).outcome := by
  have hp : c.phase = .branch := List.mem_singleton.mp h.phase
  have hpc : c.latches.pc = c.latches.oldPc + 4 := h.pc_eq hp
  have ha := h.aluOut_eq hp rfl
  obtain ⟨s, hsig⟩ := exists_signals hs
  rw [hp] at hsig
  obtain ⟨k, hk, -⟩ := map_eq_ok_iff.mp hsig
  have hw := Instruction.supported_branch_iff.mpr ⟨k, hk⟩
  rw [outcome_tick_branch hp h.opcode (Condition.decode_of_funct3 hw.1 hw.2), hpc, ha, h.a, h.b]
  exact .retired h.phase_ne_fetch h.fetched h.opcode hw rfl rfl rfl rfl

theorem stride_jalr (h : c.Decoded m .jalr) : c.Stride m (c.tick m).outcome := by
  rcases h.phase_of_pair rfl with hp | hp
  · rw [outcome_tick_jalrTarget hp h.opcode, imm_eq, h.a]
    exact h.stride_turn (by decide) rfl (by simp [dueOut]) (by simp) (by simp)
  · have hpc : c.latches.pc =
        c.registers.read c.latches.instr.rs1 + Opcode.jalr.immediate c.latches.instr := h.pc_eq hp
    rw [outcome_tick_jalrWriteBack hp h.opcode]
    refine h.stride_finish (l := { c.reread with aluOut := _ }) trivial ?_
    simp only [Instruction.execute, reread, hpc]

theorem stride_jal (h : c.Decoded m .jal) : c.Stride m (c.tick m).outcome := by
  rcases h.phase_of_pair rfl with hp | hp
  · have ha := h.aluOut_eq hp rfl
    rw [outcome_tick_jalTarget hp h.opcode, ha]
    exact h.stride_turn (by decide) rfl (by simp [dueOut]) (by simp) (fun _ => trivial)
  · have hpc : c.latches.pc = c.latches.oldPc + Opcode.jal.immediate c.latches.instr := h.pc_eq hp
    have ha := h.aluOut_eq hp rfl
    rw [outcome_tick_aluWriteBack hp h.opcode]
    refine h.stride_finish (l := c.reread) trivial ?_
    simp only [Instruction.execute, reread, hpc, ha]

theorem stride_lui (h : c.Decoded m .lui) : c.Stride m (c.tick m).outcome := by
  have hp : c.phase = .lui := List.mem_singleton.mp h.phase
  have hpc : c.latches.pc = c.latches.oldPc + 4 := h.pc_eq hp
  rw [outcome_tick_lui hp h.opcode, imm_eq]
  refine h.stride_finish (l := c.reread) trivial ?_
  simp only [Instruction.execute, reread, hpc]

theorem stride_auipc (h : c.Decoded m .auipc) : c.Stride m (c.tick m).outcome := by
  have hp : c.phase = .auipc := List.mem_singleton.mp h.phase
  have hpc : c.latches.pc = c.latches.oldPc + 4 := h.pc_eq hp
  rw [outcome_tick_auipc hp h.opcode, imm_eq]
  refine h.stride_finish (l := { c.reread with aluOut := _ }) trivial ?_
  simp only [Instruction.execute, reread, hpc]

theorem stride [Memory.Steady σ] (h : c.Decoded m op) (hs : ¬ Stalls (c.tick m).result) :
    c.Stride m (c.tick m).outcome := by
  cases op with
  | load => exact h.stride_load hs
  | store => exact h.stride_store hs
  | opImm => exact h.stride_opImm
  | opReg => exact h.stride_opReg hs
  | branch => exact h.stride_branch hs
  | jalr => exact h.stride_jalr
  | jal => exact h.stride_jal
  | lui => exact h.stride_lui
  | auipc => exact h.stride_auipc

end Decoded

/-- Of what decoding may put out, only the target of a branch or of a direct jump is used. -/
theorem decoded_afterDecode {y : Word} (ho : Opcode.decode c.latches.instr = .ok op)
    (hw : Memory.fetch m c.latches.oldPc = (some c.latches.instr, m))
    (hpc : c.latches.pc = c.latches.oldPc + 4)
    (hy : op = .branch ∨ op = .jal → y = c.latches.oldPc + op.immediate c.latches.instr) :
    (c.turn (.afterDecode op) { c.reread with aluOut := y }).Decoded m op where
  opcode := ho
  phase := by
    change Phase.afterDecode op ∈ _
    cases op <;> decide
  fetched := hw
  a := rfl
  b := rfl
  pc := by cases op <;> exact hpc
  out := by
    cases op with
    | branch =>
      rintro v ⟨⟩
      exact hy (.inl rfl)
    | jal =>
      rintro v ⟨⟩
      exact hy (.inr rfl)
    | _ => rintro v ⟨⟩
  loaded := by cases op <;> rintro ⟨⟩
  supported := by cases op <;> rintro ⟨⟩

theorem stride_afterDecode {y : Word} (hp : c.phase = .decode)
    (h : (c.turn (.afterDecode op) { c.reread with aluOut := y }).Decoded m op) :
    c.Stride m (.ok .running, c.turn (.afterDecode op) { c.reread with aluOut := y }, m) :=
  .continued (by simp [hp]) h.phase_ne_fetch rfl rfl rfl (.past h)

theorem stride_fetch [Memory.Steady σ] (hp : c.phase = .fetch) (hs : ¬ Stalls (c.tick m).result) :
    c.Stride m (c.tick m).outcome := by
  obtain ⟨w, m', hw⟩ := exists_fetched hp hs
  have hm := Memory.Steady.fetch_keeps m c.latches.pc
  rw [hw] at hm
  subst hm
  rw [outcome_tick_fetch hp hw]
  exact .started hp hw rfl rfl rfl rfl (.decode rfl rfl hw)

theorem stride_decode (hp : c.phase = .decode) (hpc : c.latches.pc = c.latches.oldPc + 4)
    (hw : Memory.fetch m c.latches.oldPc = (some c.latches.instr, m))
    (hs : ¬ Stalls (c.tick m).result) : c.Stride m (c.tick m).outcome := by
  obtain ⟨s, hsig⟩ := exists_signals hs
  rw [hp] at hsig
  obtain ⟨op, ho, -⟩ := map_eq_ok_iff.mp hsig
  rw [outcome_tick_decode hp ho]
  refine stride_afterDecode hp (decoded_afterDecode ho hw hpc ?_)
  rintro (rfl | rfl) <;> simp only [imm_eq]

/-- Whatever comes of a tick, the instruction in flight is as far as its phase says. -/
theorem InFlight.stride [Memory.Steady σ] (h : c.InFlight m) : c.Stride m (c.tick m).outcome := by
  by_cases hs : Stalls (c.tick m).result
  · have ht : (c.tick m).outcome = ((c.tick m).result, c, m) := by
      rw [Tick.outcome, tick_core_unchanged hs, tick_memory_unchanged hs]
    rw [ht]
    exact .stalled hs
  · cases h with
    | fetch hp => exact stride_fetch hp hs
    | decode hp hpc hw => exact stride_decode hp hpc hw hs
    | past h => exact h.stride hs

theorem InFlight.consistent (h : c.InFlight m) : c.Consistent := by
  intro hf hd
  cases h with
  | fetch hp => exact absurd hp hf
  | decode hp _ _ => exact absurd hp hd
  | past h => exact ⟨_, h.opcode, List.mem_of_mem_drop h.phase⟩

theorem InFlight.exists_decoded (h : c.InFlight m) (hf : c.phase ≠ .fetch)
    (hd : c.phase ≠ .decode) : ∃ op, c.Decoded m op := by
  cases h with
  | fetch hp => exact absurd hp hf
  | decode hp _ _ => exact absurd hp hd
  | past h => exact ⟨_, h⟩

theorem InFlight.fetched (h : c.InFlight m) (hp : c.phase ≠ .fetch) :
    Memory.fetch m c.latches.oldPc = (some c.latches.instr, m) := by
  cases h with
  | fetch hf => exact absurd hf hp
  | decode _ _ hw => exact hw
  | past h => exact h.fetched

theorem InFlight.instr_eq {w : Instruction} (h : c.InFlight m) (hp : c.phase ≠ .fetch)
    (hw : (Memory.fetch m c.address).1 = some w) : c.latches.instr = w := by
  rw [address, if_neg hp, h.fetched hp] at hw
  exact Option.some.inj hw

theorem InFlight.not_undecodable {f : Fault} (h : c.InFlight m)
    (ho : Opcode.decode c.latches.instr = .ok op) (hw : c.latches.instr.Supported op) :
    ¬ c.phase.Undecodable c.latches.instr f := by
  have hmem := h.consistent.phase_mem_path ho
  intro hu
  generalize c.phase = p at hmem hu
  cases hu with
  | opcode hcode => exact hcode op (Opcode.decode_eq_ok_iff.mp ho)
  | aluCode hb h0 h5 =>
    have hop : op = .opReg := by
      revert hmem
      cases op <;> decide
    subst hop
    exact (hw hb).elim h0 h5
  | condition hf =>
    have hop : op = .branch := by
      revert hmem
      cases op <;> decide
    subst hop
    exact hf.elim hw.1 hw.2

theorem fetch_of_halted (h : (c.tick m).result = .ok .halted) :
    c.phase = .fetch ∧ (Memory.fetch m c.latches.pc).1 = none := by
  cases c.ends m with
  | rejected _ ht | denied _ _ ht =>
    rw [ht] at h
    cases h
  | committed _ _ _ ht =>
    rw [ht] at h
    exact absurd (.inl h) (not_stalls_status _)
  | ended _ hr _ =>
    have ha := congrArg Prod.fst hr
    unfold request at ha
    split at ha
    · next hp =>
      injection ha with ha
      injection ha with ha
      exact ⟨hp, ha⟩
    · obtain ⟨_, -, hu⟩ := map_eq_ok_iff.mp ha
      cases hu
    · obtain ⟨_, -, hu⟩ := map_eq_ok_iff.mp ha
      cases hu
    · cases ha

theorem InFlight.not_stalls (h : c.InFlight m) (hp : c.phase ≠ .fetch)
    (ho : Opcode.decode c.latches.instr = .ok op) (hw : c.latches.instr.Supported op)
    (hop : op ≠ .load ∧ op ≠ .store) : ¬ Stalls (c.tick m).result := by
  rintro (hhalt | ⟨f, hf⟩)
  · exact hp (fetch_of_halted hhalt).1
  · have hmem := h.consistent.phase_mem_path ho
    rcases h.consistent.tick_eq_error_iff.mp hf with hu | ⟨e, -, hd⟩
    · exact h.not_undecodable ho hw hu
    · cases hd with
      | load hq _ => exact hop.1 (Phase.eq_load_of_mem_path (.inl hq) hmem)
      | store hq _ => exact hop.2 (Phase.eq_store_of_mem_path hq hmem)

end Multicycle.Core
