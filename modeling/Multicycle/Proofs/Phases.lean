import Multicycle.Proofs.Tick

/-! The state that each phase leaves behind when its tick succeeds. -/
namespace Multicycle.Core

variable {σ : Type} [Memory σ] {c : Core} {m m' : σ} {op : Opcode}

/-- The latches after a tick that computes nothing: the operands are read again. -/
def reread (c : Core) : Latches :=
  { c.latches with
    a := c.registers.read c.latches.instr.rs1
    b := c.registers.read c.latches.instr.rs2 }

/-- The core one tick later, in phase `next` with latches `l`. -/
def turn (c : Core) (next : Phase) (l : Latches) : Core :=
  { c with latches := l, phase := next, cycle := c.cycle + 1 }

/-- The core with an instruction completed that writes `v` to its destination. -/
def finish (c : Core) (l : Latches) (v : Word) : Core :=
  { c.turn .fetch l with registers := c.registers.write c.latches.instr.rd v }

def imm (c : Core) (op : Opcode) : Word := op.layout.assemble c.latches.instr

theorem plan_of_decode {s : Signals} {q : Phase} (ho : Opcode.decode c.latches.instr = .ok op)
    (hs : c.phase.signals c.latches.instr = .ok s) (hq : c.phase.next c.latches.instr = .ok q) :
    c.plan = .ok ⟨⟨c.latches, c.registers, s, if s.usesImmediate then c.imm op else 0⟩, q,
      if q = .fetch then some op else none⟩ := by
  have hi : c.latches.instr.immediate = .ok (c.imm op) :=
    Instruction.immediate_eq_ok_iff.mpr ⟨op, ho, rfl⟩
  have hd : Datapath.wire c.latches c.registers s =
      .ok ⟨c.latches, c.registers, s, if s.usesImmediate then c.imm op else 0⟩ := by
    unfold Datapath.wire
    split <;> simp [hi, Except.map]
  have hr : c.retiring q = .ok (if q = .fetch then some op else none) := by
    unfold retiring
    split <;> simp [ho, Except.map]
  simp [plan, hs, hd, hq, hr, bind, Except.bind, pure, Except.pure]

/-- A phase that asks nothing of the memory. -/
theorem outcome_tick_idle {s : Signals} {q : Phase} (hr : c.request = .idle)
    (ho : Opcode.decode c.latches.instr = .ok op) (hs : c.phase.signals c.latches.instr = .ok s)
    (hq : c.phase.next c.latches.instr = .ok q) :
    let p : Plan := ⟨⟨c.latches, c.registers, s, if s.usesImmediate then c.imm op else 0⟩, q,
      if q = .fetch then some op else none⟩
    (c.tick m).outcome = (.ok (c.status p (p.commit .done)), c.commit q (p.commit .done), m) := by
  have hd : c.request.serve m = (.ok .done, m) := by rw [hr]; rfl
  rw [tick_of_reply (plan_of_decode ho hs hq) hd (by simp)]
  rfl

theorem outcome_tick_fetch {w : Instruction} (h : c.phase = .fetch)
    (hw : Memory.fetch m c.latches.pc = (some w, m')) :
    (c.tick m).outcome = (.ok .running, c.turn .decode { c.reread with
      pc := c.latches.pc + 4, oldPc := c.latches.pc, instr := w, aluOut := c.latches.pc + 4 }, m') := by
  have hr : c.request.serve m = (.ok (.fetched (some w)), m') := by
    simp [request, h, Request.serve, hw]
  have hp : c.plan = .ok ⟨⟨c.latches, c.registers,
      { irWrite := true, pcUpdate := true, alu := some .nextPc, result := .aluResult }, 0⟩,
      .decode, none⟩ := by
    rw [plan, h]
    rfl
  rw [tick_of_reply hp hr (by simp)]
  rfl

theorem outcome_tick_fetch_end (h : c.phase = .fetch)
    (hw : Memory.fetch m c.latches.pc = (none, m')) : (c.tick m).outcome = (.ok .halted, c, m') := by
  obtain ⟨p, hp⟩ : ∃ p, c.plan = .ok p := ⟨_, by rw [plan, h]; rfl⟩
  have hr : c.request.serve m = (.ok (.fetched none), m') := by
    simp [request, h, Request.serve, hw]
  rw [tick_of_end hp hr]
  rfl

theorem outcome_tick_decode (h : c.phase = .decode) (ho : Opcode.decode c.latches.instr = .ok op) :
    (c.tick m).outcome = (.ok .running, c.turn (.afterDecode op) { c.reread with
      aluOut := match op with
        | .branch | .jal => c.latches.oldPc + c.imm op
        | .jalr => c.latches.a + c.imm op
        | _ => c.latches.aluOut }, m) := by
  rw [outcome_tick_idle (by simp [request, h]) ho (by rw [h, Phase.signals, ho]; rfl)
    (by rw [h, Phase.next, ho]; rfl)]
  cases op <;> rfl

theorem outcome_tick_memAddress (h : c.phase = .memAddress)
    (ho : Opcode.decode c.latches.instr = .ok op) :
    (c.tick m).outcome = (.ok .running, c.turn (if op = .load then .memRead else .memWrite)
      { c.reread with aluOut := c.latches.a + c.imm op }, m) := by
  rw [outcome_tick_idle (by simp [request, h]) ho (by rw [h]; rfl) (by rw [h, Phase.next, ho]; rfl)]
  cases op <;> rfl

theorem outcome_tick_memRead {v : Word} (h : c.phase = .memRead)
    (ho : Opcode.decode c.latches.instr = .ok op)
    (hv : Memory.load m c.latches.aluOut = (.ok v, m')) :
    (c.tick m).outcome = (.ok .running, c.turn .memWriteBack { c.reread with data := v }, m') := by
  have hr : c.request.serve m = (.ok (.loaded v), m') := by
    simp [request, h, Request.serve, hv, Except.map]
  rw [tick_of_reply (plan_of_decode ho (by rw [h]; rfl) (by rw [h]; rfl)) hr (by simp)]
  rfl

theorem outcome_tick_memRead_denied {e : MemoryFault} (h : c.phase = .memRead)
    (ho : Opcode.decode c.latches.instr = .ok op)
    (hv : Memory.load m c.latches.aluOut = (.error e, m')) :
    (c.tick m).outcome = (.error (.memory e), c, m') := by
  have hr : c.request.serve m = (.error e, m') := by
    simp [request, h, Request.serve, hv, Except.map]
  rw [tick_of_denied (plan_of_decode ho (by rw [h]; rfl) (by rw [h]; rfl)) hr]
  rfl

theorem outcome_tick_memWriteBack (h : c.phase = .memWriteBack)
    (ho : Opcode.decode c.latches.instr = .ok op) :
    (c.tick m).outcome = (.ok (.retired ⟨c.latches.oldPc, c.latches.instr, op, c.latches.pc, none⟩),
      c.finish c.reread c.latches.data, m) := by
  rw [outcome_tick_idle (by simp [request, h]) ho (by rw [h]; rfl) (by rw [h]; rfl)]
  rfl

theorem outcome_tick_memWrite (h : c.phase = .memWrite)
    (ho : Opcode.decode c.latches.instr = .ok op)
    (hv : Memory.store m c.latches.aluOut c.latches.b = (.ok (), m')) :
    (c.tick m).outcome = (.ok (.retired ⟨c.latches.oldPc, c.latches.instr, op, c.latches.pc, none⟩),
      c.turn .fetch c.reread, m') := by
  have hr : c.request.serve m = (.ok .done, m') := by
    simp [request, h, Request.serve, hv, Except.map]
  rw [tick_of_reply (plan_of_decode ho (by rw [h]; rfl) (by rw [h]; rfl)) hr (by simp)]
  rfl

theorem outcome_tick_memWrite_denied {e : MemoryFault} (h : c.phase = .memWrite)
    (ho : Opcode.decode c.latches.instr = .ok op)
    (hv : Memory.store m c.latches.aluOut c.latches.b = (.error e, m')) :
    (c.tick m).outcome = (.error (.memory e), c, m') := by
  have hr : c.request.serve m = (.error e, m') := by
    simp [request, h, Request.serve, hv, Except.map]
  rw [tick_of_denied (plan_of_decode ho (by rw [h]; rfl) (by rw [h]; rfl)) hr]
  rfl

theorem outcome_tick_executeImm {o : Alu.Op} (h : c.phase = .executeImm)
    (ho : Opcode.decode c.latches.instr = .ok op)
    (ha : Alu.Op.decode c.latches.instr .opImm = .ok o) :
    (c.tick m).outcome = (.ok .running, c.turn .aluWriteBack
      { c.reread with aluOut := o.eval c.latches.a (c.imm op) }, m) := by
  rw [outcome_tick_idle (by simp [request, h]) ho (by rw [h, Phase.signals, ha]; rfl)
    (by rw [h]; rfl)]
  rfl

theorem outcome_tick_executeReg {o : Alu.Op} (h : c.phase = .executeReg)
    (ho : Opcode.decode c.latches.instr = .ok op)
    (ha : Alu.Op.decode c.latches.instr .opReg = .ok o) :
    (c.tick m).outcome = (.ok .running, c.turn .aluWriteBack
      { c.reread with aluOut := o.eval c.latches.a c.latches.b }, m) := by
  rw [outcome_tick_idle (by simp [request, h]) ho (by rw [h, Phase.signals, ha]; rfl)
    (by rw [h]; rfl)]
  rfl

theorem outcome_tick_aluWriteBack (h : c.phase = .aluWriteBack)
    (ho : Opcode.decode c.latches.instr = .ok op) :
    (c.tick m).outcome = (.ok (.retired ⟨c.latches.oldPc, c.latches.instr, op, c.latches.pc, none⟩),
      c.finish c.reread c.latches.aluOut, m) := by
  rw [outcome_tick_idle (by simp [request, h]) ho (by rw [h]; rfl) (by rw [h]; rfl)]
  rfl

theorem outcome_tick_branch {k : Condition} (h : c.phase = .branch)
    (ho : Opcode.decode c.latches.instr = .ok op)
    (hk : Condition.decode c.latches.instr = .ok k) :
    let taken := k.holds c.latches.a c.latches.b
    let target := if taken then c.latches.aluOut else c.latches.pc
    (c.tick m).outcome =
      (.ok (.retired ⟨c.latches.oldPc, c.latches.instr, op, target, some taken⟩),
        c.turn .fetch { c.reread with pc := target }, m) := by
  rw [outcome_tick_idle (by simp [request, h]) ho (by rw [h, Phase.signals, hk]; rfl)
    (by rw [h]; rfl)]
  cases hb : k.holds c.latches.a c.latches.b <;>
    simp [Plan.commit, Datapath.evaluate, Datapath.nextLatches, Datapath.pcWrite, Datapath.branchTaken,
      Datapath.result, Datapath.latched, Datapath.alu, status, retirement, commit, turn, reread, hb]

theorem outcome_tick_jalrTarget (h : c.phase = .jalrTarget)
    (ho : Opcode.decode c.latches.instr = .ok op) :
    let target := c.latches.a + c.imm op
    (c.tick m).outcome = (.ok .running,
      c.turn .jalrWriteBack { c.reread with pc := target, aluOut := target }, m) := by
  rw [outcome_tick_idle (by simp [request, h]) ho (by rw [h]; rfl) (by rw [h]; rfl)]
  rfl

theorem outcome_tick_jalrWriteBack (h : c.phase = .jalrWriteBack)
    (ho : Opcode.decode c.latches.instr = .ok op) :
    let link := c.latches.oldPc + 4
    (c.tick m).outcome = (.ok (.retired ⟨c.latches.oldPc, c.latches.instr, op, c.latches.pc, none⟩),
      c.finish { c.reread with aluOut := link } link, m) := by
  rw [outcome_tick_idle (by simp [request, h]) ho (by rw [h]; rfl) (by rw [h]; rfl)]
  rfl

theorem outcome_tick_jalTarget (h : c.phase = .jalTarget)
    (ho : Opcode.decode c.latches.instr = .ok op) :
    (c.tick m).outcome = (.ok .running, c.turn .aluWriteBack
      { c.reread with pc := c.latches.aluOut, aluOut := c.latches.oldPc + 4 }, m) := by
  rw [outcome_tick_idle (by simp [request, h]) ho (by rw [h]; rfl) (by rw [h]; rfl)]
  rfl

theorem outcome_tick_lui (h : c.phase = .lui) (ho : Opcode.decode c.latches.instr = .ok op) :
    (c.tick m).outcome = (.ok (.retired ⟨c.latches.oldPc, c.latches.instr, op, c.latches.pc, none⟩),
      c.finish c.reread (c.imm op), m) := by
  rw [outcome_tick_idle (by simp [request, h]) ho (by rw [h]; rfl) (by rw [h]; rfl)]
  rfl

theorem outcome_tick_auipc (h : c.phase = .auipc) (ho : Opcode.decode c.latches.instr = .ok op) :
    let sum := c.latches.oldPc + c.imm op
    (c.tick m).outcome = (.ok (.retired ⟨c.latches.oldPc, c.latches.instr, op, c.latches.pc, none⟩),
      c.finish { c.reread with aluOut := sum } sum, m) := by
  rw [outcome_tick_idle (by simp [request, h]) ho (by rw [h]; rfl) (by rw [h]; rfl)]
  rfl

end Multicycle.Core
