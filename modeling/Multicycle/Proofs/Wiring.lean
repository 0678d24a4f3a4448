import Multicycle.Proofs.Decoding
import Multicycle.Proofs.Tick

/-! What becomes of the immediate that a datapath is wired with. It shows only where the signals
select it, and there it is the decoded one, so that it need not be decoded anywhere else. -/
namespace Multicycle

namespace Signals

/-- The immediate is selected as the second operand of a busy arithmetic unit, or drives the result
bus. -/
def SelectsImmediate (s : Signals) : Prop :=
  (∃ select, s.alu = some select ∧ select.b = .imm) ∨ s.result = .imm

theorem usesImmediate_iff {s : Signals} : s.usesImmediate = true ↔ s.SelectsImmediate := by
  unfold usesImmediate SelectsImmediate
  rw [Bool.or_eq_true, beq_iff_eq, Option.any_eq_true, or_comm]
  simp only [beq_iff_eq]

end Signals

namespace Datapath

/-- All that shows of a datapath: the arithmetic unit, the two buses, and what is committed on the
words that come from the memory. -/
structure Outputs where
  alu : Option AluActivity
  result : Word
  address : Word
  commit : Option Word → Option Word → Commit

def outputs (d : Datapath) : Outputs := ⟨d.alu, d.result, d.address, d.evaluate⟩

/-- The same datapath with `x` on the wires of the immediate. -/
def withImmediate (d : Datapath) (x : Word) : Datapath := { d with immediate := x }

@[simp] theorem latches_withImmediate (d : Datapath) (x : Word) :
    (d.withImmediate x).latches = d.latches := rfl

@[simp] theorem signals_withImmediate (d : Datapath) (x : Word) :
    (d.withImmediate x).signals = d.signals := rfl

theorem operandA_withImmediate (d : Datapath) (x : Word) :
    (d.withImmediate x).operandA = d.operandA := rfl

theorem operandB_withImmediate {b : OperandB} (hb : b ≠ .imm) (d : Datapath) (x : Word) :
    (d.withImmediate x).operandB b = d.operandB b := by
  cases b with
  | imm => exact absurd rfl hb
  | rs2 | four => rfl

section Unselected

variable {d : Datapath} (h : ¬ d.signals.SelectsImmediate) (x : Word)
include h

theorem alu_withImmediate : (d.withImmediate x).alu = d.alu := by
  unfold alu
  rw [signals_withImmediate]
  cases hs : d.signals.alu with
  | none => rfl
  | some select =>
    have hb : select.b ≠ .imm := fun hb => h (.inl ⟨select, hs, hb⟩)
    rw [Option.map_some, Option.map_some, operandA_withImmediate, operandB_withImmediate hb]

theorem result_withImmediate : (d.withImmediate x).result = d.result := by
  have hs : d.signals.result ≠ .imm := fun hs => h (.inr hs)
  unfold result
  rw [alu_withImmediate h, signals_withImmediate, latches_withImmediate]
  cases hr : d.signals.result with
  | imm => exact absurd hr hs
  | aluOut | aluResult | memData => rfl

theorem address_withImmediate : (d.withImmediate x).address = d.address := by
  unfold address
  rw [result_withImmediate h, signals_withImmediate, latches_withImmediate]

theorem nextLatches_withImmediate (fetched loaded : Option Word) :
    (d.withImmediate x).nextLatches fetched loaded = d.nextLatches fetched loaded := by
  unfold nextLatches
  rw [result_withImmediate h, alu_withImmediate h]
  rfl

theorem evaluate_withImmediate (fetched loaded : Option Word) :
    (d.withImmediate x).evaluate fetched loaded = d.evaluate fetched loaded := by
  unfold evaluate
  rw [nextLatches_withImmediate h, result_withImmediate h, address_withImmediate h]
  rfl

/-- Nothing shows of an immediate that is not selected. -/
theorem outputs_withImmediate : (d.withImmediate x).outputs = d.outputs := by
  have hcommit : (d.withImmediate x).evaluate = d.evaluate := by
    funext fetched loaded
    exact evaluate_withImmediate h x fetched loaded
  unfold outputs
  rw [alu_withImmediate h, result_withImmediate h, address_withImmediate h, hcommit]

end Unselected

variable {l : Latches} {f : Register.File} {s : Signals}

theorem wire_of_unselected (h : ¬ s.SelectsImmediate) : wire l f s = .ok ⟨l, f, s, 0⟩ := by
  rw [wire, if_neg (mt Signals.usesImmediate_iff.mp h)]

theorem wire_of_selected (h : s.SelectsImmediate) :
    wire l f s = l.instr.immediate.map fun imm => ⟨l, f, s, imm⟩ := by
  rw [wire, if_pos (Signals.usesImmediate_iff.mpr h)]

/-- Wiring fails where the immediate is selected and there is none, and nowhere else. -/
theorem wire_eq_error_iff {e : Fault} :
    wire l f s = .error e ↔ s.SelectsImmediate ∧ l.instr.immediate = .error e := by
  by_cases h : s.SelectsImmediate
  · rw [wire_of_selected h, map_eq_error_iff]
    exact ⟨fun he => ⟨h, he⟩, fun he => he.2⟩
  · rw [wire_of_unselected h]
    exact iff_of_false nofun fun he => h he.1

/-- The datapath shows the same as one that has its immediate decoded in any case. -/
theorem wire_of_immediate {imm : Word} (h : l.instr.immediate = .ok imm) :
    ∃ d, wire l f s = .ok d ∧ d.outputs = (⟨l, f, s, imm⟩ : Datapath).outputs := by
  by_cases hs : s.SelectsImmediate
  · refine ⟨⟨l, f, s, imm⟩, ?_, rfl⟩
    rw [wire_of_selected hs, h]
    rfl
  · refine ⟨⟨l, f, s, 0⟩, wire_of_unselected hs, ?_⟩
    exact (outputs_withImmediate (d := ⟨l, f, s, 0⟩) hs imm).symm

/-- Decoding the immediate only where the signals use it makes no difference to be seen, whatever
the signals are. -/
theorem skipped_immediate_unseen (l : Latches) (f : Register.File) (s : Signals) :
    (∀ op : Opcode, op.code = l.instr.opcode →
        ∃ imm d, l.instr.immediate = .ok imm ∧ wire l f s = .ok d ∧
          d.outputs = (⟨l, f, s, imm⟩ : Datapath).outputs) ∧
      ((∀ op : Opcode, op.code ≠ l.instr.opcode) →
        (∀ e, wire l f s = .error e ↔
          s.SelectsImmediate ∧ e = .unknownOpcode l.instr.opcode l.instr) ∧
        (¬ s.SelectsImmediate →
          ∃ d, wire l f s = .ok d ∧ ∀ x, d.outputs = (⟨l, f, s, x⟩ : Datapath).outputs)) := by
  refine ⟨?_, ?_⟩
  · intro op ho
    have himm : l.instr.immediate = .ok (op.layout.assemble l.instr) :=
      Instruction.immediate_eq_ok_iff.mpr ⟨op, Opcode.decode_eq_ok_iff.mpr ho, rfl⟩
    obtain ⟨d, hd, houtputs⟩ := wire_of_immediate (f := f) (s := s) himm
    exact ⟨_, d, himm, hd, houtputs⟩
  · intro hnone
    have himm : ∀ e, l.instr.immediate = .error e ↔ e = .unknownOpcode l.instr.opcode l.instr := by
      intro e
      rw [Instruction.immediate, map_eq_error_iff, Opcode.decode_eq_error_iff]
      exact and_iff_right hnone
    refine ⟨fun e => ?_, fun hs => ⟨_, wire_of_unselected hs, fun x => ?_⟩⟩
    · rw [wire_eq_error_iff, himm]
    · exact (outputs_withImmediate (d := ⟨l, f, s, 0⟩) hs x).symm

/-- Signals that no phase has, over an addition of an immediate and over a word of no opcode. -/
theorem skipped_immediate_unseen_all_enabled :
    let l : Latches := { pc := 8, oldPc := 4, instr := 0x00510093, a := 7, b := 9, aluOut := 3 }
    let alien : Latches := { l with instr := 0x73 }
    let s : Signals :=
      { irWrite := true, pcUpdate := true, branch := some .eq, regWrite := true, memRead := true,
        memWrite := true, address := .result, alu := some ⟨.rs1, .imm, .sub⟩, result := .aluResult }
    let t : Signals := { s with alu := some ⟨.rs1, .rs2, .sub⟩ }
    (∃ d, wire l {} s = .ok d ∧ d.alu = some ⟨7, 5, 2⟩ ∧ d.address = 2) ∧
      wire alien {} s = .error (.unknownOpcode 0x73 0x73) ∧
      ∃ d, wire alien {} t = .ok d ∧
        d.outputs = (⟨alien, {}, t, 0xdeadbeef⟩ : Datapath).outputs := by
  intro l alien s t
  have ho : Opcode.opImm.code = l.instr.opcode := by decide
  have hnone : ∀ op : Opcode, op.code ≠ alien.instr.opcode := by
    intro op
    cases op <;> decide
  have hs : s.SelectsImmediate := .inl ⟨_, rfl, rfl⟩
  have ht : ¬ t.SelectsImmediate := by
    rw [← Signals.usesImmediate_iff]
    decide
  obtain ⟨imm, d, himm, hd, houtputs⟩ := (skipped_immediate_unseen l {} s).1 .opImm ho
  have hfive : l.instr.immediate = .ok 5 :=
    Instruction.immediate_eq_ok_iff.mpr ⟨.opImm, Opcode.decode_eq_ok_iff.mpr ho, by decide⟩
  cases hfive.symm.trans himm
  have halu : (⟨l, {}, s, 5⟩ : Datapath).alu = some ⟨7, 5, 2⟩ := by decide
  have haddress : (⟨l, {}, s, 5⟩ : Datapath).address = 2 := by decide
  obtain ⟨herror, -⟩ := (skipped_immediate_unseen alien {} s).2 hnone
  obtain ⟨e, he, hany⟩ := ((skipped_immediate_unseen alien {} t).2 hnone).2 ht
  refine ⟨⟨d, hd, ?_, ?_⟩, (herror _).mpr ⟨hs, rfl⟩, e, he, hany 0xdeadbeef⟩
  · exact (congrArg Outputs.alu houtputs).trans halu
  · exact (congrArg Outputs.address houtputs).trans haddress

end Datapath

end Multicycle
