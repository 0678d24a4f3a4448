import Multicycle.Control.Signals

/-! What the decoders accept, and what each of them reports when it does not. -/
namespace Multicycle

namespace Opcode

theorem decode_eq_error_iff {w : Instruction} {f : Fault} :
    decode w = .error f ↔ (∀ op : Opcode, op.code ≠ w.opcode) ∧ f = .unknownOpcode w.opcode w := by
  unfold decode
  cases h : ofCode? w.opcode with
  | some op =>
    have hc := ofCode?_eq_some_iff.mp h
    simp only [reduceCtorEq, false_iff, not_and]
    intro hall
    exact absurd hc (hall op)
  | none =>
    have hall : ∀ op : Opcode, op.code ≠ w.opcode := by
      intro op hc
      rw [← hc, ofCode?_code] at h
      cases h
    simp only [Except.error.injEq]
    exact ⟨fun hf => ⟨hall, hf.symm⟩, fun hf => hf.2.symm⟩

end Opcode

namespace Alu.Op

/-- The operation that funct3 stands for; `alternate` takes the second of a pair. -/
def selected (funct3 : Nat) (alternate : Bool) : Alu.Op :=
  match funct3 with
  | 0b000 => if alternate then sub else add
  | 0b001 => sll
  | 0b010 => slt
  | 0b011 => sltu
  | 0b100 => xor
  | 0b101 => if alternate then sra else srl
  | 0b110 => or
  | _ => and

theorem code_selected {n : Nat} (hn : n < 8) {alternate : Bool}
    (h : alternate = true → n = 0b000 ∨ n = 0b101) :
    (selected n alternate).code = 2 * n + alternate.toNat := by
  revert n alternate
  decide

theorem ofCode?_odd {n : Nat} (hn : n < 8) (h0 : n ≠ 0b000) (h5 : n ≠ 0b101) :
    ofCode? (2 * n + 1) = none := by
  revert n
  decide

theorem decode_of_codeOf {w : Instruction} {op : Opcode} {o : Alu.Op} (h : codeOf w op = o.code) :
    decode w op = .ok o := by
  rw [decode, h, ofCode?_code]

/-- Every immediate operation has a code: only the right shifts look at bit 30. -/
theorem decode_opImm (w : Instruction) :
    decode w .opImm = .ok (selected w.funct3 (w.funct3 == 0b101 && w.bit 30)) := by
  refine decode_of_codeOf ?_
  rw [code_selected w.funct3_lt (by intro h; simp_all), codeOf]
  by_cases h : w.funct3 = 0b101 <;> simp [h]

theorem decode_opReg {w : Instruction} (h : w.bit 30 = true → w.funct3 = 0b000 ∨ w.funct3 = 0b101) :
    decode w .opReg = .ok (selected w.funct3 (w.bit 30)) := by
  refine decode_of_codeOf ?_
  rw [code_selected w.funct3_lt h, codeOf, if_pos (.inl rfl)]

theorem decode_opReg_eq_error_iff {w : Instruction} {f : Fault} :
    decode w .opReg = .error f ↔ w.bit 30 = true ∧ w.funct3 ≠ 0b000 ∧ w.funct3 ≠ 0b101 ∧
      f = .unknownAluCode (2 * w.funct3 + 1) w := by
  by_cases h : w.bit 30 = true → w.funct3 = 0b000 ∨ w.funct3 = 0b101
  · rw [decode_opReg h]
    simp only [reduceCtorEq, false_iff]
    rintro ⟨hb, h0, h5, -⟩
    exact (h hb).elim h0 h5
  · obtain ⟨hb, h⟩ := Classical.not_imp.mp h
    obtain ⟨h0, h5⟩ := not_or.mp h
    have hc : codeOf w .opReg = 2 * w.funct3 + 1 := by
      rw [codeOf, if_pos (.inl rfl), hb]
      rfl
    rw [decode, hc, ofCode?_odd w.funct3_lt h0 h5]
    simp only [Except.error.injEq]
    exact ⟨fun hf => ⟨hb, h0, h5, hf.symm⟩, fun hf => hf.2.2.2.symm⟩

end Alu.Op

namespace Condition

def selected (funct3 : Nat) : Condition :=
  match funct3 with
  | 0b000 => eq
  | 0b001 => ne
  | 0b100 => lt
  | 0b101 => ge
  | 0b110 => ltu
  | _ => geu

theorem funct3_selected {n : Nat} (hn : n < 8) (h2 : n ≠ 0b010) (h3 : n ≠ 0b011) :
    (selected n).funct3 = n := by
  revert n
  decide

theorem decode_of_funct3 {w : Instruction} (h2 : w.funct3 ≠ 0b010) (h3 : w.funct3 ≠ 0b011) :
    decode w = .ok (selected w.funct3) := by
  have h := ofFunct3?_funct3 (selected w.funct3)
  rw [funct3_selected w.funct3_lt h2 h3] at h
  rw [decode, h]

theorem decode_eq_error_iff {w : Instruction} {f : Fault} :
    decode w = .error f ↔
      (w.funct3 = 0b010 ∨ w.funct3 = 0b011) ∧ f = .unknownCondition w.funct3 w := by
  by_cases h : w.funct3 = 0b010 ∨ w.funct3 = 0b011
  · have hn : ofFunct3? w.funct3 = none := by
      rcases h with h | h <;> rw [h] <;> rfl
    rw [decode, hn]
    simp only [Except.error.injEq]
    exact ⟨fun hf => ⟨h, hf.symm⟩, fun hf => hf.2.symm⟩
  · obtain ⟨h2, h3⟩ := not_or.mp h
    rw [decode_of_funct3 h2 h3]
    simp [h]

end Condition

end Multicycle
