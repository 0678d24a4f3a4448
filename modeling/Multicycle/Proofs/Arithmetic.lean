import Mathlib.Algebra.Group.Int.Defs
import Mathlib.Algebra.Group.Nat.Defs
import Multicycle.Alu
import Multicycle.Condition

/-! The arithmetic unit and the branch conditions in terms of the numbers that words stand for:
unsigned ones by `toNat`, those in two's complement by `toInt`. -/
namespace Multicycle

theorem Word.toNat_eq_emod (w : Word) : (w.toNat : Int) = w.toInt % 2 ^ 32 := by
  have hlt := w.isLt
  rw [BitVec.toInt_eq_toNat_cond]
  split <;> omega

/-- A word that is one or zero as something holds or not. -/
theorem Word.eq_flag_iff {w : Word} {P : Prop} [Decidable P] (h : w.toNat = if P then 1 else 0) :
    (w = 1 ↔ P) ∧ (w = 0 ↔ ¬ P) := by
  rw [← BitVec.toNat_inj, ← BitVec.toNat_inj, h]
  by_cases hp : P <;> simp [hp]

namespace Alu.Op

variable {op : Op} {a b r r' : Word}

/-- The word that `op` makes of `a` and `b` is `r`, by the numbers that the words stand for. -/
def Yields (op : Op) (a b r : Word) : Prop :=
  match op with
  | add => r.toNat = (a.toNat + b.toNat) % 2 ^ 32
  | sub => (r.toNat : Int) = ((a.toNat : Int) - (b.toNat : Int)) % 2 ^ 32
  | sll => r.toNat = a.toNat * 2 ^ (b.toNat % 32) % 2 ^ 32
  | slt => r.toNat = if a.toInt < b.toInt then 1 else 0
  | sltu => r.toNat = if a.toNat < b.toNat then 1 else 0
  | xor => ∀ i < 32, r.getLsbD i = (a.getLsbD i ^^ b.getLsbD i)
  | srl => r.toNat = a.toNat / 2 ^ (b.toNat % 32)
  | sra => (r.toNat : Int) = a.toInt / 2 ^ (b.toNat % 32) % 2 ^ 32
  | or => ∀ i < 32, r.getLsbD i = (a.getLsbD i || b.getLsbD i)
  | and => ∀ i < 32, r.getLsbD i = (a.getLsbD i && b.getLsbD i)

theorem shiftAmount_eq (b : Word) : shiftAmount b = b.toNat % 32 := by
  unfold shiftAmount
  rw [BitVec.toNat_setWidth]
  rfl

theorem toNat_sub (a b : Word) :
    ((sub.eval a b).toNat : Int) = ((a.toNat : Int) - (b.toNat : Int)) % 2 ^ 32 := by
  have ha := a.isLt
  have hb := b.isLt
  have hsub : (sub.eval a b).toNat = (2 ^ 32 - b.toNat + a.toNat) % 2 ^ 32 := BitVec.toNat_sub a b
  rw [hsub]
  omega

/-- The sign comes in from above, so the quotient is rounded down for negative numbers too. -/
theorem toInt_sra (a b : Word) : (sra.eval a b).toInt = a.toInt / 2 ^ (b.toNat % 32) := by
  unfold eval
  rw [BitVec.toInt_sshiftRight, Int.shiftRight_eq_div_pow, shiftAmount_eq, Int.natCast_pow]
  rfl

theorem toNat_slt (a b : Word) : (slt.eval a b).toNat = if a.toInt < b.toInt then 1 else 0 := by
  unfold eval
  rw [BitVec.slt_eq_decide]
  by_cases h : a.toInt < b.toInt <;> simp [h]

theorem toNat_sltu (a b : Word) : (sltu.eval a b).toNat = if a.toNat < b.toNat then 1 else 0 := by
  unfold eval
  rw [BitVec.ult_eq_decide]
  by_cases h : a.toNat < b.toNat <;> simp [h]

theorem yields_eval (op : Op) (a b : Word) : op.Yields a b (op.eval a b) := by
  cases op with
  | add => exact BitVec.toNat_add a b
  | sub => exact toNat_sub a b
  | sll =>
    unfold Yields eval
    rw [BitVec.toNat_shiftLeft, Nat.shiftLeft_eq, shiftAmount_eq]
  | slt => exact toNat_slt a b
  | sltu => exact toNat_sltu a b
  | xor =>
    intro i _
    exact BitVec.getLsbD_xor
  | srl =>
    unfold Yields eval
    rw [BitVec.toNat_ushiftRight, Nat.shiftRight_eq_div_pow, shiftAmount_eq]
  | sra =>
    unfold Yields
    rw [Word.toNat_eq_emod, toInt_sra]
  | or =>
    intro i _
    exact BitVec.getLsbD_or
  | and =>
    intro i _
    exact BitVec.getLsbD_and

/-- The numbers leave one word to answer with. -/
theorem Yields.unique (h : op.Yields a b r) (h' : op.Yields a b r') : r = r' := by
  cases op with
  | sub | sra =>
    apply BitVec.eq_of_toNat_eq
    have hr := h.trans h'.symm
    exact Int.ofNat.inj hr
  | xor | or | and =>
    apply BitVec.eq_of_getLsbD_eq
    intro i hi
    rw [h i hi, h' i hi]
  | _ =>
    apply BitVec.eq_of_toNat_eq
    exact h.trans h'.symm

theorem yields_iff : op.Yields a b r ↔ r = op.eval a b := by
  constructor
  · intro h
    exact h.unique (yields_eval op a b)
  · rintro rfl
    exact yields_eval op a b

/-- A difference is zero only where nothing is left after the wrap. -/
theorem sub_eq_zero_iff : sub.eval a b = 0 ↔ a.toNat = b.toNat := by
  have ha := a.isLt
  have hb := b.isLt
  have hsub := toNat_sub a b
  rw [← BitVec.toNat_inj]
  change (sub.eval a b).toNat = 0 ↔ _
  omega

end Alu.Op

namespace Condition

variable {c : Condition} {a b : Word}

/-- What a condition says of the numbers. -/
def Asserts (c : Condition) (a b : Word) : Prop :=
  match c with
  | eq => a.toNat = b.toNat
  | ne => a.toNat ≠ b.toNat
  | lt => a.toInt < b.toInt
  | ge => b.toInt ≤ a.toInt
  | ltu => a.toNat < b.toNat
  | geu => b.toNat ≤ a.toNat

theorem holds_iff : c.holds a b = true ↔ c.Asserts a b := by
  cases c with
  | eq =>
    unfold holds Asserts
    rw [beq_iff_eq, BitVec.toNat_inj]
  | ne =>
    unfold holds Asserts
    rw [bne_iff_ne, Ne, Ne, BitVec.toNat_inj]
  | lt => exact BitVec.slt_iff_toInt_lt
  | ge =>
    unfold holds Asserts
    rw [BitVec.slt_eq_decide, Bool.not_eq_true', decide_eq_false_iff_not, Int.not_lt]
  | ltu =>
    unfold holds Asserts
    rw [BitVec.ult_eq_decide, decide_eq_true_iff]
  | geu =>
    unfold holds Asserts
    rw [BitVec.ult_eq_decide, Bool.not_eq_true', decide_eq_false_iff_not, Nat.not_lt]

end Condition

/-- The arithmetic unit and the branch conditions compute with the numbers that the words stand for,
and agree with each other. -/
theorem integer_semantics (a b : Word) :
    (∀ (op : Alu.Op) (r : Word), r = op.eval a b ↔ op.Yields a b r) ∧
      (∀ c : Condition, c.holds a b = true ↔ c.Asserts a b) ∧
      (Condition.lt.holds a b = true ↔ Alu.Op.slt.eval a b = 1) ∧
      (Condition.ge.holds a b = true ↔ Alu.Op.slt.eval a b = 0) ∧
      (Condition.ltu.holds a b = true ↔ Alu.Op.sltu.eval a b = 1) ∧
      (Condition.geu.holds a b = true ↔ Alu.Op.sltu.eval a b = 0) ∧
      (Condition.eq.holds a b = true ↔ Alu.Op.sub.eval a b = 0) := by
  obtain ⟨hsigned, hsigned'⟩ := Word.eq_flag_iff (Alu.Op.toNat_slt a b)
  obtain ⟨hunsigned, hunsigned'⟩ := Word.eq_flag_iff (Alu.Op.toNat_sltu a b)
  refine ⟨fun op r => Alu.Op.yields_iff.symm, fun c => Condition.holds_iff, ?_, ?_, ?_, ?_, ?_⟩
  · rw [Condition.holds_iff, hsigned]
    rfl
  · rw [Condition.holds_iff, hsigned', Int.not_lt]
    rfl
  · rw [Condition.holds_iff, hunsigned]
    rfl
  · rw [Condition.holds_iff, hunsigned', Nat.not_lt]
    rfl
  · rw [Condition.holds_iff, Alu.Op.sub_eq_zero_iff]
    rfl

/-- Half of minus seven, by a shift amount that wraps around, is rounded down. -/
example : Alu.Op.sra.eval (-7) 33 = -4 := by decide

end Multicycle
