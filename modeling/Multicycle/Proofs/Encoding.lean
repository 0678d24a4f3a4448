import Mathlib.Algebra.Group.Int.Defs
import Mathlib.Data.List.GetD
import Mathlib.Logic.ExistsUnique
import Multicycle.Proofs.Immediate

/-! The immediates of the instruction formats lose nothing: they are the numbers that the formats
show, and each number that a format can show is written in exactly one way into a word. -/
namespace Multicycle

theorem getLsbD_ofInt_sign {v : Int} {n j : Nat} (hn : 0 < n) (hlo : -2 ^ (n - 1) ≤ v)
    (hhi : v < 2 ^ (n - 1)) (hj : j < 32) (hle : n ≤ j) :
    (BitVec.ofInt 32 v).getLsbD j = (BitVec.ofInt 32 v).getLsbD (n - 1) := by
  have hpow : (2 : Int) ^ n = 2 * 2 ^ (n - 1) := by
    rw [← Int.pow_succ', Nat.sub_add_cancel hn]
  have hv : (BitVec.ofInt n v).toInt = v := by
    rw [BitVec.toInt_ofInt]
    apply Int.bmod_eq_of_le
    · push_cast
      omega
    · push_cast
      omega
  have hext : BitVec.ofInt 32 v = (BitVec.ofInt n v).signExtend 32 := by
    rw [BitVec.signExtend, hv]
  rw [hext, BitVec.getLsbD_signExtend, BitVec.getLsbD_signExtend, BitVec.msb_eq_getLsbD_last]
  have hlast : n - 1 < n := by omega
  have hlast' : n - 1 < 32 := by omega
  simp [hj, Nat.not_lt_of_le hle, hlast, hlast']

theorem getLsbD_ofInt_of_dvd {v : Int} {k j : Nat} (h : (2 : Int) ^ k ∣ v) (hj : j < k) :
    (BitVec.ofInt 32 v).getLsbD j = false := by
  obtain ⟨q, rfl⟩ := h
  have hcast : (2 : Int) ^ k = ((2 ^ k : Nat) : Int) := by
    push_cast
    rfl
  have hpow : BitVec.ofInt 32 ((2 : Int) ^ k) = BitVec.twoPow 32 k := by
    rw [hcast, BitVec.ofInt_natCast]
    apply BitVec.eq_of_toNat_eq
    rw [BitVec.toNat_twoPow, BitVec.toNat_ofNat]
  rw [BitVec.ofInt_mul, hpow, BitVec.mul_comm, BitVec.mul_twoPow_eq_shiftLeft]
  simp [hj]

theorem toInt_append_zero {n : Nat} (x : BitVec (n + 1)) :
    -2 ^ (n + 1) ≤ (x ++ 0#1).toInt ∧ (x ++ 0#1).toInt ≤ 2 ^ (n + 1) - 2 ∧
      2 ∣ (x ++ 0#1).toInt := by
  have hlo := BitVec.le_toInt x
  have hhi := BitVec.toInt_lt (x := x)
  have hpow : (2 : Int) ^ (n + 1) = 2 * 2 ^ n := Int.pow_succ' _ _
  have hx : (x ++ 0#1).toInt = 2 * x.toInt := by simp [BitVec.toInt_append]
  rw [Nat.add_sub_cancel] at hlo hhi
  rw [hx, hpow]
  omega

theorem append_zeros_eq_ofInt (x : BitVec 20) : x ++ 0#12 = BitVec.ofInt 32 (4096 * x.toNat) := by
  have hlt := x.isLt
  have hcast : (4096 : Int) * x.toNat = ((4096 * x.toNat : Nat) : Int) := by omega
  rw [hcast, BitVec.ofInt_natCast]
  apply BitVec.eq_of_toNat_eq
  rw [BitVec.toNat_append, BitVec.toNat_ofNat, BitVec.toNat_ofNat, Nat.zero_mod, Nat.or_zero,
    Nat.shiftLeft_eq, Nat.mul_comm, Nat.mod_eq_of_lt (by omega)]

namespace Layout

/-- The entry that bit `j` of an immediate is read from; beyond the width it is the first. -/
def source (layout : Layout) (j : Nat) : BitSource := layout.getD (layout.length - 1 - j) .zero

theorem getLsbD_eq_read_source (layout : Layout) (w : Instruction) {j : Nat} (hj : j < 32) :
    (layout.assemble w).getLsbD j = (layout.source j).read w := getLsbD_assemble layout w hj

theorem mem_of_source {layout : Layout} {i j : Nat} (h : layout.source j = .word i) :
    .word i ∈ layout := by
  cases layout with
  | nil => cases h
  | cons s ss =>
    have hlast : (s :: ss).length - 1 - j < (s :: ss).length := by
      rw [List.length_cons]
      omega
    rw [source, List.getD_eq_getElem _ _ hlast] at h
    rw [← h]
    exact List.getElem_mem _

theorem word_mem_iff {layout : Layout} {i : Nat} :
    .word i ∈ layout ↔ ∃ j < layout.length, layout.source j = .word i := by
  constructor
  · intro h
    obtain ⟨k, hk, hi⟩ := List.mem_iff_getElem.mp h
    refine ⟨layout.length - 1 - k, by omega, ?_⟩
    have hback : layout.length - 1 - (layout.length - 1 - k) = k := by omega
    rw [source, hback, List.getD_eq_getElem _ _ hk, hi]
  · rintro ⟨j, -, hi⟩
    exact mem_of_source hi

theorem source_of_le {layout : Layout} {j : Nat} (h : layout.length ≤ j) :
    layout.source j = layout.source (layout.length - 1) := by
  have hfirst : layout.length - 1 - j = layout.length - 1 - (layout.length - 1) := by omega
  rw [source, source, hfirst]

/-- Every entry is a zero or names a bit of a word of its own. -/
structure Injective (layout : Layout) : Prop where
  length_le : layout.length ≤ 32
  bound : ∀ i, .word i ∈ layout → i < 32
  distinct : ∀ j < layout.length, ∀ k < layout.length,
    layout.source j = layout.source k → layout.source j ≠ .zero → j = k

/-- A number that the layout can show: nothing where it has zeros, the sign beyond its width. -/
structure Carries (layout : Layout) (v : Word) : Prop where
  zero : ∀ j < 32, layout.source j = .zero → v.getLsbD j = false
  sign : ∀ j < 32, layout.length ≤ j → v.getLsbD j = v.getLsbD (layout.length - 1)

/-- Where bit `i` of a word goes in the immediate. -/
def place? (layout : Layout) (i : Nat) : Option Nat :=
  (List.range layout.length).find? fun j => layout.source j = .word i

/-- The word with `v` in the bits that the layout names, and all others as in `w`. -/
def inscribe (layout : Layout) (v : Word) (w : Instruction) : Instruction :=
  BitVec.setWidth 32 <| BitVec.ofBoolListLE <|
    (List.range 32).map fun i => (layout.place? i).elim (w.bit i) v.getLsbD

variable {layout : Layout} {v : Word} {w w' : Instruction} {i j : Nat}

theorem place?_eq_some (h : layout.place? i = some j) :
    j < layout.length ∧ layout.source j = .word i :=
  ⟨List.mem_range.mp (List.mem_of_find?_eq_some h), by simpa using List.find?_some h⟩

theorem place?_eq_none_iff : layout.place? i = none ↔ .word i ∉ layout := by
  simp [place?, word_mem_iff]

theorem bit_inscribe (v : Word) (w : Instruction) (hi : i < 32) :
    (layout.inscribe v w).bit i = (layout.place? i).elim (w.bit i) v.getLsbD := by
  rw [Instruction.bit, inscribe, BitVec.getLsbD_setWidth, BitVec.getLsbD_ofBoolListLE,
    List.getD_eq_getElem _ _ (by simpa using hi)]
  simp [hi]

theorem bit_eq_of_assemble (hj : j < 32) (h : layout.source j = .word i) :
    w.bit i = (layout.assemble w).getLsbD j := by
  rw [getLsbD_eq_read_source _ _ hj, h]
  rfl

/-- Nothing but the named bits shows in the immediate. -/
theorem assemble_congr (h : ∀ i, .word i ∈ layout → w'.bit i = w.bit i) :
    layout.assemble w' = layout.assemble w := by
  apply BitVec.eq_of_getLsbD_eq
  intro j hj
  rw [getLsbD_eq_read_source _ _ hj, getLsbD_eq_read_source _ _ hj]
  cases hs : layout.source j with
  | zero => rfl
  | word i => exact h i (mem_of_source hs)

theorem assemble_inscribe (h : layout.Injective) (hv : layout.Carries v) (w : Instruction) :
    layout.assemble (layout.inscribe v w) = v := by
  apply BitVec.eq_of_getLsbD_eq
  intro j hj
  rw [getLsbD_eq_read_source _ _ hj]
  cases hs : layout.source j with
  | zero => exact (hv.zero j hj hs).symm
  | word i =>
    have hmem := mem_of_source hs
    obtain ⟨k, hk⟩ := Option.ne_none_iff_exists'.mp (mt place?_eq_none_iff.mp (not_not_intro hmem))
    obtain ⟨hlt, hsource⟩ := place?_eq_some hk
    have hbit : (layout.inscribe v w).bit i = v.getLsbD k := by
      rw [bit_inscribe v w (h.bound i hmem), hk]
      rfl
    refine hbit.trans ?_
    have hne : layout.source k ≠ .zero := by simp [hsource]
    by_cases hin : j < layout.length
    · rw [h.distinct k hlt j hin (hsource.trans hs.symm) hne]
    · have hle := Nat.le_of_not_lt hin
      have hlast : k = layout.length - 1 := by
        refine h.distinct k hlt _ (by omega) ?_ hne
        rw [hsource, ← hs, source_of_le hle]
      rw [hlast, hv.sign j hj hle]

/-- Of the words that agree in the bits the layout does not name, one has the immediate `v`. -/
theorem existsUnique_assemble (h : layout.Injective) (hv : layout.Carries v) (w : Instruction) :
    ∃! w' : Instruction, (∀ i < 32, .word i ∉ layout → w'.bit i = w.bit i) ∧
      layout.assemble w' = v := by
  refine ⟨layout.inscribe v w, ⟨fun i hi hnot => ?_, assemble_inscribe h hv w⟩, ?_⟩
  · rw [bit_inscribe v w hi, place?_eq_none_iff.mpr hnot]
    rfl
  · rintro w' ⟨hother, hw'⟩
    apply BitVec.eq_of_getLsbD_eq
    intro i hi
    change w'.bit i = (layout.inscribe v w).bit i
    rw [bit_inscribe v w hi]
    cases hp : layout.place? i with
    | none => exact hother i hi (place?_eq_none_iff.mp hp)
    | some j =>
      obtain ⟨hlt, hsource⟩ := place?_eq_some hp
      rw [bit_eq_of_assemble (Nat.lt_of_lt_of_le hlt h.length_le) hsource, hw']
      rfl

theorem carries_ofInt {v : Int} {k : Nat} (hpos : 0 < layout.length)
    (hzero : ∀ j < 32, layout.source j = .zero → j < k) (hk : (2 : Int) ^ k ∣ v)
    (hrange : layout.length < 32 →
      -2 ^ (layout.length - 1) ≤ v ∧ v < 2 ^ (layout.length - 1)) :
    layout.Carries (BitVec.ofInt 32 v) where
  zero j hj hs := getLsbD_ofInt_of_dvd hk (hzero j hj hs)
  sign j hj hle := by
    obtain ⟨hlo, hhi⟩ := hrange (by omega)
    exact getLsbD_ofInt_sign hpos hlo hhi hj hle

end Layout

namespace Opcode

/-- The number that `w` shows in the format of `op`, in two's complement where it has a sign. -/
def value (op : Opcode) (w : Instruction) : Int :=
  match op with
  | load | opImm | jalr => (w.extractLsb' 20 12).toInt
  | store => (w.extractLsb' 25 7 ++ w.extractLsb' 7 5).toInt
  | branch =>
    (w.extractLsb' 31 1 ++ w.extractLsb' 7 1 ++ w.extractLsb' 25 6 ++ w.extractLsb' 8 4 ++
      0#1).toInt
  | jal =>
    (w.extractLsb' 31 1 ++ w.extractLsb' 12 8 ++ w.extractLsb' 20 1 ++ w.extractLsb' 21 10 ++
      0#1).toInt
  | lui | auipc => 4096 * (w.extractLsb' 12 20).toNat
  | opReg => 0

/-- The numbers that the format of `op` can show, up to the width of a word. -/
def Represents : Opcode → Int → Prop
  | load, v | opImm, v | jalr, v | store, v => -2048 ≤ v ∧ v ≤ 2047
  | branch, v => -4096 ≤ v ∧ v ≤ 4094 ∧ 2 ∣ v
  | jal, v => -2 ^ 20 ≤ v ∧ v ≤ 2 ^ 20 - 2 ∧ 2 ∣ v
  | lui, v | auipc, v => 4096 ∣ v
  | opReg, _ => False

instance (op : Opcode) (v : Int) : Decidable (op.Represents v) :=
  match op with
  | load | opImm | jalr | store => inferInstanceAs (Decidable (_ ∧ _))
  | branch | jal => inferInstanceAs (Decidable (_ ∧ _ ∧ _))
  | lui | auipc => inferInstanceAs (Decidable (_ ∣ _))
  | opReg => inferInstanceAs (Decidable False)

variable {op : Opcode} {w w' : Instruction} {v : Int}

theorem injective_layout (op : Opcode) : op.layout.Injective where
  length_le := op.length_layout_le
  bound i hi := by
    have hall : ∀ s ∈ op.layout, s = .zero ∨ ∃ k < 32, s = .word k := by
      cases op <;> decide
    obtain hzero | ⟨k, hk, hword⟩ := hall _ hi
    · cases hzero
    · cases hword
      exact hk
  distinct := by cases op <;> decide

theorem ofInt_value (op : Opcode) (w : Instruction) :
    BitVec.ofInt 32 (op.value w) = op.layout.assemble w := by
  rw [assemble_layout]
  cases op with
  | lui | auipc => exact (append_zeros_eq_ofInt _).symm
  | _ => rfl

theorem represents_value (h : op ≠ .opReg) (w : Instruction) : op.Represents (op.value w) := by
  cases op with
  | load | opImm | jalr | store =>
    dsimp only [Represents, value]
    exact ⟨BitVec.le_toInt _, Int.le_of_lt_add_one BitVec.toInt_lt⟩
  | branch | jal => exact toInt_append_zero _
  | lui | auipc => exact ⟨_, rfl⟩
  | opReg => exact absurd rfl h

theorem Represents.carries (h : op.Represents v) :
    op.layout.Carries (BitVec.ofInt 32 v) := by
  cases op with
  | load | opImm | jalr | store =>
    refine Layout.carries_ofInt (k := 0) (by decide) (by decide) (Int.one_dvd v) fun _ => ?_
    change -2 ^ 11 ≤ v ∧ v < 2 ^ 11
    obtain ⟨hlo, hhi⟩ := h
    omega
  | branch =>
    obtain ⟨hlo, hhi, hdvd⟩ := h
    refine Layout.carries_ofInt (k := 1) (by decide) (by decide) hdvd fun _ => ?_
    change -2 ^ 12 ≤ v ∧ v < 2 ^ 12
    omega
  | jal =>
    obtain ⟨hlo, hhi, hdvd⟩ := h
    refine Layout.carries_ofInt (k := 1) (by decide) (by decide) hdvd fun _ => ?_
    change -2 ^ 20 ≤ v ∧ v < 2 ^ 20
    omega
  | lui | auipc =>
    exact Layout.carries_ofInt (k := 12) (by decide) (by decide) h
      fun hlt => absurd hlt (by decide)
  | opReg => exact absurd h id

/-- The opcode stands in bits that no layout names. -/
theorem decode_congr (ho : decode w = .ok op)
    (h : ∀ i < 32, .word i ∉ op.layout → w'.bit i = w.bit i) : decode w' = .ok op := by
  have hnames : ∀ i < 7, .word i ∉ op.layout := by
    cases op <;> decide
  have hfield : w'.extractLsb' 0 7 = w.extractLsb' 0 7 := by
    apply BitVec.eq_of_getLsbD_eq
    intro i hi
    rw [BitVec.getLsbD_extractLsb', BitVec.getLsbD_extractLsb', Nat.zero_add]
    exact congrArg _ (h i (by omega) (hnames i hi))
  rw [decode_eq_ok_iff] at ho ⊢
  exact ho.trans (congrArg BitVec.toNat hfield).symm

end Opcode

namespace Instruction

theorem immediate_of_decode {w : Instruction} {op : Opcode} (ho : Opcode.decode w = .ok op) :
    w.immediate = .ok (op.layout.assemble w) :=
  immediate_eq_ok_iff.mpr ⟨op, ho, rfl⟩

/-- The immediate of a supported word is the number that its format shows, and each such number has
exactly one word. -/
theorem immediate_lossless {w : Instruction} {op : Opcode} (ho : Opcode.decode w = .ok op) :
    w.immediate = .ok (BitVec.ofInt 32 (op.value w)) ∧
      (op ≠ .opReg → op.Represents (op.value w)) ∧
      (∀ w' : Instruction, Opcode.decode w' = .ok op →
        (∀ i, .word i ∈ op.layout → w'.bit i = w.bit i) → w'.immediate = w.immediate) ∧
      ∀ v : Int, op.Represents v → ∃! w' : Instruction,
        (∀ i < 32, .word i ∉ op.layout → w'.bit i = w.bit i) ∧
          w'.immediate = .ok (BitVec.ofInt 32 v) := by
  refine ⟨?_, fun hop => Opcode.represents_value hop w, fun w' ho' h => ?_, fun v hv => ?_⟩
  · rw [immediate_of_decode ho, Opcode.ofInt_value]
  · rw [immediate_of_decode ho', immediate_of_decode ho, Layout.assemble_congr h]
  · obtain ⟨w', ⟨hother, hw'⟩, hunique⟩ :=
      Layout.existsUnique_assemble op.injective_layout hv.carries w
    refine ⟨w', ⟨hother, ?_⟩, fun u ⟨hu, hi⟩ => hunique u ⟨hu, ?_⟩⟩
    · rw [immediate_of_decode (Opcode.decode_congr ho hother), hw']
    · rw [immediate_of_decode (Opcode.decode_congr ho hu)] at hi
      exact Except.ok.inj hi

/-- A branch to the farthest address before it, and one whose offset has a single bit apart from the
others. -/
theorem immediate_lossless_branch :
    let w : Instruction := 0x80208063
    Opcode.decode w = .ok .branch ∧ Opcode.branch.value w = -4096 ∧
      w.immediate = .ok 0xfffff000 ∧ Opcode.branch.Represents 2048 ∧
      ∃! w' : Instruction, (∀ i < 32, .word i ∉ Opcode.branch.layout → w'.bit i = w.bit i) ∧
        w'.immediate = .ok 0x800 := by
  intro w
  have ho : Opcode.decode w = .ok .branch := Opcode.decode_eq_ok_iff.mpr (by decide)
  have hvalue : Opcode.branch.value w = -4096 := by decide
  have hrepresents : Opcode.branch.Represents 2048 := by decide
  obtain ⟨himmediate, -, -, hunique⟩ := immediate_lossless ho
  rw [hvalue] at himmediate
  exact ⟨ho, hvalue, himmediate, hrepresents, hunique 2048 hrepresents⟩

end Instruction

end Multicycle
