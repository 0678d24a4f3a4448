import Mathlib.Tactic.Ring
import Multicycle.Proofs.Immediate

/-! Immediates gathered in a register, bit by bit from the right, and moved up and down again to take
on their sign. No step of this overflows, and what comes out is the immediate that the layout
defines. -/
namespace Multicycle

namespace Bits

/-- The number that a string of bits shows, most significant first. -/
def unsigned : List Bool → Nat
  | [] => 0
  | b :: bits => b.toNat * 2 ^ bits.length + unsigned bits

/-- In two's complement the first bit takes its weight away. -/
def signed : List Bool → Int
  | [] => 0
  | b :: bits => unsigned bits - b.toNat * 2 ^ bits.length

theorem toNat_ofBoolListBE (bits : List Bool) :
    (BitVec.ofBoolListBE bits).toNat = unsigned bits := by
  induction bits with
  | nil => rfl
  | cons b bits ih =>
    unfold BitVec.ofBoolListBE unsigned
    rw [BitVec.toNat_cons', ih, Nat.shiftLeft_eq]

theorem toInt_ofBoolListBE (bits : List Bool) :
    (BitVec.ofBoolListBE bits).toInt = signed bits := by
  cases bits with
  | nil => rfl
  | cons b bits =>
    have hmsb : (BitVec.ofBoolListBE (b :: bits)).msb = b := BitVec.msb_cons
    have hpow : 2 ^ (b :: bits).length = 2 * 2 ^ bits.length := Nat.pow_succ'
    rw [BitVec.toInt_eq_msb_cond, hmsb, toNat_ofBoolListBE, hpow]
    unfold unsigned signed
    cases b
    · simp
    · simp only [if_true, Bool.toNat_true]
      push_cast
      omega

end Bits

namespace Word

/-- A shift to the left that is not by the whole width and loses no bit. -/
def shiftLeft? (x : Word) (n : Nat) : Option Word :=
  if n < 32 ∧ x.toNat * 2 ^ n < 2 ^ 32 then some (x <<< n) else none

/-- A shift to the right that copies the sign and is not by the whole width. -/
def sshiftRight? (x : Word) (n : Nat) : Option Word :=
  if n < 32 then some (x.sshiftRight n) else none

end Word

def spareBits? (n : Nat) : Option Nat := if n ≤ 32 then some (32 - n) else none

namespace BitSource

/-- A zero, or a bit that a word has. -/
def InWord : BitSource → Prop
  | word i => i < 32
  | zero => True

instance : DecidablePred InWord
  | word i => inferInstanceAs (Decidable (i < 32))
  | zero => inferInstanceAs (Decidable True)

/-- One bit of `w` as a number, brought down from its place in the word. -/
def isolate? (w : Instruction) : BitSource → Option Word
  | word i => if i < 32 then some (w >>> i &&& 1) else none
  | zero => some 0

end BitSource

namespace Layout

/-- A bit pushed into a register from the right. -/
def push? (w : Instruction) (acc : Word) (s : BitSource) : Option Word := do
  let bit ← s.isolate? w
  let moved ← acc.shiftLeft? 1
  return moved ||| bit

/-- The named bits of `w` pushed in one by one, then extended by two shifts; overflow gives no
result. -/
def gather? (layout : Layout) (w : Instruction) : Option Word :=
  if layout = [] then some 0
  else do
    let raw ← layout.foldlM (push? w) 0
    let spare ← spareBits? layout.length
    let high ← raw.shiftLeft? spare
    high.sshiftRight? spare

end Layout

namespace BitSource

variable {w : Instruction} {s : BitSource}

theorem isolate?_eq_some (h : s.InWord) :
    ∃ x : Word, s.isolate? w = some x ∧ x.toNat = (s.read w).toNat := by
  cases s with
  | zero => exact ⟨0, rfl, rfl⟩
  | word i =>
    refine ⟨w >>> i &&& 1, if_pos h, ?_⟩
    have hone : (1 : Word).toNat = 1 := rfl
    rw [BitVec.toNat_and, BitVec.toNat_ushiftRight, hone, Nat.and_one_is_mod,
      Nat.shiftRight_eq_div_pow, read, Instruction.bit, ← BitVec.testBit_toNat,
      Nat.testBit_eq_decide_div_mod_eq]
    rcases Nat.mod_two_eq_zero_or_one (w.toNat / 2 ^ i) with hbit | hbit
    · simp [hbit]
    · simp [hbit]

end BitSource

namespace Layout

variable {w : Instruction} {s : BitSource} {layout : Layout} {acc : Word} {k : Nat}

theorem push?_eq_some (hs : s.InWord) (hk : k < 32) (hacc : acc.toNat < 2 ^ k) :
    ∃ x : Word, push? w acc s = some x ∧ x.toNat = 2 * acc.toNat + (s.read w).toNat ∧
      x.toNat < 2 ^ (k + 1) := by
  obtain ⟨bit, hbit, hread⟩ := BitSource.isolate?_eq_some (w := w) hs
  have hfits : acc.toNat * 2 ^ 1 < 2 ^ 32 := by
    have hpow : 2 ^ (k + 1) ≤ 2 ^ 32 := Nat.pow_le_pow_right (by decide) hk
    omega
  have hmoved : acc.shiftLeft? 1 = some (acc <<< 1) := if_pos ⟨by decide, hfits⟩
  have hvalue : (acc <<< 1 ||| bit).toNat = 2 * acc.toNat + (s.read w).toNat := by
    have hlow : bit.toNat < 2 ^ 1 := by
      have := Bool.toNat_lt (s.read w)
      omega
    rw [BitVec.toNat_or, BitVec.toNat_shiftLeft, Nat.shiftLeft_eq, Nat.mod_eq_of_lt hfits,
      Nat.mul_comm, ← Nat.two_pow_add_eq_or_of_lt hlow, hread]
  refine ⟨acc <<< 1 ||| bit, ?_, hvalue, ?_⟩
  · rw [push?, hbit, hmoved]
    rfl
  · have := Bool.toNat_lt (s.read w)
    omega

/-- The bits after those already in the register make it the number that all of them show. -/
theorem foldlM_push?_eq_some (hs : ∀ s ∈ layout, s.InWord) (hacc : acc.toNat < 2 ^ k)
    (hk : k + layout.length ≤ 32) :
    ∃ x : Word, layout.foldlM (push? w) acc = some x ∧
      x.toNat = acc.toNat * 2 ^ layout.length + Bits.unsigned (layout.map (·.read w)) := by
  induction layout generalizing acc k with
  | nil => exact ⟨acc, rfl, by simp [Bits.unsigned]⟩
  | cons s layout ih =>
    rw [List.length_cons] at hk
    obtain ⟨hfirst, hrest⟩ := List.forall_mem_cons.mp hs
    obtain ⟨next, hnext, hvalue, hlt⟩ := push?_eq_some (w := w) (s := s) (k := k)
      hfirst (by omega) hacc
    obtain ⟨x, hx, hsum⟩ := ih hrest hlt (by omega)
    refine ⟨x, ?_, ?_⟩
    · rw [List.foldlM_cons, hnext]
      exact hx
    · rw [hsum, hvalue, List.map_cons, Bits.unsigned, List.length_map, List.length_cons,
        Nat.pow_succ']
      ring

/-- Moved up until it fills the word and down again, a number takes on its sign. -/
theorem sshiftRight_shiftLeft {n : Nat} (hpos : 0 < n) (hn : n ≤ 32) (x : BitVec n) :
    (x.setWidth 32 <<< (32 - n)).sshiftRight (32 - n) = x.signExtend 32 := by
  apply BitVec.eq_of_getLsbD_eq
  intro j hj
  rw [BitVec.getLsbD_sshiftRight, BitVec.getLsbD_signExtend, BitVec.msb_eq_getLsbD_last,
    BitVec.msb_eq_getLsbD_last]
  simp only [BitVec.getLsbD_shiftLeft, BitVec.getLsbD_setWidth]
  by_cases h : j < n
  · have hup : 32 - n + j < 32 := by omega
    have hback : 32 - n + j - (32 - n) = j := by omega
    have hge : ¬ 32 - n + j < 32 - n := by omega
    have hle : ¬ 32 ≤ j := by omega
    simp [h, hj, hup, hback, hge, hle]
  · have hup : ¬ 32 - n + j < 32 := by omega
    have hback : 32 - 1 - (32 - n) = n - 1 := by omega
    have hge : ¬ 32 - 1 < 32 - n := by omega
    have hle : ¬ 32 ≤ j := by omega
    have hlt : n - 1 < 32 := by omega
    simp [h, hj, hup, hback, hge, hle, hlt]

theorem shiftLeft?_setWidth {n : Nat} (hpos : 0 < n) (hn : n ≤ 32) (x : BitVec n) :
    Word.shiftLeft? (x.setWidth 32) (32 - n) = some (x.setWidth 32 <<< (32 - n)) := by
  refine if_pos ⟨by omega, ?_⟩
  have hsum : 2 ^ n * 2 ^ (32 - n) = 2 ^ 32 := by
    rw [← Nat.pow_add]
    congr 1
    omega
  rw [BitVec.toNat_setWidth_of_le hn, ← hsum]
  exact Nat.mul_lt_mul_of_pos_right x.isLt (Nat.two_pow_pos _)

/-- No layout of a word's bits makes the register overflow, whatever the order of its entries. -/
theorem gather?_eq_some (hlen : layout.length ≤ 32) (hword : ∀ s ∈ layout, s.InWord)
    (w : Instruction) : layout.gather? w = some (layout.assemble w) := by
  unfold gather?
  split
  · next h => rw [h, assemble_nil]
  · next hne =>
    let bits := layout.map (·.read w)
    have hwidth : layout.length = bits.length := (List.length_map _).symm
    have hpos : 0 < bits.length := hwidth ▸ List.length_pos_iff.mpr hne
    have hzero : (0 : Word).toNat = 0 := rfl
    have hempty : (0 : Word).toNat < 2 ^ 0 := by decide
    obtain ⟨raw, hraw, hvalue⟩ := foldlM_push?_eq_some (w := w) hword hempty (by omega)
    rw [hwidth] at hlen
    have hx : raw = (BitVec.ofBoolListBE bits).setWidth 32 := by
      apply BitVec.eq_of_toNat_eq
      rw [hvalue, BitVec.toNat_setWidth_of_le hlen, Bits.toNat_ofBoolListBE, hzero,
        Nat.zero_mul, Nat.zero_add]
    have hspare : spareBits? bits.length = some (32 - bits.length) := if_pos hlen
    have hamount : 32 - bits.length < 32 := by omega
    rw [hraw, hwidth, hspare]
    dsimp only [bind, Option.bind]
    rw [hx, shiftLeft?_setWidth hpos hlen]
    dsimp only
    rw [Word.sshiftRight?, if_pos hamount, sshiftRight_shiftLeft hpos hlen]
    rfl

theorem toInt_assemble (hlen : layout.length ≤ 32) (w : Instruction) :
    (layout.assemble w).toInt = Bits.signed (layout.map (·.read w)) := by
  have hwidth : (layout.map (·.read w)).length ≤ 32 := by rwa [List.length_map]
  rw [assemble, BitVec.toInt_signExtend_of_le hwidth, Bits.toInt_ofBoolListBE]

theorem getLsbD_assemble_of_reverse {j : Nat} (hlen : layout.length ≤ 32)
    (h : layout.reverse[j]? = some s) (w : Instruction) :
    (layout.assemble w).getLsbD j = s.read w := by
  have hj : j < layout.length := by
    have := (List.getElem?_eq_some_iff.mp h).1
    rwa [List.length_reverse] at this
  rw [List.getElem?_reverse hj] at h
  rw [getLsbD_assemble layout w (by omega), List.getD_eq_getElem?_getD, h, Option.getD_some]

theorem getLsbD_assemble_of_head {j : Nat} (h : layout.head? = some s) (hle : layout.length ≤ j)
    (hj : j < 32) (w : Instruction) : (layout.assemble w).getLsbD j = s.read w := by
  have hfirst : layout.length - 1 - j = 0 := by omega
  rw [List.head?_eq_getElem?] at h
  rw [getLsbD_assemble layout w hj, hfirst, List.getD_eq_getElem?_getD, h, Option.getD_some]

/-- The immediate is the string of the named bits in two's complement, and the register that gathers
them never overflows. -/
theorem assemble_gathers (hlen : layout.length ≤ 32) (hword : ∀ s ∈ layout, s.InWord)
    (w : Instruction) :
    (∀ j s, layout.reverse[j]? = some s → (layout.assemble w).getLsbD j = s.read w) ∧
      (∀ j s, layout.head? = some s → layout.length ≤ j → j < 32 →
        (layout.assemble w).getLsbD j = s.read w) ∧
      (layout.assemble w).toInt = Bits.signed (layout.map (·.read w)) ∧
      layout.assemble w = BitVec.ofInt 32 (Bits.signed (layout.map (·.read w))) ∧
      layout.gather? w = some (layout.assemble w) ∧
      (layout = [] → layout.assemble w = 0) := by
  have hvalue := toInt_assemble hlen w
  refine ⟨?_, ?_, hvalue, ?_, gather?_eq_some hlen hword w, ?_⟩
  · intro j s h
    exact getLsbD_assemble_of_reverse hlen h w
  · intro j s h hle hj
    exact getLsbD_assemble_of_head h hle hj w
  · rw [← hvalue, BitVec.ofInt_toInt]
  · intro h
    rw [h, assemble_nil]

/-- One entry, moved as far as a word allows, and as many entries as there is room for. -/
theorem assemble_gathers_extremes :
    let w : Instruction := 0x20
    let one : Layout := [.word 5]
    let full : Layout := .word 5 :: .word 4 :: zeros 29 ++ [.word 5]
    one.assemble w = 0xffffffff ∧ one.gather? w = some 0xffffffff ∧
      (full.assemble w).toInt = -2147483647 ∧ full.gather? w = some 0x80000001 ∧
      (full.assemble w).getLsbD 0 = true ∧ (one.assemble w).getLsbD 31 = true := by
  intro w one full
  have hone : one.assemble w = 0xffffffff := by decide
  have hfull : full.assemble w = 0x80000001 := by decide
  have hread : (BitSource.word 5).read w = true := by decide
  have hsigned : Bits.signed (full.map (·.read w)) = -2147483647 := by decide
  have hword : ∀ s ∈ one, s.InWord := by decide
  have hword' : ∀ s ∈ full, s.InWord := by decide
  obtain ⟨-, hsign, -, -, hgather, -⟩ := assemble_gathers (by decide) hword w
  obtain ⟨hbit, -, hvalue, -, hgather', -⟩ := assemble_gathers (by decide) hword' w
  rw [hone] at hgather
  rw [hfull] at hgather'
  rw [hsigned] at hvalue
  exact ⟨hone, hgather, hvalue, hgather', (hbit 0 (.word 5) rfl).trans hread,
    (hsign 31 (.word 5) rfl (by decide) (by decide)).trans hread⟩

end Layout

end Multicycle
