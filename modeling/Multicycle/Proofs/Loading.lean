import Mathlib.Algebra.Group.Nat.Defs
import Mathlib.Data.Finset.Card
import Mathlib.Data.Finset.Range
import Mathlib.Data.Fintype.Basic
import Multicycle.Harvard

/-! Where the words of a program are placed, and what else placing them does to a memory. -/
namespace Multicycle.Harvard

/-- The address of the word that `k` others stand before. -/
def wordAddress (base : Word) (k : Nat) : Word := base + BitVec.ofNat 32 (wordBytes * k)

/-- The addresses of the first `n` words. -/
def covered (base : Word) (n : Nat) : Finset Word := (Finset.range n).image (wordAddress base)

variable {m : Harvard} {base a : Word} {ws : List Word} {n k : Nat}

@[simp] theorem wordAddress_zero (base : Word) : wordAddress base 0 = base := by
  simp [wordAddress]

theorem wordAddress_succ (base : Word) (k : Nat) :
    wordAddress base (k + 1) = wordAddress (base + BitVec.ofNat 32 wordBytes) k := by
  rw [wordAddress, wordAddress, Nat.mul_succ, Nat.add_comm _ wordBytes, BitVec.ofNat_add,
    BitVec.add_assoc]

theorem mem_covered : a ∈ covered base n ↔ ∃ k < n, wordAddress base k = a := by
  simp only [covered, Finset.mem_image, Finset.mem_range]

theorem covered_succ (base : Word) (n : Nat) :
    covered base (n + 1) = insert base (covered (base + BitVec.ofNat 32 wordBytes) n) := by
  ext a
  simp only [mem_covered, Finset.mem_insert]
  constructor
  · rintro ⟨_ | k, hk, rfl⟩
    · exact .inl (wordAddress_zero base)
    · exact .inr ⟨k, Nat.lt_of_succ_lt_succ hk, (wordAddress_succ base k).symm⟩
  · rintro (rfl | ⟨k, hk, rfl⟩)
    · exact ⟨0, Nat.succ_pos n, wordAddress_zero a⟩
    · exact ⟨k + 1, Nat.succ_lt_succ hk, wordAddress_succ base k⟩

theorem instruction?_insert (m : Harvard) (base w a : Word) :
    instruction? { m with instructions := m.instructions.insert base w } a =
      if base = a then some w else m.instruction? a := by
  simp [instruction?, Std.ExtTreeMap.getElem?_insert]

theorem instruction?_loadProgram_of_notMem (h : a ∉ covered base ws.length) :
    (m.loadProgram base ws).instruction? a = m.instruction? a := by
  induction ws generalizing m base with
  | nil => rfl
  | cons w ws ih =>
    rw [List.length_cons, covered_succ, Finset.mem_insert, not_or] at h
    rw [loadProgram, ih h.2, instruction?_insert, if_neg (Ne.symm h.1)]

/-- Of the words that are placed at one address, the last remains. -/
theorem instruction?_loadProgram_of_last (hk : k < ws.length)
    (hlast : ∀ j < ws.length, k < j → wordAddress base j ≠ wordAddress base k) :
    (m.loadProgram base ws).instruction? (wordAddress base k) = ws[k]? := by
  induction ws generalizing m base k with
  | nil => exact absurd hk (Nat.not_lt_zero k)
  | cons w ws ih =>
    rw [loadProgram]
    cases k with
    | zero =>
      have hbase : base ∉ covered (base + BitVec.ofNat 32 wordBytes) ws.length := by
        rw [mem_covered]
        rintro ⟨j, hj, heq⟩
        apply hlast (j + 1) (Nat.succ_lt_succ hj) (Nat.succ_pos j)
        rw [wordAddress_succ, heq, wordAddress_zero]
      rw [wordAddress_zero, instruction?_loadProgram_of_notMem hbase, instruction?_insert,
        if_pos rfl]
      rfl
    | succ k =>
      rw [wordAddress_succ]
      refine ih (Nat.lt_of_succ_lt_succ hk) fun j hj hkj => ?_
      rw [← wordAddress_succ, ← wordAddress_succ]
      exact hlast (j + 1) (Nat.succ_lt_succ hj) (Nat.succ_lt_succ hkj)

/-- The addresses among `s` that have no word yet. -/
def vacant (m : Harvard) (s : Finset Word) : Finset Word := {a ∈ s | m.instruction? a = none}

theorem vacant_insert (m : Harvard) (base w : Word) (s : Finset Word) :
    vacant { m with instructions := m.instructions.insert base w } s = (m.vacant s).erase base := by
  ext a
  simp only [vacant, Finset.mem_erase, Finset.mem_filter, instruction?_insert]
  by_cases h : base = a
  · simp [h]
  · simp [h, Ne.symm h]

theorem instructionCount_insert (m : Harvard) (base w : Word) :
    instructionCount { m with instructions := m.instructions.insert base w } =
      if m.instruction? base = none then m.instructionCount + 1 else m.instructionCount := by
  simp [instructionCount, instruction?, Std.ExtTreeMap.size_insert]

/-- Each address that a program covers counts once, unless it had a word before. -/
theorem instructionCount_loadProgram (m : Harvard) (base : Word) (ws : List Word) :
    (m.loadProgram base ws).instructionCount =
      m.instructionCount + (m.vacant (covered base ws.length)).card := by
  induction ws generalizing m base with
  | nil => rfl
  | cons w ws ih =>
    rw [loadProgram, ih, vacant_insert, instructionCount_insert, List.length_cons, covered_succ,
      vacant, vacant, Finset.filter_insert]
    split
    · rw [← Finset.card_erase_add_one (Finset.mem_insert_self _ _), Finset.erase_insert_eq_erase]
      omega
    next hsome =>
      congr 2
      exact Finset.erase_eq_of_notMem fun h => hsome (Finset.mem_filter.mp h).2

theorem toNat_wordAddress (hk : k < 2 ^ 30) : (wordAddress 0 k).toNat = 4 * k := by
  have hzero : wordAddress 0 k = BitVec.ofNat 32 (4 * k) := BitVec.zero_add _
  rw [hzero, BitVec.toNat_ofNat]
  exact Nat.mod_eq_of_lt (by omega)

theorem wordAddress_injOn (base : Word) (hn : n ≤ 2 ^ 30) :
    Set.InjOn (wordAddress base) (Finset.range n) := by
  intro j hj k hk h
  rw [Finset.coe_range, Set.mem_Iio] at hj hk
  have hzero : wordAddress 0 j = wordAddress 0 k := congrArg (0 + ·) ((BitVec.add_right_inj base).mp h)
  have hnat := congrArg BitVec.toNat hzero
  rw [toNat_wordAddress (hj.trans_le hn), toNat_wordAddress (hk.trans_le hn)] at hnat
  omega

theorem instruction?_loadProgram (m : Harvard) (base : Word) (hlength : ws.length ≤ 2 ^ 30)
    (hk : k < ws.length) :
    (m.loadProgram base ws).instruction? (wordAddress base k) = ws[k]? := by
  apply instruction?_loadProgram_of_last hk
  intro j hj hkj heq
  have hinj := wordAddress_injOn base hlength (Finset.mem_coe.mpr (Finset.mem_range.mpr hj))
    (Finset.mem_coe.mpr (Finset.mem_range.mpr hk)) heq
  omega

theorem instruction?_empty (capacity : Option Nat) (a : Word) :
    (empty capacity).instruction? a = none := by
  simp [empty, instruction?]

theorem instruction?_ofProgram {program : List Word} (hlength : program.length ≤ 2 ^ 30)
    (capacity : Option Nat) (a : Word) :
    (ofProgram program capacity).instruction? a =
      if a.toNat % 4 = 0 then program[a.toNat / 4]? else none := by
  by_cases h : a ∈ covered 0 program.length
  · obtain ⟨k, hk, rfl⟩ := mem_covered.mp h
    rw [ofProgram, instruction?_loadProgram _ 0 hlength hk,
      toNat_wordAddress (hk.trans_le hlength), Nat.mul_mod_right, if_pos rfl,
      Nat.mul_div_cancel_left k (by decide)]
  · rw [ofProgram, instruction?_loadProgram_of_notMem h, instruction?_empty]
    split
    next haligned =>
      symm
      rw [List.getElem?_eq_none_iff]
      by_contra hlt
      rw [Nat.not_le] at hlt
      apply h
      rw [mem_covered]
      refine ⟨a.toNat / 4, hlt, ?_⟩
      apply BitVec.eq_of_toNat_eq
      rw [toNat_wordAddress (hlt.trans_le hlength)]
      omega
    next => rfl

theorem instructionCount_ofProgram {program : List Word} (hlength : program.length ≤ 2 ^ 30)
    (capacity : Option Nat) : (ofProgram program capacity).instructionCount = program.length := by
  have hvacant : (empty capacity).vacant (covered 0 program.length) = covered 0 program.length :=
    Finset.filter_true_of_mem fun a _ => instruction?_empty capacity a
  have hcount : (empty capacity).instructionCount = 0 := rfl
  rw [ofProgram, instructionCount_loadProgram, hvacant, hcount, Nat.zero_add, covered,
    Finset.card_image_of_injOn (wordAddress_injOn 0 hlength), Finset.card_range]

end Multicycle.Harvard
