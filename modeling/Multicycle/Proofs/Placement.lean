import Mathlib.Data.Finset.Max
import Mathlib.Order.Bounds.Basic
import Multicycle.Proofs.Loading

/-! Programs loaded over one another: which word remains at each address, how many addresses gain a
word, and which loads may change places. -/
namespace Multicycle.Harvard

variable {m m' : Harvard} {base base' a : Word} {ws ws' : List Word} {n k : Nat}

/-- The `k`-th word is the last of the first `n` to be placed at `a`. -/
def LastAt (base : Word) (n : Nat) (a : Word) (k : Nat) : Prop :=
  IsGreatest {k | k < n ∧ wordAddress base k = a} k

theorem exists_lastAt (h : a ∈ covered base n) : ∃ k, LastAt base n a k := by
  obtain ⟨k, hk, ha⟩ := mem_covered.mp h
  let places := {k ∈ Finset.range n | wordAddress base k = a}
  have hmem : k ∈ places := Finset.mem_filter.mpr ⟨Finset.mem_range.mpr hk, ha⟩
  have hset : (places : Set Nat) = {k | k < n ∧ wordAddress base k = a} := by
    ext j
    simp [places]
  have hgreatest := places.isGreatest_max' ⟨k, hmem⟩
  rw [hset] at hgreatest
  exact ⟨_, hgreatest⟩

theorem instruction?_loadProgram_of_lastAt (h : LastAt base ws.length a k) :
    (m.loadProgram base ws).instruction? a = ws[k]? := by
  obtain ⟨⟨hk, rfl⟩, hupper⟩ := h
  apply instruction?_loadProgram_of_last hk
  intro j hj hkj heq
  have hle : j ≤ k := hupper ⟨hj, heq⟩
  omega

theorem instruction?_loadProgram_congr (h : a ∈ covered base ws.length) :
    (m.loadProgram base ws).instruction? a = (m'.loadProgram base ws).instruction? a := by
  obtain ⟨k, hk⟩ := exists_lastAt h
  rw [instruction?_loadProgram_of_lastAt hk, instruction?_loadProgram_of_lastAt hk]

theorem eq_of_instruction? (hinstruction : ∀ a, m.instruction? a = m'.instruction? a)
    (hdata : m.data = m'.data) (hcapacity : m.capacity = m'.capacity) : m = m' := by
  have hinstructions : m.instructions = m'.instructions :=
    Std.ExtTreeMap.ext_getElem? fun a => hinstruction a
  cases m
  cases m'
  simp_all only

theorem loadProgram_comm (h : Disjoint (covered base ws.length) (covered base' ws'.length)) :
    (m.loadProgram base ws).loadProgram base' ws' =
      (m.loadProgram base' ws').loadProgram base ws := by
  apply eq_of_instruction?
  · intro a
    by_cases ha : a ∈ covered base ws.length
    · have ha' : a ∉ covered base' ws'.length := Finset.disjoint_left.mp h ha
      rw [instruction?_loadProgram_of_notMem ha']
      exact instruction?_loadProgram_congr ha
    · rw [instruction?_loadProgram_of_notMem ha]
      by_cases ha' : a ∈ covered base' ws'.length
      · exact instruction?_loadProgram_congr ha'
      · rw [instruction?_loadProgram_of_notMem ha', instruction?_loadProgram_of_notMem ha',
          instruction?_loadProgram_of_notMem ha]
  · simp only [data_loadProgram]
  · simp only [capacity_loadProgram]

/-- Each address has the last word placed there, or else what it had before; nothing but the program
changes. -/
theorem loadProgram_places (m : Harvard) (base : Word) (ws : List Word) :
    (∀ a, (∃ k, LastAt base ws.length a k ∧ (m.loadProgram base ws).instruction? a = ws[k]?) ∨
      (∀ k < ws.length, wordAddress base k ≠ a) ∧
        (m.loadProgram base ws).instruction? a = m.instruction? a) ∧
    (m.loadProgram base ws).instructionCount =
      m.instructionCount + (m.vacant (covered base ws.length)).card ∧
    (m.loadProgram base ws).data = m.data ∧ (m.loadProgram base ws).capacity = m.capacity ∧
    (ws.length ≤ 2 ^ 30 → ∀ k < ws.length,
      (m.loadProgram base ws).instruction? (wordAddress base k) = ws[k]?) ∧
    ∀ base' ws', Disjoint (covered base ws.length) (covered base' ws'.length) →
      (m.loadProgram base ws).loadProgram base' ws' =
        (m.loadProgram base' ws').loadProgram base ws := by
  refine ⟨fun a => ?_, instructionCount_loadProgram m base ws, data_loadProgram m base ws,
    capacity_loadProgram m base ws, fun hlength k hk => instruction?_loadProgram m base hlength hk,
    fun base' ws' h => loadProgram_comm h⟩
  by_cases ha : a ∈ covered base ws.length
  · obtain ⟨k, hk⟩ := exists_lastAt ha
    exact .inl ⟨k, hk, instruction?_loadProgram_of_lastAt hk⟩
  · refine .inr ⟨fun k hk heq => ?_, instruction?_loadProgram_of_notMem ha⟩
    exact ha (mem_covered.mpr ⟨k, hk, heq⟩)

/-- Three words around the end of the address space, and a word between two of them, before or
after. -/
theorem loadProgram_places_around :
    let m := (empty none).loadProgram 0xfffffffc [7, 8, 9]
    let ws : List Word := [1, 2, 3]
    ws.length ≤ 2 ^ 30 ∧
      (m.loadProgram 0xfffffff8 ws).instruction? 0xfffffffc = some 2 ∧
      (m.loadProgram 0xfffffff8 ws).instruction? 0 = some 3 ∧
      (m.loadProgram 0xfffffff8 ws).instruction? 4 = some 9 ∧
      (m.loadProgram 0xfffffff8 ws).instructionCount = 4 ∧
      Disjoint (covered 0xfffffff8 ws.length) (covered 0xfffffffe [5].length) ∧
      (m.loadProgram 0xfffffff8 ws).loadProgram 0xfffffffe [5] =
        (m.loadProgram 0xfffffffe [5]).loadProgram 0xfffffff8 ws := by
  intro m ws
  have hlength : ws.length ≤ 2 ^ 30 := by decide
  have hdisjoint : Disjoint (covered 0xfffffff8 ws.length) (covered 0xfffffffe [5].length) := by
    decide
  obtain ⟨hwhich, hcount, -, -, hfind, hcomm⟩ := loadProgram_places m 0xfffffff8 ws
  have hkept : (m.loadProgram 0xfffffff8 ws).instruction? 4 = m.instruction? 4 := by
    obtain ⟨k, ⟨⟨hk, heq⟩, -⟩, -⟩ | ⟨-, h⟩ := hwhich 4
    · have hnot : ∀ k < 3, wordAddress 0xfffffff8 k ≠ 4 := by decide
      exact absurd heq (hnot k hk)
    · exact h
  have hfour : m.instruction? 4 = some 9 := by decide
  refine ⟨hlength, hfind hlength 1 (by decide), hfind hlength 2 (by decide), hkept.trans hfour, ?_,
    hdisjoint, hcomm _ _ hdisjoint⟩
  rw [hcount]
  decide

end Multicycle.Harvard
