import Multicycle.Register.Bank

/-! The register file: the bank, and a record of which registers were written. -/
namespace Multicycle.Register

/-- `i` put at its place in an ascending list, unless it is there already. -/
def insertAscending (i : Nat) : List Nat → List Nat
  | [] => [i]
  | j :: js => if i < j then i :: j :: js else if i = j then j :: js else j :: insertAscending i js

theorem mem_insertAscending {i k : Nat} {is : List Nat} :
    k ∈ insertAscending i is ↔ k = i ∨ k ∈ is := by
  induction is with
  | nil => simp [insertAscending]
  | cons j js ih =>
    simp only [insertAscending]
    split
    · simp
    · split
      · subst j; simp
      · simp [ih, or_left_comm]

theorem insertAscending_sorted {i : Nat} {is : List Nat} (h : is.Pairwise (· < ·)) :
    (insertAscending i is).Pairwise (· < ·) := by
  induction is with
  | nil => simp [insertAscending]
  | cons j js ih =>
    obtain ⟨hj, hjs⟩ := List.pairwise_cons.mp h
    simp only [insertAscending]
    split
    · next hij =>
      refine List.pairwise_cons.mpr ⟨?_, h⟩
      intro k hk
      rcases List.mem_cons.mp hk with rfl | hk
      · exact hij
      · exact Nat.lt_trans hij (hj k hk)
    · split
      · exact h
      · next hij hne =>
        refine List.pairwise_cons.mpr ⟨?_, ih hjs⟩
        intro k hk
        rcases mem_insertAscending.mp hk with rfl | hk
        · omega
        · exact hj k hk

/-- `modified` holds the indices that writes were made with, ascending. -/
structure File where
  bank : Bank := .initial
  modified : List Nat := []
  deriving DecidableEq

namespace File

def get? (f : File) (i : Nat) : Option Word := f.bank.get? i

/-- A register that was never written reads as zero. -/
def read (f : File) (i : Nat) : Word := (f.get? i).getD 0

def write (f : File) (i : Nat) (v : Word) : File :=
  match f.bank.write? i v with
  | some bank => ⟨bank, insertAscending i f.modified⟩
  | none => f

def writeAll (f : File) (writes : List (Nat × Word)) : File :=
  writes.foldl (fun f (i, v) => f.write i v) f

theorem get?_mod (f : File) (i : Nat) : f.get? (i % 32) = f.get? i := by
  have hplace : Bank.place (i % 32) = Bank.place i := Fin.ext (Nat.mod_mod i 32)
  exact congrArg (fun k : Fin 32 => f.bank.cells[k].value) hplace

theorem get?_write (f : File) (i : Nat) (v : Word) (j : Nat) :
    (f.write i v).get? j = if i % 32 ≠ 0 ∧ i % 32 = j % 32 then some v else f.get? j := by
  simp only [write]
  split
  · next bank h =>
    have hi : i % 32 ≠ 0 := fun h0 => by simp [Bank.write?_eq_none_iff.mpr h0] at h
    simp [get?, Bank.get?_of_write? h, hi]
  · next h => simp [Bank.write?_eq_none_iff.mp h]

theorem read_write (f : File) (i : Nat) (v : Word) (j : Nat) :
    (f.write i v).read j = if i % 32 ≠ 0 ∧ i % 32 = j % 32 then v else f.read j := by
  simp only [read, get?_write]
  split <;> rfl

theorem modified_write (f : File) (i : Nat) (v : Word) :
    (f.write i v).modified = if i % 32 = 0 then f.modified else insertAscending i f.modified := by
  simp only [write]
  split
  · next bank h =>
    have hi : i % 32 ≠ 0 := fun h0 => by simp [Bank.write?_eq_none_iff.mpr h0] at h
    simp [hi]
  · next h => simp [Bank.write?_eq_none_iff.mp h]

end File

end Multicycle.Register
