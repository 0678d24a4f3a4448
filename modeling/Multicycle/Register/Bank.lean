import Multicycle.Basic
import Multicycle.Register.Name

/-! Storage of the registers. -/
namespace Multicycle.Register

/-- A register holds no value until it is first written. -/
structure Cell where
  index : Nat
  value : Option Word := none
  deriving DecidableEq, Repr

def Cell.set (c : Cell) (v : Word) : Cell := { c with value := some v }

structure Bank where
  cells : Vector Cell 32
  deriving DecidableEq

namespace Bank

/-- Register zero holds zero from the start. -/
def initial : Bank := ⟨Vector.ofFn fun i => ⟨i, if i = 0 then some 0 else none⟩⟩

/-- The place of register `i`: an index counts by its low five bits. -/
def place (i : Nat) : Fin 32 := Fin.ofNat 32 i

def cell (b : Bank) (i : Nat) : Cell := b.cells[place i]

def get? (b : Bank) (i : Nat) : Option Word := (b.cell i).value

/-- The bank with `v` in register `i`, or `none` for register zero, which keeps its value. -/
def write? (b : Bank) (i : Nat) (v : Word) : Option Bank :=
  if place i = 0 then none else some ⟨b.cells.set (place i) ((b.cell i).set v)⟩

@[simp] theorem val_place (i : Nat) : (place i).val = i % 32 := rfl

theorem get?_initial (i : Nat) : initial.get? i = if i % 32 = 0 then some 0 else none := by
  simp only [get?, cell, initial, Fin.getElem_fin, Vector.getElem_ofFn, Fin.ext_iff]
  rfl

theorem get?_of_write? {b b' : Bank} {i : Nat} {v : Word} (h : b.write? i v = some b') (j : Nat) :
    b'.get? j = if i % 32 = j % 32 then some v else b.get? j := by
  simp only [write?] at h
  split at h
  · cases h
  · cases h
    simp only [get?, cell, Fin.getElem_fin, Vector.getElem_set, val_place]
    split <;> rfl

theorem write?_eq_none_iff {b : Bank} {i : Nat} {v : Word} :
    b.write? i v = none ↔ i % 32 = 0 := by
  simp [write?, Fin.ext_iff]

end Bank

end Multicycle.Register
