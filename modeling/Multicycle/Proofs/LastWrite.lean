import Mathlib.Data.List.Induction
import Multicycle.Register.File

/-! The register file after any writes to a new one: register zero is zero, every other register
holds what was written to it last, and an index counts modulo 32 wherever it comes in. -/
namespace Multicycle.Register

/-- Of all `writes` that go to register `j`, the last wrote `v`. -/
def LastWrite (writes : List (Nat × Word)) (j : Nat) (v : Word) : Prop :=
  ∃ before i after, writes = before ++ (i, v) :: after ∧ i % 32 = j % 32 ∧
    ∀ w ∈ after, w.1 % 32 ≠ j % 32

variable {writes : List (Nat × Word)} {w : Nat × Word} {i j : Nat} {v : Word}

theorem not_lastWrite_nil : ¬ LastWrite [] j v := by
  rintro ⟨before, i, after, h, -⟩
  simp at h

theorem lastWrite_concat :
    LastWrite (writes ++ [w]) j v ↔
      w.1 % 32 = j % 32 ∧ w.2 = v ∨ w.1 % 32 ≠ j % 32 ∧ LastWrite writes j v := by
  constructor
  · rintro ⟨before, i, after, hw, hi, hafter⟩
    rcases after.eq_nil_or_concat with rfl | ⟨ws, u, rfl⟩
    · have hlast := List.singleton_inj.mp (List.append_inj' hw rfl).2
      subst hlast
      exact .inl ⟨hi, rfl⟩
    · rw [List.concat_eq_append, ← List.cons_append, ← List.append_assoc] at hw
      obtain ⟨hfirst, hlast⟩ := List.append_inj' hw rfl
      have hne : w.1 % 32 ≠ j % 32 := by
        rw [List.singleton_inj.mp hlast]
        exact hafter u (by simp)
      refine .inr ⟨hne, before, i, ws, hfirst, hi, ?_⟩
      intro x hx
      exact hafter x (by simp [hx])
  · rintro (⟨hw, rfl⟩ | ⟨hw, before, i, after, rfl, hi, hafter⟩)
    · exact ⟨writes, w.1, [], rfl, hw, by simp⟩
    · refine ⟨before, i, after ++ [w], by simp, hi, ?_⟩
      intro x hx
      rcases List.mem_append.mp hx with hx | hx
      · exact hafter x hx
      · rw [List.mem_singleton.mp hx]
        exact hw

namespace Bank

variable {b b' : Bank}

theorem isSome_write?_iff : (b.write? i v).isSome = true ↔ i % 32 ≠ 0 := by
  rw [Option.isSome_iff_ne_none, Ne, write?_eq_none_iff]

/-- Each cell carries the number of its place. -/
def Numbered (b : Bank) : Prop := ∀ i : Fin 32, b.cells[i].index = i

theorem numbered_initial : initial.Numbered := by
  intro i
  simp only [initial, Fin.getElem_fin, Vector.getElem_ofFn]

theorem Numbered.write? (hb : b.Numbered) (h : b.write? i v = some b') : b'.Numbered := by
  intro k
  unfold Bank.write? at h
  split at h
  · cases h
  · cases h
    simp only [Fin.getElem_fin, Vector.getElem_set]
    split
    · next hk =>
      have hcell : (b.cell i).index = place i := hb (place i)
      change (b.cell i).index = k
      rw [hcell, hk]
    · exact hb k

theorem Numbered.map_index (hb : b.Numbered) : b.cells.toList.map Cell.index = List.range 32 := by
  apply List.ext_getElem
  · simp
  · intro k hk _
    have hlt : k < 32 := by simpa using hk
    rw [List.getElem_map, Vector.getElem_toList, List.getElem_range]
    exact hb ⟨k, hlt⟩

end Bank

namespace File

variable {f : File}

@[simp] theorem writeAll_nil (f : File) : f.writeAll [] = f := rfl

theorem writeAll_concat (f : File) (writes : List (Nat × Word)) (w : Nat × Word) :
    f.writeAll (writes ++ [w]) = (f.writeAll writes).write w.1 w.2 := by
  unfold writeAll
  rw [List.foldl_append]
  rfl

theorem get?_new (j : Nat) : ({} : File).get? j = if j % 32 = 0 then some 0 else none :=
  Bank.get?_initial j

theorem numbered_write (h : f.bank.Numbered) (i : Nat) (v : Word) :
    (f.write i v).bank.Numbered := by
  unfold write
  split
  · next bank hb => exact h.write? hb
  · exact h

theorem numbered_writeAll (h : f.bank.Numbered) (writes : List (Nat × Word)) :
    (f.writeAll writes).bank.Numbered :=
  List.foldlRecOn (motive := fun f : File => f.bank.Numbered) writes _ h
    fun _ hf w _ => numbered_write hf w.1 w.2

theorem get?_writeAll_zero (h : j % 32 = 0) (f : File) (writes : List (Nat × Word)) :
    (f.writeAll writes).get? j = f.get? j := by
  induction writes using List.reverseRecOn with
  | nil => rfl
  | append_singleton ws w ih =>
    rw [writeAll_concat, get?_write, if_neg (by omega), ih]

theorem get?_writeAll_eq_some_iff (h : j % 32 ≠ 0) :
    (({} : File).writeAll writes).get? j = some v ↔ LastWrite writes j v := by
  induction writes using List.reverseRecOn with
  | nil => simp [get?_new, h, not_lastWrite_nil]
  | append_singleton ws w ih =>
    rw [writeAll_concat, get?_write, lastWrite_concat]
    by_cases hw : w.1 % 32 = j % 32
    · rw [if_pos ⟨by omega, hw⟩, Option.some.injEq]
      simp [hw]
    · rw [if_neg (by omega), ih]
      simp [hw]

theorem isSome_get?_writeAll (f : File) (writes : List (Nat × Word)) (j : Nat) :
    ((f.writeAll writes).get? j).isSome = true ↔
      (f.get? j).isSome = true ∨ j % 32 ≠ 0 ∧ ∃ w ∈ writes, w.1 % 32 = j % 32 := by
  induction writes using List.reverseRecOn with
  | nil => simp
  | append_singleton ws w ih =>
    rw [writeAll_concat, get?_write]
    split
    · next hw =>
      have hj : j % 32 ≠ 0 := by omega
      simp [hj, hw.2]
    · next hw =>
      have hne : j % 32 ≠ 0 → w.1 % 32 ≠ j % 32 := by omega
      rw [ih]
      constructor
      · rintro (hf | ⟨hj, u, hu, huj⟩)
        · exact .inl hf
        · exact .inr ⟨hj, u, by simp [hu], huj⟩
      · rintro (hf | ⟨hj, u, hu, huj⟩)
        · exact .inl hf
        · rcases List.mem_append.mp hu with hu | hu
          · exact .inr ⟨hj, u, hu, huj⟩
          · rw [List.mem_singleton.mp hu] at huj
            exact absurd huj (hne hj)

theorem get?_writeAll_eq_none_iff :
    (({} : File).writeAll writes).get? j = none ↔
      j % 32 ≠ 0 ∧ ∀ w ∈ writes, w.1 % 32 ≠ j % 32 := by
  have hsome := isSome_get?_writeAll {} writes j
  rw [get?_new] at hsome
  rw [← Option.not_isSome_iff_eq_none, hsome]
  by_cases hj : j % 32 = 0 <;> simp [hj]

/-- After any writes to a new file, each register but zero holds what was written to it last, if
anything. -/
theorem last_write_wins (writes : List (Nat × Word)) :
    let f := ({} : File).writeAll writes
    (∀ j, j % 32 = 0 → f.get? j = some 0) ∧
      (∀ j v, j % 32 ≠ 0 → (f.get? j = some v ↔ LastWrite writes j v)) ∧
      (∀ j, f.get? j = none ↔ j % 32 ≠ 0 ∧ ∀ w ∈ writes, w.1 % 32 ≠ j % 32) ∧
      (∀ j, f.read j = (f.get? j).getD 0) ∧
      (∀ j more, (f.get? j).isSome = true → ((f.writeAll more).get? j).isSome = true) ∧
      (∀ (b : Bank) i v, (b.write? i v).isSome = true ↔ i % 32 ≠ 0) ∧
      f.bank.cells.toList.map Cell.index = List.range 32 := by
  intro f
  have hnumbered : f.bank.Numbered := numbered_writeAll Bank.numbered_initial writes
  refine ⟨?_, fun j v => get?_writeAll_eq_some_iff, fun j => get?_writeAll_eq_none_iff,
    fun j => rfl, ?_, fun b i v => Bank.isSome_write?_iff, hnumbered.map_index⟩
  · intro j hj
    rw [get?_writeAll_zero hj, get?_new, if_pos hj]
  · intro j more hsome
    exact (isSome_get?_writeAll f more j).mpr (.inl hsome)

/-- Register one under three indices, and register zero under an index beyond 32. -/
theorem last_write_wins_wrapped :
    let writes : List (Nat × Word) := [(1, 5), (33, 6), (64, 7)]
    let f := ({} : File).writeAll writes
    f.get? 97 = some 6 ∧ LastWrite writes 1 6 ∧ f.get? 32 = some 0 ∧
      ((f.writeAll [(65, 8)]).get? 33).isSome = true := by
  intro writes f
  obtain ⟨hzero, hlast, -, -, hkept, -⟩ := last_write_wins writes
  have hget : f.get? 97 = some 6 := by
    subst f writes
    rfl
  have hone : LastWrite writes 97 6 := (hlast 97 6 (by decide)).mp hget
  refine ⟨hget, hone, hzero 32 (by decide), hkept 33 [(65, 8)] ?_⟩
  subst f writes
  rfl

end File

end Multicycle.Register
