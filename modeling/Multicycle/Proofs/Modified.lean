import Mathlib.Data.List.Basic
import Multicycle.Proofs.LastWrite
import Multicycle.Register.Table

/-! The record of the registers that were written. It lists the indices of the writes as they came
in, so it names the registers, and the table printed from it shows their rows, for as long as every
index is the number of a register. -/
namespace Multicycle.Register

def lines (text : String) : List (List Char) := text.toList.splitOn '\n'

theorem newline_notMem_padded (width n : Nat) : '\n' ∉ Text.padded 10 width n := by
  unfold Text.padded List.leftpad
  intro h
  rcases List.mem_append.mp h with h | h
  · have hzero := List.eq_of_mem_replicate h
    simp at hzero
  · have hdigit := Nat.isDigit_of_mem_toDigits (by decide) (by decide) h
    simp at hdigit

theorem newline_notMem_name (i : Nat) : '\n' ∉ (name i).toList := by
  have hnames : ∀ s ∈ "?" :: names, '\n' ∉ s.toList := by decide
  exact hnames _ (name_mem i)

theorem newline_notMem_hexDigits (width n : Nat) : '\n' ∉ Text.hexDigits width n := by
  have hdigit : ∀ d < 16, '\n' ≠ Text.hexDigit d := by decide
  induction width generalizing n with
  | zero => simp [Text.hexDigits]
  | succ width ih =>
    unfold Text.hexDigits
    intro h
    rcases List.mem_append.mp h with h | h
    · exact ih (n / 16) h
    · exact hdigit (n % 16) (Nat.mod_lt n (by decide)) (List.mem_singleton.mp h)

theorem newline_notMem_row (i : Nat) (v : Option Word) : '\n' ∉ row i v := by
  have hvalue : '\n' ∉ valueColumn v := by
    cases v with
    | none => decide
    | some v => exact newline_notMem_hexDigits 8 v.toNat
  unfold row
  simp [hvalue, newline_notMem_name, newline_notMem_padded]

/-- No line end stands inside a row, so the lines of a table are its rows. -/
theorem lines_table (is : List Nat) (value : Nat → Option Word) :
    lines (table (is.map fun i => row i (value i))) =
      header :: (is.map fun i => row i (value i)) ++ [footer] := by
  unfold lines table
  rw [String.toList_ofList]
  apply List.splitOn_intercalate
  · intro l hl
    rw [List.cons_append, List.mem_cons, List.mem_append, List.mem_singleton] at hl
    rcases hl with rfl | hl | rfl
    · decide
    · obtain ⟨i, -, rfl⟩ := List.mem_map.mp hl
      exact newline_notMem_row i (value i)
    · decide
  · simp

namespace File

variable {f : File} {writes : List (Nat × Word)}

theorem rows_eq (h : f.bank.Numbered) :
    f.rows = (List.range 32).map fun i => row i (f.get? i) := by
  unfold rows
  apply List.ext_getElem
  · simp
  · intro k hk _
    have hlt : k < 32 := by simpa using hk
    have hindex : f.bank.cells[k].index = k := h ⟨k, hlt⟩
    have hvalue : f.get? k = f.bank.cells[k].value := by
      unfold get? Bank.get? Bank.cell
      simp only [Fin.getElem_fin, Bank.val_place, Nat.mod_eq_of_lt hlt]
    rw [List.getElem_map, List.getElem_map, List.getElem_range, Vector.getElem_toList, hindex,
      hvalue]

theorem lines_display (h : f.bank.Numbered) :
    lines f.display = header :: (List.range 32).map (fun i => row i (f.get? i)) ++ [footer] := by
  unfold display
  rw [rows_eq h]
  exact lines_table (List.range 32) f.get?

theorem lines_displayModified (f : File) :
    lines f.displayModified = header :: f.modified.map (fun i => row i (f.get? i)) ++ [footer] :=
  lines_table f.modified f.get?

theorem getElem?_lines_display (h : f.bank.Numbered) {i : Nat} (hi : i < 32) :
    (lines f.display)[i + 1]? = some (row i (f.get? i)) := by
  rw [lines_display h, List.cons_append, List.getElem?_cons_succ,
    List.getElem?_append_left (by simpa using hi), List.getElem?_map, List.getElem?_range hi]
  rfl

theorem pairwise_modified_write (h : f.modified.Pairwise (· < ·)) (i : Nat) (v : Word) :
    (f.write i v).modified.Pairwise (· < ·) := by
  rw [modified_write]
  split
  · exact h
  · exact insertAscending_sorted h

theorem pairwise_modified_writeAll (h : f.modified.Pairwise (· < ·)) (writes : List (Nat × Word)) :
    (f.writeAll writes).modified.Pairwise (· < ·) :=
  List.foldlRecOn (motive := fun f : File => f.modified.Pairwise (· < ·)) writes _ h
    fun _ hf w _ => pairwise_modified_write hf w.1 w.2

theorem mem_modified_write (f : File) (i : Nat) (v : Word) (k : Nat) :
    k ∈ (f.write i v).modified ↔ k ∈ f.modified ∨ i % 32 ≠ 0 ∧ k = i := by
  rw [modified_write]
  split
  · next hi => simp [hi]
  · next hi =>
    rw [mem_insertAscending]
    simp [hi, or_comm]

theorem mem_modified_writeAll (f : File) (writes : List (Nat × Word)) (k : Nat) :
    k ∈ (f.writeAll writes).modified ↔ k ∈ f.modified ∨ k % 32 ≠ 0 ∧ ∃ v, (k, v) ∈ writes := by
  induction writes using List.reverseRecOn with
  | nil => simp
  | append_singleton ws w ih =>
    rw [writeAll_concat, mem_modified_write, ih]
    constructor
    · rintro ((hf | ⟨hk, v, hv⟩) | ⟨hw, rfl⟩)
      · exact .inl hf
      · exact .inr ⟨hk, v, List.mem_append_left _ hv⟩
      · exact .inr ⟨hw, w.2, List.mem_append_right _ (List.mem_singleton.mpr rfl)⟩
    · rintro (hf | ⟨hk, v, hv⟩)
      · exact .inl (.inl hf)
      · rcases List.mem_append.mp hv with hv | hv
        · exact .inl (.inr ⟨hk, v, hv⟩)
        · have hw := congrArg Prod.fst (List.mem_singleton.mp hv)
          change k = w.1 at hw
          exact .inr ⟨by rwa [← hw], hw⟩

theorem mem_modified_iff {k : Nat} :
    k ∈ (({} : File).writeAll writes).modified ↔ k % 32 ≠ 0 ∧ ∃ v, (k, v) ∈ writes := by
  rw [mem_modified_writeAll]
  simp

/-- The record names the registers that have a value, in order, and their lines of the whole table
are printed. -/
structure Tracks (f : File) : Prop where
  ascending : f.modified.Pairwise (· < ·)
  mem_iff : ∀ i, i ∈ f.modified ↔ (1 ≤ i ∧ i < 32) ∧ (f.get? i).isSome = true
  printed : lines f.displayModified =
    header :: f.modified.filterMap (fun i => (lines f.display)[i + 1]?) ++ [footer]

theorem isSome_get?_iff_mem_modified {j : Nat} (hj : j % 32 ≠ 0) :
    ((({} : File).writeAll writes).get? j).isSome = true ↔
      ∃ i ∈ (({} : File).writeAll writes).modified, i % 32 = j % 32 := by
  have hnew : (({} : File).get? j).isSome = false := by
    rw [get?_new, if_neg hj]
    rfl
  rw [isSome_get?_writeAll, hnew]
  constructor
  · rintro (h | ⟨-, w, hw, hwj⟩)
    · cases h
    · exact ⟨w.1, mem_modified_iff.mpr ⟨by omega, w.2, hw⟩, hwj⟩
  · rintro ⟨i, hi, hij⟩
    obtain ⟨-, v, hv⟩ := mem_modified_iff.mp hi
    exact .inr ⟨hj, (i, v), hv, hij⟩

/-- With no index but register numbers, and any number for register zero, the record is exact. -/
theorem tracks_writeAll (h : ∀ w ∈ writes, w.1 % 32 ≠ 0 → w.1 < 32) :
    (({} : File).writeAll writes).Tracks := by
  have hnumbered := numbered_writeAll (f := {}) Bank.numbered_initial writes
  have hlt : ∀ i ∈ (({} : File).writeAll writes).modified, i % 32 ≠ 0 ∧ i < 32 := by
    intro i hi
    obtain ⟨hne, v, hv⟩ := mem_modified_iff.mp hi
    exact ⟨hne, h _ hv hne⟩
  constructor
  · exact pairwise_modified_writeAll List.Pairwise.nil writes
  · intro i
    constructor
    · intro hi
      obtain ⟨hne, hi32⟩ := hlt i hi
      exact ⟨⟨by omega, hi32⟩, (isSome_get?_iff_mem_modified hne).mpr ⟨i, hi, rfl⟩⟩
    · rintro ⟨⟨hpos, hi32⟩, hsome⟩
      obtain ⟨k, hk, hki⟩ := (isSome_get?_iff_mem_modified (by omega)).mp hsome
      obtain ⟨-, hk32⟩ := hlt k hk
      have heq : k = i := by omega
      rwa [heq] at hk
  · have hrows : ∀ i ∈ (({} : File).writeAll writes).modified,
        (lines (({} : File).writeAll writes).display)[i + 1]? =
          some (row i ((({} : File).writeAll writes).get? i)) := by
      intro i hi
      exact getElem?_lines_display hnumbered (hlt i hi).2
    rw [lines_displayModified, List.filterMap_congr hrows, List.filterMap_eq_map']

/-- The record is exact just if no write came in under an index that is not the number of its
register. -/
theorem modified_tracks_iff (writes : List (Nat × Word)) :
    let f := ({} : File).writeAll writes
    f.modified.Pairwise (· < ·) ∧
      (∀ i, i ∈ f.modified ↔ i % 32 ≠ 0 ∧ ∃ v, (i, v) ∈ writes) ∧
      (∀ j, j % 32 ≠ 0 → ((f.get? j).isSome = true ↔ ∃ i ∈ f.modified, i % 32 = j % 32)) ∧
      lines f.display = header :: (List.range 32).map (fun i => row i (f.get? i)) ++ [footer] ∧
      lines f.displayModified = header :: f.modified.map (fun i => row i (f.get? i)) ++ [footer] ∧
      (f.Tracks ↔ ∀ w ∈ writes, w.1 % 32 ≠ 0 → w.1 < 32) := by
  intro f
  have hnumbered : f.bank.Numbered := numbered_writeAll Bank.numbered_initial writes
  refine ⟨pairwise_modified_writeAll List.Pairwise.nil writes, fun i => mem_modified_iff,
    fun j => isSome_get?_iff_mem_modified, lines_display hnumbered, lines_displayModified f, ?_,
    tracks_writeAll⟩
  intro htracks w hw hne
  have hmem : w.1 ∈ f.modified := mem_modified_iff.mpr ⟨hne, w.2, hw⟩
  exact ((htracks.mem_iff w.1).mp hmem).1.2

/-- A register written twice is recorded once, and register zero never. -/
theorem modified_tracks_iff_twice :
    let writes : List (Nat × Word) := [(10, 1), (2, 2), (32, 4), (10, 3)]
    let f := ({} : File).writeAll writes
    f.modified = [2, 10] ∧ f.Tracks ∧ ∃ i ∈ f.modified, i % 32 = 42 % 32 := by
  intro writes f
  obtain ⟨-, -, hsome, -, -, htracks⟩ := modified_tracks_iff writes
  have hmodified : f.modified = [2, 10] := by decide
  have hget : (f.get? 42).isSome = true := by decide
  exact ⟨hmodified, htracks.mpr (by decide), (hsome 42 (by decide)).mp hget⟩

/-- A write under index 33 gives register one a value, and goes on record as one to a register that
does not exist. -/
theorem not_tracks_of_wrapped_index :
    let f := ({} : File).writeAll [(33, 5)]
    f.get? 1 = some 5 ∧ 1 ∉ f.modified ∧ 33 ∈ f.modified ∧ ¬ f.Tracks := by
  intro f
  have hmodified : f.modified = [33] := by decide
  have hmem : 33 ∈ f.modified := by simp [hmodified]
  refine ⟨by decide, by simp [hmodified], hmem, ?_⟩
  intro htracks
  have hlt := ((htracks.mem_iff 33).mp hmem).1.2
  omega

end File

end Multicycle.Register
