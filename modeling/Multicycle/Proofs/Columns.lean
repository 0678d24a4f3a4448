import Multicycle.Proofs.Decimal
import Multicycle.Proofs.Modified

/-! The columns of the register table. All its lines are of one width, and a row gives away what its
register holds: no value is written like another, or like the mark of no value. -/
namespace Multicycle

namespace Text

variable {c : Char} {d n : Nat} {digits : List Char}

def LowerDigit (c : Char) (d : Nat) : Prop := lowerDigits[d]? = some c

instance (c : Char) (d : Nat) : Decidable (LowerDigit c d) := inferInstanceAs (Decidable (_ = _))

/-- A run of lower-case base-16 digits with the value `n`, most significant first. -/
def LowerHex (digits : List Char) (n : Nat) : Prop :=
  ∃ values, List.Forall₂ LowerDigit digits values ∧ Nat.ofDigits 16 values.reverse = n

theorem lowerDigit_hexDigit : ∀ d < 16, LowerDigit (hexDigit d) d := by decide

theorem LowerHex.ofHex? (h : LowerHex digits n) : ofHex? digits = some n := by
  obtain ⟨values, hvalues, hn⟩ := h
  exact ofHex?_eq_some_iff.mpr ⟨values, hvalues.imp fun _ _ => .inl, hn⟩

theorem LowerHex.concat (h : LowerHex digits n) (hc : LowerDigit c d) :
    LowerHex (digits ++ [c]) (16 * n + d) := by
  obtain ⟨values, hvalues, rfl⟩ := h
  refine ⟨values ++ [d], List.rel_append hvalues (.cons hc .nil), ?_⟩
  rw [List.reverse_append, List.reverse_singleton, List.singleton_append, Nat.ofDigits_cons,
    Nat.add_comm]

theorem lowerHex_hexDigits (width n : Nat) : LowerHex (hexDigits width n) (n % 16 ^ width) := by
  induction width generalizing n with
  | zero =>
    rw [Nat.pow_zero, Nat.mod_one]
    exact ⟨[], .nil, rfl⟩
  | succ width ih =>
    have hdigit := lowerDigit_hexDigit (n % 16) (Nat.mod_lt n (by decide))
    have hn : n % 16 ^ (width + 1) = 16 * (n / 16 % 16 ^ width) + n % 16 := by
      rw [Nat.pow_succ', Nat.mod_mul, Nat.add_comm]
    rw [hn]
    exact (ih (n / 16)).concat hdigit

theorem lowerHex_hexWord (w : BitVec 32) : LowerHex (hexWord w) w.toNat := by
  have h := lowerHex_hexDigits 8 w.toNat
  rwa [Nat.mod_eq_of_lt (show w.toNat < 16 ^ 8 from w.isLt)] at h

theorem Decimal.leftpad (h : Decimal digits n) (width : Nat) :
    Decimal (digits.leftpad width '0') n := by
  obtain ⟨hne, values, hvalues, rfl⟩ := h
  unfold List.leftpad
  generalize width - digits.length = k
  refine ⟨by simp [hne], List.replicate k 0 ++ values, ?_, ?_⟩
  · refine List.rel_append ?_ hvalues
    induction k with
    | zero => exact .nil
    | succ k ih => exact .cons (by decide) ih
  · rw [List.reverse_append, List.reverse_replicate, Nat.ofDigits_append, Nat.ofDigits_replicate_zero]
    simp

end Text

namespace Register

variable {i : Nat} {v : Option Word} {line digits : List Char}

/-- The characters of a line from the place `start` on, `width` of them. -/
def column (start width : Nat) (line : List Char) : List Char := (line.drop start).take width

def printedNumber : List Char → List Char := column 3 2

def printedName : List Char → List Char := column 8 4

def printedValue : List Char → List Char := column 15 8

def tableWidth : Nat := 25

/-- What a row says its register holds. The mark of no value is not made of digits. -/
def readBack (line : List Char) : Option Word :=
  (Text.ofHex? (printedValue line)).map (BitVec.ofNat 32)

/-- The two ways to fill the column of values. -/
inductive Denotes : List Char → Option Word → Prop where
  | written {digits : List Char} {v : Word} (length : digits.length = 8)
      (value : Text.LowerHex digits v.toNat) : Denotes digits (some v)
  | unwritten : Denotes "xxxxxxxx".toList none

/-- A line that shows register `i` with `v` in it. -/
structure Shows (line : List Char) (i : Nat) (v : Option Word) : Prop where
  width : line.length = tableWidth
  number : Text.Decimal (printedNumber line) i
  name : printedName line = (name i).toList.rightpad 4 ' '
  value : Denotes (printedValue line) v

theorem Denotes.readBack (h : Denotes (printedValue line) v) : readBack line = v := by
  unfold Register.readBack
  generalize printedValue line = digits at h
  cases h with
  | @written _ v _ hvalue =>
    rw [hvalue.ofHex?, Option.map_some, BitVec.ofNat_toNat, BitVec.setWidth_eq]
  | unwritten =>
    decide

theorem column_append {start width : Nat} {before text after : List Char}
    (hstart : before.length = start) (hwidth : text.length = width) :
    column start width (before ++ (text ++ after)) = text := by
  unfold column
  rw [List.drop_left' hstart, List.take_left' hwidth]

theorem length_number (hi : i < 32) : (Text.padded 10 2 i).length = 2 := by
  revert i
  decide

theorem length_name (i : Nat) : ((name i).toList.rightpad 4 ' ').length = 4 := by
  have hnames : ∀ s ∈ "?" :: names, s.toList.length ≤ 4 := by decide
  have hle := hnames _ (name_mem i)
  rw [List.length_rightpad]
  omega

theorem denotes_valueColumn (v : Option Word) : Denotes (valueColumn v) v := by
  cases v with
  | none => exact .unwritten
  | some v => exact .written (Text.length_hexWord v) (Text.lowerHex_hexWord v)

theorem length_valueColumn (v : Option Word) : (valueColumn v).length = 8 := by
  cases v with
  | none => rfl
  | some v => exact Text.length_hexWord v

theorem printedNumber_row (hi : i < 32) (v : Option Word) :
    printedNumber (row i v) = Text.padded 10 2 i := by
  unfold printedNumber row
  simp only [List.append_assoc]
  exact column_append rfl (length_number hi)

theorem printedName_row (hi : i < 32) (v : Option Word) :
    printedName (row i v) = (name i).toList.rightpad 4 ' ' := by
  unfold printedName row
  rw [List.append_assoc, List.append_assoc, List.append_assoc]
  refine column_append ?_ (length_name i)
  rw [List.length_append, List.length_append, length_number hi]
  rfl

theorem printedValue_row (hi : i < 32) (v : Option Word) :
    printedValue (row i v) = valueColumn v := by
  unfold printedValue row
  rw [List.append_assoc]
  refine column_append ?_ (length_valueColumn v)
  simp only [List.length_append, length_number hi, length_name i]
  rfl

theorem length_row (hi : i < 32) (v : Option Word) : (row i v).length = tableWidth := by
  unfold row tableWidth
  simp only [List.length_append, length_number hi, length_name i, length_valueColumn v]
  rfl

theorem shows_row (hi : i < 32) (v : Option Word) : Shows (row i v) i v := by
  constructor
  · exact length_row hi v
  · rw [printedNumber_row hi]
    exact (Text.decimal_toDigits i).leftpad 2
  · exact printedName_row hi v
  · rw [printedValue_row hi]
    exact denotes_valueColumn v

theorem readBack_row (hi : i < 32) (v : Option Word) : readBack (row i v) = v :=
  (shows_row hi v).value.readBack

namespace File

variable {f f' : File}

theorem shows_of_getElem?_rows (h : f.bank.Numbered) (hline : f.rows[i]? = some line) :
    Shows line i (f.get? i) ∧ readBack line = f.get? i := by
  rw [rows_eq h, List.getElem?_map, Option.map_eq_some_iff] at hline
  obtain ⟨k, hk, rfl⟩ := hline
  obtain ⟨hlt, rfl⟩ := List.getElem?_eq_some_iff.mp hk
  rw [List.length_range] at hlt
  rw [List.getElem_range]
  exact ⟨shows_row hlt (f.get? i), readBack_row hlt (f.get? i)⟩

theorem get?_eq_of_display (h : f.bank.Numbered) (h' : f'.bank.Numbered)
    (hdisplay : f.display = f'.display) (i : Nat) : f.get? i = f'.get? i := by
  have hi : i % 32 < 32 := Nat.mod_lt i (by decide)
  have hline := getElem?_lines_display h hi
  rw [hdisplay, getElem?_lines_display h' hi, Option.some.injEq] at hline
  have hvalue := congrArg readBack hline
  rw [readBack_row hi, readBack_row hi, get?_mod, get?_mod] at hvalue
  exact hvalue.symm

theorem length_of_mem_lines_display (h : f.bank.Numbered) (hline : line ∈ lines f.display) :
    line.length = tableWidth := by
  rw [lines_display h, List.mem_append, List.mem_cons, List.mem_singleton] at hline
  obtain (rfl | hrow) | rfl := hline
  · rfl
  · obtain ⟨i, hi, rfl⟩ := List.mem_map.mp hrow
    exact length_row (List.mem_range.mp hi) (f.get? i)
  · rfl

/-- The table has a row for each register, all of one width, from which the register can be read
back. -/
theorem display_faithful (writes : List (Nat × Word)) :
    let f := ({} : File).writeAll writes
    lines f.display = header :: f.rows ++ [footer] ∧ f.rows.length = 32 ∧
      (∀ line ∈ lines f.display, line.length = tableWidth) ∧
      (∀ i line, f.rows[i]? = some line → Shows line i (f.get? i) ∧ readBack line = f.get? i) ∧
      ∀ writes', (({} : File).writeAll writes').display = f.display →
        ∀ i, (({} : File).writeAll writes').get? i = f.get? i := by
  intro f
  have hnumbered (ws : List (Nat × Word)) : (({} : File).writeAll ws).bank.Numbered :=
    numbered_writeAll Bank.numbered_initial ws
  have hf : f.bank.Numbered := hnumbered writes
  refine ⟨?_, ?_, fun line => length_of_mem_lines_display hf, fun i line => shows_of_getElem?_rows hf, ?_⟩
  · rw [lines_display hf, rows_eq hf]
  · rw [rows_eq hf, List.length_map, List.length_range]
  · intro writes' hdisplay
    exact get?_eq_of_display (hnumbered writes') hf hdisplay

/-- Two files with different records of what was written, which their common table does not show. -/
theorem display_faithful_wrapped :
    let f := ({} : File).writeAll [(33, 0xbadcafe), (31, 0)]
    let f' := ({} : File).writeAll [(1, 7), (31, 0), (1, 0xbadcafe)]
    f.modified ≠ f'.modified ∧ f'.display = f.display ∧
      f.rows[1]? = some "| x01 | ra   | 0badcafe |".toList ∧
      readBack "| x01 | ra   | 0badcafe |".toList = some 0xbadcafe ∧
      ∀ i, f'.get? i = f.get? i := by
  intro f f'
  obtain ⟨-, -, -, hrows, hget⟩ := display_faithful [(33, 0xbadcafe), (31, 0)]
  have hbank : f'.bank = f.bank := by decide
  have hdisplay : f'.display = f.display := by
    unfold display rows
    rw [hbank]
  have hrow : f.rows[1]? = some "| x01 | ra   | 0badcafe |".toList := by decide
  have hvalue : f.get? 1 = some 0xbadcafe := by decide
  have hread := (hrows 1 _ hrow).2
  exact ⟨by decide, hdisplay, hrow, hread.trans hvalue, hget _ hdisplay⟩

end File

end Register

end Multicycle
