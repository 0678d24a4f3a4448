import Multicycle.Proofs.Loading
import Multicycle.Proofs.Parsing

/-! Images that programs are written into, and the memories that are made of them. -/
namespace Multicycle

namespace Image

/-- Blanks in front of a word, and behind it a comment or anything that a blank keeps apart. -/
def Row (row : List Char) : Option Word → Prop
  | none => ∃ blanks tail, row = blanks ++ tail ∧ (∀ c ∈ blanks, Text.isBlank c) ∧
      (tail = [] ∨ Comment tail)
  | some w => ∃ blanks token tail, row = blanks ++ (token ++ tail) ∧
      (∀ c ∈ blanks, Text.isBlank c) ∧ Spells token w ∧
      (tail = [] ∨ Comment tail ∨ ∃ c ∈ tail.head?, Text.isBlank c)

/-- An image with these words, whose last row may have no end. -/
inductive Renders : List Word → List Char → Prop
  | last {row : List Char} {held : Option Word} (hrow : Row row held) (hnewline : '\n' ∉ row) :
      Renders held.toList row
  | line {row ending text : List Char} {held : Option Word} {ws : List Word}
      (hrow : Row row held) (hnewline : '\n' ∉ row)
      (hending : ending ∈ [['\n'], ['\r', '\n']]) (htext : Renders ws text) :
      Renders (held.toList ++ ws) (row ++ ending ++ text)

variable {row text token tail : List Char} {held : Option Word} {ws : List Word} {w : Word}

/-- Neither blanks nor tokens that spell words have a part in a comment. -/
theorem stripComment_append (h : ∀ c ∈ row, c ≠ '#' ∧ c ≠ '/') (tail : List Char) :
    stripComment (row ++ tail) = row ++ stripComment tail := by
  induction row with
  | nil => rfl
  | cons c row ih =>
    rw [List.forall_mem_cons] at h
    have hc : ¬Comment (c :: (row ++ tail)) := by
      rintro (hstarts | hstarts)
      · exact h.1.1 (List.cons_prefix_cons.mp hstarts).1.symm
      · exact h.1.2 (List.cons_prefix_cons.mp hstarts).1.symm
    rw [List.cons_append, stripComment_cons hc, ih h.2, List.cons_append]

theorem ne_of_isBlank {c : Char} (h : Text.isBlank c) : c ≠ '#' ∧ c ≠ '/' := by
  constructor
  · rintro rfl
    exact absurd h (by decide)
  · rintro rfl
    exact absurd h (by decide)

/-- The characters that words are spelled with. -/
def spelling : List Char := Text.lowerDigits ++ Text.upperDigits ++ ['x', 'X']

theorem plain_of_mem_spelling : ∀ c ∈ spelling, ¬Text.isBlank c ∧ c ≠ '#' ∧ c ≠ '/' := by
  have hall : spelling.all fun c => !Text.isBlank c && (c != '#' && c != '/') := by decide
  simpa using List.all_eq_true.mp hall

theorem mark_subset_spelling : ∀ mark ∈ [[], ['0', 'x'], ['0', 'X']], mark ⊆ spelling := by decide

theorem digits_subset_spelling {digits : List Char} {values : List Nat}
    (h : List.Forall₂ Text.HexDigit digits values) : digits ⊆ spelling := by
  induction h with
  | nil => exact List.nil_subset _
  | cons hd _ ih =>
    refine List.cons_subset.mpr ⟨?_, ih⟩
    exact List.mem_append_left _
      (List.mem_append.mpr (hd.imp List.mem_of_getElem? List.mem_of_getElem?))

theorem Spells.subset_spelling (h : Spells token w) : token ⊆ spelling := by
  obtain ⟨mark, digits, values, rfl, hmark, -, -, hdigits, -⟩ := h
  exact List.append_subset.mpr ⟨mark_subset_spelling mark hmark, digits_subset_spelling hdigits⟩

theorem Spells.ne_nil (h : Spells token w) : token ≠ [] := by
  obtain ⟨mark, digits, values, rfl, -, hlength, -⟩ := h
  exact List.append_ne_nil_of_right_ne_nil mark (List.ne_nil_of_length_pos hlength)

theorem isBlank_head?_stripComment
    (h : tail = [] ∨ Comment tail ∨ ∃ c ∈ tail.head?, Text.isBlank c) :
    ∀ c ∈ (stripComment tail).head?, Text.isBlank c := by
  obtain rfl | hcomment | ⟨c, hc, hblank⟩ := h
  · exact nofun
  · rw [stripComment_of_comment hcomment]
    exact nofun
  · obtain ⟨rest, rfl⟩ := List.head?_eq_some_iff.mp hc
    have hplain : ∀ d ∈ [c], d ≠ '#' ∧ d ≠ '/' := by simpa using ne_of_isBlank hblank
    rw [← List.singleton_append, stripComment_append hplain]
    simpa using hblank

theorem Row.holds (h : Row row held) : Holds row held := by
  cases held with
  | none =>
    obtain ⟨blanks, tail, rfl, hblanks, htail⟩ := h
    have hstrip : stripComment tail = [] := htail.elim (by rintro rfl; rfl) stripComment_of_comment
    rw [holds_none_iff, leadingToken, stripComment_append fun c hc => ne_of_isBlank (hblanks c hc),
      hstrip, List.dropWhile_append_of_pos hblanks]
    rfl
  | some w =>
    obtain ⟨blanks, token, tail, rfl, hblanks, htoken, htail⟩ := h
    have hplain (c : Char) (hc : c ∈ token) := plain_of_mem_spelling c (htoken.subset_spelling hc)
    refine ⟨token, ⟨_, stripComment_eq_iff.mp rfl, blanks, stripComment tail, ?_, hblanks,
      htoken.ne_nil, fun c hc => (hplain c hc).1, isBlank_head?_stripComment htail⟩, htoken⟩
    rw [stripComment_append fun c hc => ne_of_isBlank (hblanks c hc),
      stripComment_append fun c hc => (hplain c hc).2, List.append_assoc]

theorem dropReturn_append_return (row : List Char) : dropReturn (row ++ ['\r']) = row := by
  rw [dropReturn, List.getLast?_concat, if_pos rfl, List.dropLast_concat]

theorem Holds.of_leadingToken_eq {line line' : List Char} (h : Holds line held)
    (htoken : leadingToken line' = leadingToken line) : Holds line' held := by
  cases held with
  | none => rwa [holds_none_iff, htoken, ← holds_none_iff]
  | some w => rwa [holds_some_iff, htoken, ← holds_some_iff]

/-- Whichever its end, a row is a line of its own. -/
theorem Row.lines_append {ending : List Char} (hrow : Row row held) (hnewline : '\n' ∉ row)
    (hending : ending ∈ [['\n'], ['\r', '\n']]) (text : List Char) :
    ∃ line, lines (row ++ ending ++ text) = line :: lines text ∧ Holds line held := by
  simp only [List.mem_cons, List.not_mem_nil, or_false] at hending
  obtain rfl | rfl := hending
  · -- A return that the row itself ends with is lost, but it is a blank.
    refine ⟨dropReturn row, ?_, hrow.holds.of_leadingToken_eq (leadingToken_dropReturn row)⟩
    rw [List.append_assoc]
    exact lines_append_newline hnewline text
  · have hreturn : '\n' ∉ row ++ ['\r'] := by simpa using hnewline
    refine ⟨row, ?_, hrow.holds⟩
    have h := lines_append_newline hreturn text
    rw [dropReturn_append_return, List.append_assoc] at h
    rw [List.append_assoc]
    exact h

theorem Renders.readLines_eq (h : Renders ws text) (n : Nat) :
    readLines n (lines text) = .ok ws := by
  induction h generalizing n with
  | @last row held hrow hnewline =>
    rw [lines_of_newline_notMem hnewline]
    split
    next hempty =>
      cases held with
      | none => rfl
      | some w =>
        rw [hempty] at hrow
        exact absurd rfl (holds_some_iff.mp hrow.holds).1
    next =>
      rw [readLines_cons_of_holds hrow.holds]
      exact congrArg Except.ok (List.append_nil _)
  | line hrow hnewline hending _ ih =>
    obtain ⟨line, hlines, hheld⟩ := hrow.lines_append hnewline hending _
    rw [hlines, readLines_cons_of_holds hheld, ih]
    rfl

theorem Row.of_holds (h : Holds row held) : Row row held := by
  cases held with
  | none =>
    obtain ⟨tail, hrow, htail, -⟩ := uncommented_stripComment row
    refine ⟨stripComment row, tail, hrow, ?_, htail⟩
    rw [← List.dropWhile_eq_nil_iff]
    -- The first character that is no blank would start a token.
    by_contra hne
    obtain ⟨c, rest, hcons⟩ := List.exists_cons_of_ne_nil hne
    have hc := List.head?_dropWhile_not Text.isBlank (stripComment row)
    rw [hcons] at hc
    have htoken := holds_none_iff.mp h
    rw [leadingToken, hcons, List.takeWhile_cons_of_pos (by simpa using hc)] at htoken
    exact List.cons_ne_nil _ _ htoken
  | some w =>
    obtain ⟨token, ⟨text, ⟨tail, rfl, htail, -⟩, blanks, rest, rfl, hblanks, -, -, hrest⟩,
      hspells⟩ := h
    refine ⟨blanks, token, rest ++ tail, by simp, hblanks, hspells, ?_⟩
    cases rest with
    | nil => exact htail.imp_right .inl
    | cons c rest => exact .inr (.inr ⟨c, rfl, hrest c rfl⟩)

theorem exists_row_of_dropReturn {line : List Char} (hnewline : '\n' ∉ line)
    (h : Holds (dropReturn line) held) :
    ∃ row ending, Row row held ∧ '\n' ∉ row ∧ ending ∈ [['\n'], ['\r', '\n']] ∧
      line ++ ['\n'] = row ++ ending := by
  rw [dropReturn] at h
  split at h
  next hlast =>
    have hline := List.dropLast_append_getLast? _ hlast
    refine ⟨line.dropLast, ['\r', '\n'], .of_holds h, ?_, by simp, ?_⟩
    · exact fun hmem => hnewline (List.dropLast_subset _ hmem)
    · rw [← hline]
      simp
  next => exact ⟨line, ['\n'], .of_holds h, hnewline, by simp, rfl⟩

theorem Splits.renders {ended : List (List Char)} {last : List Char} {helds : List (Option Word)}
    (h : Splits text ended last) (hs : List.Forall₂ Holds (lines text) helds) :
    Renders helds.reduceOption text := by
  rw [h.lines_eq] at hs
  obtain ⟨rfl, hended, hlast⟩ := h
  induction ended generalizing helds with
  | nil =>
    rw [List.map_nil, List.nil_append] at hs
    split at hs
    next hempty =>
      obtain rfl := List.forall₂_nil_left_iff.mp hs
      rw [hempty]
      have hrow : Row [] none := ⟨[], [], rfl, nofun, .inl rfl⟩
      exact .last hrow List.not_mem_nil
    next =>
      obtain ⟨held, _, hheld, hnil, rfl⟩ := List.forall₂_cons_left_iff.mp hs
      obtain rfl := List.forall₂_nil_left_iff.mp hnil
      rw [List.reduceOption_singleton]
      exact .last (.of_holds hheld) hlast
  | cons line ended ih =>
    obtain ⟨hline, hended⟩ := List.forall_mem_cons.mp hended
    rw [List.map_cons, List.cons_append, List.forall₂_cons_left_iff] at hs
    obtain ⟨held, helds, hheld, hs, rfl⟩ := hs
    obtain ⟨row, ending, hrow, hnewline, hending, heq⟩ := exists_row_of_dropReturn hline hheld
    rw [reduceOption_cons, List.flatMap_cons, heq, List.append_assoc]
    exact .line hrow hnewline hending (ih hs hended)

/-- An image is read as the words that it is written with. -/
theorem parse_eq_ok_iff {text : String} {ws : List Word} :
    parse text = .ok ws ↔ Renders ws text.toList := by
  constructor
  · intro h
    obtain ⟨helds, hs, rfl⟩ := readLines_eq_ok_iff.mp h
    obtain ⟨ended, last, hsplits⟩ := exists_splits text.toList
    exact hsplits.renders hs
  · exact fun h => h.readLines_eq 1

end Image

namespace Harvard

/-- A program that is written into an image is fetched from the memory that is made of it. -/
theorem ofImage_renders {ws : List Word} {text : String} (h : Image.Renders ws text.toList)
    (hlength : ws.length ≤ 2 ^ 30) (capacity : Option Nat) :
    ∃ m, ofImage text capacity = .ok m ∧
      (∀ a, m.instruction? a = if a.toNat % 4 = 0 then ws[a.toNat / 4]? else none) ∧
      m.instructionCount = ws.length ∧ m.dataCount = 0 ∧ ∀ a, m.peek? a = none := by
  have hdata : (ofProgram ws capacity).data = (empty capacity).data := data_loadProgram _ _ _
  refine ⟨ofProgram ws capacity, ?_, instruction?_ofProgram hlength capacity,
    instructionCount_ofProgram hlength capacity, ?_, fun a => ?_⟩
  · rw [ofImage, Image.parse_eq_ok_iff.mpr h]
    rfl
  · rw [dataCount, hdata]
    rfl
  · rw [peek?, hdata]
    exact Std.ExtTreeMap.getElem?_empty

/-- Comments that touch digits, marks of either case, blanks, and rows without a word. -/
theorem ofImage_renders_touching :
    ∃ m, ofImage "\t0Xa#//\r\n\u3000//#0g\n\n00000013 rest\r\n\r\nFFf//#" (some 4) = .ok m ∧
      m.instruction? 0 = some 10 ∧ m.instruction? 4 = some 0x13 ∧ m.instruction? 8 = some 0xfff ∧
      m.instruction? 6 = none ∧ m.instruction? 12 = none ∧ m.instructionCount = 3 := by
  have hrenders : Image.Renders [10, 0x13, 0xfff]
      "\t0Xa#//\r\n\u3000//#0g\n\n00000013 rest\r\n\r\nFFf//#".toList :=
    Image.parse_eq_ok_iff.mp (by decide)
  obtain ⟨m, hm, hfetch, hcount, -, -⟩ := ofImage_renders hrenders (by decide) (some 4)
  exact ⟨m, hm, hfetch 0, hfetch 4, hfetch 8, hfetch 6, hfetch 12, hcount⟩

end Harvard

end Multicycle
