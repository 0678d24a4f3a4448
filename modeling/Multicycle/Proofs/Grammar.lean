import Mathlib.Data.List.Forall2
import Mathlib.Data.List.TakeWhile
import Mathlib.Data.Nat.Digits.Lemmas
import Multicycle.Image

/-! The grammar of images: what the lines of a text are, which token leads a line, and which tokens
spell words. Each is stated of whole texts, and the functions that read them are shown to agree. -/
namespace Multicycle

namespace Text

def lowerDigits : List Char := "0123456789abcdef".toList

def upperDigits : List Char := "0123456789ABCDEF".toList

/-- A base-16 digit of either case and its value. -/
def HexDigit (c : Char) (d : Nat) : Prop := lowerDigits[d]? = some c ∨ upperDigits[d]? = some c

instance (c : Char) (d : Nat) : Decidable (HexDigit c d) := inferInstanceAs (Decidable (_ ∨ _))

theorem hexValue?_digits : ∀ digits ∈ [lowerDigits, upperDigits],
    ∀ d < digits.length, digits[d]?.bind hexValue? = some d := by decide

theorem hexDigit_ofNat : ∀ n < 103, ∀ d ∈ hexValue? (Char.ofNat n), HexDigit (Char.ofNat n) d := by
  decide

theorem toNat_lt_of_hexValue? {c : Char} {d : Nat} (h : hexValue? c = some d) : c.toNat < 103 := by
  have of_le (last : Char) (hle : c ≤ last) (hlast : last.toNat < 103) : c.toNat < 103 :=
    Nat.lt_of_le_of_lt (show c.toNat ≤ last.toNat from hle) hlast
  unfold hexValue? at h
  split_ifs at h with hdigit hlower hupper
  · rw [Char.isDigit, Bool.and_eq_true, decide_eq_true_iff, decide_eq_true_iff] at hdigit
    exact of_le '9' hdigit.2 (by decide)
  · exact of_le 'f' hlower.2 (by decide)
  · exact of_le 'F' hupper.2 (by decide)

theorem hexValue?_eq_some_iff {c : Char} {d : Nat} : hexValue? c = some d ↔ HexDigit c d := by
  constructor
  · intro h
    have := hexDigit_ofNat c.toNat (toNat_lt_of_hexValue? h)
    rw [Char.ofNat_toNat] at this
    exact this d h
  · rintro (h | h)
    · obtain ⟨hd, -⟩ := List.getElem?_eq_some_iff.mp h
      simpa only [h, Option.bind_some] using hexValue?_digits lowerDigits (by simp) d hd
    · obtain ⟨hd, -⟩ := List.getElem?_eq_some_iff.mp h
      simpa only [h, Option.bind_some] using hexValue?_digits upperDigits (by simp) d hd

theorem ofDigits_eq (base : Nat) (ds : List Nat) :
    ofDigits base ds = Nat.ofDigits base ds.reverse := by
  rw [Nat.ofDigits_eq_foldr, List.foldr_reverse, ofDigits]
  simp [Nat.add_comm]

theorem HexDigit.lt {c : Char} {d : Nat} (h : HexDigit c d) : d < 16 := by
  obtain h | h := h
  · exact (List.getElem?_eq_some_iff.mp h).1
  · exact (List.getElem?_eq_some_iff.mp h).1

theorem lt_of_forall₂_hexDigit {digits : List Char} {values : List Nat}
    (h : List.Forall₂ HexDigit digits values) : ∀ d ∈ values, d < 16 := by
  induction h with
  | nil => exact List.forall_mem_nil _
  | cons hd _ ih => exact List.forall_mem_cons.mpr ⟨hd.lt, ih⟩

theorem mapM_hexValue?_iff {digits : List Char} {values : List Nat} :
    digits.mapM hexValue? = some values ↔ List.Forall₂ HexDigit digits values := by
  induction digits generalizing values with
  | nil =>
    rw [List.mapM_nil, List.forall₂_nil_left_iff]
    exact Option.some_inj.trans eq_comm
  | cons c digits ih =>
    simp only [List.mapM_cons, List.forall₂_cons_left_iff, ← hexValue?_eq_some_iff, ← ih,
      Option.bind_eq_bind, Option.bind_eq_some_iff, Option.pure_def, Option.some.injEq]
    constructor
    · rintro ⟨d, hd, ds, hds, rfl⟩
      exact ⟨d, ds, hd, hds, rfl⟩
    · rintro ⟨d, ds, hd, hds, rfl⟩
      exact ⟨d, hd, ds, hds, rfl⟩

theorem ofHex?_eq_some_iff {digits : List Char} {n : Nat} :
    ofHex? digits = some n ↔
      ∃ values, List.Forall₂ HexDigit digits values ∧ Nat.ofDigits 16 values.reverse = n := by
  simp only [ofHex?, Option.map_eq_some_iff, mapM_hexValue?_iff, ofDigits_eq]

theorem lt_of_ofHex? {digits : List Char} {n : Nat} (h : ofHex? digits = some n) :
    n < 16 ^ digits.length := by
  obtain ⟨values, hvalues, rfl⟩ := ofHex?_eq_some_iff.mp h
  rw [hvalues.length_eq, ← List.length_reverse]
  exact Nat.ofDigits_lt_base_pow_length (by decide)
    fun d hd => lt_of_forall₂_hexDigit hvalues d (List.mem_reverse.mp hd)

end Text

namespace Image

/-- A line end takes with it a carriage return right before it. -/
def dropReturn (line : List Char) : List Char :=
  if line.getLast? = some '\r' then line.dropLast else line

/-- A text as lines with their ends, and what follows the last line end. -/
structure Splits (text : List Char) (ended : List (List Char)) (last : List Char) : Prop where
  text_eq : text = ended.flatMap (· ++ ['\n']) ++ last
  newline_notMem : ∀ line ∈ ended, '\n' ∉ line
  newline_notMem_last : '\n' ∉ last

/-- The lines of a text. No empty line follows the last line end. -/
def Lines (text : List Char) (ls : List (List Char)) : Prop :=
  ∃ ended last, Splits text ended last ∧
    ls = ended.map dropReturn ++ if last = [] then [] else [last]

theorem dropReturn_cons (c : Char) {line : List Char} (h : line ≠ []) :
    dropReturn (c :: line) = c :: dropReturn line := by
  rw [dropReturn, dropReturn, List.getLast?_cons_of_ne_nil h, List.dropLast_cons_of_ne_nil h]
  split <;> rfl

theorem lines_cons {c : Char} {s l : List Char} {ls : List (List Char)} (hc : c ≠ '\n')
    (hs : c = '\r' → s.head? ≠ some '\n') (h : lines s = l :: ls) :
    lines (c :: s) = (c :: l) :: ls := by
  rw [lines.eq_4 c s hc fun t hr ht => hs hr (by rw [ht, List.head?_cons]), h]

theorem lines_append_newline {line : List Char} (h : '\n' ∉ line) (s : List Char) :
    lines (line ++ '\n' :: s) = dropReturn line :: lines s := by
  induction line with
  | nil => rfl
  | cons c line ih =>
    rw [List.mem_cons, not_or] at h
    obtain ⟨hc, hline⟩ := h
    -- Only the last character of the line can be a return that its end takes with it.
    obtain rfl | hne := eq_or_ne line []
    · by_cases hr : c = '\r'
      · rw [hr]
        rfl
      · rw [dropReturn, List.getLast?_singleton, if_neg (by simpa using hr)]
        exact lines_cons (Ne.symm hc) (fun h => absurd h hr) (ih hline)
    · rw [dropReturn_cons c hne]
      apply lines_cons (Ne.symm hc) _ (ih hline)
      intro _ hhead
      rw [List.head?_append_of_ne_nil _ hne] at hhead
      exact hline (List.mem_of_mem_head? hhead)

theorem lines_of_newline_notMem {line : List Char} (h : '\n' ∉ line) :
    lines line = if line = [] then [] else [line] := by
  induction line with
  | nil => rfl
  | cons c line ih =>
    rw [List.mem_cons, not_or] at h
    rw [if_neg (List.cons_ne_nil c line), lines.eq_4 c line (fun hc => h.1 hc.symm)
      fun s _ hs => h.2 (by rw [hs]; exact List.mem_cons_self), ih h.2]
    cases line <;> rfl

theorem lines_ended_append {ended : List (List Char)} (h : ∀ l ∈ ended, '\n' ∉ l) (s : List Char) :
    lines (ended.flatMap (· ++ ['\n']) ++ s) = ended.map dropReturn ++ lines s := by
  induction ended with
  | nil => rfl
  | cons l ended ih =>
    rw [List.forall_mem_cons] at h
    rw [List.flatMap_cons, List.append_assoc, List.append_assoc, List.singleton_append,
      lines_append_newline h.1, ih h.2, List.map_cons, List.cons_append]

theorem count_newline_ended {ended : List (List Char)} (h : ∀ l ∈ ended, '\n' ∉ l) :
    (ended.flatMap (· ++ ['\n'])).count '\n' = ended.length := by
  induction ended with
  | nil => rfl
  | cons l ended ih =>
    rw [List.forall_mem_cons] at h
    rw [List.flatMap_cons, List.count_append, List.count_append, List.count_eq_zero.mpr h.1, ih h.2,
      List.count_singleton_self, List.length_cons]
    omega

theorem exists_splits (text : List Char) : ∃ ended last, Splits text ended last := by
  induction text with
  | nil => exact ⟨[], [], rfl, by simp, by simp⟩
  | cons c text ih =>
    obtain ⟨ended, last, rfl, hended, hlast⟩ := ih
    by_cases hc : c = '\n'
    · exact ⟨[] :: ended, last, by simp [hc], by simpa using hended, hlast⟩
    · -- The character goes to the first line, which is the last one if none is ended.
      cases ended with
      | nil => exact ⟨[], c :: last, rfl, by simp, by simpa [Ne.symm hc] using hlast⟩
      | cons l ended =>
        refine ⟨(c :: l) :: ended, last, rfl, ?_, hlast⟩
        simpa [Ne.symm hc] using hended

namespace Splits

variable {text last : List Char} {ended : List (List Char)}

theorem lines_eq (h : Splits text ended last) :
    lines text = ended.map dropReturn ++ if last = [] then [] else [last] := by
  rw [h.text_eq, lines_ended_append h.newline_notMem,
    lines_of_newline_notMem h.newline_notMem_last]

theorem count_newline (h : Splits text ended last) : text.count '\n' = ended.length := by
  rw [h.text_eq, List.count_append, count_newline_ended h.newline_notMem,
    List.count_eq_zero.mpr h.newline_notMem_last, Nat.add_zero]

theorem lines_newline (h : Splits text ended last) (behind : List Char) :
    lines (text ++ '\n' :: behind) =
      ended.map dropReturn ++ dropReturn last :: lines behind := by
  rw [h.text_eq, List.append_assoc, lines_ended_append h.newline_notMem,
    lines_append_newline h.newline_notMem_last]

end Splits

theorem lines_eq_iff {text : List Char} {ls : List (List Char)} :
    lines text = ls ↔ Lines text ls := by
  constructor
  · rintro rfl
    obtain ⟨ended, last, h⟩ := exists_splits text
    exact ⟨ended, last, h, h.lines_eq⟩
  · rintro ⟨ended, last, h, rfl⟩
    exact h.lines_eq

/-- A comment starts with `#` or `//`. -/
def Comment (s : List Char) : Prop := ['#'] <+: s ∨ ['/', '/'] <+: s

/-- What stands before the earliest comment of a line. -/
def Uncommented (line text : List Char) : Prop :=
  ∃ rest, line = text ++ rest ∧ (rest = [] ∨ Comment rest) ∧
    ∀ i < text.length, ¬Comment (line.drop i)

/-- The first of the tokens that blanks delimit. -/
def FirstToken (text token : List Char) : Prop :=
  ∃ blanks rest, text = blanks ++ token ++ rest ∧ (∀ c ∈ blanks, Text.isBlank c) ∧
    token ≠ [] ∧ (∀ c ∈ token, ¬Text.isBlank c) ∧ ∀ c ∈ rest.head?, Text.isBlank c

/-- The leading token of a line is the first before the comment. -/
def Leads (line token : List Char) : Prop := ∃ text, Uncommented line text ∧ FirstToken text token

theorem stripComment_cons {c : Char} {s : List Char} (h : ¬Comment (c :: s)) :
    stripComment (c :: s) = c :: stripComment s := by
  apply stripComment.eq_4
  · rintro rfl
    exact h (.inl ⟨s, rfl⟩)
  · rintro tail rfl rfl
    exact h (.inr ⟨tail, rfl⟩)

theorem stripComment_of_comment {s : List Char} (h : Comment s) : stripComment s = [] := by
  obtain ⟨rest, rfl⟩ | ⟨rest, rfl⟩ := h <;> rfl

theorem uncommented_stripComment (line : List Char) : Uncommented line (stripComment line) := by
  induction line with
  | nil => exact ⟨[], rfl, .inl rfl, by simp [stripComment]⟩
  | cons c s ih =>
    by_cases hc : Comment (c :: s)
    · rw [stripComment_of_comment hc]
      exact ⟨c :: s, rfl, .inr hc, by simp⟩
    · rw [stripComment_cons hc]
      obtain ⟨rest, hs, hrest, hbefore⟩ := ih
      refine ⟨rest, by rw [List.cons_append, ← hs], hrest, ?_⟩
      rintro (_ | i) hi
      · exact hc
      · exact hbefore i (Nat.lt_of_succ_lt_succ hi)

theorem stripComment_eq_iff {line text : List Char} :
    stripComment line = text ↔ Uncommented line text := by
  refine ⟨fun h => h ▸ uncommented_stripComment line, ?_⟩
  rintro ⟨rest, rfl, hrest, hbefore⟩
  induction text with
  | nil =>
    obtain rfl | hrest := hrest
    · rfl
    · exact stripComment_of_comment hrest
  | cons c text ih =>
    have hhead : ¬Comment (c :: (text ++ rest)) := hbefore 0 (Nat.succ_pos _)
    rw [List.cons_append, stripComment_cons hhead,
      ih fun i hi => hbefore (i + 1) (Nat.succ_lt_succ hi)]

theorem firstToken_iff {text token : List Char} :
    FirstToken text token ↔
      ((text.dropWhile Text.isBlank).takeWhile fun c => !Text.isBlank c) = token ∧ token ≠ [] := by
  constructor
  · rintro ⟨blanks, rest, rfl, hblanks, hne, htoken, hrest⟩
    have hhead : (token ++ rest).dropWhile Text.isBlank = token ++ rest := by
      obtain ⟨c, token, rfl⟩ := List.exists_cons_of_ne_nil hne
      exact List.dropWhile_cons_of_neg (htoken c List.mem_cons_self)
    have hend : (rest.takeWhile fun c => !Text.isBlank c) = [] := by
      cases rest with
      | nil => rfl
      | cons c rest => exact List.takeWhile_cons_of_neg (by simp [hrest c rfl])
    rw [List.append_assoc, List.dropWhile_append_of_pos hblanks, hhead,
      List.takeWhile_append_of_pos (by simpa using htoken), hend, List.append_nil]
    exact ⟨rfl, hne⟩
  · rintro ⟨rfl, hne⟩
    refine ⟨text.takeWhile Text.isBlank,
      (text.dropWhile Text.isBlank).dropWhile fun c => !Text.isBlank c, ?_, ?_, hne, ?_, ?_⟩
    · rw [List.append_assoc, List.takeWhile_append_dropWhile, List.takeWhile_append_dropWhile]
    · exact fun c hc => List.mem_takeWhile_imp hc
    · exact fun c hc => by simpa using List.mem_takeWhile_imp hc
    · intro c hc
      have hstop := List.head?_dropWhile_not (fun c => !Text.isBlank c)
        (text.dropWhile Text.isBlank)
      rw [Option.mem_def.mp hc] at hstop
      simpa using hstop

theorem leads_iff {line token : List Char} :
    Leads line token ↔ leadingToken line = token ∧ token ≠ [] := by
  simp only [Leads, ← stripComment_eq_iff, exists_eq_left', firstToken_iff, leadingToken]

theorem takeWhile_concat_of_neg {α : Type} {p : α → Bool} {b : α} (hb : ¬p b) (s : List α) :
    (s ++ [b]).takeWhile p = s.takeWhile p := by
  induction s with
  | nil => exact List.takeWhile_cons_of_neg hb
  | cons c s ih => simp only [List.cons_append, List.takeWhile_cons, ih]

theorem Comment.of_append_return {s : List Char} (h : Comment (s ++ ['\r'])) : Comment s := by
  have of_starts {mark : List Char} (hmark : mark.getLast? ≠ some '\r')
      (hstarts : mark <+: s ++ ['\r']) : mark <+: s := by
    obtain heq | hstarts := List.prefix_concat_iff.mp hstarts
    · exact absurd (by rw [heq, List.getLast?_concat]) hmark
    · exact hstarts
  exact h.imp (of_starts (by decide)) (of_starts (by decide))

theorem stripComment_append_return (line : List Char) :
    stripComment (line ++ ['\r']) = stripComment line ∨
      stripComment (line ++ ['\r']) = stripComment line ++ ['\r'] := by
  induction line with
  | nil => exact .inr rfl
  | cons c s ih =>
    by_cases hc : Comment (c :: s)
    · obtain ⟨rest, hrest⟩ | ⟨rest, hrest⟩ := hc
      · exact .inl (by rw [← hrest]; rfl)
      · exact .inl (by rw [← hrest]; rfl)
    · have hc' : ¬Comment (c :: (s ++ ['\r'])) := fun h => hc (Comment.of_append_return h)
      rw [List.cons_append, stripComment_cons hc, stripComment_cons hc', List.cons_append,
        List.cons.injEq, List.cons.injEq]
      exact ih.imp (⟨rfl, ·⟩) (⟨rfl, ·⟩)

theorem leadingToken_append_return (line : List Char) :
    leadingToken (line ++ ['\r']) = leadingToken line := by
  obtain h | h := stripComment_append_return line
  · rw [leadingToken, h, leadingToken]
  · rw [leadingToken, h, leadingToken, List.dropWhile_append]
    split
    next hblank => rw [List.isEmpty_iff.mp hblank]; rfl
    next => exact takeWhile_concat_of_neg (by decide) _

theorem leadingToken_dropReturn (line : List Char) :
    leadingToken (dropReturn line) = leadingToken line := by
  rw [dropReturn]
  split
  next h => rw [← leadingToken_append_return, List.dropLast_append_getLast? _ h]
  next => rfl

/-- One to eight base-16 digits with the value of the word. They may be marked as such in front. -/
def Spells (token : List Char) (w : Word) : Prop :=
  ∃ mark digits values, token = mark ++ digits ∧ mark ∈ [[], ['0', 'x'], ['0', 'X']] ∧
    1 ≤ digits.length ∧ digits.length ≤ 8 ∧ List.Forall₂ Text.HexDigit digits values ∧
    Nat.ofDigits 16 values.reverse = w.toNat

theorem hexWord?_eq_some_iff {digits : List Char} {w : Word} :
    hexWord? digits = some w ↔
      1 ≤ digits.length ∧ digits.length ≤ 8 ∧ Text.ofHex? digits = some w.toNat := by
  by_cases hlength : 1 ≤ digits.length ∧ digits.length ≤ 8
  · obtain ⟨hmin, hmax⟩ := hlength
    have hif : ¬((digits.isEmpty || 8 < digits.length) = true) := by
      simp only [Bool.or_eq_true, List.isEmpty_iff_length_eq_zero, decide_eq_true_eq]
      omega
    rw [hexWord?, if_neg hif, Option.map_eq_some_iff]
    constructor
    · rintro ⟨n, hn, rfl⟩
      have hlt : n < 2 ^ 32 :=
        (Text.lt_of_ofHex? hn).trans_le (Nat.pow_le_pow_right (by decide) hmax)
      rw [BitVec.toNat_ofNat, Nat.mod_eq_of_lt hlt]
      exact ⟨hmin, hmax, hn⟩
    · rintro ⟨-, -, hn⟩
      exact ⟨w.toNat, hn, BitVec.ofNat_toNat ..⟩
  · have hif : (digits.isEmpty || 8 < digits.length) = true := by
      simp only [Bool.or_eq_true, List.isEmpty_iff_length_eq_zero, decide_eq_true_eq]
      omega
    rw [hexWord?, if_pos hif]
    exact iff_of_false nofun fun h => hlength ⟨h.1, h.2.1⟩

theorem spells_iff {token : List Char} {w : Word} :
    Spells token w ↔ ∃ mark ∈ [[], ['0', 'x'], ['0', 'X']], ∃ digits,
      token = mark ++ digits ∧ hexWord? digits = some w := by
  simp only [Spells, hexWord?_eq_some_iff, Text.ofHex?_eq_some_iff]
  grind

theorem hexWord?_marked {c : Char} (hc : Text.hexValue? c = none) (digits : List Char) :
    hexWord? ('0' :: c :: digits) = none := by
  simp [hexWord?, Text.ofHex?, hc]

theorem word?_eq_some_iff {token : List Char} {w : Word} :
    word? token = some w ↔ Spells token w := by
  rw [spells_iff]
  constructor
  · rw [word?.eq_def]
    split
    next digits => exact fun h => ⟨['0', 'x'], by simp, digits, rfl, h⟩
    next digits => exact fun h => ⟨['0', 'X'], by simp, digits, rfl, h⟩
    next => exact fun h => ⟨[], by simp, token, rfl, h⟩
  · rintro ⟨mark, hmark, digits, rfl, h⟩
    simp only [List.mem_cons, List.not_mem_nil, or_false] at hmark
    obtain rfl | rfl | rfl := hmark
    · have hunmarked {c : Char} (hc : Text.hexValue? c = none) (rest : List Char) :
          digits ≠ '0' :: c :: rest := by
        rintro rfl
        rw [hexWord?_marked hc] at h
        exact nomatch h
      rw [List.nil_append, word?.eq_3 _ (hunmarked (by decide)) (hunmarked (by decide)), h]
    · exact h
    · exact h

end Image
end Multicycle
