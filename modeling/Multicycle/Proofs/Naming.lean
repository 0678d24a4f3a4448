import Multicycle.Proofs.Decimal

/-! The spellings of the registers: what each of them may be called in a text, and that the lookup
of a text finds just that. -/
namespace Multicycle

namespace Text

/-- What is left of a text without the blanks at both ends. -/
structure Trimmed (text rest : List Char) : Prop where
  between : ∃ before behind, text = before ++ (rest ++ behind) ∧ (∀ c ∈ before, isBlank c) ∧
    ∀ c ∈ behind, isBlank c
  first : ∀ c ∈ rest.head?, ¬isBlank c
  last : ∀ c ∈ rest.getLast?, ¬isBlank c

variable {text rest : List Char}

theorem dropWhile_append_of_head? {p : Char → Bool} {before : List Char}
    (hbefore : ∀ c ∈ before, p c) (hfirst : ∀ c ∈ rest.head?, ¬p c) :
    (before ++ rest).dropWhile p = rest := by
  rw [List.dropWhile_append_of_pos hbefore]
  cases rest with
  | nil => rfl
  | cons c rest => exact List.dropWhile_cons_of_neg (hfirst c rfl)

theorem trimmed_trim (text : List Char) : Trimmed text (trim text) := by
  let tail := text.dropWhile isBlank
  have hfirst : ∀ c ∈ tail.head?, ¬isBlank c := by
    intro c hc
    have hstop := List.head?_dropWhile_not isBlank text
    rw [Option.mem_def.mp hc] at hstop
    simpa using hstop
  have htail : tail = trim text ++ (tail.reverse.takeWhile isBlank).reverse := by
    unfold trim
    rw [← List.reverse_append, List.takeWhile_append_dropWhile, List.reverse_reverse]
  refine ⟨⟨text.takeWhile isBlank, (tail.reverse.takeWhile isBlank).reverse, ?_, ?_, ?_⟩, ?_, ?_⟩
  · rw [← htail, List.takeWhile_append_dropWhile]
  · exact fun c hc => List.mem_takeWhile_imp hc
  · exact fun c hc => List.mem_takeWhile_imp (List.mem_reverse.mp hc)
  · intro c hc
    apply hfirst
    rw [htail]
    exact List.mem_head?_append_of_mem_head? hc
  · intro c hc
    have hstop := List.head?_dropWhile_not isBlank tail.reverse
    unfold trim at hc
    rw [List.getLast?_reverse] at hc
    rw [Option.mem_def.mp hc] at hstop
    simpa using hstop

theorem trim_eq_iff : trim text = rest ↔ Trimmed text rest := by
  constructor
  · rintro rfl
    exact trimmed_trim text
  · rintro ⟨⟨before, behind, rfl, hbefore, hbehind⟩, hfirst, hlast⟩
    unfold trim
    obtain rfl | hne := eq_or_ne rest []
    · have hblank : ∀ c ∈ before ++ ([] ++ behind), isBlank c := by
        rw [List.nil_append]
        exact List.forall_mem_append.mpr ⟨hbefore, hbehind⟩
      rw [List.dropWhile_eq_nil_iff.mpr hblank]
      rfl
    · have hhead : ∀ c ∈ (rest ++ behind).head?, ¬isBlank c := by
        rw [List.head?_append_of_ne_nil _ hne]
        exact hfirst
      have hhead' : ∀ c ∈ rest.reverse.head?, ¬isBlank c := by
        rw [List.head?_reverse]
        exact hlast
      have hbehind' : ∀ c ∈ behind.reverse, isBlank c :=
        fun c hc => hbehind c (List.mem_reverse.mp hc)
      rw [dropWhile_append_of_head? hbefore hhead, List.reverse_append,
        dropWhile_append_of_head? hbehind' hhead', List.reverse_reverse]

end Text

namespace Register

open Text

/-- A lower-case spelling of register `n`: its number, which may have a plus sign, or a name. -/
inductive Names : List Char → Nat → Prop
  | number {sign digits : List Char} {n : Nat} (hsign : sign = [] ∨ sign = ['+'])
      (hdigits : Decimal digits n) (hn : n < count) : Names ('x' :: (sign ++ digits)) n
  | name {s : String} {n : Nat} (h : names[n]? = some s) : Names s.toList n
  | framePointer : Names "fp".toList 8

/-- A text that has nothing but a spelling in it, in any case and between blanks. -/
def Spells (text : String) (n : Nat) : Prop :=
  ∃ t, Trimmed text.toList t ∧ Names (t.map Char.toLower) n

variable {text : String} {t sign digits : List Char} {n : Nat}

/-- A sign in front makes no difference, and no number that is too large comes out as another. -/
theorem number?_of_decimal (hsign : sign = [] ∨ sign = ['+']) (hdigits : Decimal digits n) :
    number? (sign ++ digits) = if n < count then some n else none := by
  have hread : (decimal? digits).filter (· < count) = if n < count then some n else none := by
    cases hvalue : decimal? digits with
    | none =>
      split
      next hn =>
        have hsize : n < UInt64.size := hn.trans_le (by decide)
        rw [decimal?_eq_some_iff.mpr ⟨hdigits, hsize⟩] at hvalue
        exact nomatch hvalue
      next => rfl
    | some k =>
      obtain ⟨-, -, hk⟩ := decimal_iff.mp (decimal?_eq_some_iff.mp hvalue).1
      obtain ⟨-, -, hn⟩ := decimal_iff.mp hdigits
      rw [← hk, hn]
      simp only [Option.filter_some, decide_eq_true_eq]
  obtain rfl | rfl := hsign
  · have hplain : ∀ rest, digits ≠ '+' :: rest := by
      rintro rest rfl
      obtain ⟨-, hall, -⟩ := decimal_iff.mp hdigits
      exact absurd (hall '+' List.mem_cons_self) (by decide)
    rw [List.nil_append, number?.eq_2 digits hplain, hread]
  · exact hread

theorem number?_eq_some_iff :
    number? t = some n ↔ ∃ sign digits, (sign = [] ∨ sign = ['+']) ∧ t = sign ++ digits ∧
      Decimal digits n ∧ n < count := by
  constructor
  · intro h
    have hread (digits : List Char) (h : (decimal? digits).filter (· < count) = some n) :
        Decimal digits n ∧ n < count := by
      rw [Option.filter_eq_some_iff, decimal?_eq_some_iff, decide_eq_true_iff] at h
      exact ⟨h.1.1, h.2⟩
    rw [number?.eq_def] at h
    split at h
    next digits => exact ⟨['+'], digits, .inr rfl, rfl, hread digits h⟩
    next => exact ⟨[], t, .inl rfl, rfl, hread t h⟩
  · rintro ⟨sign, digits, hsign, rfl, hdigits, hn⟩
    rw [number?_of_decimal hsign hdigits, if_pos hn]

theorem findIdx?_names : ∀ n < count, ∀ s ∈ names[n]?,
    names.findIdx? (·.toList == s.toList) = some n := by decide

theorem name_ne : ∀ s ∈ names, s.toList.head? ≠ some 'x' ∧ s.toList ≠ ['f', 'p'] := by decide

theorem findIdx?_eq_some_iff :
    names.findIdx? (·.toList == t) = some n ↔ ∃ s, names[n]? = some s ∧ s.toList = t := by
  constructor
  · intro h
    obtain ⟨hn, heq, -⟩ := List.findIdx?_eq_some_iff_getElem.mp h
    exact ⟨names[n], List.getElem?_eq_getElem hn, beq_iff_eq.mp heq⟩
  · rintro ⟨s, hs, rfl⟩
    have hn : n < names.length := (List.getElem?_eq_some_iff.mp hs).1
    exact findIdx?_names n hn s hs

theorem lookup?_eq_some_iff : lookup? t = some n ↔ Names t n := by
  constructor
  · intro h
    rw [lookup?.eq_def] at h
    split at h
    next digits =>
      obtain ⟨sign, digits, hsign, rfl, hdigits, hn⟩ := number?_eq_some_iff.mp h
      exact .number hsign hdigits hn
    next =>
      cases h
      exact .framePointer
    next =>
      obtain ⟨s, hs, rfl⟩ := findIdx?_eq_some_iff.mp h
      exact .name hs
  · intro h
    cases h with
    | number hsign hdigits hn =>
      exact number?_eq_some_iff.mpr ⟨_, _, hsign, rfl, hdigits, hn⟩
    | @name s n hs =>
      obtain ⟨hx, hfp⟩ := name_ne s (List.mem_of_getElem? hs)
      rw [lookup?.eq_3 _ (fun rest h => hx (by rw [h]; rfl)) hfp]
      exact findIdx?_eq_some_iff.mpr ⟨s, hs, rfl⟩
    | framePointer => rfl

theorem index?_eq_some_iff : index? text = some n ↔ Spells text n := by
  unfold index? Spells
  simp only [lookup?_eq_some_iff, ← trim_eq_iff, exists_eq_left']

theorem index?_name : ∀ n < count, index? (name n) = some n := by decide

theorem Names.lt (h : Names t n) : n < count := by
  cases h with
  | number _ _ hn => exact hn
  | name hs => exact (List.getElem?_eq_some_iff.mp hs).1
  | framePointer => decide

/-- The lookup finds the register that a text spells, in any spelling, and nothing in any other
text. -/
theorem index?_spells (text : String) :
    (∀ n, index? text = some n ↔ Spells text n) ∧
    (index? text = none ↔ ∀ n, ¬Spells text n) ∧
    (∀ t sign digits n, Trimmed text.toList t → t.map Char.toLower = 'x' :: (sign ++ digits) →
      (sign = [] ∨ sign = ['+']) → Decimal digits n → count ≤ n → index? text = none) ∧
    ∀ n, index? text = some n → n < count ∧ index? (name n) = some n := by
  refine ⟨fun n => index?_eq_some_iff, ?_, ?_, ?_⟩
  · simp only [← index?_eq_some_iff, Option.eq_none_iff_forall_ne_some]
  · intro t sign digits n htrim ht hsign hdigits hn
    unfold index?
    rw [trim_eq_iff.mpr htrim, ht]
    change number? (sign ++ digits) = none
    rw [number?_of_decimal hsign hdigits, if_neg (Nat.not_lt.mpr hn)]
  · intro n h
    obtain ⟨t, -, hnames⟩ := index?_eq_some_iff.mp h
    exact ⟨hnames.lt, index?_name n hnames.lt⟩

/-- A signed number with zeros in front, and one that is 31 but for a multiple of 2 ^ 64. -/
theorem index?_spells_wide :
    index? "\u3000X+000000000000000000000031\u0085" = some 31 ∧
      Decimal "18446744073709551647".toList (2 ^ 64 + 31) ∧
      index? "x18446744073709551647" = none := by
  have hspells : Spells "\u3000X+000000000000000000000031\u0085" 31 := by
    refine ⟨"X+000000000000000000000031".toList, trim_eq_iff.mp (by decide), ?_⟩
    have hdigits : Decimal "000000000000000000000031".toList 31 := decimal_of_all (by decide) rfl
    exact .number (.inr rfl) hdigits (by decide)
  have hwide : Decimal "18446744073709551647".toList (2 ^ 64 + 31) := decimal_of_all (by decide) rfl
  have htrim : Trimmed "x18446744073709551647".toList "x18446744073709551647".toList :=
    trim_eq_iff.mp (by decide)
  exact ⟨((index?_spells _).1 31).mpr hspells, hwide,
    (index?_spells _).2.2.1 _ [] _ _ htrim rfl (.inl rfl) hwide (by decide)⟩

end Register

end Multicycle
