import Multicycle.Proofs.Document

/-! The tokens of JSON texts: each scalar is one token, and ends where the grammar has it end. -/
namespace Multicycle.Json

/-- A text that does not go on with a number before it. -/
def Stops (rest : List Char) : Prop := ∀ c ∈ rest.head?, ¬c.isDigit ∧ c ∉ ['.', 'e', 'E']

/-- The tokens of `s` are `ts`, whatever stands behind it. -/
def Lexes (s : List Char) (ts : List Token) : Prop :=
  ∀ rest, Stops rest → tokens (s ++ rest) = ts ++ tokens rest

variable {c mark : Char} {s rest digits blanks : List Char} {n : Nat} {ps : List Piece}

theorem stops_cons (hdigit : ¬c.isDigit) (hmark : c ∉ ['.', 'e', 'E']) (rest : List Char) :
    Stops (c :: rest) := by
  intro d hd
  obtain rfl := Option.some.inj hd
  exact ⟨hdigit, hmark⟩

theorem Stops.not_isDigit (h : Stops rest) : ∀ c ∈ rest.head?, ¬c.isDigit := fun c hc => (h c hc).1

theorem Stops.ne_dot (h : Stops rest) : ∀ c ∈ rest.head?, c ≠ '.' := by
  rintro c hc rfl
  exact (h '.' hc).2 List.mem_cons_self

theorem isBlank_cases (h : isBlank c) : c = ' ' ∨ c = '\n' ∨ c = '\t' ∨ c = '\r' := by
  simpa [isBlank, or_assoc] using h

theorem Stops.blanks_append (hblanks : Blanks blanks) (h : Stops rest) :
    Stops (blanks ++ rest) := by
  cases blanks with
  | nil => exact h
  | cons c blanks =>
    have hc := isBlank_cases (hblanks c List.mem_cons_self)
    apply stops_cons
    · obtain rfl | rfl | rfl | rfl := hc <;> decide
    · obtain rfl | rfl | rfl | rfl := hc <;> decide

theorem tokens_cons_of_isBlank (h : isBlank c) (s : List Char) : tokens (c :: s) = tokens s := by
  rw [tokens, if_pos h]

theorem tokens_cons (h : ¬isBlank c) (s : List Char) :
    tokens (c :: s) = (Token.scan c s).1 :: tokens (Token.scan c s).2 := by
  rw [tokens, if_neg h]

theorem tokens_blanks_append (h : Blanks blanks) (s : List Char) :
    tokens (blanks ++ s) = tokens s := by
  induction blanks with
  | nil => rfl
  | cons c blanks ih =>
    obtain ⟨hc, hblanks⟩ := List.forall_mem_cons.mp h
    rw [List.cons_append, tokens_cons_of_isBlank hc, ih hblanks]

theorem lexes_of_scan {t : Token} (hblank : ¬isBlank c)
    (h : ∀ rest, Stops rest → Token.scan c (s ++ rest) = (t, rest)) : Lexes (c :: s) [t] := by
  intro rest hrest
  rw [List.cons_append, tokens_cons hblank, h rest hrest, List.singleton_append]

theorem digits_append (h : Text.Decimal digits n) (hrest : ∀ c ∈ rest.head?, ¬c.isDigit) :
    Token.digits (digits ++ rest) = digits.map Text.digitValue ∧
      Token.afterDigits (digits ++ rest) = rest := by
  obtain ⟨-, hdigits, -⟩ := Text.decimal_iff.mp h
  unfold Token.digits Token.afterDigits
  rw [List.takeWhile_append_of_pos hdigits, List.dropWhile_append_of_pos hdigits]
  cases rest with
  | nil => simp
  | cons c rest =>
    have hc := hrest c rfl
    rw [List.takeWhile_cons_of_neg hc, List.dropWhile_cons_of_neg hc, List.append_nil]
    exact ⟨rfl, rfl⟩

theorem not_isEmpty_digits (h : Text.Decimal digits n) :
    ¬(digits.map Text.digitValue).isEmpty := by
  rw [List.isEmpty_iff, List.map_eq_nil_iff]
  exact h.ne_nil

theorem exponent_digits_append (number : Number) (negative : Bool) (h : Text.Decimal digits n)
    (hrest : Stops rest) :
    Token.exponent number negative (digits ++ rest) =
      (.number { number with
        exponentNegative := negative, exponent := digits.map Text.digitValue }, rest) := by
  obtain ⟨htake, hdrop⟩ := digits_append h hrest.not_isDigit
  unfold Token.exponent
  rw [htake, hdrop, if_neg (not_isEmpty_digits h)]

theorem exponentPart_of_stops (number : Number) (h : Stops rest) :
    Token.exponentPart number rest = (.number number, rest) := by
  fun_cases Token.exponentPart number rest
  case case7 => rfl
  all_goals exact absurd (h _ rfl).2 (by decide)

theorem exponentPart_of_isDigit (number : Number) (hmark : mark = 'e' ∨ mark = 'E')
    (hc : c.isDigit) :
    Token.exponentPart number (mark :: c :: s) = Token.exponent number false (c :: s) := by
  have hplus : c ≠ '+' := by rintro rfl; revert hc; decide
  have hminus : c ≠ '-' := by rintro rfl; revert hc; decide
  obtain rfl | rfl := hmark <;> simp [Token.exponentPart, hplus, hminus]

theorem Exponent.lexes (h : Exponent s) (number : Number) :
    ∃ number', ∀ rest, Stops rest →
      Token.exponentPart number (s ++ rest) = (.number number', rest) := by
  obtain rfl | ⟨mark, sign, digits, n, rfl, hmark, hsign, hdigits⟩ := h
  · exact ⟨number, fun rest => exponentPart_of_stops number⟩
  simp only [List.cons_append, List.append_assoc]
  obtain rfl | rfl | rfl := hsign
  · obtain ⟨hne, hall, -⟩ := Text.decimal_iff.mp hdigits
    obtain ⟨c, ds, rfl⟩ := List.exists_cons_of_ne_nil hne
    refine ⟨_, fun rest hrest => Eq.trans ?_ (exponent_digits_append number false hdigits hrest)⟩
    exact exponentPart_of_isDigit number hmark (hall c List.mem_cons_self)
  · refine ⟨_, fun rest hrest => Eq.trans ?_ (exponent_digits_append number false hdigits hrest)⟩
    obtain rfl | rfl := hmark <;> rfl
  · refine ⟨_, fun rest hrest => Eq.trans ?_ (exponent_digits_append number true hdigits hrest)⟩
    obtain rfl | rfl := hmark <;> rfl

theorem Exponent.head (h : Exponent s) (hrest : Stops rest) :
    ∀ c ∈ (s ++ rest).head?, ¬c.isDigit ∧ c ≠ '.' := by
  obtain rfl | ⟨mark, sign, digits, n, rfl, hmark, -⟩ := h
  · exact fun c hc => ⟨hrest.not_isDigit c hc, hrest.ne_dot c hc⟩
  · intro c hc
    obtain rfl := Option.some.inj hc
    obtain rfl | rfl := hmark <;> decide

theorem fractionPart_of_head (number : Number) (h : ∀ c ∈ s.head?, c ≠ '.') :
    Token.fractionPart number s = Token.exponentPart number s := by
  fun_cases Token.fractionPart number s
  case case3 => rfl
  all_goals exact absurd rfl (h _ rfl)

theorem Fraction.lexes {exponent : List Char} (h : Fraction s) (hexponent : Exponent exponent)
    (number : Number) :
    ∃ number', ∀ rest, Stops rest →
      Token.fractionPart number (s ++ (exponent ++ rest)) = (.number number', rest) := by
  obtain rfl | ⟨digits, n, rfl, hdigits⟩ := h
  · obtain ⟨number', hlexes⟩ := hexponent.lexes number
    refine ⟨number', fun rest hrest => ?_⟩
    rw [List.nil_append, fractionPart_of_head number fun c hc => (hexponent.head hrest c hc).2]
    exact hlexes rest hrest
  · obtain ⟨number', hlexes⟩ :=
      hexponent.lexes { number with fraction := digits.map Text.digitValue }
    refine ⟨number', fun rest hrest => ?_⟩
    obtain ⟨htake, hdrop⟩ := digits_append hdigits fun c hc => (hexponent.head hrest c hc).1
    rw [List.cons_append, Token.fractionPart, htake, hdrop, if_neg (not_isEmpty_digits hdigits)]
    exact hlexes rest hrest

theorem Fraction.not_isDigit (h : Fraction s) (hrest : ∀ c ∈ rest.head?, ¬c.isDigit) :
    ∀ c ∈ (s ++ rest).head?, ¬c.isDigit := by
  obtain rfl | ⟨digits, n, rfl, -⟩ := h
  · exact hrest
  · intro c hc
    obtain rfl := Option.some.inj hc
    decide

theorem Whole.isDigit_head (h : Whole (c :: s) n) : c.isDigit := by
  obtain ⟨-, hdigits, -⟩ := Text.decimal_iff.mp h.decimal
  exact hdigits c List.mem_cons_self

theorem wholePart_append (negative : Bool) (h : Whole (c :: s) n)
    (hrest : ∀ c ∈ rest.head?, ¬c.isDigit) :
    Token.wholePart negative c (s ++ rest) =
      Token.fractionPart ⟨negative, (c :: s).map Text.digitValue, [], false, []⟩ rest := by
  obtain ⟨htake, hdrop⟩ := digits_append h.decimal hrest
  rw [List.cons_append] at htake hdrop
  unfold Token.wholePart
  split
  next hzero =>
    -- A zero in front is all of the whole part, and no digit follows it.
    subst hzero
    obtain rfl := (List.cons.inj (h.zero rfl)).2
    have hnone : Token.digits rest = [] := by
      unfold Token.digits
      cases rest with
      | nil => rfl
      | cons d rest => rw [List.takeWhile_cons_of_neg (hrest d rfl), List.map_nil]
    rw [List.nil_append, hnone]
    rfl
  next =>
    have hafter : Token.afterDigits (c :: (s ++ rest)) = Token.afterDigits (s ++ rest) := by
      unfold Token.afterDigits
      rw [List.dropWhile_cons_of_pos h.isDigit_head]
    rw [htake, ← hafter, hdrop]

theorem not_isBlank_of_isDigit (h : c.isDigit) : ¬isBlank c := by
  intro hblank
  obtain rfl | rfl | rfl | rfl := isBlank_cases hblank <;> exact absurd h (by decide)

theorem scan_of_isDigit (h : c.isDigit) (s : List Char) :
    Token.scan c s = Token.wholePart false c s := by
  fun_cases Token.scan c s
  case case12 => rfl
  all_goals exact absurd h (by first | decide | assumption)

theorem Whole.lexes (h : Whole s n) :
    Lexes s [.number ⟨false, s.map Text.digitValue, [], false, []⟩] := by
  obtain ⟨c, s, rfl⟩ := List.exists_cons_of_ne_nil h.decimal.ne_nil
  apply lexes_of_scan (not_isBlank_of_isDigit h.isDigit_head)
  intro rest hrest
  rw [scan_of_isDigit h.isDigit_head, wholePart_append false h hrest.not_isDigit,
    fractionPart_of_head _ hrest.ne_dot, exponentPart_of_stops _ hrest]

theorem IsNumber.lexes (h : IsNumber s) : ∃ number, Lexes s [.number number] := by
  obtain @⟨sign, whole, fraction, exponent, n, hsign, hwhole, hfraction, hexponent⟩ := h
  obtain ⟨c, ds, rfl⟩ := List.exists_cons_of_ne_nil hwhole.decimal.ne_nil
  have hdigit := hwhole.isDigit_head
  have hpart (negative : Bool) : ∃ number, ∀ rest, Stops rest →
      Token.wholePart negative c (ds ++ (fraction ++ (exponent ++ rest))) =
        (.number number, rest) := by
    obtain ⟨number, hlexes⟩ :=
      hfraction.lexes hexponent ⟨negative, (c :: ds).map Text.digitValue, [], false, []⟩
    refine ⟨number, fun rest hrest => ?_⟩
    have hbehind := hfraction.not_isDigit fun c hc => (hexponent.head hrest c hc).1
    rw [wholePart_append negative hwhole hbehind]
    exact hlexes rest hrest
  obtain rfl | rfl := hsign
  · obtain ⟨number, hlexes⟩ := hpart false
    rw [List.nil_append, List.cons_append]
    refine ⟨number, lexes_of_scan (not_isBlank_of_isDigit hdigit) fun rest hrest => ?_⟩
    rw [scan_of_isDigit hdigit, List.append_assoc, List.append_assoc]
    exact hlexes rest hrest
  · obtain ⟨number, hlexes⟩ := hpart true
    rw [List.singleton_append]
    refine ⟨number, lexes_of_scan (by decide) fun rest hrest => ?_⟩
    rw [List.append_assoc, List.append_assoc, List.cons_append, ← hlexes rest hrest]
    exact if_pos hdigit

theorem literal_append (t : Token) (name rest : List Char) :
    Token.literal t name (name ++ rest) = (t, rest) := by
  induction name with
  | nil => rfl
  | cons c name ih => rw [List.cons_append, Token.literal, if_pos rfl, ih]

theorem lexes_null : Lexes "null".toList [.null] :=
  lexes_of_scan (by decide) fun rest _ => literal_append .null ['u', 'l', 'l'] rest

theorem lexes_bool (b : Bool) : Lexes (toString b).toList [.bool b] := by
  cases b with
  | false =>
    exact lexes_of_scan (by decide) fun rest _ =>
      literal_append (.bool false) ['a', 'l', 's', 'e'] rest
  | true =>
    exact lexes_of_scan (by decide) fun rest _ => literal_append (.bool true) ['r', 'u', 'e'] rest

/-! Strings. -/

theorem scan_escape {letter : Char} (h : (letter, c) ∈ escapes) (s : List Char) :
    Quoted.scan ('\\' :: letter :: s) = Quoted.push (.plain c) (Quoted.scan s) := by
  simp only [escapes, List.mem_cons, Prod.mk.injEq, List.not_mem_nil, or_false] at h
  obtain ⟨rfl, rfl⟩ | ⟨rfl, rfl⟩ | ⟨rfl, rfl⟩ | ⟨rfl, rfl⟩ | ⟨rfl, rfl⟩ | ⟨rfl, rfl⟩ | ⟨rfl, rfl⟩ |
    ⟨rfl, rfl⟩ := h <;> simp [Quoted.scan, Quoted.escaped?]

theorem Content.scan (h : Content s ps) (rest : List Char) :
    Quoted.scan (s ++ '"' :: rest) = (⟨ps, none⟩, rest) := by
  induction h with
  | nil => rfl
  | plain hc h ih =>
    obtain ⟨hquote, hslash, hcontrol⟩ := hc
    rw [List.cons_append, Quoted.scan, if_neg (Nat.not_lt.mpr hcontrol), ih]
    · rfl
    · exact hquote
    -- No other equation of the scanner is about a character that is no backslash.
    all_goals
      intros
      exact hslash ‹_›
  | escape hletter h ih =>
    rw [List.cons_append, List.cons_append, scan_escape hletter, ih]
    rfl
  | @unit digits s values ps hlength hdigits h ih =>
    have hvalue := Text.ofHex?_eq_some_iff.mpr ⟨values, hdigits, rfl⟩
    match digits, hlength with
    | [a, b, c, d], _ =>
      simp only [List.cons_append, List.nil_append, Quoted.scan, hvalue, ih]
      rfl

theorem lexes_quoted (h : Content s ps) : Lexes (quoted s) [.string ⟨ps, none⟩] := by
  apply lexes_of_scan (by decide)
  intro rest _
  have hscan := h.scan rest
  rw [List.append_assoc, List.singleton_append]
  simp only [Token.scan, hscan]

theorem isTrailing_toNat (c : Char) : Quoted.isTrailing c.toNat = false := by
  have hvalid : c.toNat < 0xD800 ∨ 0xDFFF < c.toNat := c.valid.imp_right And.left
  simp only [Quoted.isTrailing, Bool.and_eq_false_iff, decide_eq_false_iff_not]
  omega

theorem isLeading_toNat (c : Char) : Quoted.isLeading c.toNat = false := by
  have hvalid : c.toNat < 0xD800 ∨ 0xDFFF < c.toNat := c.valid.imp_right And.left
  simp only [Quoted.isLeading, Bool.and_eq_false_iff, decide_eq_false_iff_not]
  omega

theorem decode_unit_toNat (fault : Option Fault) (c : Char) (ps : List Piece) :
    Quoted.decode fault (.unit c.toNat :: ps) = (Quoted.decode fault ps).map (c :: ·) := by
  have htrailing := isTrailing_toNat c
  have hleading := isLeading_toNat c
  match ps with
  | [] => simp [Quoted.decode, htrailing, hleading]
  | .plain d :: ps => simp [Quoted.decode, htrailing, hleading]
  | .unit v :: ps => simp [Quoted.decode, htrailing, hleading]

theorem decode_pair {u v : Nat} (fault : Option Fault) (hu : 0xD800 ≤ u ∧ u ≤ 0xDBFF)
    (hv : 0xDC00 ≤ v ∧ v ≤ 0xDFFF)
    (hc : c.toNat = 0x10000 + (u - 0xD800) * 0x400 + (v - 0xDC00)) (ps : List Piece) :
    Quoted.decode fault (.unit u :: .unit v :: ps) = (Quoted.decode fault ps).map (c :: ·) := by
  have hleading : Quoted.isLeading u = true := by
    rw [Quoted.isLeading, Bool.and_eq_true, decide_eq_true_iff, decide_eq_true_iff]
    exact hu
  have hu' : Quoted.isTrailing u = false := by
    simp only [Quoted.isTrailing, Bool.and_eq_false_iff, decide_eq_false_iff_not]
    omega
  have hv' : Quoted.isTrailing v = true := by
    rw [Quoted.isTrailing, Bool.and_eq_true, decide_eq_true_iff, decide_eq_true_iff]
    exact hv
  rw [Quoted.decode, if_neg (Bool.eq_false_iff.mp hu'), if_pos hleading, if_pos hv', ← hc,
    Char.ofNat_toNat]

theorem Means.decode {cs : List Char} (h : Means ps cs) : Quoted.decode none ps = .ok cs := by
  induction h with
  | nil => rfl
  | plain h ih => rw [Quoted.decode, ih, Except.map]
  | unit h ih => rw [decode_unit_toNat, ih, Except.map]
  | pair hu hv hc h ih => rw [decode_pair none hu hv hc, ih, Except.map]

/-- A scalar is one token, which may stand wherever a value is passed over. -/
theorem IsScalar.lexes (h : IsScalar s) : ∃ t, Lexes s [t] ∧ t.ignore = .ok () := by
  cases h with
  | null => exact ⟨_, lexes_null, rfl⟩
  | bool b => exact ⟨_, lexes_bool b, rfl⟩
  | number h =>
    obtain ⟨number, hlexes⟩ := h.lexes
    exact ⟨_, hlexes, rfl⟩
  | string h =>
    obtain ⟨content, ps, rfl, hcontent⟩ := h
    exact ⟨_, lexes_quoted hcontent, rfl⟩

/-! Texts of several tokens. -/

variable {s' : List Char} {ts us : List Token} {t : Token} {items : List (List Char)}
  {P : List Char → Prop}

theorem Lexes.blanks_append (hblanks : Blanks blanks) (h : Lexes s ts) :
    Lexes (blanks ++ s) ts := by
  intro rest hrest
  rw [List.append_assoc, tokens_blanks_append hblanks]
  exact h rest hrest

theorem Lexes.append_blanks (h : Lexes s ts) (hblanks : Blanks blanks) :
    Lexes (s ++ blanks) ts := by
  intro rest hrest
  rw [List.append_assoc, h _ (hrest.blanks_append hblanks), tokens_blanks_append hblanks]

theorem Padded.lexes {Q : List Token → Prop} (hs : Padded P s)
    (h : ∀ inner, P inner → ∃ ts, Q ts ∧ Lexes inner ts) : ∃ ts, Q ts ∧ Lexes s ts := by
  obtain ⟨before, inner, behind, rfl, hbefore, hinner, hbehind⟩ := hs
  obtain ⟨ts, hts, hlexes⟩ := h inner hinner
  exact ⟨ts, hts, (hlexes.append_blanks hbehind).blanks_append hbefore⟩

theorem Lexes.padded (hs : Padded P s) (h : ∀ inner, P inner → Lexes inner ts) : Lexes s ts := by
  obtain ⟨_, rfl, hlexes⟩ := hs.lexes fun inner hinner => ⟨ts, rfl, h inner hinner⟩
  exact hlexes

theorem IsString.lexes (h : IsString s) : ∃ q : Quoted, q.fault = none ∧ Lexes s [.string q] := by
  obtain ⟨content, ps, rfl, hcontent⟩ := h
  exact ⟨⟨ps, none⟩, rfl, lexes_quoted hcontent⟩

theorem Quotes.lexes {name : List Char} (h : Quotes name s) :
    ∃ q : Quoted, q.text = .ok name ∧ Lexes s [.string q] := by
  obtain ⟨content, ps, rfl, hcontent, hmeans⟩ := h
  exact ⟨⟨ps, none⟩, hmeans.decode, lexes_quoted hcontent⟩

end Multicycle.Json
