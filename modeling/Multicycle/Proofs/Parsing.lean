import Mathlib.Data.List.ReduceOption
import Multicycle.Proofs.Grammar

/-! What the parser makes of a text: the words that its lines hold, or the first line that holds
neither a word nor nothing. -/
namespace Multicycle.Image

/-- What a line holds: a word, or nothing if it has no token. -/
def Holds (line : List Char) : Option Word → Prop
  | none => ∀ token, ¬Leads line token
  | some w => ∃ token, Leads line token ∧ Spells token w

/-- The leading token of a line spells no word. -/
def Offends (line token : List Char) : Prop := Leads line token ∧ ∀ w, ¬Spells token w

/-- Behind `k` lines that hold something, the next offends. -/
def FirstOffence (ls : List (List Char)) (k : Nat) (token : List Char) : Prop :=
  (∀ line ∈ ls.take k, ∃ held, Holds line held) ∧ ∃ line, ls[k]? = some line ∧ Offends line token

variable {line token : List Char} {held : Option Word} {ls : List (List Char)} {n k : Nat}

theorem holds_none_iff : Holds line none ↔ leadingToken line = [] := by
  simp only [Holds, leads_iff, not_and, not_not, forall_eq']

theorem holds_some_iff {w : Word} :
    Holds line (some w) ↔ leadingToken line ≠ [] ∧ word? (leadingToken line) = some w := by
  simp only [Holds, leads_iff, ← word?_eq_some_iff]
  grind

theorem offends_iff :
    Offends line token ↔
      leadingToken line = token ∧ leadingToken line ≠ [] ∧ word? (leadingToken line) = none := by
  simp only [Offends, leads_iff, ← word?_eq_some_iff, Option.eq_none_iff_forall_ne_some]
  grind

theorem holds_or_offends (line : List Char) :
    (∃ held, Holds line held) ∨ ∃ token, Offends line token := by
  by_cases htoken : leadingToken line = []
  · exact .inl ⟨none, holds_none_iff.mpr htoken⟩
  · cases hword : word? (leadingToken line) with
    | none => exact .inr ⟨_, offends_iff.mpr ⟨rfl, htoken, hword⟩⟩
    | some w => exact .inl ⟨some w, holds_some_iff.mpr ⟨htoken, hword⟩⟩

theorem readLines_cons_of_holds (h : Holds line held) (n : Nat) (ls : List (List Char)) :
    readLines n (line :: ls) = (readLines (n + 1) ls).map (held.toList ++ ·) := by
  cases held with
  | none =>
    rw [readLines, holds_none_iff.mp h, if_pos List.isEmpty_nil]
    cases readLines (n + 1) ls <;> rfl
  | some w =>
    obtain ⟨htoken, hword⟩ := holds_some_iff.mp h
    rw [readLines, if_neg (by simpa using htoken), hword]
    rfl

theorem readLines_cons_of_offends (h : Offends line token) (n : Nat) (ls : List (List Char)) :
    readLines n (line :: ls) = .error (.invalidWord n (String.ofList token)) := by
  obtain ⟨rfl, htoken, hword⟩ := offends_iff.mp h
  rw [readLines, if_neg (by simpa using htoken), hword]

theorem readLines_append (n : Nat) (ls ls' : List (List Char)) :
    readLines n (ls ++ ls') =
      (readLines n ls).bind fun u => (readLines (n + ls.length) ls').map (u ++ ·) := by
  induction ls generalizing n with
  | nil =>
    change readLines n ls' = (readLines n ls').map ([] ++ ·)
    cases readLines n ls' <;> rfl
  | cons line ls ih =>
    obtain ⟨held, h⟩ | ⟨token, h⟩ := holds_or_offends line
    · rw [List.cons_append, readLines_cons_of_holds h, readLines_cons_of_holds h, ih,
        List.length_cons, Nat.add_assoc, Nat.add_comm 1]
      cases readLines (n + 1) ls with
      | error fault => rfl
      | ok u =>
        change ((readLines (n + (ls.length + 1)) ls').map (u ++ ·)).map (held.toList ++ ·) =
          (readLines (n + (ls.length + 1)) ls').map (held.toList ++ u ++ ·)
        cases readLines (n + (ls.length + 1)) ls' with
        | error fault => rfl
        | ok v => exact congrArg Except.ok (List.append_assoc ..).symm
    · rw [List.cons_append, readLines_cons_of_offends h, readLines_cons_of_offends h]
      rfl

theorem reduceOption_cons (held : Option Word) (helds : List (Option Word)) :
    (held :: helds).reduceOption = held.toList ++ helds.reduceOption := by
  rw [← List.singleton_append, List.reduceOption_append, List.reduceOption_singleton]

theorem readLines_of_holds {helds : List (Option Word)} (h : List.Forall₂ Holds ls helds)
    (n : Nat) :
    readLines n ls = .ok helds.reduceOption := by
  induction h generalizing n with
  | nil => rfl
  | @cons line held ls helds hline _ ih =>
    rw [readLines_cons_of_holds hline, ih, reduceOption_cons]
    rfl

theorem readLines_of_firstOffence (h : FirstOffence ls k token) (n : Nat) :
    readLines n ls = .error (.invalidWord (n + k) (String.ofList token)) := by
  obtain ⟨hbefore, line, hline, hoffends⟩ := h
  induction ls generalizing n k with
  | nil => exact nomatch hline
  | cons l ls ih =>
    cases k with
    | zero =>
      obtain rfl := Option.some.inj hline
      exact readLines_cons_of_offends hoffends n ls
    | succ k =>
      rw [List.take_succ_cons, List.forall_mem_cons] at hbefore
      obtain ⟨⟨held, hheld⟩, hbefore⟩ := hbefore
      rw [readLines_cons_of_holds hheld, ih (n + 1) hbefore hline, Nat.add_assoc, Nat.add_comm 1 k]
      rfl

theorem holds_or_firstOffence (ls : List (List Char)) :
    (∃ helds, List.Forall₂ Holds ls helds) ∨ ∃ k token, FirstOffence ls k token := by
  induction ls with
  | nil => exact .inl ⟨[], .nil⟩
  | cons line ls ih =>
    obtain ⟨held, h⟩ | ⟨token, h⟩ := holds_or_offends line
    · obtain ⟨helds, hs⟩ | ⟨k, token, hbefore, hoffence⟩ := ih
      · exact .inl ⟨held :: helds, .cons h hs⟩
      · refine .inr ⟨k + 1, token, ?_, hoffence⟩
        rw [List.take_succ_cons, List.forall_mem_cons]
        exact ⟨⟨held, h⟩, hbefore⟩
    · exact .inr ⟨0, token, by simp, line, rfl, h⟩

theorem readLines_eq_ok_iff {ws : List Word} :
    readLines n ls = .ok ws ↔
      ∃ helds, List.Forall₂ Holds ls helds ∧ ws = helds.reduceOption := by
  constructor
  · intro h
    obtain ⟨helds, hs⟩ | ⟨k, token, hoffence⟩ := holds_or_firstOffence ls
    · rw [readLines_of_holds hs] at h
      exact ⟨helds, hs, (Except.ok.inj h).symm⟩
    · rw [readLines_of_firstOffence hoffence] at h
      exact nomatch h
  · rintro ⟨helds, hs, rfl⟩
    exact readLines_of_holds hs n

theorem readLines_eq_error_iff {fault : LoadFault} :
    readLines n ls = .error fault ↔
      ∃ k token, FirstOffence ls k token ∧
        fault = .invalidWord (n + k) (String.ofList token) := by
  constructor
  · intro h
    obtain ⟨helds, hs⟩ | ⟨k, token, hoffence⟩ := holds_or_firstOffence ls
    · rw [readLines_of_holds hs] at h
      exact nomatch h
    · rw [readLines_of_firstOffence hoffence] at h
      exact ⟨k, token, hoffence, (Except.error.inj h).symm⟩
  · rintro ⟨k, token, hoffence, rfl⟩
    exact readLines_of_firstOffence hoffence n

theorem readLines_newline {s : List Char} {u : List Word} (h : readLines n (lines s) = .ok u)
    (t : List Char) :
    readLines n (lines (s ++ '\n' :: t)) =
      (readLines (n + (s.count '\n' + 1)) (lines t)).map (u ++ ·) := by
  obtain ⟨ended, last, hs⟩ := exists_splits s
  -- If no last line waits for its end, there is an empty line more, and else perhaps a return less.
  have hreturn (m : Nat) :
      readLines m [dropReturn last] = readLines m (if last = [] then [] else [last]) := by
    split
    next hempty => rw [hempty]; rfl
    next => simp only [readLines, leadingToken_dropReturn]
  have hended : readLines n (ended.map dropReturn ++ [dropReturn last]) = .ok u := by
    rw [readLines_append, hreturn, ← readLines_append, ← hs.lines_eq, h]
  rw [hs.lines_newline, List.append_cons, readLines_append, hended, hs.count_newline,
    List.length_append, List.length_map]
  rfl

theorem exists_forall₂_holds_iff :
    (∃ helds, List.Forall₂ Holds ls helds) ↔ ∀ line ∈ ls, ∃ held, Holds line held := by
  induction ls with
  | nil => simp
  | cons line ls ih =>
    simp only [List.forall₂_cons_left_iff, List.forall_mem_cons, ← ih]
    constructor
    · rintro ⟨_, held, helds, h, hs, rfl⟩
      exact ⟨⟨held, h⟩, helds, hs⟩
    · rintro ⟨⟨held, h⟩, helds, hs⟩
      exact ⟨held :: helds, held, helds, h, hs, rfl⟩

theorem readLines_eq_ok_of_eq_ok {ws : List Word} (h : readLines n ls = .ok ws) (m : Nat) :
    readLines m ls = .ok ws := readLines_eq_ok_iff.mpr (readLines_eq_ok_iff.mp h)

/-- Where lines are counted from is no more than an offset to the line at fault. -/
theorem readLines_eq_error_of_eq_error {token : String}
    (h : readLines n ls = .error (.invalidWord k token)) (d : Nat) :
    readLines (n + d) ls = .error (.invalidWord (k + d) token) := by
  obtain ⟨j, token', hoffence, heq⟩ := readLines_eq_error_iff.mp h
  obtain ⟨rfl, rfl⟩ := LoadFault.invalidWord.inj heq
  rw [readLines_of_firstOffence hoffence, Nat.add_right_comm]

theorem parse_newline {text : String} {u : List Word} (h : parse text = .ok u) (behind : String) :
    parse (text ++ "\n" ++ behind) =
      (readLines (1 + (text.toList.count '\n' + 1)) (lines behind.toList)).map (u ++ ·) := by
  have htext : (text ++ "\n" ++ behind).toList = text.toList ++ '\n' :: behind.toList := by
    simp
  rw [parse, htext, readLines_newline h]

/-- A text parses exactly if no line offends, and else its fault names the first line that does. -/
theorem parse_grammar (text : String) :
    ∃ ls, (∀ ls', Lines text.toList ls' ↔ ls' = ls) ∧
      ((∃ ws, parse text = .ok ws) ↔ ∀ line ∈ ls, ∃ held, Holds line held) ∧
      (∀ ws, parse text = .ok ws ↔
        ∃ helds, List.Forall₂ Holds ls helds ∧ ws = helds.reduceOption) ∧
      (∀ fault, parse text = .error fault ↔
        ∃ k token, FirstOffence ls k token ∧
          fault = .invalidWord (k + 1) (String.ofList token)) ∧
      ∀ u, parse text = .ok u → ∀ behind,
        (∀ v, parse behind = .ok v → parse (text ++ "\n" ++ behind) = .ok (u ++ v)) ∧
        ∀ k token, parse behind = .error (.invalidWord k token) →
          parse (text ++ "\n" ++ behind) =
            .error (.invalidWord (k + 1 + text.toList.count '\n') token) := by
  refine ⟨lines text.toList, fun ls' => lines_eq_iff.symm.trans eq_comm, ?_, ?_, ?_, ?_⟩
  · simp only [parse, readLines_eq_ok_iff, ← exists_forall₂_holds_iff]
    exact ⟨fun ⟨_, helds, hs, _⟩ => ⟨helds, hs⟩, fun ⟨helds, hs⟩ => ⟨_, helds, hs, rfl⟩⟩
  · exact fun ws => readLines_eq_ok_iff
  · intro fault
    simp only [Nat.add_comm _ 1]
    exact readLines_eq_error_iff
  · intro u hu behind
    rw [parse_newline hu]
    refine ⟨fun v hv => ?_, fun k token hk => ?_⟩
    · rw [readLines_eq_ok_of_eq_ok hv]
      rfl
    · rw [readLines_eq_error_of_eq_error hk, Nat.add_right_comm, Nat.add_assoc]
      rfl

theorem parse_grammar_fault :
    parse ("0Xa#//\r\n \u3000//0g\n00000013 rest" ++ "\n" ++ "# none\n0x0x1 // twice") =
      .error (.invalidWord 5 "0x0x1") := by
  obtain ⟨ls, -, -, -, -, happend⟩ := parse_grammar "0Xa#//\r\n \u3000//0g\n00000013 rest"
  have := (happend [10#32, 19#32] (by decide) "# none\n0x0x1 // twice").2 2 "0x0x1" (by decide)
  exact this

end Multicycle.Image
