import Multicycle.Json.Quoted

/-! The tokens of a JSON text. -/
namespace Multicycle.Json

/-- The fault of a text that is no JSON shows in the token where it begins. -/
inductive Token where
  | openBrace
  | closeBrace
  | openBracket
  | closeBracket
  | colon
  | comma
  | null
  | bool (b : Bool)
  | number (n : Number)
  | string (q : Quoted)
  | brokenLiteral (f : Fault)
  /-- A number that lacks a digit, where something else stands or the text ends. -/
  | brokenNumber (atEnd : Bool)
  | stray
  deriving DecidableEq, Repr

namespace Token

def digits (s : List Char) : List Nat := (s.takeWhile Char.isDigit).map Text.digitValue

def afterDigits (s : List Char) : List Char := s.dropWhile Char.isDigit

theorem length_afterDigits_le (s : List Char) : (afterDigits s).length ≤ s.length :=
  (List.dropWhile_sublist _).length_le

def exponent (n : Number) (negative : Bool) (s : List Char) : Token × List Char :=
  if (digits s).isEmpty then (.brokenNumber s.isEmpty, s)
  else (.number { n with exponentNegative := negative, exponent := digits s }, afterDigits s)

def exponentPart (n : Number) : List Char → Token × List Char
  | 'e' :: '+' :: s => exponent n false s
  | 'E' :: '+' :: s => exponent n false s
  | 'e' :: '-' :: s => exponent n true s
  | 'E' :: '-' :: s => exponent n true s
  | 'e' :: s => exponent n false s
  | 'E' :: s => exponent n false s
  | s => (.number n, s)

def fractionPart (n : Number) : List Char → Token × List Char
  | '.' :: s =>
    if (digits s).isEmpty then (.brokenNumber s.isEmpty, s)
    else exponentPart { n with fraction := digits s } (afterDigits s)
  | s => exponentPart n s

/-- A number from its first digit `c` on; a zero in front stands alone. -/
def wholePart (negative : Bool) (c : Char) (s : List Char) : Token × List Char :=
  if c = '0' then
    if (digits s).isEmpty then fractionPart ⟨negative, [0], [], false, []⟩ s
    else (.brokenNumber false, s)
  else fractionPart ⟨negative, digits (c :: s), [], false, []⟩ (afterDigits s)

def negativeNumber : List Char → Token × List Char
  | [] => (.brokenNumber true, [])
  | c :: s => if c.isDigit then wholePart true c s else (.brokenNumber false, s)

/-- A name of which the first letter has been read. -/
def literal (t : Token) : List Char → List Char → Token × List Char
  | [], s => (t, s)
  | _ :: _, [] => (.brokenLiteral .truncated, [])
  | e :: es, c :: s => if c = e then literal t es s else (.brokenLiteral .malformed, s)

/-- The token that begins with `c`, and the text after it. -/
def scan (c : Char) (s : List Char) : Token × List Char :=
  match c with
  | '{' => (.openBrace, s)
  | '}' => (.closeBrace, s)
  | '[' => (.openBracket, s)
  | ']' => (.closeBracket, s)
  | ':' => (.colon, s)
  | ',' => (.comma, s)
  | '"' => (.string (Quoted.scan s).1, (Quoted.scan s).2)
  | '-' => negativeNumber s
  | 't' => literal (.bool true) ['r', 'u', 'e'] s
  | 'f' => literal (.bool false) ['a', 'l', 's', 'e'] s
  | 'n' => literal .null ['u', 'l', 'l'] s
  | c => if c.isDigit then wholePart false c s else (.stray, s)

/-- What is wrong with a token that begins a value where one of another kind is wanted. -/
def fault : Token → Fault
  | openBrace | openBracket | null | bool _ => .mismatch
  | number n => if n.outOfRange then .malformed else .mismatch
  | string q =>
    match q.text with
    | .ok _ => .mismatch
    | .error f => f
  | brokenLiteral f => f
  | brokenNumber atEnd => if atEnd then .truncated else .malformed
  | closeBrace | closeBracket | colon | comma | stray => .malformed

/-- What is wrong with a token that stands for a whole value, where any value will do. -/
def ignore : Token → Except Fault Unit
  | null | bool _ | number _ => .ok ()
  | string q =>
    match q.fault with
    | none => .ok ()
    | some f => .error f
  | brokenLiteral f => .error f
  | _ => .error .malformed

theorem length_exponent_le (n : Number) (negative : Bool) (s : List Char) :
    (exponent n negative s).2.length ≤ s.length := by
  unfold exponent
  split
  · exact Nat.le_refl _
  · exact length_afterDigits_le s

theorem length_exponentPart_le (n : Number) (s : List Char) :
    (exponentPart n s).2.length ≤ s.length := by
  fun_cases exponentPart n s
  case case7 => exact Nat.le_refl _
  all_goals
    refine Nat.le_trans (length_exponent_le _ _ _) ?_
    simp only [List.length_cons]
    omega

theorem length_fractionPart_le (n : Number) (s : List Char) :
    (fractionPart n s).2.length ≤ s.length := by
  fun_cases fractionPart n s
  · simp
  · refine Nat.le_trans (length_exponentPart_le _ _) (Nat.le_trans (length_afterDigits_le _) ?_)
    simp
  · exact length_exponentPart_le _ _

theorem length_wholePart_le (negative : Bool) (c : Char) (s : List Char) :
    (wholePart negative c s).2.length ≤ s.length := by
  unfold wholePart
  split
  · split
    · exact length_fractionPart_le _ _
    · exact Nat.le_refl _
  · exact Nat.le_trans (length_fractionPart_le _ _) (length_afterDigits_le _)

theorem length_negativeNumber_le (s : List Char) : (negativeNumber s).2.length ≤ s.length := by
  fun_cases negativeNumber s
  · exact Nat.le_refl _
  · exact Nat.le_succ_of_le (length_wholePart_le _ _ _)
  · simp

theorem length_literal_le (t : Token) (es s : List Char) :
    (literal t es s).2.length ≤ s.length := by
  fun_induction literal t es s with
  | case1 | case2 => exact Nat.le_refl _
  | case3 e es s ih => exact Nat.le_succ_of_le ih
  | case4 => exact Nat.le_succ _

theorem length_scan_le (c : Char) (s : List Char) : (scan c s).2.length ≤ s.length := by
  fun_cases scan c s
  case case7 => exact Quoted.length_scan_le s
  case case8 => exact length_negativeNumber_le s
  case case9 => exact length_literal_le _ _ s
  case case10 => exact length_literal_le _ _ s
  case case11 => exact length_literal_le _ _ s
  case case12 => exact length_wholePart_le _ _ s
  all_goals exact Nat.le_refl _

end Token

def isBlank (c : Char) : Bool := c == ' ' || c == '\n' || c == '\t' || c == '\r'

def tokens : List Char → List Token
  | [] => []
  | c :: s => if isBlank c then tokens s else (Token.scan c s).1 :: tokens (Token.scan c s).2
termination_by s => s.length
decreasing_by
  · simp
  · exact Nat.lt_succ_of_le (Token.length_scan_le c s)

end Multicycle.Json
