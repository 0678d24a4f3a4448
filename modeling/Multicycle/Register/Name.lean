import Multicycle.Text

/-! Names of the registers. -/
namespace Multicycle.Register

def count : Nat := 32

/-- The names of the calling convention, by register number. -/
def names : List String :=
  ["zero", "ra", "sp", "gp", "tp", "t0", "t1", "t2", "s0", "s1", "a0", "a1", "a2", "a3", "a4",
    "a5", "a6", "a7", "s2", "s3", "s4", "s5", "s6", "s7", "s8", "s9", "s10", "s11", "t3", "t4",
    "t5", "t6"]

def name (i : Nat) : String := names[i]?.getD "?"

theorem name_mem (i : Nat) : name i ∈ "?" :: names := by
  unfold name
  cases h : names[i]? with
  | none => exact List.mem_cons_self
  | some s => exact List.mem_cons_of_mem _ (List.mem_of_getElem? h)

/-- The number `n` with the digit `c` behind it, as long as it has 64 bits. -/
def appendDigit? (n : Nat) (c : Char) : Option Nat :=
  if c.isDigit && 10 * n + Text.digitValue c < UInt64.size then some (10 * n + Text.digitValue c)
  else none

/-- The value of a non-empty run of decimal digits, read from the first one on. -/
def decimal? (digits : List Char) : Option Nat :=
  if digits.isEmpty then none else digits.foldlM appendDigit? 0

/-- A register number, which may have one plus sign in front. -/
def number? : List Char → Option Nat
  | '+' :: digits => (decimal? digits).filter (· < count)
  | digits => (decimal? digits).filter (· < count)

/-- What a trimmed lower-case spelling stands for: `x` and a number, a name, or `fp`. -/
def lookup? : List Char → Option Nat
  | 'x' :: digits => number? digits
  | ['f', 'p'] => some 8
  | spelling => names.findIdx? (·.toList == spelling)

/-- The number of the register that `text` spells, in any case and with blanks around it. -/
def index? (text : String) : Option Nat := lookup? ((Text.trim text.toList).map Char.toLower)

end Multicycle.Register
