import Multicycle.Text

/-! JSON numbers by their digits, and which of them are naturals of 64 bits. -/
namespace Multicycle.Json

/-- What is wrong with a document, at the first place where something is. -/
inductive Fault where
  | truncated
  | malformed
  /-- The text is JSON so far, of a kind that has no place here. -/
  | mismatch
  deriving DecidableEq, Repr

/-- An empty fraction or exponent is one that is not written. -/
structure Number where
  negative : Bool
  whole : List Nat
  fraction : List Nat := []
  exponentNegative : Bool := false
  exponent : List Nat := []
  deriving DecidableEq, Repr

namespace Number

def fits (significand digit : Nat) : Bool := 10 * significand + digit < UInt64.size

/-- The significand with the digits that fit, and how many do not. -/
def takeWhole : Nat → List Nat → Nat × Nat
  | s, [] => (s, 0)
  | s, d :: ds => if fits s d then takeWhole (10 * s + d) ds else (s, ds.length + 1)

/-- The significand with the digits that fit, and how many those are. -/
def takeFraction : Nat → List Nat → Nat × Nat
  | s, [] => (s, 0)
  | s, d :: ds =>
    if fits s d then
      let (s, n) := takeFraction (10 * s + d) ds
      (s, n + 1)
    else (s, 0)

/-- The significand, and the power of ten that it counts. -/
def scaled (n : Number) : Nat × Int :=
  let (s, dropped) := takeWhole 0 n.whole
  let (s, taken) := takeFraction s n.fraction
  let e : Int := Text.ofDigits 10 n.exponent
  (s, (dropped : Int) - taken + if n.exponentNegative then -e else e)

/-- Whether `s` times ten to the power `e`, both as binary64 values, is beyond the finite ones. -/
def overflows (s : Nat) (e : Int) : Bool :=
  if 308 < e then s != 0
  else 0 < e && (s.toUInt64.toFloat * Float.ofScientific 1 false e.toNat).isInf

/-- Written exponents are bounded by themselves, before they are put together with the digits. -/
def maxExponent : Nat := 0x7fffffff

def outOfRange (n : Number) : Bool :=
  let (s, e) := n.scaled
  if maxExponent < Text.ofDigits 10 n.exponent then !n.exponentNegative && s != 0 else overflows s e

/-- The value, if it is written as a natural of 64 bits. -/
def natural (n : Number) : Except Fault Nat :=
  if n.outOfRange then .error .malformed
  else if n.negative || !n.fraction.isEmpty || !n.exponent.isEmpty ||
      UInt64.size ≤ Text.ofDigits 10 n.whole then .error .mismatch
  else .ok (Text.ofDigits 10 n.whole)

end Number

end Multicycle.Json
