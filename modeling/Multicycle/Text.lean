/-! Texts: blanks, digits, and values with a fixed number of decimal places. -/
namespace Multicycle.Text

/-- Inclusive ranges of the code points with the property White_Space. -/
def blankRanges : List (Nat × Nat) :=
  [(0x9, 0xD), (0x20, 0x20), (0x85, 0x85), (0xA0, 0xA0), (0x1680, 0x1680), (0x2000, 0x200A),
    (0x2028, 0x2029), (0x202F, 0x202F), (0x205F, 0x205F), (0x3000, 0x3000)]

def isBlank (c : Char) : Bool :=
  blankRanges.any fun (first, last) => first ≤ c.toNat && c.toNat ≤ last

/-- Blanks taken off both ends. -/
def trim (s : List Char) : List Char :=
  ((s.dropWhile isBlank).reverse.dropWhile isBlank).reverse

/-- The number with these digits in `base`, most significant first. -/
def ofDigits (base : Nat) (digits : List Nat) : Nat := digits.foldl (fun n d => base * n + d) 0

def digitValue (c : Char) : Nat := c.toNat - '0'.toNat

/-- Digits above nine are lower-case letters. -/
def hexDigit (d : Nat) : Char :=
  if d < 10 then Char.ofNat ('0'.toNat + d) else Char.ofNat ('a'.toNat + (d - 10))

def hexValue? (c : Char) : Option Nat :=
  if c.isDigit then some (digitValue c)
  else if 'a' ≤ c ∧ c ≤ 'f' then some (c.toNat - 'a'.toNat + 10)
  else if 'A' ≤ c ∧ c ≤ 'F' then some (c.toNat - 'A'.toNat + 10)
  else none

/-- The number that a run of base-16 digits of either case stands for. -/
def ofHex? (s : List Char) : Option Nat := (s.mapM hexValue?).map (ofDigits 16)

/-- The last `width` base-16 digits of `n`, most significant first. -/
def hexDigits : Nat → Nat → List Char
  | 0, _ => []
  | width + 1, n => hexDigits width (n / 16) ++ [hexDigit (n % 16)]

@[simp] theorem length_hexDigits (width n : Nat) : (hexDigits width n).length = width := by
  induction width generalizing n with
  | zero => rfl
  | succ width ih => simp [hexDigits, ih]

def hexWord (w : BitVec 32) : List Char := hexDigits 8 w.toNat

theorem length_hexWord (w : BitVec 32) : (hexWord w).length = 8 := length_hexDigits 8 w.toNat

/-- The digits of `n` in `base`, with zeros in front up to `width`. -/
def padded (base width n : Nat) : List Char := (Nat.toDigits base n).leftpad width '0'

/-- A word as it stands in messages. -/
def word0x (w : BitVec 32) : String := "0x" ++ String.ofList (hexWord w)

/-- A field value in binary as it stands in messages. -/
def binary0b (width n : Nat) : String := "0b" ++ String.ofList (padded 2 width n)

/-- The whole number nearest to `num / den`; a tie goes to the even one. -/
def roundHalfEven (num den : Nat) : Nat :=
  let q := num / den
  let twice := 2 * (num % den)
  if twice < den ∨ (twice = den ∧ q % 2 = 0) then q else q + 1

/-- A fraction that equals a finite `x`, sign apart, from the fields of its encoding. -/
def fraction (x : Float) : Nat × Nat :=
  let bits := x.toBits.toBitVec
  let exponent := (bits.extractLsb' 52 11).toNat
  let significand := (bits.extractLsb' 0 52).toNat + if exponent = 0 then 0 else 1 <<< 52
  let scale := max exponent 1
  (significand <<< (scale - 1075), 1 <<< (1075 - scale))

/-- `x` rounded to `places` decimals. -/
def fixed (places : Nat) (x : Float) : String :=
  let (num, den) := fraction x
  let unit := Nat.pow 10 places
  let n := roundHalfEven (num * unit) den
  toString (n / unit) ++ "." ++ String.ofList (padded 10 places (n % unit))

end Multicycle.Text
