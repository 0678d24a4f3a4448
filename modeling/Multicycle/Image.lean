import Multicycle.Harvard

/-! Program images: text with one hexadecimal word a line. -/
namespace Multicycle.Image

inductive LoadFault where
  | missingFile
  | notText
  /-- Lines are counted from one. -/
  | invalidWord (line : Nat) (token : String)
  deriving DecidableEq, Repr

namespace LoadFault

def message : LoadFault → String
  | missingFile => "no such file"
  | notText => "not UTF-8 text"
  | invalidWord line token =>
    "line " ++ toString line ++ ": `" ++ token ++ "` is not a 32-bit hex word"

end LoadFault

/-- A carriage return before a line end belongs to it, and no line follows the last line end. -/
def lines : List Char → List (List Char)
  | [] => []
  | '\n' :: s => [] :: lines s
  | '\r' :: '\n' :: s => [] :: lines s
  | c :: s =>
    match lines s with
    | [] => [[c]]
    | l :: ls => (c :: l) :: ls

def stripComment : List Char → List Char
  | [] => []
  | '#' :: _ => []
  | '/' :: '/' :: _ => []
  | c :: s => c :: stripComment s

/-- The first run of non-blank characters before the comment. -/
def leadingToken (line : List Char) : List Char :=
  ((stripComment line).dropWhile Text.isBlank).takeWhile fun c => !Text.isBlank c

/-- One to eight digits. -/
def hexWord? (digits : List Char) : Option Word :=
  if digits.isEmpty || 8 < digits.length then none
  else (Text.ofHex? digits).map (BitVec.ofNat 32)

/-- A word, which may be marked as hexadecimal in front. -/
def word? : List Char → Option Word
  | '0' :: 'x' :: digits => hexWord? digits
  | '0' :: 'X' :: digits => hexWord? digits
  | digits => hexWord? digits

/-- The words of lines that are counted from `line`; lines with no token are passed over. -/
def readLines (line : Nat) : List (List Char) → Except LoadFault (List Word)
  | [] => .ok []
  | l :: ls =>
    if (leadingToken l).isEmpty then readLines (line + 1) ls
    else
      match word? (leadingToken l) with
      | some w => (readLines (line + 1) ls).map (w :: ·)
      | none => .error (.invalidWord line (String.ofList (leadingToken l)))

def parse (text : String) : Except LoadFault (List Word) := readLines 1 (lines text.toList)

/-- The words of an image file, given its bytes if it exists. -/
def parseFile (bytes : Option ByteArray) : Except LoadFault (List Word) :=
  match bytes with
  | none => .error .missingFile
  | some bytes =>
    match String.fromUTF8? bytes with
    | none => .error .notText
    | some text => parse text

end Multicycle.Image

namespace Multicycle.Harvard

def ofImage (text : String) (capacity : Option Nat) : Except Image.LoadFault Harvard :=
  (Image.parse text).map (ofProgram · capacity)

end Multicycle.Harvard
