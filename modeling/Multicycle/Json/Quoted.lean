import Multicycle.Json.Number

/-! JSON strings: what stands between the quotes, and the text it means. -/
namespace Multicycle.Json

/-- A character, or a UTF-16 unit written in hexadecimal. -/
inductive Piece where
  | plain (c : Char)
  | unit (u : Nat)
  deriving DecidableEq, Repr

/-- The pieces of a string, up to its closing quote or to a fault. -/
structure Quoted where
  pieces : List Piece
  fault : Option Fault
  deriving DecidableEq, Repr

namespace Quoted

/-- What a letter after a backslash stands for. -/
def escaped? : Char → Option Char
  | '"' => some '"'
  | '\\' => some '\\'
  | '/' => some '/'
  | 'b' => some '\x08'
  | 'f' => some '\x0c'
  | 'n' => some '\n'
  | 'r' => some '\r'
  | 't' => some '\t'
  | _ => none

/-- Four digits are four bytes, so a text with fewer bytes left ends too early. -/
def digitsFault (s : List Char) : Fault :=
  if (String.ofList (s.take 4)).utf8ByteSize < 4 then .truncated else .malformed

def push (p : Piece) (r : Quoted × List Char) : Quoted × List Char :=
  ({ r.1 with pieces := p :: r.1.pieces }, r.2)

/-- A string from behind its opening quote, and the text after it. -/
def scan : List Char → Quoted × List Char
  | [] => (⟨[], some .truncated⟩, [])
  | '"' :: s => (⟨[], none⟩, s)
  | '\\' :: 'u' :: a :: b :: c :: d :: s =>
    match Text.ofHex? [a, b, c, d] with
    | some u => push (.unit u) (scan s)
    | none => (⟨[], some .malformed⟩, s)
  | '\\' :: 'u' :: s => (⟨[], some (digitsFault s)⟩, s)
  | ['\\'] => (⟨[], some .truncated⟩, [])
  | '\\' :: c :: s =>
    match escaped? c with
    | some c => push (.plain c) (scan s)
    | none => (⟨[], some .malformed⟩, s)
  | c :: s => if c.toNat < 0x20 then (⟨[], some .malformed⟩, s) else push (.plain c) (scan s)

theorem length_scan_le (s : List Char) : (scan s).2.length ≤ s.length := by
  fun_induction scan s <;> simp_all [push] <;> omega

def isLeading (u : Nat) : Bool := 0xD800 ≤ u && u ≤ 0xDBFF

def isTrailing (u : Nat) : Bool := 0xDC00 ≤ u && u ≤ 0xDFFF

/-- The text of some pieces and what ends them; a surrogate means something only in a pair. -/
def decode (fault : Option Fault) : List Piece → Except Fault (List Char)
  | [] => match fault with
    | none => .ok []
    | some f => .error f
  | .plain c :: ps => (decode fault ps).map (c :: ·)
  | [.unit u] =>
    if isTrailing u then .error .malformed
    else if isLeading u then .error (if fault = some .truncated then .truncated else .malformed)
    else (decode fault []).map (Char.ofNat u :: ·)
  | .unit u :: .plain c :: ps =>
    if isTrailing u || isLeading u then .error .malformed
    else (decode fault (.plain c :: ps)).map (Char.ofNat u :: ·)
  | .unit u :: .unit v :: ps =>
    if isTrailing u then .error .malformed
    else if isLeading u then
      if isTrailing v then
        (decode fault ps).map (Char.ofNat (0x10000 + (u - 0xD800) * 0x400 + (v - 0xDC00)) :: ·)
      else .error .malformed
    else (decode fault (.unit v :: ps)).map (Char.ofNat u :: ·)

def text (q : Quoted) : Except Fault (List Char) := decode q.fault q.pieces

end Quoted

end Multicycle.Json
