import Multicycle.Basic

/-! Fields at fixed places of an instruction word. -/
namespace Multicycle

abbrev Instruction := Word

namespace Instruction

def opcodeBits : Nat := 7
def registerBits : Nat := 5
def funct3Bits : Nat := 3

/-- A number of `width` bits, the lowest of them bit `low` of the word. -/
def field (w : Instruction) (low width : Nat) : Nat := (w.extractLsb' low width).toNat

def opcode (w : Instruction) : Nat := w.field 0 opcodeBits

def rd (w : Instruction) : Nat := w.field 7 registerBits

def funct3 (w : Instruction) : Nat := w.field 12 funct3Bits

def rs1 (w : Instruction) : Nat := w.field 15 registerBits

def rs2 (w : Instruction) : Nat := w.field 20 registerBits

def funct7 (w : Instruction) : Nat := w.field 25 7

def bit (w : Instruction) (i : Nat) : Bool := w.getLsbD i

/-- All bits, most significant first. -/
def bits (w : Instruction) : List Bool := (List.range 32).reverse.map w.bit

theorem rd_lt (w : Instruction) : w.rd < 32 := BitVec.isLt _

theorem rs1_lt (w : Instruction) : w.rs1 < 32 := BitVec.isLt _

theorem rs2_lt (w : Instruction) : w.rs2 < 32 := BitVec.isLt _

theorem funct3_lt (w : Instruction) : w.funct3 < 8 := BitVec.isLt _

end Instruction

end Multicycle
