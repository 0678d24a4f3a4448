import Multicycle.Register.File
import Multicycle.Text

/-! The register file as a printed table. -/
namespace Multicycle.Register

def unwritten : List Char := List.replicate 8 'x'

def valueColumn : Option Word → List Char
  | some v => Text.hexWord v
  | none => unwritten

def row (i : Nat) (v : Option Word) : List Char :=
  "| x".toList ++ Text.padded 10 2 i ++ " | ".toList ++ (name i).toList.rightpad 4 ' ' ++
    " | ".toList ++ valueColumn v ++ " |".toList

def header : List Char := "+-----Register File-----+".toList

def footer : List Char := "+-----------------------+".toList

/-- Rows between header and footer, a line end after each line but the last. -/
def table (rows : List (List Char)) : String :=
  String.ofList (List.intercalate ['\n'] (header :: rows ++ [footer]))

namespace File

def rows (f : File) : List (List Char) := f.bank.cells.toList.map fun c => row c.index c.value

def modifiedRows (f : File) : List (List Char) := f.modified.map fun i => row i (f.get? i)

def display (f : File) : String := table f.rows

def displayModified (f : File) : String := table f.modifiedRows

end File

end Multicycle.Register
