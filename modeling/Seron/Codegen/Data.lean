import Seron.Codegen.Emit
import Seron.Lexer

/-! # The data buffer

How `gen_write_data` turns the lines of the data section into bytes. -/

namespace Seron

/-- The size of the array `buf` of `gen_write` and `gen_write_data`. -/
def genBufLen : Nat := 1024

/-- The line as its format string gives it. -/
def DataLine.format : DataLine → List UInt8
  | .label n => bytes s!"string_{n}:"
  | .db contents => bytes "db \"" ++ (bytes contents ++ bytes "\", 0")

/-- `vsnprintf` leaves room for a NUL in the array, and `strcat` adds a newline in front of it. -/
def genWriteDataBytes (bufData : List UInt8) (line : DataLine) : Except Failure (List UInt8) :=
  let buf := line.format.take (genBufLen - 1)
  if buf.length + 1 < genBufLen then .ok (bufData ++ (buf ++ bytes "\n"))
  else .error (.undefined "strcat behind the end of buf")

/-- The data buffer after all lines. -/
def dataBytes (lines : List DataLine) : Except Failure (List UInt8) :=
  lines.foldlM genWriteDataBytes []

end Seron
