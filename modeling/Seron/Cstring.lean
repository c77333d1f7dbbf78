import Seron.Failure
import Seron.Lexer

/-! # Arrays of characters

The copies that the compiler makes of a name: `strncpy` from one array of bytes into another, and
what a function of the C library reads there. -/

namespace Seron

/-- `strncpy(dst, src, n)`: as many characters as fit, and NULs if there are fewer. -/
def strncpyInto (dst src : List UInt8) (n : Nat) : List UInt8 :=
  let chars := (src.takeWhile (· ≠ 0)).take n
  chars ++ (List.replicate (n - chars.length) 0 ++ dst.drop n)

/-- Characters that are not NUL are read with what follows them. -/
theorem takeWhile_nonzero {name : List UInt8} (hnul : 0 ∉ name) (rest : List UInt8) :
    (name ++ rest).takeWhile (· ≠ 0) = name ++ rest.takeWhile (· ≠ 0) := by
  apply List.takeWhile_append_of_pos
  intro c hc
  have hne : c ≠ 0 := fun h => hnul (h ▸ hc)
  simpa using hne

/-- A string is read up to its NUL, which an array need not hold. -/
def readString (array : List UInt8) : Except Failure (List UInt8) :=
  if 0 ∈ array then .ok (array.takeWhile (· ≠ 0)) else .error (.undefined "read behind an array")

/-- An array after the initializer `{ 0 }`. -/
def zeros (size : Nat) : List UInt8 := List.replicate size 0

/-- `value` of a `Token`, from `tokenize_ident`. -/
def tokenValue (start : List UInt8) (len : Nat) : List UInt8 :=
  strncpyInto (zeros bufsiz) start len

/-- `ident` of a `Param`, from `rule_util_param`. -/
def paramIdent (value : List UInt8) : List UInt8 :=
  strncpyInto (zeros (maxIdentLen + 1)) value (maxIdentLen + 1 - 1)

/-- `object_name` of a `Type`, from `rule_util_type`. -/
def typeObjectName (value : List UInt8) : List UInt8 :=
  strncpyInto (zeros maxIdentLen) value (maxIdentLen - 1)

/-- `key` of a `HashtableEntry`, from `new_entry`. -/
def entryKey (key : List UInt8) : List UInt8 := strncpyInto (zeros maxIdentLen) key maxIdentLen

end Seron
