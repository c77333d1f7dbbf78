import Mathlib.Algebra.Group.Int.Defs
import Seron.Failure
import Seron.Lexer

/-! # Locations of tokens

`get_token_location` of `lexer.c`. Its counters are of type `int`. -/

namespace Seron

/-- A string in memory: the bytes up to its NUL. No object is as large as half of the memory. -/
structure Source where
  chars : List UInt8
  nonzero : 0 ∉ chars
  fits : chars.length < 2 ^ 63

/-- `src[idx]`, which is the NUL at the end of the bytes. -/
def Source.read (src : Source) (idx : Nat) : Except Failure UInt8 :=
  match (src.chars ++ [0])[idx]? with
  | some c => .ok c
  | none => .error (.undefined "read behind the source")

/-- `'\n'` -/
def newline : UInt8 := '\n'.toUInt8

structure TokenLocation where
  line : Int
  column : Int
  /-- The offset at which the line of the token starts. -/
  start : Int
  deriving DecidableEq, Repr

/-- `INT_MAX` -/
def intMax : Int := 2 ^ 31 - 1

/-- `n++` for an `int`. -/
def increment (n : Int) : Except Failure Int :=
  if n < intMax then .ok (n + 1) else .error (.undefined "signed overflow")

/-- A `size_t` stored in an `int`. -/
def intOfSize (n : Nat) : Int := (BitVec.ofNat 32 n).toInt

/-- The loop over the bytes from offset `i` on. -/
def getTokenLocation.loop (position : Nat) :
    List UInt8 → Nat → TokenLocation → Except Failure TokenLocation
  | [], _, loc => .ok loc
  | c :: src, i, loc =>
    if i = position then .ok loc
    else do
      let column ← increment loc.column
      if c = newline then
        let line ← increment loc.line
        getTokenLocation.loop position src (i + 1)
          { line, column := 1, start := intOfSize (i + 1) }
      else getTokenLocation.loop position src (i + 1) { loc with column }

def getTokenLocation (tok : Token) (src : Source) : Except Failure TokenLocation :=
  getTokenLocation.loop tok.position src.chars 0 { line := 1, column := 1, start := 0 }

end Seron
