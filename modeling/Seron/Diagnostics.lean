import Seron.Location

/-! # Diagnostics

`diagnostic_loc` of `diagnostics.c`: what is printed for a token, with the line of the source it is
on. -/

namespace Seron

inductive DiagnosticKind where
  | error | warning | info
  deriving DecidableEq, Repr

/-- The text of `print_diag_tag`. -/
def printDiagTag : DiagnosticKind → String
  | .info => "INFO"
  | .warning => "WARNING"
  | .error => "ERROR"

/-- `NAME_MAX`, the size of `location_buf`. -/
def nameMax : Nat := 255

structure CompilerContext where
  src : Source
  filename : List UInt8

/-- A byte of the source on the terminal, bold and red if it is highlighted. -/
structure Shown where
  offset : Nat
  byte : UInt8
  highlighted : Bool
  deriving DecidableEq, Repr

/-- What goes to `stderr`, from the header to the carets. -/
structure Report where
  tag : String
  cause : String
  location : List UInt8
  line : List Shown
  /-- The number of spaces in front of the carets. -/
  indent : Nat
  carets : Nat
  deriving DecidableEq, Repr

/-- A value of type `size_t`. -/
def sizeOfInt (n : Int) : Nat := (n % 2 ^ 64).toNat

/-- The loop that prints the line, with `count` turns left from turn `i` on. -/
def showLine (src : Source) (tok : Token) (start : Int) :
    Nat → Nat → Except Failure (List Shown)
  | 0, _ => .ok []
  | count + 1, i => do
    let idx := sizeOfInt (i + start)
    let c ← src.read idx
    if c = newline then pure []
    else
      let highlighted := decide (sizeOfInt (idx - tok.position) < tok.len)
      let line ← showLine src tok start count (i + 1)
      pure ({ offset := idx, byte := c, highlighted } :: line)

def CompilerContext.diagnosticLoc (ctx : CompilerContext) (kind : DiagnosticKind) (tok : Token)
    (message : String) : Except Failure Report := do
  let loc ← getTokenLocation tok ctx.src
  let location := (ctx.filename ++ bytes s!":{loc.line}:{loc.column}").take (nameMax - 1)
  let line ← showLine ctx.src tok loc.start ctx.src.chars.length 0
  pure { tag := printDiagTag kind, cause := message, location, line
         indent := (loc.column - 1).toNat, carets := tok.len }

end Seron
