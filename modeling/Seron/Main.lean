import Seron.Codegen.Emit
import Seron.Expand
import Seron.Parser.Rules

/-! # The driver

`main.c`: the way of a source through the passes. -/

namespace Seron

/-- Why no assembly is written for a source. -/
inductive Stop where
  /-- The parser printed its diagnostics and exited. -/
  | rejected (diags : List Diagnostic)
  | failure (e : Failure)
  deriving DecidableEq, Repr

/-- The tree that `parse` returns. -/
def parseRoot (fuel : Nat) (garbage : List Nat) (toks : List Token) : Except Stop AstNode :=
  match parse fuel garbage toks with
  | .ok root _ => .ok root
  | .exit diags => .error (.rejected diags)
  | .panic message => .error (.failure (.panic message))
  | .undefined what => .error (.failure (.undefined what))
  | .jump _ _ | .fuel => .error (.failure .fuel)

/-- What `main` does with the tree of a source, up to the lines that `codegen` writes. -/
def compileRoot (root : AstNode) : Except Failure (List Instr × List DataLine) := do
  let root ← expandAst root
  let (root, st) ← symboltableBuild root
  codegen st.tables root

/-- The assembly for the tokens of a source. -/
def compile (fuel : Nat) (garbage : List Nat) (toks : List Token) :
    Except Stop (List Instr × List DataLine) := do
  let root ← parseRoot fuel garbage toks
  (compileRoot root).mapError .failure

end Seron
