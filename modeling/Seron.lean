import Seron.Lexer
import Seron.Expand
import Seron.Symboltable
import Seron.Codegen.Emit
import Seron.Machine
import Seron.Parser.Rules
import Seron.Theory.Ebnf
import Seron.Verify.AbsentTypes
import Seron.Verify.Alignment
import Seron.Verify.Arith
import Seron.Verify.Arrays
import Seron.Verify.Assignment
import Seron.Verify.Associations
import Seron.Verify.Blocks
import Seron.Verify.Buffers
import Seron.Verify.CallTypes
import Seron.Verify.Calls
import Seron.Verify.Collecting
import Seron.Verify.Comparisons
import Seron.Verify.Desugaring
import Seron.Verify.Division
import Seron.Verify.Excerpts
import Seron.Verify.Frame
import Seron.Verify.Globals
import Seron.Verify.Grammar
import Seron.Verify.Hygiene
import Seron.Verify.Identifiers
import Seron.Verify.JumpTargets
import Seron.Verify.Keywords
import Seron.Verify.Limits
import Seron.Verify.Logic
import Seron.Verify.Lowering
import Seron.Verify.Mirror
import Seron.Verify.Numbers
import Seron.Verify.Order
import Seron.Verify.Prologue
import Seron.Verify.RoundTrip
import Seron.Verify.Scoping
import Seron.Verify.Strings
import Seron.Verify.Termination
import Seron.Verify.Whitespace
import Seron.Image
import Seron.Verify.Programs
import Seron.Verify.Places
import Seron.Verify.Separate
import Seron.Verify.Diagnosis
import Seron.Verify.Acceptance
