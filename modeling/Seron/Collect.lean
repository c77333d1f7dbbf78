import Seron.Location

/-! # Arrays of tokens

`get_tokencount`, `lexer_collect_tokens` and `lexer_print_tokens`: two passes over a source, one to
count its tokens and one to store them. -/

namespace Seron

/-- `malloc` of the C library: whether there is a block of some size. No object is as large as half
of the memory. -/
structure Malloc where
  room : Nat → Bool
  bounded {size : Nat} : room size = true → size < 2 ^ 63

/-- What the memory of a call holds on entry. -/
structure StackFrame where
  /-- The bytes of `tok.kind`. -/
  kind : BitVec 32
  /-- The bytes behind the array `buf` of `tokenize_number`. -/
  behind : List UInt8

/-- The value of an enumerator. -/
def TokenKind.toInt (kind : TokenKind) : BitVec 32 := BitVec.ofNat 32 kind.ctorIdx

/-- `sizeof(Token)` -/
def sizeofToken : Nat := 4 + bufsiz + 4 + 8 + 8 + 8

/-- `lexer_next`, which does not return after a diagnostic. -/
def lexerNextOrExit (lex : Lexer) : Except Failure (Token × Lexer) :=
  match lexerNext lex with
  | .ok tok lex => .ok (tok, lex)
  | .exit message _ => .error (.exit message)
  | .overread => .error (.undefined "read behind the source")

/-- `while (tok.kind != TOK_EOF)` with the bytes of `tok.kind` and the tokens so far. -/
def getTokencount.loop : Nat → BitVec 32 → Lexer → Nat → Except Failure Nat
  | 0, _, _, _ => .error .fuel
  | fuel + 1, kind, lex, tokencount =>
    if kind = TokenKind.eof.toInt then .ok tokencount
    else do
      let (tok, lex) ← lexerNextOrExit lex
      getTokencount.loop fuel tok.kind.toInt lex (tokencount + 1)

def getTokencount (fuel : Nat) (src : Source) (frame : StackFrame) : Except Failure Nat :=
  getTokencount.loop fuel frame.kind (lexerInit src.chars frame.behind) 0

namespace Source

/-- The second loop, with the tokens that have been stored in an array with room for `cap`. -/
def lexerCollectTokens.loop (cap : Nat) :
    Nat → BitVec 32 → Lexer → List Token → Except Failure (List Token)
  | 0, _, _, _ => .error .fuel
  | fuel + 1, kind, lex, tokens =>
    if kind = TokenKind.eof.toInt then .ok tokens
    else do
      let (tok, lex) ← lexerNextOrExit lex
      if tokens.length < cap then
        lexerCollectTokens.loop cap fuel tok.kind.toInt lex (tokens ++ [tok])
      else throw (.undefined "store behind the tokens")

/-- The number of tokens that fit the result of `malloc(count * sizeof(Token))`. It is not checked,
and NULL has room for nothing. -/
def tokenRoom (m : Malloc) (count : Nat) : Nat :=
  let size := count * sizeofToken % 2 ^ 64
  if m.room size then size / sizeofToken else 0

/-- The tokens that are stored in the array. -/
def lexerCollectTokens (m : Malloc) (fuel : Nat) (src : Source) (counting frame : StackFrame) :
    Except Failure (List Token) := do
  let count ← getTokencount fuel src counting
  lexerCollectTokens.loop (tokenRoom m count) fuel frame.kind (lexerInit src.chars frame.behind) []

/-- A line of `lexer_print_tokens`. -/
def tokenLine (tok : Token) (loc : TokenLocation) : String :=
  let value := if tok.value = "" then "" else s!"\x1b[90m({tok.value})\x1b[0m"
  s!"pos: {tok.position}, len: {tok.len}, line: {loc.line}, col: {loc.column} | " ++
    (stringifyTokenkind tok.kind ++ value)

/-- The loop over the array, up to the end of the file. -/
def lexerPrintTokens.loop (src : Source) : List Token → Except Failure (List String)
  | [] => .error (.undefined "read behind the tokens")
  | tok :: tokens => do
    let loc ← getTokenLocation tok src
    if tok.kind = .eof then pure [tokenLine tok loc]
    else
      let lines ← lexerPrintTokens.loop src tokens
      pure (tokenLine tok loc :: lines)

def lexerPrintTokens (m : Malloc) (fuel : Nat) (src : Source) (counting frame : StackFrame) :
    Except Failure (List String) := do
  let tokens ← lexerCollectTokens m fuel src counting frame
  lexerPrintTokens.loop src tokens

end Source

end Seron
