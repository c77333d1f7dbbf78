import Seron.Ast

/-! # Parser state and error recovery

The first half of `parser.c`: the state, the primitives on the current token, and panic mode.

A rule is a function of the parser state. It may return, exit, or leave through `longjmp`: the
outcome `jump` carries the state in which the jump was made and passes through every caller
until the activation whose `setjmp` filled the buffer takes it. -/

namespace Seron

/-- What is printed to stderr, with the token it points at. -/
structure Diagnostic where
  token : Option Token
  message : String
  deriving DecidableEq, Repr

inductive ParserContext where
  | stmt | decl
  deriving DecidableEq, Repr

/-- The target of a `longjmp`. Activations of `rule_stmt_block` are numbered in the order of
their calls; `rule_program` has a single one. -/
inductive JumpTarget where
  | stmt (activation : Nat)
  | decl
  deriving DecidableEq, Repr

structure Parser where
  /-- The current token and those the lexer has yet to deliver; then it repeats `TOK_EOF`. -/
  toks : List Token
  ctx : ParserContext := .stmt
  errcount : Nat := 0
  diags : List Diagnostic := []
  /-- The activation whose `setjmp` last filled `ctx_stmt`. -/
  ctxStmt : Option Nat := none
  /-- Whether `ctx_decl` has been filled. -/
  ctxDecl : Bool := false
  activations : Nat := 0
  /-- What the counter of each further `Table` from `arena_alloc` holds before it is written. -/
  garbage : List Nat := []
  deriving DecidableEq, Repr

inductive Outcome (α : Type) where
  | ok (a : α) (p : Parser)
  | jump (target : JumpTarget) (p : Parser)
  | exit (diags : List Diagnostic)
  | panic (message : String)
  | undefined (what : String)
  | fuel

def P (α : Type) : Type := Parser → Outcome α

namespace P

variable {α β : Type}

def bind (x : P α) (f : α → P β) : P β := fun p =>
  match x p with
  | .ok a p => f a p
  | .jump target p => .jump target p
  | .exit diags => .exit diags
  | .panic message => .panic message
  | .undefined what => .undefined what
  | .fuel => .fuel

instance : Monad P where
  pure a := fun p => .ok a p
  bind := bind

theorem pure_apply (a : α) (p : Parser) : (pure a : P α) p = .ok a p := rfl

theorem bind_apply_ok {x : P α} {f : α → P β} {p q : Parser} {a : α} (h : x p = .ok a q) :
    (x >>= f) p = f a q := by
  show bind x f p = f a q
  simp only [bind, h]

/-- A sequence returns iff both parts return, one after the other. -/
theorem bind_ok {x : P α} {f : α → P β} {p r : Parser} {b : β} :
    (x >>= f) p = .ok b r ↔ ∃ a q, x p = .ok a q ∧ f a q = .ok b r := by
  constructor
  · intro h
    cases hx : x p with
    | ok a q => exact ⟨a, q, rfl, by rwa [bind_apply_ok hx] at h⟩
    | _ => simp [Bind.bind, bind, hx] at h
  · rintro ⟨a, q, hx, hf⟩
    rw [bind_apply_ok hx, hf]

theorem pure_ok {a b : α} {p q : Parser} :
    (pure a : P α) p = .ok b q ↔ a = b ∧ p = q := by
  rw [pure_apply, Outcome.ok.injEq]

end P

/-! ## The current token -/

def parserPeek (p : Parser) : Token := p.toks.headD .eof

/-- The end of the list stands for the argument `TOK_SENTINEL`, which is compared as well. -/
def parserMatchTokensVa (p : Parser) : List TokenKind → Bool
  | [] => (parserPeek p).kind == .sentinel
  | kind :: kinds => (parserPeek p).kind == kind || parserMatchTokensVa p kinds

def parserMatchTokens (kinds : List TokenKind) : P Bool := fun p =>
  .ok (parserMatchTokensVa p kinds) p

def parserMatchToken (kind : TokenKind) : P Bool := parserMatchTokens [kind]

def parserIsAtEnd : P Bool := parserMatchToken .eof

/-- The current token as a value. -/
def parserToken : P Token := fun p => .ok (parserPeek p) p

def diagnosticLoc (token : Token) (message : String) : P Unit := fun p =>
  .ok () { p with diags := p.diags ++ [⟨some token, message⟩] }

/-- `diagnostic` followed by `exit(EXIT_FAILURE)`. -/
def diagnosticExit {α : Type} (token : Option Token) (message : String) : P α := fun p =>
  .exit (p.diags ++ [⟨token, message⟩])

/-- Moves one token ahead, returning the token before. -/
def parserAdvance : P Token := do
  if ← parserIsAtEnd then
    diagnosticExit none "Unexpected end of file. (please finish your code)"
  else fun p => .ok (parserPeek p) { p with toks := p.toks.tail }

/-! ## Panic mode -/

/-- The loop of the two recovery functions: advance until the current token is one of `kinds`.
It runs along the remaining tokens, since advancing past the last one exits. -/
def parserSkipTo (kinds : List TokenKind) : List Token → P Unit
  | [] => do
    if ← parserMatchTokens kinds then pure ()
    else discard parserAdvance
  | _ :: toks => do
    if ← parserMatchTokens kinds then pure ()
    else
      discard parserAdvance
      parserSkipTo kinds toks

/-- Moves behind the next semicolon. -/
def parserRecoverStmt : P Unit := do
  fun p => parserSkipTo [.semicolon] p.toks p
  discard parserAdvance

/-- Moves to the next declaration. -/
def parserRecoverDecl : P Unit := fun p =>
  parserSkipTo [.kwProc, .kwTable] p.toks p

def longjmpStmt {α : Type} : P α := fun p =>
  match p.ctxStmt with
  | some activation => .jump (.stmt activation) p
  | none => .undefined "longjmp to a buffer no setjmp filled"

def longjmpDecl {α : Type} : P α := fun p =>
  if p.ctxDecl then .jump .decl p
  else .undefined "longjmp to a buffer no setjmp filled"

/-- Jumps to the next valid token in the current context. -/
def parserSync {α : Type} : P α := fun p =>
  let p := { p with errcount := p.errcount + 1 }
  match p.ctx with
  | .decl => (do parserRecoverDecl; longjmpDecl : P α) p
  | .stmt => (do parserRecoverStmt; longjmpStmt : P α) p

def parserExpectToken (kind : TokenKind) : P Unit := do
  if ← parserMatchToken kind then pure ()
  else
    diagnosticLoc (← parserToken) s!"Expected `{stringifyTokenkind kind}`"
    parserSync

def parserTokenIsType : P Bool :=
  parserMatchTokens [.kwTypeInt, .kwTypeChar, .kwTypeLong, .kwTypeVoid, .asterisk]

/-- Advances, enforcing the kind of the current token. -/
def parserConsume (kind : TokenKind) : P Token := do
  if ← parserIsAtEnd then parserAdvance
  else
    parserExpectToken kind
    parserAdvance

/-- `if (parser_match_token(p, kind)) parser_consume(p, kind);` -/
def parserSkip (kind : TokenKind) : P Unit := do
  if ← parserMatchToken kind then discard (parserConsume kind)
  else pure ()

end Seron
