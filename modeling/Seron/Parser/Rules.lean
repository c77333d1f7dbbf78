import Seron.Parser.State

/-! # The grammar rules

The rules of `parser.c` in the source's order; the comment above each rule of the source is
the docstring here. The source forward-declares the rules that others call before their
definition (`rule_expr`, `rule_stmt`, `rule_util_type`); here these calls, and the recursive
call of `rule_expr_assign`, go through a record of rules, and `rules` ties the knot. -/

namespace Seron

/-- The rules that are called recursively, and how often a loop may iterate. -/
structure Rules where
  fuel : Nat
  expr : P AstNode
  assign : P AstNode
  stmt : P (Option AstNode)
  type : P Ty

/-- `strncpy` into a zeroed array that has room for `n` characters and a NUL. -/
def strncpy (n : Nat) (s : String) : String := String.ofList (s.toList.take n)

def outOfFuel {α : Type} : P α := fun _ => .fuel

def typeFromTokenKeyword : TokenKind → Ty
  | .kwTypeInt => .int
  | .kwTypeLong => .long
  | .kwTypeChar => .char
  | .kwTypeVoid => .void
  | _ => .invalid

def literalFromToken : TokenKind → Option LiteralKind
  | .literalIdent => some .ident
  | .literalNumber => some .number
  | .literalString => some .string
  | _ => none

def binopFromToken : TokenKind → Option BinOpKind
  | .plus => some .add
  | .minus => some .sub
  | .slash => some .div
  | .asterisk => some .mul
  | .eq => some .eq
  | .neq => some .neq
  | .lt => some .lt
  | .ltEq => some .ltEq
  | .gt => some .gt
  | .gtEq => some .gtEq
  | .pipe => some .bitwiseOr
  | .ampersand => some .bitwiseAnd
  | .logOr => some .logOr
  | .logAnd => some .logAnd
  | _ => none

def unaryopFromToken : TokenKind → Option UnaryOpKind
  | .minus => some .minus
  | .bang => some .neg
  | .ampersand => some .addrof
  | .asterisk => some .deref
  | _ => none

/-- The four conversions above panic on any other token. -/
def orPanic {α : Type} : Option α → P α
  | some a => pure a
  | none => fun _ => .panic "unknown tokenkind"

/-! ## Lists, parameters and types -/

/-- The loop of `rule_util_arglist` and `rule_expr_array`, up to the closing token. -/
def exprListLoop (r : Rules) (close : TokenKind) : Nat → List AstNode → P (List AstNode)
  | 0, _ => outOfFuel
  | fuel + 1, items => do
    if ← parserMatchToken close then pure items
    else
      let item ← r.expr
      parserSkip .comma
      exprListLoop r close fuel (items ++ [item])

/-- `<arglist> ::= "(" ( <expr> ("," <expr>)* )? ")"` -/
def ruleUtilArglist (r : Rules) : P (List AstNode) := do
  discard (parserConsume .lparen)
  let args ← exprListLoop r .rparen r.fuel []
  discard (parserConsume .rparen)
  pure args

/-- `<param> ::= IDENTIFIER ":" <type>` -/
def ruleUtilParam (r : Rules) : P Param := do
  let tok ← parserConsume .literalIdent
  discard (parserConsume .colon)
  let type ← r.type
  pure { type, ident := strncpy maxIdentLen tok.value }

def ruleUtilParamlist.loop (r : Rules) : Nat → List Param → P (List Param)
  | 0, _ => outOfFuel
  | fuel + 1, params => do
    if ← parserMatchToken .rparen then pure params
    else
      let param ← ruleUtilParam r
      let params := params ++ [param]
      if params.length ≥ maxParamCount then
        diagnosticLoc (← parserToken)
          s!"Procedures may not have more than {maxParamCount} parameters!"
        parserSync
      else
        parserSkip .comma
        ruleUtilParamlist.loop r fuel params

/-- `<paramlist> ::= "(" (<param> ("," <param>)* )? ")"` -/
def ruleUtilParamlist (r : Rules) : P (List Param) := do
  discard (parserConsume .lparen)
  let params ← ruleUtilParamlist.loop r r.fuel []
  discard (parserConsume .rparen)
  pure params

/-- There is no check of the counter, so a store may lie behind the array. -/
def ruleUtilFieldlist.loop (r : Rules) : Nat → Table → P Table
  | 0, _ => outOfFuel
  | fuel + 1, table => do
    if ← parserMatchToken .rbrace then pure table
    else
      let field ← ruleUtilParam r
      if table.fieldCount ≥ maxParamCount then
        fun _ => .undefined "store behind the fields of a table"
      else
        parserSkip .comma
        ruleUtilFieldlist.loop r fuel
          { fields := table.fields ++ [field], fieldCount := table.fieldCount + 1 }

/-- `<fieldlist> ::= "{" (<param> ("," <param>)* )? "}"` -/
def ruleUtilFieldlist (r : Rules) (table : Table) : P Table := do
  discard (parserConsume .lbrace)
  let table ← ruleUtilFieldlist.loop r r.fuel table
  discard (parserConsume .rbrace)
  pure table

/-- `<util_proc> ::= "proc" IDENTIFIER? <paramlist> <type>?`

Returns the operator token, the name (if `named`, which is `out_ident != NULL`) and the type. -/
def ruleUtilProcType (r : Rules) (named : Bool) : P (Token × Option Token × Ty) := do
  let op ← parserConsume .kwProc
  let ident ← (if named then some <$> parserConsume .literalIdent else pure none)
  let params ← ruleUtilParamlist r
  let returntype ← r.type
  pure (op, ident, .procedure { params, returntype })

/-- ```
<type> ::=
       | "*" <type>
       | "int"
       | "void"
       | "char"
       | <proc-type>
``` -/
def ruleUtilType (r : Rules) : P Ty := do
  let tok ← parserToken
  if ← parserMatchToken .asterisk then
    discard parserAdvance
    let pointee ← r.type
    pure (.pointer (some pointee))
  else if ← parserMatchToken .kwProc then
    let (_, _, type) ← ruleUtilProcType r false
    pure type
  else if ← parserMatchToken .literalIdent then
    discard parserAdvance
    pure (.object (strncpy (maxIdentLen - 1) tok.value))
  else if ← parserTokenIsType then
    let tok ← parserAdvance
    pure (typeFromTokenKeyword tok.kind)
  else
    diagnosticLoc tok s!"Unknown type `{stringifyTokenkind tok.kind}`"
    parserSync

/-! ## Expressions -/

/-- `<grouping> ::= "(" <expression> ")"` -/
def ruleGrouping (r : Rules) : P AstNode := do
  discard (parserConsume .lparen)
  if ← parserMatchToken .rparen then
    diagnosticLoc (← parserToken) "Don't write functional code!"
    parserSync
  else
    let expr ← r.expr
    discard (parserConsume .rparen)
    pure (.grouping expr)

/-- ```
<primary> ::=
          | NUMBER
          | CHAR
          | IDENTIFIER
          | STRING
          | <grouping>
``` -/
def ruleExprPrimary (r : Rules) : P AstNode := do
  let tok ← parserToken
  if ← parserMatchTokens [.literalNumber, .literalIdent, .literalString] then
    let kind ← orPanic (literalFromToken tok.kind)
    discard parserAdvance
    pure (.literal tok kind)
  else if ← parserMatchToken .lparen then
    ruleGrouping r
  else
    diagnosticLoc tok
      s!"unexpected token `{stringifyTokenkind tok.kind}`, expected expression"
    parserSync

/-- `<call> ::= <primary> <arglist>`

The initialisers of the node are evaluated in the order in which they are written. -/
def ruleExprCall (r : Rules) : P AstNode := do
  let node ← ruleExprPrimary r
  if ← parserMatchToken .lparen then
    let op ← parserToken
    let args ← ruleUtilArglist r
    pure (.call op node args)
  else pure node

/-- `<index> ::= <call> "[" <expr> "]"` -/
def ruleExprIndex (r : Rules) : P AstNode := do
  let node ← ruleExprCall r
  if ← parserMatchToken .lbracket then
    let op ← parserConsume .lbracket
    let index ← r.expr
    discard (parserConsume .rbracket)
    pure (.index op node index)
  else pure node

/-- `<unary> ::= ( "&" | "*" | "!" | "-" ) <unary> | <index>` -/
def ruleExprUnary (r : Rules) : P AstNode := do
  if ← parserMatchTokens [.minus, .bang, .ampersand, .asterisk] then
    let op ← parserAdvance
    let kind ← orPanic (unaryopFromToken op.kind)
    let node ← ruleExprIndex r
    pure (.unaryop node op kind)
  else ruleExprIndex r

def templBinop.loop (rule : P AstNode) (kinds : List TokenKind) : Nat → AstNode → P AstNode
  | 0, _ => outOfFuel
  | fuel + 1, lhs => do
    if ← parserMatchTokens kinds then
      let op ← parserAdvance
      let rhs ← rule
      let kind ← orPanic (binopFromToken op.kind)
      templBinop.loop rule kinds fuel (.binop lhs rhs op kind)
    else pure lhs

/-- Template for a binop rule. -/
def templBinop (fuel : Nat) (rule : P AstNode) (kinds : List TokenKind) : P AstNode := do
  let lhs ← rule
  templBinop.loop rule kinds fuel lhs

/-- `<factor> ::= <unary> (( "/" | "*" ) <unary>)*` -/
def ruleExprFactor (r : Rules) : P AstNode :=
  templBinop r.fuel (ruleExprUnary r) [.slash, .asterisk]

/-- `<term> ::= <factor> (("+" | "-") <factor>)*` -/
def ruleExprTerm (r : Rules) : P AstNode :=
  templBinop r.fuel (ruleExprFactor r) [.plus, .minus]

/-- `<comparison> ::= <term> ((">" | ">=" | "<" | "<=") <term>)*` -/
def ruleExprComparison (r : Rules) : P AstNode :=
  templBinop r.fuel (ruleExprTerm r) [.lt, .ltEq, .gt, .gtEq]

/-- `<equality> ::= <comparison> (("!=" | "==") <comparison>)*` -/
def ruleExprEquality (r : Rules) : P AstNode :=
  templBinop r.fuel (ruleExprComparison r) [.eq, .neq]

/-- `<bitwise-and> ::= <equality> ("&" <equality>)*` -/
def ruleExprBitwiseAnd (r : Rules) : P AstNode :=
  templBinop r.fuel (ruleExprEquality r) [.ampersand]

/-- `<bitwise-or> ::= <bitwise-and> ("|" <bitwise-and>)*` -/
def ruleExprBitwiseOr (r : Rules) : P AstNode :=
  templBinop r.fuel (ruleExprBitwiseAnd r) [.pipe]

/-- `<log-and> ::= <bitwise-or> ("&&" <bitwise-or>)*` -/
def ruleExprLogAnd (r : Rules) : P AstNode :=
  templBinop r.fuel (ruleExprBitwiseOr r) [.logAnd]

/-- `<log-or> ::= <log-and> ("||" <log-and>)*` -/
def ruleExprLogOr (r : Rules) : P AstNode :=
  templBinop r.fuel (ruleExprLogAnd r) [.logOr]

/-- `<assign> ::= <log-or> "=" <assign> | <log-or>` -/
def ruleExprAssign (r : Rules) : P AstNode := do
  let expr ← ruleExprLogOr r
  if ← parserMatchToken .assign then
    let op ← parserAdvance
    let value ← r.assign
    pure (.assign op value expr)
  else pure expr

/-- `<array> ::= "[" (<expr> ("," <expr>)* )? "]" <type>` -/
def ruleExprArray (r : Rules) : P AstNode := do
  let op ← parserConsume .lbracket
  let values ← exprListLoop r .rbracket r.fuel []
  discard (parserConsume .rbracket)
  let type ← r.type
  pure (.array op values type 0)

/-- `<expression> ::= <assignment>` -/
def ruleExpr (r : Rules) : P AstNode := do
  if ← parserMatchToken .lbracket then ruleExprArray r else ruleExprAssign r

/-! ## Statements -/

/-- What is left out in front of a token of the given kind. -/
def unlessToken {α : Type} (kind : TokenKind) (x : P α) : P (Option α) := do
  if ← parserMatchToken kind then pure none else some <$> x

/-- `<exprstmt> ::= <expr>? ";"`, with no node for the empty statement. -/
def ruleExprstmt (r : Rules) : P (Option AstNode) := do
  let node ← unlessToken .semicolon r.expr
  discard (parserConsume .semicolon)
  pure node

/-- `<vardecl> ::= "let" IDENTIFIER ":" <type> ("=" <expression>)? ";"` -/
def ruleStmtVardecl (r : Rules) : P AstNode := do
  let op ← parserConsume .kwVardecl
  let ident ← parserConsume .literalIdent
  discard (parserConsume .colon)
  let type ← r.type
  let value ← unlessToken .semicolon do
    discard (parserConsume .assign)
    r.expr
  discard (parserConsume .semicolon)
  pure (.vardecl op ident value type 0)

/-- The loop of `rule_stmt_block` in its activation `me`. A jump to the buffer this activation
filled resumes behind `setjmp` with the statements collected so far. -/
def ruleStmtBlock.loop (r : Rules) (brace : Token) (me : Nat) :
    Nat → List AstNode → P (List AstNode)
  | 0, _ => outOfFuel
  | fuel + 1, stmts => fun p =>
    let p := { p with ctxStmt := some me }
    if parserMatchTokensVa p [.rbrace] then .ok stmts p
    else if parserMatchTokensVa p [.eof] then
      diagnosticExit (some brace) "Unmatching brace. did you forget the closing brace?" p
    else
      match r.stmt p with
      | .ok stmt p => ruleStmtBlock.loop r brace me fuel (stmts ++ stmt.toList) p
      | .jump (.stmt activation) p =>
        if activation = me then ruleStmtBlock.loop r brace me fuel stmts p
        else .jump (.stmt activation) p
      | .jump .decl p => .jump .decl p
      | .exit diags => .exit diags
      | .panic message => .panic message
      | .undefined what => .undefined what
      | .fuel => .fuel

/-- `<block> ::= "{" <statement>* "}"` -/
def ruleStmtBlock (r : Rules) : P AstNode := do
  let brace ← parserConsume .lbrace
  let me ← fun p => .ok p.activations { p with activations := p.activations + 1 }
  let stmts ← ruleStmtBlock.loop r brace me r.fuel []
  discard parserAdvance
  pure (.block stmts none)

/-- `<for> ::= "for" IDENTIFIER ":" <type> "=" <expr> "," <expr> "," <expr> <block>`

The member `vardecl` of the node is left NULL. -/
def ruleStmtFor (r : Rules) : P AstNode := do
  let op ← parserConsume .kwFor
  let ident ← parserConsume .literalIdent
  discard (parserConsume .colon)
  let type ← r.type
  discard (parserConsume .assign)
  let expr ← r.expr
  discard (parserConsume .comma)
  let cond ← r.expr
  discard (parserConsume .comma)
  let assign ← r.expr
  let body ← ruleStmtBlock r
  pure (.for_ op none cond assign body type ident expr)

/-- `<while> ::= "while" <expression> <block>` -/
def ruleStmtWhile (r : Rules) : P AstNode := do
  let op ← parserConsume .kwWhile
  let cond ← r.expr
  let body ← ruleStmtBlock r
  pure (.while_ op cond body)

/-- `("else" <block>)?` -/
def ruleStmtElse (r : Rules) : P (Option AstNode) := do
  if ← parserMatchToken .kwElse then
    discard parserAdvance
    some <$> ruleStmtBlock r
  else pure none

/-- `<if> ::= "if" <expression> <block> ("else" <block>)?` -/
def ruleStmtIf (r : Rules) : P AstNode := do
  let op ← parserConsume .kwIf
  let cond ← r.expr
  let then_ ← ruleStmtBlock r
  let else_ ← ruleStmtElse r
  pure (.if_ op cond then_ else_)

/-- `<return> ::= "return" <expression>? ";"` -/
def ruleStmtReturn (r : Rules) : P AstNode := do
  let op ← parserConsume .kwReturn
  let expr ← unlessToken .semicolon r.expr
  discard (parserConsume .semicolon)
  pure (.return_ op expr)

/-- ```
<statement> ::=
            | <block>
            | <vardecl>
            | <if>
            | <while>
            | <for>
            | <return>
            | <exprstmt>
``` -/
def ruleStmt (r : Rules) : P (Option AstNode) := do
  fun p => .ok () { p with ctx := .stmt }
  if ← parserMatchToken .lbrace then some <$> ruleStmtBlock r
  else if ← parserMatchToken .kwVardecl then some <$> ruleStmtVardecl r
  else if ← parserMatchToken .kwIf then some <$> ruleStmtIf r
  else if ← parserMatchToken .kwWhile then some <$> ruleStmtWhile r
  else if ← parserMatchToken .kwFor then some <$> ruleStmtFor r
  else if ← parserMatchToken .kwReturn then some <$> ruleStmtReturn r
  else ruleExprstmt r

/-! ## Declarations -/

/-- `<block>?`, with a semicolon in place of a missing block. -/
def ruleProcBody (r : Rules) : P (Option AstNode) := do
  if ← parserMatchToken .semicolon then
    discard parserAdvance
    pure none
  else some <$> ruleStmtBlock r

/-- `<procedure> ::= <proc-type> <block>?` -/
def ruleDeclProc (r : Rules) : P AstNode := do
  let (op, ident, type) ← ruleUtilProcType r true
  let body ← ruleProcBody r
  pure (.proc op (ident.getD .eof) body type none 0)

/-- The memory of a fresh `Table` is not cleared: its counter holds whatever was there. -/
def arenaAllocTable : P Table := fun p =>
  .ok { fields := [], fieldCount := p.garbage.headD 0 } { p with garbage := p.garbage.tail }

/-- `<table> ::= "table" IDENTIFIER <fieldlist>` -/
def ruleDeclTable (r : Rules) : P AstNode := do
  let op ← parserConsume .kwTable
  let ident ← parserConsume .literalIdent
  let table ← arenaAllocTable
  let table ← ruleUtilFieldlist r table
  pure (.table op ident (.table table))

/-- `<declaration> ::= <proc> | <vardecl>` -/
def ruleDecl (r : Rules) : P AstNode := do
  fun p => .ok () { p with ctx := .decl }
  if ← parserMatchToken .kwProc then ruleDeclProc r
  else if ← parserMatchToken .kwTable then ruleDeclTable r
  else
    diagnosticLoc (← parserToken) "Expected declaration"
    parserSync

/-- The loop of `rule_program`. After a jump (`resumed`) execution goes on behind `setjmp`,
without another look at the condition of the loop. -/
def ruleProgram.loop (r : Rules) : Nat → Bool → List AstNode → P (List AstNode)
  | 0, _, _ => outOfFuel
  | fuel + 1, resumed, decls => fun p =>
    if !resumed && parserMatchTokensVa p [.eof] then .ok decls p
    else
      match ruleDecl r { p with ctxDecl := true } with
      | .ok decl p => ruleProgram.loop r fuel false (decls ++ [decl]) p
      | .jump .decl p => ruleProgram.loop r fuel true decls p
      | .jump (.stmt activation) p => .jump (.stmt activation) p
      | .exit diags => .exit diags
      | .panic message => .panic message
      | .undefined what => .undefined what
      | .fuel => .fuel

/-- `<program> ::= <declaration>*` -/
def ruleProgram (r : Rules) : P AstNode := do
  let decls ← ruleProgram.loop r r.fuel false []
  pure (.block decls none)

/-! ## The parser -/

/-- The rules with calls nested at most `fuel` deep. -/
def rules : Nat → Rules
  | 0 =>
    { fuel := 0, expr := outOfFuel, assign := outOfFuel, stmt := outOfFuel, type := outOfFuel }
  | fuel + 1 =>
    let r := rules fuel
    { fuel := fuel + 1
      expr := ruleExpr r
      assign := ruleExprAssign r
      stmt := ruleStmt r
      type := ruleUtilType r }

/-- `parse` on the tokens of the source. -/
def parse (fuel : Nat) (garbage : List Nat) (toks : List Token) : Outcome AstNode :=
  match ruleProgram (rules fuel) { toks, garbage } with
  | .ok root p =>
    if p.errcount ≠ 0 then
      .exit (p.diags ++ [⟨none, s!"Parsing failed with {p.errcount} errors"⟩])
    else .ok root p
  | .jump _ _ => .undefined "longjmp to an activation that has returned"
  | o => o

end Seron
