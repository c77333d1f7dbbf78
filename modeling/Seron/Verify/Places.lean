import Seron.Main
import Seron.Verify.Expansion
import Seron.Verify.Whitespace

/-! # Places of tokens

No pass looks at where a token stands. From the same tokens in other places the parser makes the
same tree, but for the places in it, and the same code is generated for both. -/

namespace Seron

/-- The token is moved, and nothing else happens to it. -/
structure Token.Moves (f : Token → Token) : Prop where
  kind (t : Token) : (f t).kind = t.kind
  value (t : Token) : (f t).value = t.value
  numberType (t : Token) : (f t).numberType = t.numberType
  number (t : Token) : (f t).number = t.number
  eof : f .eof = .eof

theorem Token.placeless_moves : Token.Moves Token.placeless :=
  ⟨fun _ => rfl, fun _ => rfl, fun _ => rfl, fun _ => rfl, rfl⟩

/-! ## Trees and states with moved tokens -/

section
variable (f : Token → Token)

/-- The tree with each of its tokens moved. -/
@[simp] def AstNode.move : AstNode → AstNode
  | .literal op kind => .literal (f op) kind
  | .grouping e => .grouping e.move
  | .binop lhs rhs op kind => .binop lhs.move rhs.move (f op) kind
  | .unaryop e op kind => .unaryop e.move (f op) kind
  | .call op callee args => .call (f op) callee.move (list args)
  | .block stmts t => .block (list stmts) t
  | .proc op ident body type t size => .proc (f op) (f ident) (opt body) type t size
  | .vardecl op ident init type offset => .vardecl (f op) (f ident) (opt init) type offset
  | .if_ op cond thenBody elseBody => .if_ (f op) cond.move thenBody.move (opt elseBody)
  | .while_ op cond body => .while_ (f op) cond.move body.move
  | .assign op value target => .assign (f op) value.move target.move
  | .return_ op e => .return_ (f op) (opt e)
  | .table op ident type => .table (f op) (f ident) type
  | .array op values type offset => .array (f op) (list values) type offset
  | .for_ op decl cond step body type ident init =>
    .for_ (f op) (opt decl) cond.move step.move body.move type (f ident) init.move
  | .index op e i => .index (f op) e.move i.move
where
  list : List AstNode → List AstNode
    | [] => []
    | node :: nodes => node.move :: list nodes
  opt : Option AstNode → Option AstNode
    | none => none
    | some node => some node.move

theorem AstNode.move_list (nodes : List AstNode) : move.list f nodes = nodes.map (move f) := by
  induction nodes with
  | nil => rfl
  | cons node nodes ih => rw [move.list, ih, List.map_cons]

theorem AstNode.move_opt (node : Option AstNode) : move.opt f node = node.map (move f) := by
  cases node <;> rfl

def Diagnostic.move (d : Diagnostic) : Diagnostic := { d with token := d.token.map f }

def Parser.move (p : Parser) : Parser :=
  { p with toks := p.toks.map f, diags := p.diags.map (Diagnostic.move f) }

def Outcome.move {α : Type} (g : α → α) : Outcome α → Outcome α
  | .ok a p => .ok (g a) (p.move f)
  | .jump target p => .jump target (p.move f)
  | .exit diags => .exit (diags.map (Diagnostic.move f))
  | .panic message => .panic message
  | .undefined what => .undefined what
  | .fuel => .fuel

/-- On moved tokens the second rule does what the first one does on the tokens. -/
def MovedRule {α : Type} (g : α → α) (x y : P α) : Prop := ∀ p, y (p.move f) = (x p).move f g

end

namespace MovedRule

variable {f : Token → Token} {α β : Type} {g : α → α} {h : β → β} {x y : P α} {k l : α → P β}

theorem pure {a b : α} (hab : b = g a) : MovedRule f g (Pure.pure a) (Pure.pure b) := by
  intro p
  rw [hab]
  rfl

theorem bind (hx : MovedRule f g x y) (hk : ∀ a, MovedRule f h (k a) (l (g a))) :
    MovedRule f h (x >>= k) (y >>= l) := by
  intro p
  change P.bind y l (p.move f) = (P.bind x k p).move f h
  rw [P.bind, P.bind, hx p]
  cases x p with
  | ok a q => exact hk a q
  | _ => rfl

/-- The value of the first step has no tokens. -/
theorem step (hx : MovedRule f id x y) (hk : ∀ a, MovedRule f h (k a) (l a)) :
    MovedRule f h (x >>= k) (y >>= l) := hx.bind hk

theorem ite {c : Prop} [Decidable c] {x' y' : P α} (hx : MovedRule f g x y)
    (hx' : MovedRule f g x' y') :
    MovedRule f g (if c then x else x') (if c then y else y') := by
  split
  · exact hx
  · exact hx'

theorem map {m n : α → β} (hx : MovedRule f g x y) (hmn : ∀ a, n (g a) = h (m a)) :
    MovedRule f h (m <$> x) (n <$> y) := hx.bind fun a => pure (hmn a)

theorem discard (hx : MovedRule f g x y) : MovedRule f id (discard x) (discard y) :=
  hx.map fun _ => rfl

theorem some (hx : MovedRule f g x y) : MovedRule f (Option.map g) (Option.some <$> x)
    (Option.some <$> y) :=
  hx.map fun _ => rfl

theorem outOfFuel : MovedRule f g (outOfFuel : P α) outOfFuel := fun _ => rfl

theorem orPanic (o : Option α) : MovedRule f id (orPanic o) (orPanic o) := by
  cases o with
  | none => exact fun _ => rfl
  | some a => exact pure rfl

end MovedRule

section
variable {f : Token → Token} (hf : Token.Moves f)
include hf

/-! ## The primitives of the parser -/

theorem parserPeek_move (p : Parser) : parserPeek (p.move f) = f (parserPeek p) := by
  rw [parserPeek, parserPeek, Parser.move]
  cases p.toks with
  | nil => exact hf.eof.symm
  | cons => rfl

theorem parserMatchTokensVa_move (p : Parser) (kinds : List TokenKind) :
    parserMatchTokensVa (p.move f) kinds = parserMatchTokensVa p kinds := by
  induction kinds with
  | nil => rw [parserMatchTokensVa, parserMatchTokensVa, parserPeek_move hf, hf.kind]
  | cons kind kinds ih =>
    rw [parserMatchTokensVa, parserMatchTokensVa, parserPeek_move hf, hf.kind, ih]

theorem parserMatchTokens_moved (kinds : List TokenKind) :
    MovedRule f id (parserMatchTokens kinds) (parserMatchTokens kinds) := by
  intro p
  rw [parserMatchTokens, parserMatchTokens, parserMatchTokensVa_move hf]
  rfl

theorem parserMatchToken_moved (kind : TokenKind) :
    MovedRule f id (parserMatchToken kind) (parserMatchToken kind) := parserMatchTokens_moved hf _

theorem parserToken_moved : MovedRule f f parserToken parserToken := by
  intro p
  rw [parserToken, parserToken, parserPeek_move hf]
  rfl

omit hf in
theorem diagnosticLoc_moved (token : Token) (message : String) :
    MovedRule f id (diagnosticLoc token message) (diagnosticLoc (f token) message) := by
  intro p
  simp [diagnosticLoc, Outcome.move, Parser.move, Diagnostic.move]

omit hf in
theorem diagnosticExit_moved {α : Type} {g : α → α} (token : Option Token) (message : String) :
    MovedRule f g (diagnosticExit token message) (diagnosticExit (token.map f) message) := by
  intro p
  simp [diagnosticExit, Outcome.move, Parser.move, Diagnostic.move]

theorem parserAdvance_moved : MovedRule f f parserAdvance parserAdvance := by
  refine .step (parserMatchToken_moved hf _) fun b => .ite (diagnosticExit_moved none _) fun p => ?_
  rw [parserPeek_move hf]
  simp [Outcome.move, Parser.move]

theorem parserSkipTo_moved (kinds : List TokenKind) (toks : List Token) :
    MovedRule f id (parserSkipTo kinds toks) (parserSkipTo kinds (toks.map f)) := by
  induction toks with
  | nil =>
    exact .step (parserMatchTokens_moved hf _) fun b =>
      .ite (.pure rfl) (parserAdvance_moved hf).discard
  | cons tok toks ih =>
    exact .step (parserMatchTokens_moved hf _) fun b => .ite (.pure rfl)
      (.step (parserAdvance_moved hf).discard fun _ => ih)

theorem parserSync_moved {α : Type} {g : α → α} : MovedRule f g (parserSync : P α) parserSync := by
  have hdecl : MovedRule f g (do parserRecoverDecl; longjmpDecl : P α)
      (do parserRecoverDecl; longjmpDecl) := by
    refine .step (fun p => parserSkipTo_moved hf _ p.toks p) fun _ p => ?_
    rw [longjmpDecl, longjmpDecl, Parser.move]
    split <;> rfl
  have hstmt : MovedRule f g (do parserRecoverStmt; longjmpStmt : P α)
      (do parserRecoverStmt; longjmpStmt) := by
    refine .step (.step (fun p => parserSkipTo_moved hf _ p.toks p) fun _ =>
      (parserAdvance_moved hf).discard) fun _ p => ?_
    rw [longjmpStmt, longjmpStmt, Parser.move]
    dsimp only
    split <;> rfl
  intro p
  rw [parserSync, parserSync]
  cases hctx : p.ctx with
  | decl =>
    have h := hdecl { p with errcount := p.errcount + 1 }
    simpa [Parser.move, hctx] using h
  | stmt =>
    have h := hstmt { p with errcount := p.errcount + 1 }
    simpa [Parser.move, hctx] using h

theorem parserExpectToken_moved (kind : TokenKind) :
    MovedRule f id (parserExpectToken kind) (parserExpectToken kind) :=
  .step (parserMatchToken_moved hf _) fun _ => .ite (.pure rfl)
    (.bind (parserToken_moved hf) fun _ => .step (diagnosticLoc_moved _ _)
      fun _ => parserSync_moved hf)

theorem parserConsume_moved (kind : TokenKind) :
    MovedRule f f (parserConsume kind) (parserConsume kind) :=
  .step (parserMatchToken_moved hf _) fun _ => .ite (parserAdvance_moved hf)
    (.step (parserExpectToken_moved hf _) fun _ => parserAdvance_moved hf)

theorem parserSkip_moved (kind : TokenKind) : MovedRule f id (parserSkip kind) (parserSkip kind) :=
  .step (parserMatchToken_moved hf _) fun _ => .ite (parserConsume_moved hf _).discard (.pure rfl)

end

/-! ## The grammar rules -/

/-- The rules that are called recursively. -/
structure Rules.Moved (f : Token → Token) (r : Rules) : Prop where
  expr : MovedRule f (AstNode.move f) r.expr r.expr
  assign : MovedRule f (AstNode.move f) r.assign r.assign
  stmt : MovedRule f (Option.map (AstNode.move f)) r.stmt r.stmt
  type : MovedRule f id r.type r.type

section
variable {f : Token → Token} {r : Rules} (hf : Token.Moves f) (hr : r.Moved f)
include hf hr

theorem exprListLoop_moved (close : TokenKind) (fuel : Nat) (items : List AstNode) :
    MovedRule f (List.map (AstNode.move f)) (exprListLoop r close fuel items)
      (exprListLoop r close fuel (items.map (AstNode.move f))) := by
  induction fuel generalizing items with
  | zero => exact .outOfFuel
  | succ fuel ih =>
    refine .step (parserMatchToken_moved hf _) fun b => .ite (.pure rfl) (.bind hr.expr fun item =>
      .step (parserSkip_moved hf _) fun _ => ?_)
    have h := ih (items ++ [item])
    rwa [List.map_append, List.map_singleton] at h

theorem ruleUtilArglist_moved :
    MovedRule f (List.map (AstNode.move f)) (ruleUtilArglist r) (ruleUtilArglist r) :=
  .step (parserConsume_moved hf _).discard fun _ => .bind (exprListLoop_moved hf hr _ _ [])
    fun _ => .step (parserConsume_moved hf _).discard fun _ => .pure rfl

theorem ruleUtilParam_moved : MovedRule f id (ruleUtilParam r) (ruleUtilParam r) :=
  .bind (parserConsume_moved hf _) fun tok => .step (parserConsume_moved hf _).discard fun _ =>
    .step hr.type fun _ => .pure (by rw [hf.value]; rfl)

theorem ruleUtilParamlist_loop_moved (fuel : Nat) (params : List Param) :
    MovedRule f id (ruleUtilParamlist.loop r fuel params) (ruleUtilParamlist.loop r fuel params) := by
  induction fuel generalizing params with
  | zero => exact .outOfFuel
  | succ fuel ih =>
    exact .step (parserMatchToken_moved hf _) fun b => .ite (.pure rfl)
      (.step (ruleUtilParam_moved hf hr) fun param => .ite
        (.bind (parserToken_moved hf) fun tok => .step (diagnosticLoc_moved _ _) fun _ =>
          parserSync_moved hf)
        (.step (parserSkip_moved hf _) fun _ => ih _))

theorem ruleUtilParamlist_moved : MovedRule f id (ruleUtilParamlist r) (ruleUtilParamlist r) :=
  .step (parserConsume_moved hf _).discard fun _ => .step (ruleUtilParamlist_loop_moved hf hr _ _)
    fun _ => .step (parserConsume_moved hf _).discard fun _ => .pure rfl

theorem ruleUtilFieldlist_loop_moved (fuel : Nat) (table : Table) :
    MovedRule f id (ruleUtilFieldlist.loop r fuel table) (ruleUtilFieldlist.loop r fuel table) := by
  induction fuel generalizing table with
  | zero => exact .outOfFuel
  | succ fuel ih =>
    exact .step (parserMatchToken_moved hf _) fun b => .ite (.pure rfl)
      (.step (ruleUtilParam_moved hf hr) fun param => .ite (fun _ => rfl)
        (.step (parserSkip_moved hf _) fun _ => ih _))

theorem ruleUtilFieldlist_moved (table : Table) :
    MovedRule f id (ruleUtilFieldlist r table) (ruleUtilFieldlist r table) :=
  .step (parserConsume_moved hf _).discard fun _ => .step (ruleUtilFieldlist_loop_moved hf hr _ _)
    fun _ => .step (parserConsume_moved hf _).discard fun _ => .pure rfl

theorem ruleUtilProcType_moved (named : Bool) :
    MovedRule f (Prod.map f (Prod.map (Option.map f) id)) (ruleUtilProcType r named)
      (ruleUtilProcType r named) :=
  .bind (parserConsume_moved hf _) fun _ => .bind (.ite (parserConsume_moved hf _).some (.pure rfl))
    fun _ => .step (ruleUtilParamlist_moved hf hr) fun _ => .step hr.type fun _ => .pure rfl

theorem ruleUtilType_moved : MovedRule f id (ruleUtilType r) (ruleUtilType r) :=
  .bind (parserToken_moved hf) fun tok => .step (parserMatchToken_moved hf _) fun _ => .ite
    (.step (parserAdvance_moved hf).discard fun _ => .step hr.type fun _ => .pure rfl)
    (.step (parserMatchToken_moved hf _) fun _ => .ite
      (.bind (ruleUtilProcType_moved hf hr false) fun _ => .pure rfl)
      (.step (parserMatchToken_moved hf _) fun _ => .ite
        (.step (parserAdvance_moved hf).discard fun _ => .pure (by rw [hf.value]; rfl))
        (.step (parserMatchTokens_moved hf _) fun _ => .ite
          (.bind (parserAdvance_moved hf) fun _ => .pure (by rw [hf.kind]; rfl))
          (by
            rw [hf.kind]
            exact .step (diagnosticLoc_moved _ _) fun _ => parserSync_moved hf))))

theorem ruleGrouping_moved : MovedRule f (AstNode.move f) (ruleGrouping r) (ruleGrouping r) :=
  .step (parserConsume_moved hf _).discard fun _ => .step (parserMatchToken_moved hf _) fun _ => .ite
    (.bind (parserToken_moved hf) fun _ => .step (diagnosticLoc_moved _ _)
      fun _ => parserSync_moved hf)
    (.bind hr.expr fun _ => .step (parserConsume_moved hf _).discard fun _ => .pure rfl)

theorem ruleExprPrimary_moved : MovedRule f (AstNode.move f) (ruleExprPrimary r)
    (ruleExprPrimary r) := by
  refine .bind (parserToken_moved hf) fun tok => .step (parserMatchTokens_moved hf _) fun _ => .ite
    ?_ (.step (parserMatchToken_moved hf _) fun _ => .ite (ruleGrouping_moved hf hr) ?_)
  · rw [hf.kind]
    exact .step (.orPanic _) fun _ => .step (parserAdvance_moved hf).discard fun _ => .pure rfl
  · rw [hf.kind]
    exact .step (diagnosticLoc_moved _ _) fun _ => parserSync_moved hf

theorem ruleExprCall_moved : MovedRule f (AstNode.move f) (ruleExprCall r) (ruleExprCall r) :=
  .bind (ruleExprPrimary_moved hf hr) fun _ => .step (parserMatchToken_moved hf _) fun _ => .ite
    (.bind (parserToken_moved hf) fun _ => .bind (ruleUtilArglist_moved hf hr) fun args =>
      .pure (by rw [AstNode.move, AstNode.move_list])) (.pure rfl)

theorem ruleExprIndex_moved : MovedRule f (AstNode.move f) (ruleExprIndex r) (ruleExprIndex r) :=
  .bind (ruleExprCall_moved hf hr) fun _ => .step (parserMatchToken_moved hf _) fun _ => .ite
    (.bind (parserConsume_moved hf _) fun _ => .bind hr.expr fun _ =>
      .step (parserConsume_moved hf _).discard fun _ => .pure rfl) (.pure rfl)

theorem ruleExprUnary_moved : MovedRule f (AstNode.move f) (ruleExprUnary r) (ruleExprUnary r) := by
  refine .step (parserMatchTokens_moved hf _) fun _ => .ite
    (.bind (parserAdvance_moved hf) fun op => ?_) (ruleExprIndex_moved hf hr)
  rw [hf.kind]
  exact .step (.orPanic _) fun _ => .bind (ruleExprIndex_moved hf hr) fun _ => .pure rfl

omit hr in
theorem templBinop_moved {fuel : Nat} {rule : P AstNode} {kinds : List TokenKind}
    (hrule : MovedRule f (AstNode.move f) rule rule) :
    MovedRule f (AstNode.move f) (templBinop fuel rule kinds) (templBinop fuel rule kinds) := by
  refine .bind hrule fun lhs => ?_
  induction fuel generalizing lhs with
  | zero => exact .outOfFuel
  | succ fuel ih =>
    refine .step (parserMatchTokens_moved hf _) fun _ => .ite
      (.bind (parserAdvance_moved hf) fun op => .bind hrule fun rhs => ?_) (.pure rfl)
    rw [hf.kind]
    exact .step (.orPanic _) fun kind => ih (.binop lhs rhs op kind)

theorem ruleExprLogOr_moved : MovedRule f (AstNode.move f) (ruleExprLogOr r) (ruleExprLogOr r) :=
  templBinop_moved hf <| templBinop_moved hf <| templBinop_moved hf <| templBinop_moved hf <|
    templBinop_moved hf <| templBinop_moved hf <| templBinop_moved hf <| templBinop_moved hf <|
      ruleExprUnary_moved hf hr

theorem ruleExprAssign_moved : MovedRule f (AstNode.move f) (ruleExprAssign r) (ruleExprAssign r) :=
  .bind (ruleExprLogOr_moved hf hr) fun _ => .step (parserMatchToken_moved hf _) fun _ => .ite
    (.bind (parserAdvance_moved hf) fun _ => .bind hr.assign fun _ => .pure rfl) (.pure rfl)

theorem ruleExprArray_moved : MovedRule f (AstNode.move f) (ruleExprArray r) (ruleExprArray r) :=
  .bind (parserConsume_moved hf _) fun _ => .bind (exprListLoop_moved hf hr _ _ []) fun _ =>
    .step (parserConsume_moved hf _).discard fun _ => .step hr.type fun _ =>
      .pure (by rw [AstNode.move, AstNode.move_list])

theorem ruleExpr_moved : MovedRule f (AstNode.move f) (ruleExpr r) (ruleExpr r) :=
  .step (parserMatchToken_moved hf _) fun _ => .ite (ruleExprArray_moved hf hr)
    (ruleExprAssign_moved hf hr)

omit hr in
theorem unlessToken_moved {kind : TokenKind} {x : P AstNode} (hx : MovedRule f (AstNode.move f) x x) :
    MovedRule f (Option.map (AstNode.move f)) (unlessToken kind x) (unlessToken kind x) :=
  .step (parserMatchToken_moved hf _) fun _ => .ite (.pure rfl) hx.some

theorem ruleExprstmt_moved :
    MovedRule f (Option.map (AstNode.move f)) (ruleExprstmt r) (ruleExprstmt r) :=
  .bind (unlessToken_moved hf hr.expr) fun _ => .step (parserConsume_moved hf _).discard fun _ =>
    .pure rfl

theorem ruleStmtVardecl_moved :
    MovedRule f (AstNode.move f) (ruleStmtVardecl r) (ruleStmtVardecl r) :=
  .bind (parserConsume_moved hf _) fun _ => .bind (parserConsume_moved hf _) fun _ =>
    .step (parserConsume_moved hf _).discard fun _ => .step hr.type fun _ =>
      .bind (unlessToken_moved hf (.step (parserConsume_moved hf _).discard fun _ => hr.expr))
        fun _ => .step (parserConsume_moved hf _).discard fun _ =>
          .pure (by rw [AstNode.move, AstNode.move_opt])

theorem ruleStmtBlock_loop_moved (brace : Token) (me fuel : Nat) (stmts : List AstNode) :
    MovedRule f (List.map (AstNode.move f)) (ruleStmtBlock.loop r brace me fuel stmts)
      (ruleStmtBlock.loop r (f brace) me fuel (stmts.map (AstNode.move f))) := by
  induction fuel generalizing stmts with
  | zero => exact .outOfFuel
  | succ fuel ih =>
    intro p
    let p₁ : Parser := { p with ctxStmt := some me }
    have hp : { p.move f with ctxStmt := some me } = p₁.move f := rfl
    rw [ruleStmtBlock.loop, ruleStmtBlock.loop]
    simp only [hp, parserMatchTokensVa_move hf]
    split
    · rfl
    · split
      · exact diagnosticExit_moved (some brace) _ p₁
      · rw [hr.stmt p₁]
        cases r.stmt p₁ with
        | ok stmt q =>
          have h := ih (stmts ++ stmt.toList) q
          cases stmt <;> simpa [Outcome.move] using h
        | jump target q =>
          cases target with
          | stmt activation =>
            dsimp only [Outcome.move]
            split
            · exact ih stmts q
            · rfl
          | decl => rfl
        | _ => rfl

theorem ruleStmtBlock_moved : MovedRule f (AstNode.move f) (ruleStmtBlock r) (ruleStmtBlock r) :=
  .bind (parserConsume_moved hf _) fun brace => .step (fun _ => rfl) fun me =>
    .bind (ruleStmtBlock_loop_moved hf hr brace me _ []) fun stmts =>
      .step (parserAdvance_moved hf).discard fun _ => .pure (by rw [AstNode.move, AstNode.move_list])

theorem ruleStmtFor_moved : MovedRule f (AstNode.move f) (ruleStmtFor r) (ruleStmtFor r) :=
  .bind (parserConsume_moved hf _) fun _ => .bind (parserConsume_moved hf _) fun _ =>
    .step (parserConsume_moved hf _).discard fun _ => .step hr.type fun _ =>
      .step (parserConsume_moved hf _).discard fun _ => .bind hr.expr fun _ =>
        .step (parserConsume_moved hf _).discard fun _ => .bind hr.expr fun _ =>
          .step (parserConsume_moved hf _).discard fun _ => .bind hr.expr fun _ =>
            .bind (ruleStmtBlock_moved hf hr) fun _ => .pure rfl

theorem ruleStmtWhile_moved : MovedRule f (AstNode.move f) (ruleStmtWhile r) (ruleStmtWhile r) :=
  .bind (parserConsume_moved hf _) fun _ => .bind hr.expr fun _ =>
    .bind (ruleStmtBlock_moved hf hr) fun _ => .pure rfl

theorem ruleStmtElse_moved :
    MovedRule f (Option.map (AstNode.move f)) (ruleStmtElse r) (ruleStmtElse r) :=
  .step (parserMatchToken_moved hf _) fun _ => .ite
    (.step (parserAdvance_moved hf).discard fun _ => (ruleStmtBlock_moved hf hr).some) (.pure rfl)

theorem ruleStmtIf_moved : MovedRule f (AstNode.move f) (ruleStmtIf r) (ruleStmtIf r) :=
  .bind (parserConsume_moved hf _) fun _ => .bind hr.expr fun _ =>
    .bind (ruleStmtBlock_moved hf hr) fun _ => .bind (ruleStmtElse_moved hf hr) fun _ =>
      .pure (by rw [AstNode.move, AstNode.move_opt])

theorem ruleStmtReturn_moved : MovedRule f (AstNode.move f) (ruleStmtReturn r) (ruleStmtReturn r) :=
  .bind (parserConsume_moved hf _) fun _ => .bind (unlessToken_moved hf hr.expr) fun _ =>
    .step (parserConsume_moved hf _).discard fun _ => .pure (by rw [AstNode.move, AstNode.move_opt])

theorem ruleStmt_moved : MovedRule f (Option.map (AstNode.move f)) (ruleStmt r) (ruleStmt r) := by
  have choose {kind : TokenKind} {x : P AstNode} {y : P (Option AstNode)}
      (hx : MovedRule f (AstNode.move f) x x) (hy : MovedRule f (Option.map (AstNode.move f)) y y) :
      MovedRule f (Option.map (AstNode.move f))
        (do if ← parserMatchToken kind then some <$> x else y)
        (do if ← parserMatchToken kind then some <$> x else y) :=
    .step (parserMatchToken_moved hf _) fun _ => .ite hx.some hy
  exact .step (fun _ => rfl) fun _ => choose (ruleStmtBlock_moved hf hr)
    (choose (ruleStmtVardecl_moved hf hr) (choose (ruleStmtIf_moved hf hr)
      (choose (ruleStmtWhile_moved hf hr) (choose (ruleStmtFor_moved hf hr)
        (choose (ruleStmtReturn_moved hf hr) (ruleExprstmt_moved hf hr))))))

theorem ruleProcBody_moved :
    MovedRule f (Option.map (AstNode.move f)) (ruleProcBody r) (ruleProcBody r) :=
  .step (parserMatchToken_moved hf _) fun _ => .ite
    (.step (parserAdvance_moved hf).discard fun _ => .pure rfl) (ruleStmtBlock_moved hf hr).some

theorem ruleDeclProc_moved : MovedRule f (AstNode.move f) (ruleDeclProc r) (ruleDeclProc r) := by
  refine .bind (ruleUtilProcType_moved hf hr true) fun a =>
    .bind (ruleProcBody_moved hf hr) fun body =>
    .pure ?_
  obtain ⟨op, ident, type⟩ := a
  have hident : (ident.map f).getD .eof = f (ident.getD .eof) := by
    cases ident with
    | none => exact hf.eof.symm
    | some => rfl
  rw [AstNode.move, AstNode.move_opt, ← hident]
  rfl

theorem ruleDeclTable_moved : MovedRule f (AstNode.move f) (ruleDeclTable r) (ruleDeclTable r) :=
  .bind (parserConsume_moved hf _) fun _ => .bind (parserConsume_moved hf _) fun _ =>
    .step (fun _ => rfl) fun _ => .step (ruleUtilFieldlist_moved hf hr _) fun _ => .pure rfl

theorem ruleDecl_moved : MovedRule f (AstNode.move f) (ruleDecl r) (ruleDecl r) :=
  .step (fun _ => rfl) fun _ => .step (parserMatchToken_moved hf _) fun _ => .ite
    (ruleDeclProc_moved hf hr) (.step (parserMatchToken_moved hf _) fun _ => .ite
      (ruleDeclTable_moved hf hr) (.bind (parserToken_moved hf) fun _ =>
        .step (diagnosticLoc_moved _ _) fun _ => parserSync_moved hf))

theorem ruleProgram_loop_moved (fuel : Nat) (resumed : Bool) (decls : List AstNode) :
    MovedRule f (List.map (AstNode.move f)) (ruleProgram.loop r fuel resumed decls)
      (ruleProgram.loop r fuel resumed (decls.map (AstNode.move f))) := by
  induction fuel generalizing resumed decls with
  | zero => exact .outOfFuel
  | succ fuel ih =>
    intro p
    let p₁ : Parser := { p with ctxDecl := true }
    have hp : { p.move f with ctxDecl := true } = p₁.move f := rfl
    rw [ruleProgram.loop, ruleProgram.loop]
    simp only [hp, parserMatchTokensVa_move hf]
    split
    · rfl
    · rw [ruleDecl_moved hf hr p₁]
      cases ruleDecl r p₁ with
      | ok decl q =>
        have h := ih false (decls ++ [decl]) q
        rwa [List.map_append, List.map_singleton] at h
      | jump target q =>
        cases target with
        | stmt activation => rfl
        | decl => exact ih true decls q
      | _ => rfl

theorem ruleProgram_moved : MovedRule f (AstNode.move f) (ruleProgram r) (ruleProgram r) :=
  .bind (ruleProgram_loop_moved hf hr _ _ []) fun _ => .pure (by rw [AstNode.move, AstNode.move_list])

end

theorem rules_moved {f : Token → Token} (hf : Token.Moves f) (fuel : Nat) : (rules fuel).Moved f := by
  induction fuel with
  | zero => exact ⟨.outOfFuel, .outOfFuel, .outOfFuel, .outOfFuel⟩
  | succ fuel ih =>
    exact ⟨ruleExpr_moved hf ih, ruleExprAssign_moved hf ih, ruleStmt_moved hf ih,
      ruleUtilType_moved hf ih⟩

/-- The parser makes the same of tokens in other places. -/
theorem parse_move {f : Token → Token} (hf : Token.Moves f) (fuel : Nat) (garbage : List Nat)
    (toks : List Token) :
    parse fuel garbage (toks.map f) = (parse fuel garbage toks).move f (AstNode.move f) := by
  have hprogram := ruleProgram_moved hf (rules_moved hf fuel) { toks, garbage }
  change ruleProgram (rules fuel) { toks := toks.map f, garbage } = _ at hprogram
  rw [parse, parse, hprogram]
  cases ruleProgram (rules fuel) { toks, garbage } with
  | ok root p =>
    dsimp only [Outcome.move, Parser.move]
    split
    · simp [Diagnostic.move]
    · rfl
  | _ => rfl

/-! ## The passes -/

section
variable {σ : Type} {f : Token → Token} {fn fnPre fnPost : AstNode → Walk σ AstNode}

theorem AstNode.kind_move (node : AstNode) : (node.move f).kind = node.kind := by
  cases node <;> rfl

theorem AstNode.children_move (node : AstNode) :
    (node.move f).children = node.children.map (move f) := by
  have toList (node : Option AstNode) : (move.opt f node).toList = node.toList.map (move f) := by
    cases node <;> rfl
  cases node <;> simp [move, children, move_list, toList]

theorem AstNode.withChildren_move (node : AstNode) (nodes : List AstNode) :
    (node.move f).withChildren (nodes.map (move f)) = (node.withChildren nodes).move f := by
  have head (nodes : List AstNode) : (nodes.map (move f)).head? = move.opt f nodes.head? := by
    cases nodes <;> rfl
  cases node
  case block | array => simp only [move, withChildren, move_list]
  case return_ | proc | vardecl => simp only [move, withChildren, head]
  case table | literal => rfl
  case grouping | unaryop | assign =>
    rcases nodes with _ | ⟨a, _ | ⟨b, nodes⟩⟩ <;> rfl
  case binop | while_ | index =>
    rcases nodes with _ | ⟨a, _ | ⟨b, _ | ⟨c, nodes⟩⟩⟩ <;> rfl
  case call =>
    rcases nodes with _ | ⟨a, nodes⟩
    · rfl
    · simp only [move, withChildren, List.map_cons, move_list]
  case if_ =>
    rcases nodes with _ | ⟨a, _ | ⟨b, nodes⟩⟩
    · rfl
    · rfl
    · simp only [move, withChildren, List.map_cons, head]
  case for_ =>
    rcases nodes with _ | ⟨a, _ | ⟨b, _ | ⟨c, _ | ⟨d, _ | ⟨e, nodes⟩⟩⟩⟩⟩ <;> rfl

/-- The second step does what the first one does, and its tree has moved tokens. -/
def MovedWalk (f : Token → Token) (x y : Walk σ AstNode) : Prop :=
  ∀ s, y s = (x s).map (Prod.map (AstNode.move f) id)

/-- A visit of the tree with moved tokens. -/
def MovedVisit (f : Token → Token) (fn : AstNode → Walk σ AstNode) : Prop :=
  ∀ node, MovedWalk f (fn node) (fn (node.move f))

theorem traverseList_movedVisit (hfn : MovedVisit f fn) (nodes : List AstNode) (s : σ) :
    traverseList fn (nodes.map (AstNode.move f)) s =
      (traverseList fn nodes s).map (Prod.map (List.map (AstNode.move f)) id) := by
  induction nodes generalizing s with
  | nil => rfl
  | cons node nodes ih =>
    simp only [List.map_cons, traverseList, bind, StateT.bind, Except.bind, hfn node s]
    cases fn node s with
    | error e => rfl
    | ok a =>
      simp only [Except.map, Prod.map, id, ih]
      cases traverseList fn nodes a.2 <;> rfl

theorem traverseChildren_movedVisit (hfn : MovedVisit f fn) : MovedVisit f (traverseChildren fn) := by
  intro node s
  by_cases hfor : ∃ op cond step body type ident e, node = .for_ op none cond step body type ident e
  · obtain ⟨op, cond, step, body, type, ident, e, rfl⟩ := hfor
    rfl
  · have hnode (op cond step body type ident e) :
        node ≠ .for_ op none cond step body type ident e :=
      fun heq => hfor ⟨op, cond, step, body, type, ident, e, heq⟩
    have hnode' (op cond step body type ident e) :
        node.move f ≠ .for_ op none cond step body type ident e := by
      intro heq
      cases node
      case for_ op' decl _ _ _ _ _ _ =>
        cases decl with
        | none => exact hnode _ _ _ _ _ _ _ rfl
        | some => simp [AstNode.move, AstNode.move.opt] at heq
      all_goals simp [AstNode.move] at heq
    rw [traverseChildren_eq _ _ hnode, traverseChildren_eq _ _ hnode', AstNode.children_move]
    simp only [Functor.map, StateT.map, bind, Except.bind, traverseList_movedVisit hfn node.children s]
    cases traverseList fn node.children s with
    | error e => rfl
    | ok a => simp [Except.map, Prod.map, pure, Except.pure, AstNode.withChildren_move]

theorem parserTraverseAst_moved (hpre : MovedVisit f fnPre) (hpost : MovedVisit f fnPost)
    (depth : Nat) : MovedVisit f (parserTraverseAst fnPre fnPost depth) := by
  induction depth with
  | zero => exact fun _ _ => rfl
  | succ depth ih =>
    intro node s
    simp only [parserTraverseAst, bind, StateT.bind, Except.bind, hpre node s]
    cases fnPre node s with
    | error e => rfl
    | ok a =>
      simp only [Except.map, Prod.map, id, traverseChildren_movedVisit ih a.1 a.2]
      cases traverseChildren (parserTraverseAst fnPre fnPost depth) a.1 a.2 with
      | error e => rfl
      | ok b => exact hpost b.1 b.2

theorem parserDispatchAst_moved {table : List (AstDispatchEntry σ)}
    (htable : ∀ entry ∈ table, ∀ fn, entry.fnPre = some fn ∨ entry.fnPost = some fn →
      MovedVisit f fn) (depth : Nat) : MovedVisit f (parserDispatchAst table depth) := by
  have hentry {node : AstNode} {fn : AstNode → Walk σ AstNode}
      {field : AstDispatchEntry σ → Option (AstNode → Walk σ AstNode)}
      (hfield : ∀ entry fn, field entry = some fn → entry.fnPre = some fn ∨ entry.fnPost = some fn)
      (h : (getDispatchEntry node table).bind field = some fn) : MovedVisit f fn := by
    obtain ⟨entry, hfind, hfn⟩ := Option.bind_eq_some_iff.mp h
    exact htable entry (List.mem_of_find?_eq_some hfind) fn (hfield entry fn hfn)
  have hkind (node : AstNode) :
      getDispatchEntry (node.move f) table = getDispatchEntry node table := by
    rw [getDispatchEntry, getDispatchEntry, AstNode.kind_move]
  refine parserTraverseAst_moved (fun node s => ?_) (fun node s => ?_) depth
  · rw [dispatchCallbackPre, dispatchCallbackPre, hkind]
    cases hfn : (getDispatchEntry node table).bind (·.fnPre) with
    | none => rfl
    | some fn => exact hentry (fun _ _ h => .inl h) hfn node s
  · rw [dispatchCallbackPost, dispatchCallbackPost, hkind]
    cases hfn : (getDispatchEntry node table).bind (·.fnPost) with
    | none => rfl
    | some fn => exact hentry (fun _ _ h => .inr h) hfn node s

theorem AstNode.traverseDepth_move (node : AstNode) :
    (node.move f).traverseDepth = node.traverseDepth := by
  have list {nodes : List AstNode} (h : ∀ n ∈ nodes, (n.move f).traverseDepth = n.traverseDepth) :
      traverseDepth.listDepth (move.list f nodes) = traverseDepth.listDepth nodes := by
    induction nodes with
    | nil => rfl
    | cons node nodes ih =>
      obtain ⟨hnode, hnodes⟩ := List.forall_mem_cons.mp h
      rw [move.list, traverseDepth.listDepth, traverseDepth.listDepth, hnode, ih hnodes]
  have opt {node : Option AstNode} (h : ∀ n ∈ node, (n.move f).traverseDepth = n.traverseDepth) :
      traverseDepth.optDepth (move.opt f node) = traverseDepth.optDepth node := by
    cases node with
    | none => rfl
    | some node => exact h node rfl
  induction node using AstNode.induct with
  | literal | table => rfl
  | grouping _ h | unaryop _ _ _ h => rw [move, traverseDepth, traverseDepth, h]
  | binop _ _ _ _ h h' | while_ _ _ _ h h' | assign _ _ _ h h' | index _ _ _ h h' =>
    rw [move, traverseDepth, traverseDepth, h, h']
  | call _ _ _ h hargs => rw [move, traverseDepth, traverseDepth, h, list hargs]
  | block _ _ h | array _ _ _ _ h => rw [move, traverseDepth, traverseDepth, list h]
  | proc _ _ _ _ _ _ h | vardecl _ _ _ _ _ h | return_ _ _ h =>
    rw [move, traverseDepth, traverseDepth, opt h]
  | if_ _ _ _ _ h h' helse => rw [move, traverseDepth, traverseDepth, h, h', opt helse]
  | for_ _ _ _ _ _ _ _ _ hdecl hcond hstep hbody hinit =>
    rw [move, traverseDepth, traverseDepth, opt hdecl, hcond, hstep, hbody, hinit]

theorem forPre_moved : MovedVisit f forPre := by
  intro node s
  cases node
  case for_ op decl cond step body type ident init =>
    cases body
    case block stmts t =>
      simp only [AstNode.move, forPre, AstNode.move_list]
      simp [Except.map, pure, StateT.pure, Except.pure, AstNode.move, AstNode.move_list,
        AstNode.move.list, AstNode.move.opt]
    all_goals rfl
  all_goals rfl

theorem indexPre_moved : MovedVisit f indexPre := by
  intro node s
  cases node <;> rfl

/-- The expansion. -/
theorem expandAst_move (root : AstNode) :
    expandAst (root.move f) = (expandAst root).map (AstNode.move f) := by
  have htable : ∀ entry ∈ expandTable, ∀ fn, entry.fnPre = some fn ∨ entry.fnPost = some fn →
      MovedVisit f fn := by
    intro entry hentry fn hfn
    simp only [expandTable, List.mem_cons, List.not_mem_nil, or_false] at hentry
    rcases hentry with rfl | rfl
    · rcases hfn with hfn | hfn <;> cases hfn
      exact forPre_moved
    · rcases hfn with hfn | hfn <;> cases hfn
      exact indexPre_moved
  have hwalk := parserDispatchAst_moved htable root.traverseDepth root ()
  rw [expandAst, expandAst, AstNode.traverseDepth_move]
  simp only [StateT.run', hwalk]
  cases parserDispatchAst expandTable root.traverseDepth root () <;> rfl

/-- A step that looks at no tokens. -/
theorem MovedWalk.step {α : Type} {x : Walk σ α} {k l : α → Walk σ AstNode}
    (h : ∀ a, MovedWalk f (k a) (l a)) : MovedWalk f (x >>= k) (x >>= l) := by
  intro s
  simp only [bind, StateT.bind, Except.bind]
  cases x s with
  | error e => rfl
  | ok a => exact h a.1 a.2

theorem MovedWalk.pure {node node' : AstNode} (h : node' = node.move f) :
    MovedWalk f (Pure.pure node : Walk σ AstNode) (Pure.pure node') := by
  intro s
  rw [h]
  rfl

theorem blockPre_moved : MovedVisit f blockPre := by
  intro node
  cases node
  case block stmts table =>
    exact MovedWalk.step (x := symboltablePush) fun _ => .pure rfl
  all_goals exact MovedWalk.pure rfl

theorem blockPost_moved : MovedVisit f blockPost :=
  fun _ => MovedWalk.step (x := symboltablePop) fun _ => .pure rfl

theorem arrayPre_moved : MovedVisit f arrayPre := by
  intro node s
  cases node
  case array op values type offset =>
    simp only [AstNode.move, AstNode.move_list, arrayPre, List.length_map]
    cases typePrimitiveSize type.kind <;> simp [bind, Except.bind, Except.map, pure, Except.pure,
      AstNode.move, AstNode.move_list]
  all_goals rfl

section
variable (hf : Token.Moves f)
include hf

theorem vardeclPre_moved : MovedVisit f vardeclPre := by
  intro node
  cases node
  case vardecl op ident init type offset =>
    rw [AstNode.move, vardeclPre, vardeclPre, hf.value]
    exact .step fun _ => .step fun _ => .step fun _ => .pure rfl
  all_goals exact .pure rfl

theorem procPre_moved : MovedVisit f procPre := by
  intro node
  cases node
  case proc op ident body type table stackSize =>
    rw [AstNode.move, procPre, procPre, hf.value, AstNode.move_opt, Option.isSome_map]
    rw [← AstNode.move_opt]
    refine .step fun _ => .step fun _ => ?_
    split
    · exact .step fun _ => .pure rfl
    · exact .pure rfl
  all_goals exact .pure rfl

omit hf in
theorem procPost_moved : MovedVisit f procPost := by
  intro node
  cases node
  case proc op ident body type table stackSize =>
    cases body with
    | none => exact .pure rfl
    | some body =>
      cases body
      case block stmts table =>
        cases type
        case procedure sig =>
          exact MovedWalk.step (x := procPostParams table sig.params) fun _ =>
            .step (x := get) fun _ => .pure rfl
        all_goals exact fun _ => rfl
      all_goals exact fun _ => rfl
  all_goals exact .pure rfl

theorem tablePre_moved : MovedVisit f tablePre := by
  intro node
  cases node
  case table op ident type =>
    rw [AstNode.move, tablePre, tablePre, hf.value]
    exact .step fun _ => .step fun _ => .pure rfl
  all_goals exact .pure rfl

/-- The annotation of the tree, and its tables. -/
theorem symboltableBuild_move (root : AstNode) : symboltableBuild (root.move f) =
    (symboltableBuild root).map (Prod.map (AstNode.move f) id) := by
  have htable : ∀ entry ∈ symboltableTable, ∀ fn, entry.fnPre = some fn ∨ entry.fnPost = some fn →
      MovedVisit f fn := by
    intro entry hentry fn hfn
    simp only [symboltableTable, List.mem_cons, List.not_mem_nil, or_false] at hentry
    rcases hentry with rfl | rfl | rfl | rfl | rfl
    · rcases hfn with hfn | hfn <;> cases hfn
      · exact blockPre_moved
      · exact blockPost_moved
    · rcases hfn with hfn | hfn <;> cases hfn
      exact vardeclPre_moved hf
    · rcases hfn with hfn | hfn <;> cases hfn
      · exact procPre_moved hf
      · exact procPost_moved
    · rcases hfn with hfn | hfn <;> cases hfn
      exact tablePre_moved hf
    · rcases hfn with hfn | hfn <;> cases hfn
      exact arrayPre_moved
  have hwalk := parserDispatchAst_moved htable root.traverseDepth root {}
  rwa [symboltableBuild, symboltableBuild, AstNode.traverseDepth_move]

end

end

/-! ## The generated code -/

section
variable {f : Token → Token} (hf : Token.Moves f) (tables : List Hashtable)
include hf

theorem literal_move (op : Token) (kind : LiteralKind) :
    literal tables (f op) kind = literal tables op kind := by
  cases kind with
  | ident | string => rw [literal, literal, hf.value]
  | number => rw [literal, literal, hf.numberType, hf.number]

theorem literalAddr_move (op : Token) (kind : LiteralKind) :
    literalAddr tables (f op) kind = literalAddr tables op kind := by
  cases kind with
  | ident => rw [literalAddr, literalAddr, hf.value]
  | string | number => rfl

theorem proc_move (ident : Token) (body : Option (Emit Ty)) (type : Ty) (stackSize : Int) :
    proc (f ident) body type stackSize = proc ident body type stackSize := by
  cases body <;> simp only [proc, hf.value]

theorem emit_move_both (node : AstNode) : emit tables (node.move f) = emit tables node ∧
    emitAddr tables (node.move f) = emitAddr tables node := by
  have emits {nodes : List AstNode} (h : ∀ node ∈ nodes, emit tables (node.move f) =
      emit tables node ∧ emitAddr tables (node.move f) = emitAddr tables node) :
      emits tables (AstNode.move.list f nodes) = emits tables nodes := by
    induction nodes with
    | nil => rfl
    | cons node nodes ih =>
      obtain ⟨hnode, hnodes⟩ := List.forall_mem_cons.mp h
      rw [AstNode.move.list, Seron.emits, Seron.emits, hnode.1, ih hnodes]
  have emitOpt {node : Option AstNode} (h : ∀ n ∈ node, emit tables (n.move f) = emit tables n ∧
      emitAddr tables (n.move f) = emitAddr tables n) :
      emitOpt tables (AstNode.move.opt f node) = emitOpt tables node := by
    cases node with
    | none => rfl
    | some node => rw [AstNode.move.opt, Seron.emitOpt, Seron.emitOpt, (h node rfl).1]
  induction node using AstNode.induct with
  | literal op kind =>
    exact ⟨by rw [AstNode.move, emit, emit, literal_move hf],
      by rw [AstNode.move, emitAddr, emitAddr, literalAddr_move hf]⟩
  | grouping e h => exact ⟨by rw [AstNode.move, emit, emit, h.1], rfl⟩
  | binop lhs rhs op kind h h' => exact ⟨by rw [AstNode.move, emit, emit, h.1, h'.1], rfl⟩
  | unaryop e op kind h =>
    exact ⟨by rw [AstNode.move, emit, emit, h.1, h.2], by rw [AstNode.move, emitAddr, emitAddr, h.1]⟩
  | call op callee args h hargs =>
    exact ⟨by rw [AstNode.move, emit, emit, h.1, emits hargs], rfl⟩
  | block stmts t h => exact ⟨by rw [AstNode.move, emit, emit, emits h], rfl⟩
  | proc op ident body type t size h =>
    exact ⟨by rw [AstNode.move, emit, emit, proc_move hf, emitOpt h], rfl⟩
  | vardecl op ident init type offset h =>
    exact ⟨by rw [AstNode.move, emit, emit, emitOpt h], rfl⟩
  | if_ op cond thenBody elseBody h h' helse =>
    exact ⟨by rw [AstNode.move, emit, emit, h.1, h'.1, emitOpt helse], rfl⟩
  | while_ op cond body h h' => exact ⟨by rw [AstNode.move, emit, emit, h.1, h'.1], rfl⟩
  | assign op value target h h' => exact ⟨by rw [AstNode.move, emit, emit, h.1, h'.2], rfl⟩
  | return_ op e h => exact ⟨by rw [AstNode.move, emit, emit, emitOpt h], rfl⟩
  | array op values type offset h => exact ⟨by rw [AstNode.move, emit, emit, emits h], rfl⟩
  | table | for_ | index => exact ⟨rfl, rfl⟩

theorem codegen_move (root : AstNode) : codegen tables (root.move f) = codegen tables root := by
  rw [codegen, codegen, (emit_move_both hf tables root).1]

end

/-! ## The compilation -/

def Stop.move (f : Token → Token) : Stop → Stop
  | .rejected diags => .rejected (diags.map (Diagnostic.move f))
  | .failure e => .failure e

section
variable {f : Token → Token} (hf : Token.Moves f)
include hf

theorem parseRoot_move (fuel : Nat) (garbage : List Nat) (toks : List Token) :
    parseRoot fuel garbage (toks.map f) =
      ((parseRoot fuel garbage toks).map (AstNode.move f)).mapError (Stop.move f) := by
  rw [parseRoot, parseRoot, parse_move hf]
  cases parse fuel garbage toks <;> rfl

theorem compileRoot_move (root : AstNode) : compileRoot (root.move f) = compileRoot root := by
  rw [compileRoot, compileRoot, expandAst_move]
  cases expandAst root with
  | error e => rfl
  | ok root' =>
    dsimp only [Except.map, bind, Except.bind]
    rw [symboltableBuild_move hf]
    cases symboltableBuild root' with
    | error e => rfl
    | ok a => exact codegen_move hf a.2.tables a.1

/-- From tokens in other places the same assembly is made. -/
theorem compile_move (fuel : Nat) (garbage : List Nat) (toks : List Token) :
    compile fuel garbage (toks.map f) = (compile fuel garbage toks).mapError (Stop.move f) := by
  rw [compile, compile, parseRoot_move hf]
  cases parseRoot fuel garbage toks with
  | error e => rfl
  | ok root =>
    dsimp only [Except.map, Except.mapError, bind, Except.bind]
    rw [compileRoot_move hf]
    cases compileRoot root <;> rfl

end

/-- Blanks and comments behind a token never change what is compiled: the assembly stays the same
or the failure does, but for the places in the diagnostics. -/
theorem layout_keeps_code {a b gap behind : List UInt8} {n fuel : Nat} {toks before : List Token}
    {lex : Lexer} (h : lexerCollectTokens fuel (lexerInit (a ++ b) behind) = some toks)
    (hsplit : Produces (lexerInit (a ++ b) behind) before lex) (hb : lex.src = b)
    (hgap : Gap n gap) :
    ∃ toks', lexerCollectTokens fuel (lexerInit (a ++ (gap ++ b)) behind) = some toks' ∧
      ∀ depth garbage, (compile depth garbage toks').mapError (Stop.move Token.placeless) =
        (compile depth garbage toks).mapError (Stop.move Token.placeless) := by
  obtain ⟨front, hsrc, hcollect⟩ := hsplit.collectTokens_gap hgap h
  subst hb
  obtain rfl := List.append_cancel_right hsrc
  obtain ⟨toks', hcollect', hplaces⟩ := hcollect 0
  refine ⟨toks', hcollect', fun depth garbage => ?_⟩
  rw [← compile_move Token.placeless_moves, ← compile_move Token.placeless_moves, hplaces]

/-- `proc f() int { return 1; }` -/
def returnsOne : List Token :=
  [{ kind := .kwProc, len := 4 }, { Token.ident "f" with position := 5 },
    { kind := .lparen, position := 6 }, { kind := .rparen, position := 7 },
    { kind := .kwTypeInt, position := 9, len := 3 }, { kind := .lbrace, position := 13 },
    { kind := .kwReturn, position := 15, len := 6 }, { Token.num 1 with position := 22 },
    { kind := .semicolon, position := 23 }, { kind := .rbrace, position := 25 },
    { kind := .eof, position := 26 }]

/-- A comment between `return` and its value. -/
theorem layout_keeps_code_returnsOne : ∃ toks',
    lexerCollectTokens 11 (lexerInit (bytes "proc f() int \x7b return" ++
      (bytes " #\n" ++ bytes " 1; \x7d")) []) = some toks' ∧
      (compile 20 [] toks').toOption = some ([.global "f", .label (.proc "f"), .pushRbp, .movRbpRsp,
        .subRsp 0, .movImm ⟨.rax, .w32⟩ 1, .jmp .return_, .label .return_, .movRspRbp, .popRbp,
        .ret], []) := by
  have hcollect : lexerCollectTokens 11 (lexerInit (bytes "proc f() int \x7b return" ++
      bytes " 1; \x7d") []) = some returnsOne := by rfl
  have hsplit : Produces (lexerInit (bytes "proc f() int \x7b return" ++ bytes " 1; \x7d") [])
      (returnsOne.take 7) ⟨bytes " 1; \x7d", 21, []⟩ :=
    .cons (by rfl) (by decide) (.cons (by rfl) (by decide) (.cons (by rfl) (by decide)
      (.cons (by rfl) (by decide) (.cons (by rfl) (by decide) (.cons (by rfl) (by decide)
        (.cons (by rfl) (by decide) .nil))))))
  have hgap : Gap 2 (bytes " #\n") := .blank (by decide)
    (@Gap.comment 0 35 10 [] [] (by decide) (List.forall_mem_nil _) (by decide) .nil)
  obtain ⟨toks', hcollect', hcode⟩ := layout_keeps_code hcollect hsplit rfl hgap
  have hok (x : Except Stop (List Instr × List DataLine)) :
      (x.mapError (Stop.move Token.placeless)).toOption = x.toOption := by
    cases x <;> rfl
  have hsame := congrArg Except.toOption (hcode 20 [])
  rw [hok, hok] at hsame
  exact ⟨toks', hcollect', hsame.trans (by decide +kernel)⟩

end Seron
