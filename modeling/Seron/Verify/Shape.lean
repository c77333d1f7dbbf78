import Seron.Parser.Rules

/-! # The shape of parsed programs

Which kinds of nodes stand where in a tree the parser returns: declarations at the top level only,
blocks as the bodies of statements, expressions inside statements. -/

namespace Seron

inductive NodeClass where
  | expr | stmt | block | decl | program
  deriving DecidableEq, Repr

/-- The trees of each class. -/
inductive Shape : NodeClass → AstNode → Prop
  | literal {op : Token} {kind : LiteralKind} : Shape .expr (.literal op kind)
  | grouping {e : AstNode} : Shape .expr e → Shape .expr (.grouping e)
  | binop {lhs rhs : AstNode} {op : Token} {kind : BinOpKind} : Shape .expr lhs → Shape .expr rhs →
    Shape .expr (.binop lhs rhs op kind)
  | unaryop {e : AstNode} {op : Token} {kind : UnaryOpKind} : Shape .expr e →
    Shape .expr (.unaryop e op kind)
  | call {op : Token} {callee : AstNode} {args : List AstNode} : Shape .expr callee →
    (∀ e ∈ args, Shape .expr e) → Shape .expr (.call op callee args)
  | array {op : Token} {values : List AstNode} {type : Ty} {offset : Int} :
    (∀ e ∈ values, Shape .expr e) → Shape .expr (.array op values type offset)
  | assign {op : Token} {value target : AstNode} : Shape .expr value → Shape .expr target →
    Shape .expr (.assign op value target)
  | index {op : Token} {e i : AstNode} : Shape .expr e → Shape .expr i → Shape .expr (.index op e i)
  | exprstmt {e : AstNode} : Shape .expr e → Shape .stmt e
  | blockstmt {b : AstNode} : Shape .block b → Shape .stmt b
  | vardecl {op ident : Token} {init : Option AstNode} {type : Ty} {offset : Int} :
    (∀ e ∈ init, Shape .expr e) → Shape .stmt (.vardecl op ident init type offset)
  | if_ {op : Token} {cond thenBody : AstNode} {elseBody : Option AstNode} : Shape .expr cond →
    Shape .block thenBody → (∀ b ∈ elseBody, Shape .block b) →
    Shape .stmt (.if_ op cond thenBody elseBody)
  | while_ {op : Token} {cond body : AstNode} : Shape .expr cond → Shape .block body →
    Shape .stmt (.while_ op cond body)
  | for_ {op ident : Token} {cond step body init : AstNode} {type : Ty} : Shape .expr cond →
    Shape .expr step → Shape .block body → Shape .expr init →
    Shape .stmt (.for_ op none cond step body type ident init)
  | return_ {op : Token} {value : Option AstNode} : (∀ e ∈ value, Shape .expr e) →
    Shape .stmt (.return_ op value)
  | block {stmts : List AstNode} {table : Option Nat} : (∀ s ∈ stmts, Shape .stmt s) →
    Shape .block (.block stmts table)
  | proc {op ident : Token} {body : Option AstNode} {sig : ProcSignature} {table : Option Nat}
    {stackSize : Int} : (∀ b ∈ body, Shape .block b) →
    Shape .decl (.proc op ident body (.procedure sig) table stackSize)
  | table {op ident : Token} {type : Ty} : Shape .decl (.table op ident type)
  | program {decls : List AstNode} {table : Option Nat} : (∀ d ∈ decls, Shape .decl d) →
    Shape .program (.block decls table)

/-! ## What a rule returns -/

/-- Whenever the rule returns, the value satisfies the predicate. -/
def Returns {α : Type} (x : P α) (Q : α → Prop) : Prop :=
  ∀ p a q, x p = .ok a q → Q a

namespace Returns

variable {α β : Type} {x : P α} {f : α → P β} {Q : α → Prop} {R : β → Prop}

theorem pure {a : α} (h : Q a) : Returns (Pure.pure a : P α) Q := by
  intro p b q hb
  obtain ⟨rfl, -⟩ := P.pure_ok.mp hb
  exact h

theorem bind (hx : Returns x Q) (hf : ∀ a, Q a → Returns (f a) R) : Returns (x >>= f) R := by
  intro p b r h
  obtain ⟨a, q, ha, hb⟩ := P.bind_ok.mp h
  exact hf a (hx p a q ha) q b r hb

/-- The value of the first step does not matter. -/
theorem skip (hf : ∀ a, Returns (f a) R) : Returns (x >>= f) R :=
  bind (Q := fun _ => True) (fun _ _ _ _ => trivial) fun a _ => hf a

theorem ite {c : Prop} [Decidable c] {y : P α} (hx : Returns x Q) (hy : Returns y Q) :
    Returns (if c then x else y) Q := by
  split
  · exact hx
  · exact hy

theorem map {g : α → β} (hx : Returns x Q) (hg : ∀ a, Q a → R (g a)) : Returns (g <$> x) R :=
  bind hx fun a ha => pure (hg a ha)

/-- Panic mode never returns: it jumps. -/
theorem parserSync : Returns (parserSync : P α) Q := by
  intro p a q h
  simp only [Seron.parserSync] at h
  split at h
  · obtain ⟨-, p₁, -, hjump⟩ := P.bind_ok.mp h
    simp only [longjmpDecl] at hjump
    split at hjump <;> cases hjump
  · obtain ⟨-, p₁, -, hjump⟩ := P.bind_ok.mp h
    simp only [longjmpStmt] at hjump
    split at hjump <;> cases hjump

theorem outOfFuel : Returns (outOfFuel : P α) Q := nofun

end Returns

/-- What the rules that are called recursively return. -/
structure Rules.Shaped (r : Rules) : Prop where
  expr : Returns r.expr (Shape .expr)
  assign : Returns r.assign (Shape .expr)
  stmt : Returns r.stmt fun s => ∀ n ∈ s, Shape .stmt n

section
variable {r : Rules} (hr : r.Shaped)

include hr

theorem exprListLoop_shape {close : TokenKind} {fuel : Nat} {items : List AstNode}
    (hitems : ∀ e ∈ items, Shape .expr e) :
    Returns (exprListLoop r close fuel items) fun es => ∀ e ∈ es, Shape .expr e := by
  induction fuel generalizing items with
  | zero => exact .outOfFuel
  | succ fuel ih =>
    refine .skip fun _ => .ite (.pure hitems) (.bind hr.expr fun item hitem => .skip fun _ => ih ?_)
    intro e he
    rcases List.mem_append.mp he with he | he
    · exact hitems e he
    · rw [List.mem_singleton.mp he]
      exact hitem

theorem ruleUtilArglist_shape : Returns (ruleUtilArglist r) fun es => ∀ e ∈ es, Shape .expr e :=
  .skip fun _ => .bind (exprListLoop_shape hr (by simp)) fun _ h => .skip fun _ => .pure h

theorem ruleGrouping_shape : Returns (ruleGrouping r) (Shape .expr) :=
  .skip fun _ => .skip fun _ => .ite (.skip fun _ => .skip fun _ => .parserSync)
    (.bind hr.expr fun _ h => .skip fun _ => .pure (.grouping h))

theorem ruleExprPrimary_shape : Returns (ruleExprPrimary r) (Shape .expr) :=
  .skip fun _ => .skip fun _ => .ite (.skip fun _ => .skip fun _ => .pure .literal)
    (.skip fun _ => .ite (ruleGrouping_shape hr) (.skip fun _ => .parserSync))

theorem ruleExprCall_shape : Returns (ruleExprCall r) (Shape .expr) :=
  .bind (ruleExprPrimary_shape hr) fun _ h => .skip fun _ => .ite
    (.skip fun _ => .bind (ruleUtilArglist_shape hr) fun _ hargs => .pure (.call h hargs)) (.pure h)

theorem ruleExprIndex_shape : Returns (ruleExprIndex r) (Shape .expr) :=
  .bind (ruleExprCall_shape hr) fun _ h => .skip fun _ => .ite
    (.skip fun _ => .bind hr.expr fun _ hi => .skip fun _ => .pure (.index h hi)) (.pure h)

theorem ruleExprUnary_shape : Returns (ruleExprUnary r) (Shape .expr) :=
  .skip fun _ => .ite
    (.skip fun _ => .skip fun _ => .bind (ruleExprIndex_shape hr) fun _ h => .pure (.unaryop h))
    (ruleExprIndex_shape hr)

omit hr in
theorem templBinop_shape {fuel : Nat} {rule : P AstNode} {kinds : List TokenKind}
    (h : Returns rule (Shape .expr)) : Returns (templBinop fuel rule kinds) (Shape .expr) := by
  refine .bind h fun lhs hlhs => ?_
  induction fuel generalizing lhs with
  | zero => exact .outOfFuel
  | succ fuel ih =>
    exact .skip fun _ => .ite
      (.skip fun _ => .bind h fun rhs hrhs => .skip fun _ => ih _ (.binop hlhs hrhs)) (.pure hlhs)

theorem ruleExprLogOr_shape : Returns (ruleExprLogOr r) (Shape .expr) :=
  templBinop_shape <| templBinop_shape <| templBinop_shape <| templBinop_shape <|
    templBinop_shape <| templBinop_shape <| templBinop_shape <| templBinop_shape <|
      ruleExprUnary_shape hr

theorem ruleExprAssign_shape : Returns (ruleExprAssign r) (Shape .expr) :=
  .bind (ruleExprLogOr_shape hr) fun _ h => .skip fun _ => .ite
    (.skip fun _ => .bind hr.assign fun _ hv => .pure (.assign hv h)) (.pure h)

theorem ruleExpr_shape : Returns (ruleExpr r) (Shape .expr) :=
  .skip fun _ => .ite
    (.skip fun _ => .bind (exprListLoop_shape hr (by simp)) fun _ h => .skip fun _ =>
      .skip fun _ => .pure (.array h))
    (ruleExprAssign_shape hr)

omit hr in
theorem unlessToken_shape {kind : TokenKind} {x : P AstNode} (hx : Returns x (Shape .expr)) :
    Returns (unlessToken kind x) fun o => ∀ e ∈ o, Shape .expr e :=
  .skip fun _ => .ite (.pure nofun) (.map hx fun _ h _ he => by cases he; exact h)

theorem ruleExprstmt_shape : Returns (ruleExprstmt r) fun o => ∀ s ∈ o, Shape .stmt s :=
  .bind (unlessToken_shape hr.expr) fun _ h => .skip fun _ => .pure fun s hs => .exprstmt (h s hs)

theorem ruleStmtVardecl_shape : Returns (ruleStmtVardecl r) (Shape .stmt) :=
  .skip fun _ => .skip fun _ => .skip fun _ => .skip fun _ =>
    .bind (unlessToken_shape (.skip fun _ => hr.expr)) fun _ h => .skip fun _ => .pure (.vardecl h)

/-- A jump back into the loop resumes it with the statements collected so far. -/
theorem ruleStmtBlock_loop_shape {brace : Token} {me fuel : Nat} {stmts : List AstNode}
    (hstmts : ∀ s ∈ stmts, Shape .stmt s) :
    Returns (ruleStmtBlock.loop r brace me fuel stmts) fun ss => ∀ s ∈ ss, Shape .stmt s := by
  induction fuel generalizing stmts with
  | zero => exact .outOfFuel
  | succ fuel ih =>
    intro p ss q h
    simp only [ruleStmtBlock.loop] at h
    split at h
    · cases h
      exact hstmts
    · split at h
      · cases h
      · split at h
        · rename_i stmt p' hstmt
          refine ih (fun s hs => ?_) _ _ _ h
          rcases List.mem_append.mp hs with hs | hs
          · exact hstmts s hs
          · exact hr.stmt _ _ _ hstmt s (Option.mem_toList.mp hs)
        · split at h
          · exact ih hstmts _ _ _ h
          · cases h
        all_goals cases h

theorem ruleStmtBlock_shape : Returns (ruleStmtBlock r) (Shape .block) :=
  .skip fun _ => .skip fun _ => .bind (ruleStmtBlock_loop_shape hr (by simp)) fun _ h =>
    .skip fun _ => .pure (.block h)

theorem ruleStmtFor_shape : Returns (ruleStmtFor r) (Shape .stmt) :=
  .skip fun _ => .skip fun _ => .skip fun _ => .skip fun _ => .skip fun _ =>
    .bind hr.expr fun _ hinit => .skip fun _ => .bind hr.expr fun _ hcond => .skip fun _ =>
      .bind hr.expr fun _ hstep => .bind (ruleStmtBlock_shape hr) fun _ hbody =>
        .pure (.for_ hcond hstep hbody hinit)

theorem ruleStmtWhile_shape : Returns (ruleStmtWhile r) (Shape .stmt) :=
  .skip fun _ => .bind hr.expr fun _ hcond => .bind (ruleStmtBlock_shape hr) fun _ hbody =>
    .pure (.while_ hcond hbody)

theorem ruleStmtElse_shape : Returns (ruleStmtElse r) fun o => ∀ b ∈ o, Shape .block b :=
  .skip fun _ => .ite
    (.skip fun _ => .map (ruleStmtBlock_shape hr) fun _ h _ hb => by cases hb; exact h)
    (.pure nofun)

theorem ruleStmtIf_shape : Returns (ruleStmtIf r) (Shape .stmt) :=
  .skip fun _ => .bind hr.expr fun _ hcond => .bind (ruleStmtBlock_shape hr) fun _ hthen =>
    .bind (ruleStmtElse_shape hr) fun _ helse => .pure (.if_ hcond hthen helse)

theorem ruleStmtReturn_shape : Returns (ruleStmtReturn r) (Shape .stmt) :=
  .skip fun _ => .bind (unlessToken_shape hr.expr) fun _ h => .skip fun _ => .pure (.return_ h)

theorem ruleStmt_shape : Returns (ruleStmt r) fun o => ∀ s ∈ o, Shape .stmt s := by
  have some {x : P AstNode} {c : NodeClass} (hx : Returns x (Shape c))
      (hc : ∀ n, Shape c n → Shape .stmt n) :
      Returns (Option.some <$> x) fun o => ∀ s ∈ o, Shape .stmt s :=
    .map hx fun n h _ hs => by cases hs; exact hc n h
  exact .skip fun _ => .skip fun _ => .ite (some (ruleStmtBlock_shape hr) fun _ => .blockstmt)
    (.skip fun _ => .ite (some (ruleStmtVardecl_shape hr) fun _ h => h)
    (.skip fun _ => .ite (some (ruleStmtIf_shape hr) fun _ h => h)
    (.skip fun _ => .ite (some (ruleStmtWhile_shape hr) fun _ h => h)
    (.skip fun _ => .ite (some (ruleStmtFor_shape hr) fun _ h => h)
    (.skip fun _ => .ite (some (ruleStmtReturn_shape hr) fun _ h => h)
    (ruleExprstmt_shape hr))))))

omit hr in
theorem ruleUtilProcType_shape {named : Bool} :
    Returns (ruleUtilProcType r named) fun t => ∃ sig, t.2.2 = .procedure sig :=
  .skip fun _ => .skip fun _ => .skip fun _ => .skip fun _ => .pure ⟨_, rfl⟩

theorem ruleProcBody_shape : Returns (ruleProcBody r) fun o => ∀ b ∈ o, Shape .block b :=
  .skip fun _ => .ite (.skip fun _ => .pure nofun)
    (.map (ruleStmtBlock_shape hr) fun _ h _ hb => by cases hb; exact h)

theorem ruleDeclProc_shape : Returns (ruleDeclProc r) (Shape .decl) := by
  refine .bind ruleUtilProcType_shape ?_
  rintro ⟨op, ident, type⟩ ⟨sig, rfl⟩
  exact .bind (ruleProcBody_shape hr) fun _ h => .pure (.proc h)

theorem ruleDecl_shape : Returns (ruleDecl r) (Shape .decl) :=
  .skip fun _ => .skip fun _ => .ite (ruleDeclProc_shape hr) (.skip fun _ => .ite
    (.skip fun _ => .skip fun _ => .skip fun _ => .skip fun _ => .pure .table)
    (.skip fun _ => .skip fun _ => .parserSync))

theorem ruleProgram_loop_shape {fuel : Nat} {resumed : Bool} {decls : List AstNode}
    (hdecls : ∀ d ∈ decls, Shape .decl d) :
    Returns (ruleProgram.loop r fuel resumed decls) fun ds => ∀ d ∈ ds, Shape .decl d := by
  induction fuel generalizing resumed decls with
  | zero => exact .outOfFuel
  | succ fuel ih =>
    intro p ds q h
    simp only [ruleProgram.loop] at h
    split at h
    · cases h
      exact hdecls
    · split at h
      · rename_i decl p' hdecl
        refine ih (fun d hd => ?_) _ _ _ h
        rcases List.mem_append.mp hd with hd | hd
        · exact hdecls d hd
        · rw [List.mem_singleton.mp hd]
          exact ruleDecl_shape hr _ _ _ hdecl
      · exact ih hdecls _ _ _ h
      all_goals cases h

theorem ruleProgram_shape : Returns (ruleProgram r) (Shape .program) :=
  .bind (ruleProgram_loop_shape hr (by simp)) fun _ h => .pure (.program h)

end

theorem rules_shaped (fuel : Nat) : (rules fuel).Shaped := by
  induction fuel with
  | zero => exact ⟨.outOfFuel, .outOfFuel, .outOfFuel⟩
  | succ fuel ih => exact ⟨ruleExpr_shape ih, ruleExprAssign_shape ih, ruleStmt_shape ih⟩

/-- A tree that `parse` returns is a program. -/
theorem parse_shape {fuel : Nat} {garbage : List Nat} {toks : List Token} {root : AstNode}
    {p : Parser} (h : parse fuel garbage toks = .ok root p) : Shape .program root := by
  simp only [parse] at h
  cases hprogram : ruleProgram (rules fuel) { toks, garbage } with
  | ok root' p' =>
    simp only [hprogram] at h
    split at h <;> cases h
    exact ruleProgram_shape (rules_shaped fuel) _ _ _ hprogram
  | _ => simp [hprogram] at h

/-! ## Concrete programs -/

/-- Runs a test on the tree that a parse returns. -/
def parsesTo (test : AstNode → Bool) (fuel : Nat) (toks : List Token) : Bool :=
  match parse fuel [] toks with
  | .ok root _ => test root
  | _ => false

theorem of_parsesTo {test : AstNode → Bool} {fuel : Nat} {toks : List Token}
    (h : parsesTo test fuel toks = true) :
    ∃ root p, parse fuel [] toks = .ok root p ∧ test root = true := by
  unfold parsesTo at h
  split at h
  · rename_i root p hparse
    exact ⟨root, p, hparse, h⟩
  · cases h

end Seron
