import Seron.Verify.Typing

/-! # Valid statements

The rules for the statements and declarations of an annotated tree, and that the code generator
accepts what follows them. -/

namespace Seron

/-! ## The rules -/

/-- The statement or declaration follows the rules in the scope. -/
inductive Valid (tables : List Hashtable) : Option Nat → AstNode → Prop
  | expr {scope : Option Nat} {e : AstNode} {ty : Ty} : Typed (sight tables scope) e ty →
    Valid tables scope e
  | vardecl {scope : Option Nat} {op ident : Token} {init : Option AstNode} {type : Ty}
      {offset : Int} :
    (∀ e ∈ init, ∃ ty, Typed (sight tables scope) e ty ∧ type.kind = ty.kind ∧ ty.Fits) →
    Valid tables scope (.vardecl op ident init type offset)
  /-- A value that is returned need not have the type of the procedure. -/
  | return_ {scope : Option Nat} {op : Token} {value : Option AstNode} :
    (∀ e ∈ value, ∃ ty, Typed (sight tables scope) e ty) → Valid tables scope (.return_ op value)
  | if_ {scope : Option Nat} {op : Token} {cond thenBody : AstNode} {elseBody : Option AstNode}
    {ty : Ty} : Typed (sight tables scope) cond ty → ty.Fits → Valid tables scope thenBody →
    (∀ b ∈ elseBody, Valid tables scope b) → Valid tables scope (.if_ op cond thenBody elseBody)
  | while_ {scope : Option Nat} {op : Token} {cond body : AstNode} {ty : Ty} :
    Typed (sight tables scope) cond ty → ty.Fits → Valid tables scope body →
    Valid tables scope (.while_ op cond body)
  | block {scope table : Option Nat} {stmts : List AstNode} :
    (∀ stmt ∈ stmts, Valid tables table stmt) → Valid tables scope (.block stmts table)
  | table {scope : Option Nat} {op ident : Token} {type : Ty} :
    Valid tables scope (.table op ident type)
  | external {scope table : Option Nat} {op ident : Token} {type : Ty} {stackSize : Int} :
    Valid tables scope (.proc op ident none type table stackSize)
  | proc {scope table : Option Nat} {op ident : Token} {body : AstNode} {sig : ProcSignature}
    {stackSize : Int} : (∀ param ∈ sig.params, param.type.Fits) → Valid tables scope body →
    Valid tables scope (.proc op ident (some body) (.procedure sig) table stackSize)

/-! ## One construct -/

variable {tables : List Hashtable} {scope table : Option Nat} {node : AstNode} {nodes : List AstNode}
  {op ident : Token}

section
variable (tables : List Hashtable) (scope : Option Nat) (node : AstNode)

/-- The check of the statement succeeds iff it follows the rules. -/
def ValidExactly : Prop := (∃ ty, check tables node scope = .ok ty) ↔ Valid tables scope node

end

namespace Valid

theorem expr_iff (h : Shape .expr node) :
    Valid tables scope node ↔ ∃ ty, Typed (sight tables scope) node ty := by
  constructor
  · intro hvalid
    cases hvalid with
    | expr htyped => exact ⟨_, htyped⟩
    | _ => cases h
  · rintro ⟨ty, htyped⟩
    exact .expr htyped

theorem vardecl_iff {init : Option AstNode} {type : Ty} {offset : Int} :
    Valid tables scope (.vardecl op ident init type offset) ↔
      ∀ e ∈ init, ∃ ty, Typed (sight tables scope) e ty ∧ type.kind = ty.kind ∧ ty.Fits := by
  refine ⟨fun hvalid => ?_, .vardecl⟩
  cases hvalid with
  | expr htyped => cases htyped
  | vardecl hinit => exact hinit

theorem return_iff {value : Option AstNode} : Valid tables scope (.return_ op value) ↔
    ∀ e ∈ value, ∃ ty, Typed (sight tables scope) e ty := by
  refine ⟨fun hvalid => ?_, .return_⟩
  cases hvalid with
  | expr htyped => cases htyped
  | return_ hvalue => exact hvalue

theorem if_iff {cond thenBody : AstNode} {elseBody : Option AstNode} :
    Valid tables scope (.if_ op cond thenBody elseBody) ↔
      (∃ ty, Typed (sight tables scope) cond ty ∧ ty.Fits) ∧ Valid tables scope thenBody ∧
        ∀ b ∈ elseBody, Valid tables scope b := by
  constructor
  · intro hvalid
    cases hvalid with
    | expr htyped => cases htyped
    | if_ hcond hfits hthen helse => exact ⟨⟨_, hcond, hfits⟩, hthen, helse⟩
  · rintro ⟨⟨ty, hcond, hfits⟩, hthen, helse⟩
    exact .if_ hcond hfits hthen helse

theorem while_iff {cond body : AstNode} : Valid tables scope (.while_ op cond body) ↔
    (∃ ty, Typed (sight tables scope) cond ty ∧ ty.Fits) ∧ Valid tables scope body := by
  constructor
  · intro hvalid
    cases hvalid with
    | expr htyped => cases htyped
    | while_ hcond hfits hbody => exact ⟨⟨_, hcond, hfits⟩, hbody⟩
  · rintro ⟨⟨ty, hcond, hfits⟩, hbody⟩
    exact .while_ hcond hfits hbody

theorem block_iff : Valid tables scope (.block nodes table) ↔
    ∀ stmt ∈ nodes, Valid tables table stmt := by
  refine ⟨fun hvalid => ?_, .block⟩
  cases hvalid with
  | expr htyped => cases htyped
  | block hstmts => exact hstmts

theorem proc_iff {body : AstNode} {sig : ProcSignature} {stackSize : Int} :
    Valid tables scope (.proc op ident (some body) (.procedure sig) table stackSize) ↔
      (∀ param ∈ sig.params, param.type.Fits) ∧ Valid tables scope body := by
  constructor
  · intro hvalid
    cases hvalid with
    | expr htyped => cases htyped
    | proc hparams hbody => exact ⟨hparams, hbody⟩
  · rintro ⟨hparams, hbody⟩
    exact .proc hparams hbody

end Valid

theorem check_statement {x : Check Unit} :
    (∃ ty, (do x; pure .void : Check Ty) scope = .ok ty) ↔ x scope = .ok () := by
  simp only [Check.then_ok]
  constructor
  · rintro ⟨ty, hx, -⟩
    exact hx
  · intro hx
    exact ⟨.void, hx, rfl⟩

theorem Check.opt_ok {value : Option AstNode} : Check.opt (checkOpt tables value) scope = .ok () ↔
    ∀ e ∈ value, ∃ ty, check tables e scope = .ok ty := by
  cases value with
  | none => exact iff_of_true rfl (by simp)
  | some e =>
    rw [checkOpt, Check.opt, Check.discard_ok]
    simp

theorem vardecl_valid {init : Option AstNode} {type : Ty} {offset : Int}
    (h : ∀ e ∈ init, TypesExactly tables scope e) :
    ValidExactly tables scope (.vardecl op ident init type offset) := by
  rw [ValidExactly, Valid.vardecl_iff, check, check_statement]
  cases init with
  | none => exact iff_of_true rfl (by simp)
  | some e =>
    rw [checkOpt, Check.vardecl, Check.bind_ok]
    simp only [Option.mem_some_iff, forall_eq']
    refine exists_congr fun ty => and_congr (h e rfl ty) ?_
    split
    · rename_i hne
      exact iff_of_false Check.mismatch_ok.mp fun hkinds => hne hkinds.1
    · rename_i heq
      rw [Check.sized_ok_fits, and_iff_right (not_not.mp heq)]

theorem return_valid {value : Option AstNode} (h : ∀ e ∈ value, TypesExactly tables scope e) :
    ValidExactly tables scope (.return_ op value) := by
  rw [ValidExactly, Valid.return_iff, check, check_statement, Check.opt_ok]
  exact forall₂_congr fun e he => exists_congr (h e he)

theorem if_valid {cond thenBody : AstNode} {elseBody : Option AstNode}
    (hc : TypesExactly tables scope cond) (ht : ValidExactly tables scope thenBody)
    (he : ∀ b ∈ elseBody, ValidExactly tables scope b) :
    ValidExactly tables scope (.if_ op cond thenBody elseBody) := by
  unfold ValidExactly at ht he ⊢
  rw [Valid.if_iff, ← ht, check, check_statement, Check.cond, Check.bind_ok]
  simp only [Check.then_ok, Check.discard_ok, Check.sized_ok_fits, Check.opt_ok, hc _,
    forall₂_congr he]
  constructor
  · rintro ⟨ty, htyped, hfits, hrest⟩
    exact ⟨⟨ty, htyped, hfits⟩, hrest⟩
  · rintro ⟨⟨ty, htyped, hfits⟩, hrest⟩
    exact ⟨ty, htyped, hfits, hrest⟩

theorem while_valid {cond body : AstNode} (hc : TypesExactly tables scope cond)
    (hb : ValidExactly tables scope body) : ValidExactly tables scope (.while_ op cond body) := by
  unfold ValidExactly at hb ⊢
  rw [Valid.while_iff, ← hb, check, check_statement, Check.while_, Check.then_ok,
    Check.discard_ok, Check.bind_ok, and_comm]
  simp only [Check.sized_ok_fits, hc _]

theorem block_valid (h : ∀ stmt ∈ nodes, ValidExactly tables table stmt) :
    ValidExactly tables scope (.block nodes table) := by
  rw [ValidExactly, Valid.block_iff, check, check_statement]
  exact Check.seq_ok.trans (forall₂_congr h)

theorem proc_valid {body : Option AstNode} {sig : ProcSignature} {stackSize : Int}
    (h : ∀ b ∈ body, ValidExactly tables scope b) :
    ValidExactly tables scope (.proc op ident body (.procedure sig) table stackSize) := by
  unfold ValidExactly at h ⊢
  cases body with
  | none => exact iff_of_true ⟨_, rfl⟩ .external
  | some body =>
    rw [Valid.proc_iff, ← h body rfl, check, checkOpt, check_statement, Check.proc, Check.then_ok,
      Check.discard_ok]
    exact and_congr_left' (Unique.exists_iff.symm.trans Check.params_ok)

/-! ## Trees -/

theorem expr_valid (h : Shape .expr node) : ValidExactly tables scope node := by
  rw [ValidExactly, Valid.expr_iff h]
  exact exists_congr (check_typed h).1

/-- The check of a tree succeeds iff the tree follows the rules. -/
theorem check_valid {k : NodeClass} (hshape : Shape k node) : ValidExactly tables scope node := by
  induction hshape generalizing scope with
  | literal => exact expr_valid .literal
  | grouping h => exact expr_valid (.grouping h)
  | binop hl hr => exact expr_valid (.binop hl hr)
  | unaryop h => exact expr_valid (.unaryop h)
  | call hc hargs => exact expr_valid (.call hc hargs)
  | array h => exact expr_valid (.array h)
  | assign hv ht => exact expr_valid (.assign hv ht)
  | index he hi => exact expr_valid (.index he hi)
  | exprstmt _ ih | blockstmt _ ih => exact ih
  | vardecl h => exact vardecl_valid fun e he => (check_typed (h e he)).1
  | if_ hc _ _ _ ihthen ihelse => exact if_valid (check_typed hc).1 ihthen fun b hb => ihelse b hb
  | while_ hc _ _ ihbody => exact while_valid (check_typed hc).1 ihbody
  | for_ =>
    refine iff_of_false ?_ fun hvalid => ?_
    · rintro ⟨ty, hcheck⟩
      rw [check] at hcheck
      cases hcheck
    · cases hvalid with
      | expr htyped => cases htyped
  | return_ h => exact return_valid fun e he => (check_typed (h e he)).1
  | block _ ih | program _ ih => exact block_valid fun s hs => ih s hs
  | proc _ ih => exact proc_valid fun b hb => ih b hb
  | table => exact iff_of_true ⟨_, rfl⟩ .table

end Seron
