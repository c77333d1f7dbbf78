import Seron.Types

/-! # The syntax tree

`AstNode` of `parser.h`: one constructor for each member of the union, with the fields of
that member in the source's order. Pointers that may be NULL are options. The annotations
that `symboltable_build` fills in (`symboltable`, `stackSize`, `offset`) are part of the
node, as in the source; a symbol table is named by its index among all tables. -/

namespace Seron

inductive LiteralKind where
  | string | number | ident
  deriving DecidableEq, Repr

inductive BinOpKind where
  | add | sub | mul | div | eq | neq | gt | gtEq | lt | ltEq
  | bitwiseOr | bitwiseAnd | logOr | logAnd
  deriving DecidableEq, Repr

inductive UnaryOpKind where
  | minus | neg | addrof | deref
  deriving DecidableEq, Repr

inductive AstNodeKind where
  | literal | grouping | binop | unaryop | call | block | proc | vardecl
  | if_ | while_ | assign | return_ | table | array | for_ | index
  deriving DecidableEq, Repr

inductive AstNode where
  | literal (op : Token) (kind : LiteralKind)
  | grouping (expr : AstNode)
  | binop (lhs rhs : AstNode) (op : Token) (kind : BinOpKind)
  | unaryop (node : AstNode) (op : Token) (kind : UnaryOpKind)
  | call (op : Token) (callee : AstNode) (args : List AstNode)
  | block (stmts : List AstNode) (symboltable : Option Nat)
  | proc (op ident : Token) (body : Option AstNode) (type : Ty)
      (symboltable : Option Nat) (stackSize : Int)
  | vardecl (op ident : Token) (init : Option AstNode) (type : Ty) (offset : Int)
  | if_ (op : Token) (condition thenBody : AstNode) (elseBody : Option AstNode)
  | while_ (op : Token) (condition body : AstNode)
  | assign (op : Token) (value target : AstNode)
  | return_ (op : Token) (expr : Option AstNode)
  | table (op ident : Token) (type : Ty)
  | array (op : Token) (values : List AstNode) (type : Ty) (offset : Int)
  | for_ (op : Token) (vardecl : Option AstNode) (condition assign body : AstNode)
      (varType : Ty) (varIdent : Token) (varExpr : AstNode)
  | index (op : Token) (expr index : AstNode)

namespace AstNode

def kind : AstNode → AstNodeKind
  | literal .. => .literal
  | grouping .. => .grouping
  | binop .. => .binop
  | unaryop .. => .unaryop
  | call .. => .call
  | block .. => .block
  | proc .. => .proc
  | vardecl .. => .vardecl
  | if_ .. => .if_
  | while_ .. => .while_
  | assign .. => .assign
  | return_ .. => .return_
  | table .. => .table
  | array .. => .array
  | for_ .. => .for_
  | index .. => .index

/-- Induction on trees, with the hypothesis for the members of a list of children. -/
@[elab_as_elim]
theorem induct {P : AstNode → Prop}
    (literal : ∀ op kind, P (.literal op kind))
    (grouping : ∀ expr, P expr → P (.grouping expr))
    (binop : ∀ lhs rhs op kind, P lhs → P rhs → P (.binop lhs rhs op kind))
    (unaryop : ∀ node op kind, P node → P (.unaryop node op kind))
    (call : ∀ op callee args, P callee → (∀ n ∈ args, P n) → P (.call op callee args))
    (block : ∀ stmts symboltable, (∀ n ∈ stmts, P n) → P (.block stmts symboltable))
    (proc : ∀ op ident body type symboltable stackSize, (∀ n ∈ body, P n) →
      P (.proc op ident body type symboltable stackSize))
    (vardecl : ∀ op ident init type offset, (∀ n ∈ init, P n) →
      P (.vardecl op ident init type offset))
    (if_ : ∀ op condition thenBody elseBody, P condition → P thenBody →
      (∀ n ∈ elseBody, P n) → P (.if_ op condition thenBody elseBody))
    (while_ : ∀ op condition body, P condition → P body → P (.while_ op condition body))
    (assign : ∀ op value target, P value → P target → P (.assign op value target))
    (return_ : ∀ op expr, (∀ n ∈ expr, P n) → P (.return_ op expr))
    (table : ∀ op ident type, P (.table op ident type))
    (array : ∀ op values type offset, (∀ n ∈ values, P n) → P (.array op values type offset))
    (for_ : ∀ op vardecl condition assign body varType varIdent varExpr,
      (∀ n ∈ vardecl, P n) → P condition → P assign → P body → P varExpr →
      P (.for_ op vardecl condition assign body varType varIdent varExpr))
    (index : ∀ op expr index, P expr → P index → P (.index op expr index)) (n : AstNode) : P n := by
  refine @AstNode.rec P (fun ns => ∀ n ∈ ns, P n) (fun o => ∀ n ∈ o, P n) literal grouping binop unaryop call block proc vardecl
    if_ while_ assign return_ table array for_ index ?_ ?_ ?_ ?_ n
  · simp
  · intro head tail hhead htail n hn
    rcases List.mem_cons.mp hn with rfl | hn
    · exact hhead
    · exact htail n hn
  · simp
  · intro val hval n hn
    cases hn
    exact hval

end AstNode

end Seron
