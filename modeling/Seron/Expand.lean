import Seron.Traverse

/-! # Expansion of syntactic sugar

`expand.c`: `for` becomes a block with a `while`, an index expression becomes the dereference
of a sum. -/

namespace Seron

/-- ```
for <vardecl>, <cond>, <assign> { <body> }   ~>   { <vardecl> while <cond> { <body> <assign> } }
``` -/
def forPre : AstNode → Walk Unit AstNode
  | .for_ op _ condition assign body varType varIdent varExpr =>
    match body with
    | .block stmts symboltable =>
      let vardecl := .vardecl op varIdent (some varExpr) varType 0
      let while_ := .while_ op condition (.block (stmts ++ [assign]) symboltable)
      pure (.block [vardecl, while_] none)
    | _ => throw (.panic "while_->stmt_while.body->kind == ASTNODE_BLOCK")
  | node => pure node

/-- `<expr> [ <index> ]   ~>   *(<expr> + <index>)` -/
def indexPre : AstNode → Walk Unit AstNode
  | .index op expr index => pure (.unaryop (.binop expr index op .add) op .deref)
  | node => pure node

def expandTable : List (AstDispatchEntry Unit) :=
  [⟨.for_, some forPre, none⟩, ⟨.index, some indexPre, none⟩]

def expandAst (root : AstNode) : Except Failure AstNode :=
  (parserDispatchAst expandTable root.traverseDepth root).run' ()

end Seron
