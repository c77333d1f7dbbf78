import Seron.Ast

/-! # Traversal of the syntax tree

`parser_traverse_ast` and `parser_dispatch_ast`. The callbacks rewrite the node they are called
on and a state of their own. The traversal descends into the node the first callback leaves,
so that its recursion does not follow the tree it was started on; it takes the depth to which
it may go as an argument. -/

namespace Seron

abbrev Walk (σ : Type) : Type → Type := StateT σ (Except Failure)

variable {σ : Type}

/-- A call of the traversal on a pointer that may be NULL, behind a test for NULL. -/
def traverseOpt (f : AstNode → Walk σ AstNode) : Option AstNode → Walk σ (Option AstNode)
  | none => pure none
  | some node => do
    let node ← f node
    pure (some node)

def traverseList (f : AstNode → Walk σ AstNode) : List AstNode → Walk σ (List AstNode)
  | [] => pure []
  | node :: nodes => do
    let node ← f node
    let nodes ← traverseList f nodes
    pure (node :: nodes)

/-- The switch of `parser_traverse_ast`: the children in the order in which they are visited. -/
def traverseChildren (f : AstNode → Walk σ AstNode) : AstNode → Walk σ AstNode
  | .block stmts symboltable => do
    let stmts ← traverseList f stmts
    pure (.block stmts symboltable)
  | .array op values type offset => do
    let values ← traverseList f values
    pure (.array op values type offset)
  | .index op expr index => do
    let expr ← f expr
    let index ← f index
    pure (.index op expr index)
  | .assign op value target => do
    let value ← f value
    pure (.assign op value target)
  | .call op callee args => do
    let callee ← f callee
    let args ← traverseList f args
    pure (.call op callee args)
  | .for_ op vardecl condition assign body varType varIdent varExpr => do
    let vardecl ←
      match vardecl with
      | some vardecl => f vardecl
      | none => throw (.panic "root is NULL")
    let condition ← f condition
    let assign ← f assign
    let body ← f body
    pure (.for_ op (some vardecl) condition assign body varType varIdent varExpr)
  | .while_ op condition body => do
    let condition ← f condition
    let body ← f body
    pure (.while_ op condition body)
  | .return_ op expr => do
    let expr ← traverseOpt f expr
    pure (.return_ op expr)
  | .if_ op condition thenBody elseBody => do
    let condition ← f condition
    let thenBody ← f thenBody
    let elseBody ← traverseOpt f elseBody
    pure (.if_ op condition thenBody elseBody)
  | .grouping expr => do
    let expr ← f expr
    pure (.grouping expr)
  | .proc op ident body type symboltable stackSize => do
    let body ← traverseOpt f body
    pure (.proc op ident body type symboltable stackSize)
  | .vardecl op ident init type offset => do
    let init ← traverseOpt f init
    pure (.vardecl op ident init type offset)
  | .binop lhs rhs op kind => do
    let lhs ← f lhs
    let rhs ← f rhs
    pure (.binop lhs rhs op kind)
  | .unaryop node op kind => do
    let node ← f node
    pure (.unaryop node op kind)
  | .table op ident type => pure (.table op ident type)
  | .literal op kind => pure (.literal op kind)

/-- `parser_traverse_ast`, to at most the given depth. -/
def parserTraverseAst (fnPre fnPost : AstNode → Walk σ AstNode) : Nat → AstNode → Walk σ AstNode
  | 0, _ => throw .fuel
  | depth + 1, root => do
    let root ← fnPre root
    let root ← traverseChildren (parserTraverseAst fnPre fnPost depth) root
    fnPost root

/-! ## Depth -/

/-- A depth that no traversal of the compiler exceeds: when sugar is expanded on the way, a
`for` grows by two levels and an index expression by one. -/
def AstNode.traverseDepth : AstNode → Nat
  | .literal .. | .table .. => 1
  | .grouping e => e.traverseDepth + 1
  | .binop lhs rhs _ _ => max lhs.traverseDepth rhs.traverseDepth + 1
  | .unaryop e _ _ => e.traverseDepth + 1
  | .call _ callee args => max callee.traverseDepth (listDepth args) + 1
  | .block stmts _ => listDepth stmts + 1
  | .proc _ _ body _ _ _ => optDepth body + 1
  | .vardecl _ _ init _ _ => optDepth init + 1
  | .if_ _ cond thenBody elseBody =>
    max (max cond.traverseDepth thenBody.traverseDepth) (optDepth elseBody) + 1
  | .while_ _ cond body => max cond.traverseDepth body.traverseDepth + 1
  | .assign _ value target => max value.traverseDepth target.traverseDepth + 1
  | .return_ _ expr => optDepth expr + 1
  | .array _ values _ _ => listDepth values + 1
  | .for_ _ decl cond step body _ _ init =>
    max (max (optDepth decl) (max cond.traverseDepth step.traverseDepth))
      (max body.traverseDepth init.traverseDepth) + 3
  | .index _ e i => max e.traverseDepth i.traverseDepth + 2
where
  listDepth : List AstNode → Nat
    | [] => 0
    | node :: nodes => max node.traverseDepth (listDepth nodes)
  optDepth : Option AstNode → Nat
    | none => 0
    | some node => node.traverseDepth

/-! ## Dispatch on the node kind -/

structure AstDispatchEntry (σ : Type) where
  kind : AstNodeKind
  fnPre : Option (AstNode → Walk σ AstNode)
  fnPost : Option (AstNode → Walk σ AstNode)

def getDispatchEntry (node : AstNode) (table : List (AstDispatchEntry σ)) :
    Option (AstDispatchEntry σ) :=
  table.find? fun entry => node.kind = entry.kind

def dispatchCallbackPre (table : List (AstDispatchEntry σ)) (node : AstNode) : Walk σ AstNode :=
  match (getDispatchEntry node table).bind (·.fnPre) with
  | some fn => fn node
  | none => pure node

def dispatchCallbackPost (table : List (AstDispatchEntry σ)) (node : AstNode) : Walk σ AstNode :=
  match (getDispatchEntry node table).bind (·.fnPost) with
  | some fn => fn node
  | none => pure node

def parserDispatchAst (table : List (AstDispatchEntry σ)) (depth : Nat) (root : AstNode) :
    Walk σ AstNode :=
  parserTraverseAst (dispatchCallbackPre table) (dispatchCallbackPost table) depth root

end Seron
