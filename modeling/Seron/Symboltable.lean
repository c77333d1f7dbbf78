import Seron.Traverse
import Seron.Hashtable

/-! # The symbol table

`symboltable.c`. All tables live in one list (the arena); `head` and `parent` are indices
into it. -/

namespace Seron

structure Symboltable where
  head : Option Nat := none
  tables : List Hashtable := []
  stackSize : Int := 0

/-- Follows the parents from `scope`, visiting at most `fuel` tables. -/
def lookupChain (tables : List Hashtable) (key : String) :
    Nat → Option Nat → Except Failure (Option Symbol)
  | _, none => .ok none
  | 0, some _ => .error .fuel
  | fuel + 1, some scope =>
    match tables[scope]? with
    | none => .error (.undefined "dangling table")
    | some ht => do
      match ← hashtableGet ht key with
      | some sym => pure (some sym)
      | none => lookupChain tables key fuel ht.parent

/-- Returns NULL if the key was not found. A chain of parents is at most as long as there are
tables, since the parent of a table is older than the table. -/
def symboltableLookup (tables : List Hashtable) (scope : Option Nat) (key : String) :
    Except Failure (Option Symbol) :=
  match scope with
  | none => .error (.panic "scope is NULL")
  | some scope => lookupChain tables key (tables.length + 1) (some scope)

/-- Pushes a new table and returns it. -/
def symboltablePush : Walk Symboltable Nat := fun st =>
  let ht := { hashtableInit 50 with parent := st.head }
  .ok (st.tables.length,
    { st with head := some st.tables.length, tables := st.tables ++ [ht] })

def symboltablePop : Walk Symboltable Unit := fun st =>
  match st.head.bind (st.tables[·]?) with
  | some ht => .ok ((), { st with head := ht.parent })
  | none => .error (.undefined "st->head is NULL")

/-- `hashtable_insert` into a table of the arena; no caller looks at its result. -/
def symboltableInsert (table : Option Nat) (key : String) (value : Symbol) :
    Walk Symboltable Unit := fun st =>
  match table with
  | none => .error (.panic "ht is NULL")
  | some table =>
    match st.tables[table]? with
    | none => .error (.undefined "dangling table")
    | some ht => do
      let (ht, _) ← hashtableInsert ht key value
      pure ((), { st with tables := st.tables.set table ht })

def symboltableHead : Walk Symboltable (Option Nat) := fun st => .ok (st.head, st)

/-! ## The callbacks -/

def blockPre : AstNode → Walk Symboltable AstNode
  | .block stmts _ => do
    let table ← symboltablePush
    pure (.block stmts (some table))
  | node => pure node

def blockPost (node : AstNode) : Walk Symboltable AstNode := do
  symboltablePop
  pure node

def arrayPre : AstNode → Walk Symboltable AstNode
  | .array op values type _ => fun st => do
    let elemSize ← typePrimitiveSize type.kind
    let elemSize := align16 elemSize
    pure (.array op values type (st.stackSize + elemSize),
      { st with stackSize := st.stackSize + (elemSize * values.length + elemSize) })
  | node => pure node

def vardeclPre : AstNode → Walk Symboltable AstNode
  | .vardecl op ident init type _ => do
    let offset ← fun st => do
      let size ← typePrimitiveSize type.kind
      let stackSize := st.stackSize + align16 size
      pure (stackSize, { st with stackSize })
    symboltableInsert (← symboltableHead) ident.value { kind := .variable, type, offset }
    pure (.vardecl op ident init type offset)
  | node => pure node

def procPre : AstNode → Walk Symboltable AstNode
  | .proc op ident body type symboltable stackSize => do
    symboltableInsert (← symboltableHead) ident.value { kind := .procedure, type }
    if body.isSome then modify fun st => { st with stackSize := 0 }
    pure (.proc op ident body type symboltable stackSize)
  | node => pure node

/-- The loop over the parameters of `proc_post`: a slot and a symbol for each. -/
def procPostParams (table : Option Nat) : List Param → Walk Symboltable (List Param)
  | [] => pure []
  | param :: params => do
    let offset ← fun st => do
      let size ← typePrimitiveSize param.type.kind
      pure (st.stackSize + size, { st with stackSize := st.stackSize + size })
    symboltableInsert table param.ident { kind := .parameter, type := param.type, offset }
    let params ← procPostParams table params
    pure ({ param with offset } :: params)

def procPost : AstNode → Walk Symboltable AstNode
  | .proc op ident body type symboltable stackSize =>
    match body with
    | none => pure (.proc op ident none type symboltable stackSize)
    | some (.block stmts table) =>
      match type with
      | .procedure sig => do
        let params ← procPostParams table sig.params
        let st ← get
        pure (.proc op ident (some (.block stmts table)) (.procedure { sig with params }) table
          st.stackSize)
      | _ => throw (.undefined "proc->type.signature")
    | some _ => throw (.panic "proc->body->kind == ASTNODE_BLOCK")
  | node => pure node

def tablePre : AstNode → Walk Symboltable AstNode
  | .table op ident type => do
    symboltableInsert (← symboltableHead) ident.value { kind := .table, type }
    pure (.table op ident type)
  | node => pure node

def symboltableTable : List (AstDispatchEntry Symboltable) :=
  [⟨.block, some blockPre, some blockPost⟩,
   ⟨.vardecl, some vardeclPre, none⟩,
   ⟨.proc, some procPre, some procPost⟩,
   ⟨.table, some tablePre, none⟩,
   ⟨.array, some arrayPre, none⟩]

/-- Annotates the tree and returns it with the tables. -/
def symboltableBuild (root : AstNode) : Except Failure (AstNode × Symboltable) :=
  (parserDispatchAst symboltableTable root.traverseDepth root).run {}

end Seron
