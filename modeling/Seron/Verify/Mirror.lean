import Seron.Verify.Scoping
import Seron.Verify.Parallel

/-! # Tables and blocks

Every block of an annotated program has a table of its own, with the declarations that stand in the
block and the table of the block around it as its parent. The code generator is in the scope of the
innermost block whenever it comes to a node. -/

namespace Seron

/-! ## Blocks and what is around them -/

/-- A block, the table of the innermost block around it, and the parameters that belong to it. -/
structure BlockSite where
  scope : Option Nat
  params : List Param
  stmts : List AstNode
  table : Option Nat

def Ty.params : Ty → List Param
  | .procedure sig => sig.params
  | _ => []

/-- The blocks of a tree in a scope. The parameters belong to the body of their procedure. -/
def AstNode.blocks (scope : Option Nat) (params : List Param) : AstNode → List BlockSite
  | .block stmts t => ⟨scope, params, stmts, t⟩ :: list t stmts
  | .proc _ _ body type _ _ => opt scope type.params body
  | .grouping e => e.blocks scope []
  | .binop lhs rhs _ _ => lhs.blocks scope [] ++ rhs.blocks scope []
  | .unaryop e _ _ => e.blocks scope []
  | .call _ callee args => callee.blocks scope [] ++ list scope args
  | .vardecl _ _ init _ _ => opt scope [] init
  | .if_ _ cond thenBody elseBody =>
    cond.blocks scope [] ++ (thenBody.blocks scope [] ++ opt scope [] elseBody)
  | .while_ _ cond body => cond.blocks scope [] ++ body.blocks scope []
  | .assign _ value target => value.blocks scope [] ++ target.blocks scope []
  | .return_ _ e => opt scope [] e
  | .array _ values _ _ => list scope values
  | .for_ _ decl cond step body _ _ init => opt scope [] decl ++ (cond.blocks scope [] ++
    (step.blocks scope [] ++ (body.blocks scope [] ++ init.blocks scope [])))
  | .index _ e i => e.blocks scope [] ++ i.blocks scope []
  | .literal .. | .table .. => []
where
  list (scope : Option Nat) : List AstNode → List BlockSite
    | [] => []
    | node :: nodes => node.blocks scope [] ++ list scope nodes
  opt (scope : Option Nat) (params : List Param) : Option AstNode → List BlockSite
    | none => []
    | some node => node.blocks scope params

/-- The declarations that stand in the block: those of the top level in the block of the program,
else the variables and behind them the parameters. -/
def BlockSite.symbols (globals : List (String × Symbol)) (b : BlockSite) : List (String × Symbol) :=
  match b.scope with
  | none => globals
  | some _ => b.stmts.flatMap AstNode.declared ++ b.params.map Param.declared

/-- The tables of all blocks of a tree. -/
def AstNode.blockTables (node : AstNode) : List (Option Nat) :=
  node.subtrees.filterMap fun
    | .block _ t => some t
    | _ => none

variable {scope : Option Nat} {params : List Param} {node node' : AstNode} {b : BlockSite}
  {tables : List Hashtable} {st st' : Symboltable} {lo : Nat}

namespace AstNode

theorem blocks_list (nodes : List AstNode) :
    blocks.list scope nodes = nodes.flatMap (blocks scope []) := by
  induction nodes with
  | nil => rfl
  | cons node nodes ih => rw [blocks.list, ih, List.flatMap_cons]

theorem blocks_opt (node : Option AstNode) :
    blocks.opt scope params node = node.toList.flatMap (blocks scope params) := by
  cases node <;> simp [blocks.opt]

theorem blocks_block {stmts : List AstNode} {t : Option Nat} :
    (block stmts t).blocks scope params =
      ⟨scope, params, stmts, t⟩ :: stmts.flatMap (blocks t []) := by
  rw [blocks, blocks_list]

/-- The blocks of a node that is neither a block nor a procedure are those of its parts. -/
theorem blocks_eq (hblock : node.kind ≠ .block) (hproc : node.kind ≠ .proc) :
    node.blocks scope params = node.parts.flatMap (blocks scope []) := by
  cases node
  case block => exact absurd rfl hblock
  case proc => exact absurd rfl hproc
  all_goals simp [blocks, parts, children, blocks_list, blocks_opt]

theorem parts_eq (node : AstNode) : node.parts = node.children ++ node.unvisited := by
  cases node
  case for_ => simp [parts, children, unvisited]
  case assign => rfl
  all_goals exact (List.append_nil _).symm

theorem blockTables_eq (hblock : node.kind ≠ .block) :
    node.blockTables = node.parts.flatMap blockTables := by
  have hhead : (match node with
    | .block _ t => some t
    | _ => none) = none := by
    cases node
    case block => exact absurd rfl hblock
    all_goals rfl
  rw [blockTables, subtrees_eq, List.filterMap_cons, hhead, List.filterMap_flatMap]
  rfl

theorem blockTables_block {stmts : List AstNode} {t : Option Nat} :
    (block stmts t).blockTables = t :: stmts.flatMap blockTables := by
  rw [blockTables, subtrees_eq, List.filterMap_cons, List.filterMap_flatMap]
  rfl

/-- All blocks are listed. -/
theorem map_table_blocks (node : AstNode) (scope : Option Nat) (params : List Param) :
    (node.blocks scope params).map (·.table) = node.blockTables := by
  induction node using parts_induct generalizing scope params with
  | step node ih =>
    have hlist {nodes : List AstNode} {s : Option Nat} {ps : List Param}
        (hnodes : ∀ c ∈ nodes, c ∈ node.parts) :
        (nodes.flatMap (blocks s ps)).map (·.table) = nodes.flatMap blockTables := by
      rw [List.map_flatMap]
      exact List.flatMap_congr fun c hc => ih c (hnodes c hc) s ps
    by_cases hblock : node.kind = .block
    · cases node
      case block stmts t =>
        rw [blocks_block, blockTables_block, List.map_cons]
        exact congrArg (t :: ·) (hlist fun c hc => hc)
      all_goals cases hblock
    · rw [blockTables_eq hblock]
      by_cases hproc : node.kind = .proc
      · cases node
        case proc op ident body type table size =>
          rw [blocks, blocks_opt]
          exact hlist fun c hc => hc
        all_goals cases hproc
      · rw [blocks_eq hblock hproc]
        exact hlist fun c hc => hc

end AstNode

/-- There are no blocks in expressions. -/
theorem Shape.blockTables_expr (h : Shape .expr node) : node.blockTables = [] := by
  induction node using AstNode.parts_induct with
  | step node ih =>
    have hkind : node.kind ≠ .block := by cases h <;> simp [AstNode.kind]
    rw [AstNode.blockTables_eq hkind]
    exact List.flatMap_eq_nil_iff.mpr fun c hc => ih c hc (h.expr_part hc)

theorem Shape.blocks_expr (h : Shape .expr node) : node.blocks scope params = [] := by
  have htables := AstNode.map_table_blocks node scope params
  rw [h.blockTables_expr] at htables
  exact List.map_eq_nil_iff.mp htables

/-! ## Numbers of tables -/

theorem symboltableInsert_length {table : Option Nat} {key : String} {value : Symbol}
    (h : symboltableInsert table key value st = .ok ((), st')) :
    st'.tables.length = st.tables.length := by
  obtain ⟨t, ht, ht', r, -, -, -, rfl⟩ := symboltableInsert_ok h
  exact List.length_set

theorem procPostParams_length {table : Option Nat} {ps ps' : List Param}
    (h : procPostParams table ps st = .ok (ps', st')) :
    st'.tables.length = st.tables.length := by
  induction ps generalizing ps' st with
  | nil =>
    cases h
    rfl
  | cons param ps ih =>
    obtain ⟨offset, st₁, hoffset, h₁⟩ := StateT.bind_ok.mp h
    obtain ⟨size, -, heq⟩ := Except.bind_ok.mp hoffset
    cases heq
    obtain ⟨u, st₂, hins, h₂⟩ := StateT.bind_ok.mp h₁
    obtain ⟨rest, st₃, hrest, h₃⟩ := StateT.bind_ok.mp h₂
    cases h₃
    have hlen := symboltableInsert_length hins
    exact (ih hrest).trans hlen

/-- Only blocks make new tables. -/
theorem PreStep.length (h : PreStep node st node' st') (hblock : node.kind ≠ .block) :
    st'.tables.length = st.tables.length := by
  cases h with
  | block => exact absurd rfl hblock
  | vardecl _ hins =>
    have hlen := symboltableInsert_length hins
    exact hlen
  | table hins => exact symboltableInsert_length hins
  | proc hins =>
    have hlen := symboltableInsert_length hins
    split <;> exact hlen
  | array | other => rfl

theorem PostStep.length (h : PostStep node st node' st') :
    st'.tables.length = st.tables.length := by
  cases h with
  | proc hparams => exact procPostParams_length hparams
  | block | noBody | other => rfl

/-- The blocks of the nodes have the tables that were made between the two states, in this order. -/
def Numbered (st st' : Symboltable) (nodes : List AstNode) : Prop :=
  ∃ n, st'.tables.length = st.tables.length + n ∧
    nodes.flatMap AstNode.blockTables = (List.range' st.tables.length n).map some

namespace Numbered

variable {st'' : Symboltable} {nodes nodes' : List AstNode}

theorem nil : Numbered st st [] := ⟨0, rfl, rfl⟩

theorem append (h : Numbered st st' nodes) (h' : Numbered st' st'' nodes') :
    Numbered st st'' (nodes ++ nodes') := by
  obtain ⟨n, hlen, htables⟩ := h
  obtain ⟨m, hlen', htables'⟩ := h'
  refine ⟨n + m, by omega, ?_⟩
  rw [List.flatMap_append, htables, htables', hlen, ← List.map_append, List.range'_append_1]

end Numbered

theorem traverseList_numbered {f : AstNode → Walk Symboltable AstNode} {nodes nodes' : List AstNode}
    (hf : ∀ node ∈ nodes, ∀ st node' st', f node st = .ok (node', st') → Numbered st st' [node'])
    (h : traverseList f nodes st = .ok (nodes', st')) : Numbered st st' nodes' := by
  induction nodes generalizing nodes' st with
  | nil =>
    cases h
    exact .nil
  | cons node nodes ih =>
    obtain ⟨node', st₁, rest, hnode, hrest, rfl⟩ := traverseList_cons_ok h
    obtain ⟨hfirst, hothers⟩ := List.forall_mem_cons.mp hf
    exact (hfirst _ _ _ hnode).append (ih hothers hrest)

/-- The blocks of a node are numbered in the order in which they are visited. -/
theorem buildTo_numbered {k : NodeClass} {depth : Nat} (hshape : Shape k node)
    (h : buildTo depth node st = .ok (node', st')) : Numbered st st' [node'] := by
  induction depth generalizing node node' st st' k with
  | zero => cases h
  | succ depth ih =>
    obtain ⟨d, node₁, st₁, nodes, st₂, hd, hpre, hlist, hnodes, hpost⟩ := buildTo_ok h
    cases hd
    obtain ⟨hchildren, hunvisited⟩ := hpre.children_unvisited
    have hlist : Numbered st₁ st₂ nodes := traverseList_numbered (fun c hc _ _ _ h => by
      obtain ⟨k, hc⟩ := hshape.child (hchildren ▸ hc)
      exact ih hc h) hlist
    obtain ⟨n, hlen, htables⟩ := hlist
    obtain ⟨hkind, hparts⟩ := hpost.kind_parts
    rw [AstNode.kind_withChildren, hpre.kind_parts.1] at hkind
    by_cases hblock : node.kind = .block
    · cases hpre with
      | block =>
        cases hpost with
        | other hne => exact absurd rfl hne
        | block =>
          rw [List.length_append, List.length_singleton] at hlen
          refine ⟨n + 1, by simp only [hlen]; omega, ?_⟩
          rw [List.flatMap_singleton, AstNode.blockTables_block, htables, List.range'_succ,
            List.length_append, List.length_singleton, List.map_cons]
      | other hne => exact absurd hblock hne
      | _ => cases hblock
    · refine ⟨n, ?_, ?_⟩
      · rw [hpost.length, hlen, hpre.length hblock]
      · rw [List.flatMap_singleton, AstNode.blockTables_eq (hkind ▸ hblock), hparts,
          AstNode.parts_eq, hnodes, AstNode.unvisited_withChildren, hunvisited, List.flatMap_append,
          htables, hpre.length hblock, List.flatMap_eq_nil_iff.mpr fun c hc =>
            (hshape.unvisited hc).blockTables_expr, List.append_nil]

/-! ## Contents of tables -/

/-- A lookup in the table answers with the first of the declarations. A name that fills an entry is
not compared properly with its like. -/
def BindsExactly (ht : Hashtable) (decls : List (String × Symbol)) : Prop :=
  ∀ key, (key.length < maxIdentLen ∨ ∀ decl ∈ decls, decl.1.length < maxIdentLen) →
    hashtableGet ht key = .ok (decls.lookup key)

theorem Binds.exactly {ht : Hashtable} {decls : List (String × Symbol)} (h : Binds ht decls) :
    BindsExactly ht decls := by
  intro key hkey
  by_cases hlen : key.length < maxIdentLen
  · exact h.get_short hlen
  · have hdecls := hkey.resolve_left hlen
    have hne : ∀ decl ∈ decls, ¬ SameEntry key decl.1 := by
      intro decl hdecl hsame
      refine take_ne ?_ ?_ hsame.2.symm
      · rw [String.length_toList]
        exact hdecls decl hdecl
      · rwa [String.length_toList]
    have hnone : decls.lookup key = none := by
      refine Shadowing.lookup_eq_none.mpr fun hmem => ?_
      obtain ⟨decl, hdecl, rfl⟩ := List.mem_map.mp hmem
      exact hlen (hdecls decl hdecl)
    rw [h.get_long (Nat.le_of_not_lt hlen), hnone, if_neg fun ⟨decl, hdecl, hsame⟩ =>
      hne decl hdecl hsame]

/-- The table of a block: it has the table of the block around it as its parent, and binds the
declarations of the block. -/
def BlockSite.Bound (tables : List Hashtable) (globals : List (String × Symbol)) (b : BlockSite) :
    Prop :=
  ∃ t ht, b.table = some t ∧ tables[t]? = some ht ∧ ht.parent = b.scope ∧
    BindsExactly ht (b.symbols globals)

variable {globals : List (String × Symbol)}

/-- The blocks in a statement. -/
theorem Scoped.bound {t : Nat} (h : Scoped tables lo (some t) node) (hshape : Shape .stmt node) :
    ∀ b ∈ node.blocks (some t) [], b.Bound tables globals := by
  generalize hscope : some t = scope at h
  induction h generalizing t with
  | @block lo t' scope stmts ht _ hget hparent _ hbinds _ ih =>
    subst hscope
    intro b hb
    rw [AstNode.blocks_block, List.mem_cons, List.mem_flatMap] at hb
    rcases hb with rfl | ⟨stmt, hstmt, hb⟩
    · refine ⟨t', ht, rfl, hget, hparent, ?_⟩
      simpa [BlockSite.symbols] using hbinds.exactly
    · have hstmts := (hshape.stmt_child (c := stmt) hstmt).1
      exact ih stmt hstmt hstmts rfl b hb
  | other hkind _ hunvisited ih =>
    subst hscope
    intro b hb
    rw [AstNode.blocks_eq hkind hshape.stmt_kind.1, List.mem_flatMap] at hb
    obtain ⟨c, hc, hb⟩ := hb
    rcases AstNode.mem_parts hc with hc | hc
    · exact ih c hc (hshape.stmt_child hc).1 rfl b hb
    · rw [(hunvisited c hc).blocks_expr] at hb
      cases hb

/-- The blocks in a declaration. -/
theorem ProcScoped.bound {t : Nat} (hshape : Shape .decl node)
    (h : node.kind = .proc → ProcScoped tables lo (some t) node) :
    ∀ b ∈ node.blocks (some t) [], b.Bound tables globals := by
  cases hshape with
  | table => exact List.forall_mem_nil _
  | @proc op ident body sig table size hbody =>
    cases body with
    | none => exact List.forall_mem_nil _
    | some body =>
      obtain ⟨stmts, t', ht, rfl, -, hget, hparent, -, hbinds, hstmts⟩ := h rfl _ _ _ _ _ _ rfl
      intro b hb
      rw [AstNode.blocks, AstNode.blocks.opt, AstNode.blocks_block, List.mem_cons,
        List.mem_flatMap] at hb
      rcases hb with rfl | ⟨stmt, hstmt, hb⟩
      · exact ⟨t', ht, rfl, hget, hparent, hbinds.exactly⟩
      · cases hbody _ rfl with
        | block hshapes => exact (hstmts stmt hstmt).bound (hshapes stmt hstmt) b hb

/-- The tables mirror the blocks: all blocks have tables of their own, the table of each block
belongs to it, and no scope is open any more. -/
structure Mirrors (globals : List (String × Symbol)) (root : AstNode) (st : Symboltable) : Prop where
  own : root.blockTables.Nodup
  listed : (root.blocks none []).map (·.table) = root.blockTables
  bound : ∀ b ∈ root.blocks none [], b.Bound st.tables globals
  head : st.head = none

theorem symboltableBuild_mirrors {root root' : AstNode} (hshape : Shape .program root)
    (h : symboltableBuild root = .ok (root', st)) : Mirrors root.globals root' st := by
  have hnumbered := buildTo_numbered hshape (symboltableBuild_ok.mp h)
  obtain ⟨n, -, htables⟩ := hnumbered
  obtain ⟨⟨ht, hget, hparent, hbinds⟩, hprocs⟩ := symboltableBuild_scoped hshape h
  have hshape' : Shape .program root' := hshape.annotated (symboltableBuild_ok.mp h)
  obtain ⟨decls, t, nodes, st₁, ht₁, rfl, hdecls, hlist, hhead, rfl, rfl⟩ :=
    symboltableBuild_block hshape h
  refine ⟨?_, AstNode.map_table_blocks _ _ _, ?_, ?_⟩
  · rw [List.flatMap_singleton] at htables
    rw [htables]
    exact List.Nodup.map (Option.some_injective _) List.nodup_range'
  · intro b hb
    rw [AstNode.blocks_block, List.mem_cons, List.mem_flatMap] at hb
    rcases hb with rfl | ⟨decl, hdecl, hb⟩
    · exact ⟨0, ht, rfl, hget, hparent, hbinds.exactly⟩
    · cases hshape' with
      | program hshapes =>
        have hmem : decl ∈ (AstNode.block nodes (some 0)).subtrees :=
          AstNode.mem_subtrees.mpr (.inr ⟨decl, hdecl, AstNode.mem_subtrees.mpr (.inl rfl)⟩)
        exact ProcScoped.bound (hshapes decl hdecl) (hprocs decl hmem) b hb
  · have hgrows := (traverseList_procScoped hlist hdecls (by simp [Symboltable.started])).1
    rw [hgrows.head] at hhead
    cases hget.symm.trans hhead
    exact hparent

/-! ## Scopes of the code generator -/

/-- The step, if the generator is in the scope, and if it is still there at the end. -/
def within (e : Failure) (scope : Option Nat) (x : Emit Ty) : Emit Ty := do
  if (← getGen).scope = scope then
    let ty ← x
    if (← getGen).scope = scope then pure ty else fail e
  else fail e

section
variable (e : Failure) (tables : List Hashtable)

mutual

/-- The emission of a node, which fails if any node is not emitted in the scope of the innermost
block around it. -/
def emitIn (scope : Option Nat) : AstNode → Emit Ty
  | .block stmts symboltable => within e scope do
    block symboltable (emitsIn symboltable stmts)
    pure .void
  | .while_ _ condition body => within e scope do
    while_ (emitIn scope condition) (emitIn scope body)
    pure .void
  | .proc _ ident body type _ stackSize => within e scope do
    proc ident (emitOptIn scope body) type stackSize
    pure .void
  | .return_ _ expr => within e scope do
    return_ (emitOptIn scope expr)
    pure .void
  | .vardecl _ _ init type offset => within e scope do
    vardecl (emitOptIn scope init) type offset
    pure .void
  | .if_ _ condition thenBody elseBody => within e scope do
    cond (emitIn scope condition) (emitIn scope thenBody) (emitOptIn scope elseBody)
    pure .void
  | .grouping expr => within e scope (grouping (emitIn scope expr))
  | .assign _ value target => within e scope (assign (emitAddrIn scope target) (emitIn scope value))
  | .binop lhs rhs _ kind => within e scope (binop (emitIn scope lhs) (emitIn scope rhs) kind)
  | .call _ callee args => within e scope (call (emitIn scope callee) (emitsIn scope args))
  | .unaryop node _ kind =>
    within e scope (unaryop (emitIn scope node) (emitAddrIn scope node) kind)
  | .literal op kind => within e scope (literal tables op kind)
  | .array _ values type offset => within e scope (array (emitsIn scope values) type offset)
  | .index .. | .for_ .. =>
    within e scope (fail (.panic "syntactic sugar should have been expanded earlier"))
  | .table .. => within e scope (pure .void)

def emitAddrIn (scope : Option Nat) : AstNode → Emit Ty
  | .unaryop node _ kind => within e scope (unaryopAddr (emitIn scope node) kind)
  | .literal op kind => within e scope (literalAddr tables op kind)
  | .for_ .. | .index .. =>
    within e scope (fail (.panic "syntactic sugar should have been expanded earlier"))
  | _ => within e scope (fail (.panic "unknown node kind"))

def emitsIn (scope : Option Nat) : List AstNode → List (Emit Ty)
  | [] => []
  | node :: nodes => emitIn scope node :: emitsIn scope nodes

def emitOptIn (scope : Option Nat) : Option AstNode → Option (Emit Ty)
  | none => none
  | some node => some (emitIn scope node)

end

end

/-- Equal states in the scope. -/
def sameScope : Coupling where
  scopes s s' := s = s'
  state s s' gen gen' := s = s' ∧ gen = gen' ∧ gen.scope = s
  line _ _ i i' := i = i'
  later _ _ h := h

theorem sameScope_lawful : sameScope.Lawful where
  scope h := by
    obtain ⟨rfl, rfl, rfl⟩ := h
    exact ⟨rfl, rfl, rfl⟩
  enter ht h := by
    obtain ⟨rfl, rfl, rfl⟩ := h
    cases ht
    exact ⟨rfl, rfl, rfl⟩
  fixed _ := rfl
  label h := by
    obtain ⟨rfl, rfl, rfl⟩ := h
    exact ⟨rfl, rfl, rfl⟩
  numbered h hl := by
    obtain ⟨rfl, rfl, rfl⟩ := h
    intro mk _ _ _
    cases hl <;> rfl
  push h := by
    obtain ⟨rfl, rfl, rfl⟩ := h
    exact ⟨rfl, rfl, rfl⟩
  string h := by
    obtain ⟨rfl, rfl, rfl⟩ := h
    rfl

/-- A step that keeps to its scope passes the test. -/
theorem Parallel.within {e : Failure} {x y : Emit Ty} (h : Parallel sameScope scope scope x y) :
    Parallel sameScope scope scope (within e scope x) y := by
  intro gen gen' hstate
  have hres := h gen gen' hstate
  obtain ⟨-, rfl, hscope⟩ := hstate
  simp only [Seron.within, Bind.bind, Emit.bind, getGen, hscope, if_true, List.nil_append]
  generalize x gen = r at hres
  generalize y gen = r' at hres
  cases hres with
  | error => exact .error
  | @ok ty text text' gen₁ gen₁' hbefore hbefore' hlines hstate' =>
    obtain ⟨-, rfl, hscope'⟩ := hstate'
    have hpass : (if gen₁.scope = scope then (Pure.pure ty : Emit Ty) else Seron.fail e) gen₁ =
        .ok (ty, [], gen₁) := by
      rw [if_pos hscope']
      rfl
    simp only [hpass, List.append_nil]
    exact .ok hbefore hbefore' hlines ⟨rfl, rfl, hscope'⟩

open AstNode in
/-- The test never fails. -/
theorem emitIn_parallel {e : Failure} (node : AstNode) (scope : Option Nat) :
    Parallel sameScope scope scope (emitIn e tables scope node) (emit tables node) ∧
      Parallel sameScope scope scope (emitAddrIn e tables scope node) (emitAddr tables node) := by
  have hK := sameScope_lawful
  induction node using AstNode.parts_induct generalizing scope with
  | step node ih =>
    have child {c : AstNode} (hc : c ∈ node.parts) (s : Option Nat) :
        Parallel sameScope s s (emitIn e tables s c) (emit tables c) := (ih c hc s).1
    have list {nodes : List AstNode} (hnodes : ∀ c ∈ nodes, c ∈ node.parts) (s : Option Nat) :
        List.Forall₂ (Parallel sameScope s s) (emitsIn e tables s nodes) (emits tables nodes) := by
      induction nodes with
      | nil => exact .nil
      | cons c nodes ihs =>
        obtain ⟨hc, hcs⟩ := List.forall_mem_cons.mp hnodes
        exact .cons (child hc s) (ihs hcs)
    have opt {o : Option AstNode} (ho : ∀ c ∈ o, c ∈ node.parts) (s : Option Nat) :
        Option.Rel (Parallel sameScope s s) (emitOptIn e tables s o) (emitOpt tables o) := by
      cases o with
      | none => exact .none
      | some c => exact .some (child (ho c rfl) s)
    have ident {str : String} {addr : Bool} : Parallel sameScope scope scope
        (literalIdent tables str addr) (literalIdent tables str addr) :=
      .literalIdent hK rfl fun _ _ _ _ _ => rfl
    cases node
    case literal =>
      exact ⟨.within (.literal hK fun _ => ident), .within (.literalAddr fun _ => ident)⟩
    case unaryop =>
      have hc := ih _ (List.mem_singleton.mpr rfl) scope
      exact ⟨.within (.unaryop hK hc.1 hc.2), .within (.unaryopAddr hc.1)⟩
    case for_ | index => exact ⟨.within .fail, .within .fail⟩
    all_goals
      refine ⟨?_, .within .fail⟩
    case grouping => exact .within (child (by simp [parts, children]) scope)
    case binop =>
      exact .within (.binop hK (child (by simp [parts, children]) scope)
        (child (by simp [parts, children]) scope))
    case call =>
      exact .within (.call hK (list (fun c hc => by simp [parts, children, hc]) scope)
        (child (by simp [parts, children]) scope))
    case block stmts t =>
      exact .within (.bind (.block hK rfl (list (fun c hc => hc) t)) fun _ => .pure)
    case proc =>
      exact .within (.bind (.proc hK (opt (fun c hc => Option.mem_toList.mpr hc) scope)) fun _ =>
        .pure)
    case vardecl =>
      exact .within (.bind (.vardecl hK (opt (fun c hc => Option.mem_toList.mpr hc) scope)) fun _ =>
        .pure)
    case if_ =>
      exact .within (.bind (.cond hK (child (by simp [parts, children]) scope)
        (child (by simp [parts, children]) scope)
        (opt (fun c hc => by simp_all [parts, children]) scope)) fun _ => .pure)
    case while_ =>
      exact .within (.bind (.while_ hK (child (by simp [parts, children]) scope)
        (child (by simp [parts, children]) scope)) fun _ => .pure)
    case assign value target =>
      exact .within (.assign hK (ih target (by simp [parts]) scope).2
        (child (by simp [parts]) scope))
    case return_ =>
      exact .within (.bind (.return_ hK (opt (fun c hc => Option.mem_toList.mpr hc) scope)) fun _ =>
        .pure)
    case table => exact .within .pure
    case array => exact .within (.array hK (list (fun c hc => hc) scope))

/-- The tables mirror the blocks, and the code generator follows them. -/
theorem tables_mirror_blocks {fuel : Nat} {garbage : List Nat} {toks : List Token}
    {root root' root'' : AstNode} {p : Parser} (hparse : parse fuel garbage toks = .ok root p)
    (hexpand : expandAst root = .ok root') (hbuild : symboltableBuild root' = .ok (root'', st)) :
    Mirrors root'.globals root'' st ∧
      ∀ e, emitIn e st.tables none root'' {} = emit st.tables root'' {} := by
  have hshape := parse_shape hparse
  cases (expandAst_eq hshape).symm.trans hexpand
  refine ⟨symboltableBuild_mirrors hshape.expanded hbuild, fun e => ?_⟩
  have hres := (@emitIn_parallel st.tables e root'' none).1 {} {} ⟨rfl, rfl, rfl⟩
  generalize emitIn e st.tables none root'' {} = r at hres
  generalize emit st.tables root'' {} = r' at hres
  cases hres with
  | error => rfl
  | ok _ _ hlines hstate =>
    obtain ⟨-, rfl, -⟩ := hstate
    have hlines : List.Forall₂ Eq _ _ := hlines
    rw [List.forall₂_eq_eq_eq] at hlines
    rw [hlines]

theorem tables_mirror_blocks_redeclared : ∃ root' root'' st,
    symboltableBuild root' = .ok (root'', st) ∧ Mirrors root'.globals root'' st ∧
      ∀ e, emitIn e st.tables none root'' {} = emit st.tables root'' {} := by
  obtain ⟨root, p, root', root'', st, hparse, hexpand, hbuild, -⟩ := redeclared_returnsOther
  exact ⟨root', root'', st, hbuild, tables_mirror_blocks hparse hexpand hbuild⟩

end Seron
