import Seron.Verify.Traversal
import Seron.Verify.Shape
import Seron.Symboltable
import Seron.Expand

/-! # The steps of `symboltable_build`

What each callback does to a node and to the table, as one relation for the way down and one for
the way up. -/

namespace Seron

variable {node node' : AstNode} {st st' : Symboltable}

theorem symboltableInsert_ok {table : Option Nat} {key : String} {value : Symbol}
    (h : symboltableInsert table key value st = .ok ((), st')) :
    ∃ t ht ht' r, table = some t ∧ st.tables[t]? = some ht ∧
      hashtableInsert ht key value = .ok (ht', r) ∧
      st' = { st with tables := st.tables.set t ht' } := by
  unfold symboltableInsert at h
  cases table with
  | none => cases h
  | some t =>
    simp only at h
    cases hget : st.tables[t]? with
    | none => simp [hget] at h
    | some ht =>
      simp only [hget] at h
      obtain ⟨⟨ht', r⟩, hins, heq⟩ := Except.bind_ok.mp h
      cases heq
      exact ⟨t, ht, ht', r, rfl, hget, hins, rfl⟩

/-- The callbacks on the way down. -/
inductive PreStep : AstNode → Symboltable → AstNode → Symboltable → Prop
  | block {st : Symboltable} {stmts : List AstNode} {table : Option Nat} :
    PreStep (.block stmts table) st (.block stmts (some st.tables.length))
      { st with
        head := some st.tables.length
        tables := st.tables ++ [{ hashtableInit 50 with parent := st.head }] }
  | vardecl {st st' : Symboltable} {op ident : Token} {init : Option AstNode} {type : Ty}
    {offset size : Int} : typePrimitiveSize type.kind = .ok size →
    symboltableInsert st.head ident.value
      { kind := .variable, type, offset := st.stackSize + align16 size }
      { st with stackSize := st.stackSize + align16 size } = .ok ((), st') →
    PreStep (.vardecl op ident init type offset) st
      (.vardecl op ident init type (st.stackSize + align16 size)) st'
  | proc {st st' : Symboltable} {op ident : Token} {body : Option AstNode} {type : Ty}
    {table : Option Nat} {stackSize : Int} :
    symboltableInsert st.head ident.value { kind := .procedure, type } st = .ok ((), st') →
    PreStep (.proc op ident body type table stackSize) st
      (.proc op ident body type table stackSize)
      (if body.isSome then { st' with stackSize := 0 } else st')
  | table {st st' : Symboltable} {op ident : Token} {type : Ty} :
    symboltableInsert st.head ident.value { kind := .table, type } st = .ok ((), st') →
    PreStep (.table op ident type) st (.table op ident type) st'
  | array {st : Symboltable} {op : Token} {values : List AstNode} {type : Ty} {offset size : Int} :
    typePrimitiveSize type.kind = .ok size →
    PreStep (.array op values type offset) st
      (.array op values type (st.stackSize + align16 size))
      { st with stackSize := st.stackSize + (align16 size * values.length + align16 size) }
  | other {st : Symboltable} {node : AstNode} : node.kind ≠ .block → node.kind ≠ .vardecl →
    node.kind ≠ .proc → node.kind ≠ .table → node.kind ≠ .array → PreStep node st node st

/-- The callbacks on the way up. -/
inductive PostStep : AstNode → Symboltable → AstNode → Symboltable → Prop
  | block {st : Symboltable} {stmts : List AstNode} {table : Option Nat} {ht : Hashtable} :
    st.head.bind (st.tables[·]?) = some ht →
    PostStep (.block stmts table) st (.block stmts table) { st with head := ht.parent }
  | proc {st st' : Symboltable} {op ident : Token} {stmts : List AstNode} {sig : ProcSignature}
    {table table' : Option Nat} {stackSize : Int} {params : List Param} :
    procPostParams table sig.params st = .ok (params, st') →
    PostStep (.proc op ident (some (.block stmts table)) (.procedure sig) table' stackSize) st
      (.proc op ident (some (.block stmts table)) (.procedure { sig with params }) table
        st'.stackSize) st'
  | noBody {st : Symboltable} {op ident : Token} {type : Ty} {table : Option Nat}
    {stackSize : Int} :
    PostStep (.proc op ident none type table stackSize) st
      (.proc op ident none type table stackSize) st
  | other {st : Symboltable} {node : AstNode} : node.kind ≠ .block → node.kind ≠ .proc →
    PostStep node st node st

theorem preStep_of_ok (h : dispatchCallbackPre symboltableTable node st = .ok (node', st')) :
    PreStep node st node' st' := by
  cases node
  case block stmts table =>
    cases h
    exact .block
  case vardecl op ident init type offset =>
    obtain ⟨off, st₁, hoff, h₁⟩ := StateT.bind_ok.mp h
    obtain ⟨size, hsize, heq⟩ := Except.bind_ok.mp hoff
    cases heq
    obtain ⟨head, st₂, hhead, h₂⟩ := StateT.bind_ok.mp h₁
    cases hhead
    obtain ⟨u, st₃, hins, h₃⟩ := StateT.bind_ok.mp h₂
    cases h₃
    exact .vardecl hsize hins
  case proc op ident body type table stackSize =>
    obtain ⟨head, st₁, hhead, h₁⟩ := StateT.bind_ok.mp h
    cases hhead
    obtain ⟨u, st₂, hins, h₂⟩ := StateT.bind_ok.mp h₁
    cases body <;> cases h₂ <;> exact .proc hins
  case table op ident type =>
    obtain ⟨head, st₁, hhead, h₁⟩ := StateT.bind_ok.mp h
    cases hhead
    obtain ⟨u, st₂, hins, h₂⟩ := StateT.bind_ok.mp h₁
    cases h₂
    exact .table hins
  case array op values type offset =>
    have h : (typePrimitiveSize type.kind >>= fun size => pure
        (AstNode.array op values type (st.stackSize + align16 size),
          { st with
            stackSize := st.stackSize + (align16 size * values.length + align16 size) })) =
        .ok (node', st') := h
    obtain ⟨size, hsize, heq⟩ := Except.bind_ok.mp h
    cases heq
    exact .array hsize
  all_goals
    cases h
    exact .other (by simp [AstNode.kind]) (by simp [AstNode.kind]) (by simp [AstNode.kind])
      (by simp [AstNode.kind]) (by simp [AstNode.kind])

theorem postStep_of_ok (h : dispatchCallbackPost symboltableTable node st = .ok (node', st')) :
    PostStep node st node' st' := by
  cases node
  case block stmts table =>
    obtain ⟨u, st₁, hpop, h₁⟩ := StateT.bind_ok.mp h
    cases h₁
    simp only [symboltablePop] at hpop
    split at hpop
    · rename_i ht hget
      cases hpop
      exact .block hget
    · cases hpop
  case proc op ident body type table stackSize =>
    have h : procPost (.proc op ident body type table stackSize) st = .ok (node', st') := h
    cases body with
    | none =>
      cases h
      exact .noBody
    | some body =>
      cases body <;> try cases h
      case block stmts table =>
        cases type <;> try cases h
        case procedure sig =>
          obtain ⟨params, st₁, hparams, h₁⟩ := StateT.bind_ok.mp h
          obtain ⟨st₂, st₃, hget, h₂⟩ := StateT.bind_ok.mp h₁
          cases hget
          cases h₂
          exact .proc hparams
  all_goals
    cases h
    exact .other (by simp [AstNode.kind]) (by simp [AstNode.kind])

/-- The pass itself, to some depth. -/
def buildTo (depth : Nat) : AstNode → Walk Symboltable AstNode :=
  parserDispatchAst symboltableTable depth

/-- A visit of a node: the way down, the children, the way up. -/
theorem buildTo_ok {depth : Nat} (h : buildTo depth node st = .ok (node', st')) :
    ∃ d node₁ st₁ nodes st₂, depth = d + 1 ∧ PreStep node st node₁ st₁ ∧
      traverseList (buildTo d) node₁.children st₁ = .ok (nodes, st₂) ∧
      (node₁.withChildren nodes).children = nodes ∧
      PostStep (node₁.withChildren nodes) st₂ node' st' := by
  cases depth with
  | zero => cases h
  | succ d =>
    obtain ⟨node₁, st₁, hpre, h₁⟩ := StateT.bind_ok.mp h
    obtain ⟨node₂, st₂, hchildren, hpost⟩ := StateT.bind_ok.mp h₁
    obtain ⟨nodes, hlist, rfl, hnodes⟩ := traverseChildren_ok hchildren
    exact ⟨d, node₁, st₁, nodes, st₂, rfl, preStep_of_ok hpre, hlist, hnodes, postStep_of_ok hpost⟩

theorem PreStep.kind_parts (h : PreStep node st node' st') :
    node'.kind = node.kind ∧ node'.parts = node.parts := by
  cases h <;> exact ⟨rfl, rfl⟩

theorem PostStep.kind_parts (h : PostStep node st node' st') :
    node'.kind = node.kind ∧ node'.parts = node.parts := by
  cases h <;> exact ⟨rfl, rfl⟩

/-- Annotating a tree makes no nodes of other kinds, and none on other levels. -/
theorem buildTo_parts {Q : AstNodeKind → Prop} {depth : Nat}
    (h : buildTo depth node st = .ok (node', st')) (hnode : ∀ c ∈ node.parts, c.AllKinds Q) :
    node'.kind = node.kind ∧ ∀ c ∈ node'.parts, c.AllKinds Q := by
  induction depth generalizing node node' st st' with
  | zero => cases h
  | succ depth ih =>
    obtain ⟨d, node₁, st₁, nodes, st₂, hd, hpre, hlist, -, hpost⟩ := buildTo_ok h
    cases hd
    obtain ⟨hkind, hparts⟩ := hpre.kind_parts
    obtain ⟨hkind', hparts'⟩ := hpost.kind_parts
    have hnodes : ∀ c ∈ nodes, c.AllKinds Q := by
      refine forall_mem_of_traverseList (fun c hc _ _ _ hc' => ?_) hlist
      obtain ⟨hc₁, hc₂⟩ :=
        AstNode.allKinds_iff.mp (hnode c (hparts ▸ AstNode.mem_parts_of_children hc))
      obtain ⟨hk, hp⟩ := ih hc' hc₂
      exact AstNode.allKinds_iff.mpr ⟨hk ▸ hc₁, hp⟩
    refine ⟨by rw [hkind', AstNode.kind_withChildren, hkind], fun c hc => ?_⟩
    rcases AstNode.mem_parts_withChildren (hparts' ▸ hc) with hc | hc
    · exact hnodes c hc
    · exact hnode c (hparts ▸ hc)

theorem allKinds_buildTo {Q : AstNodeKind → Prop} {depth : Nat}
    (h : buildTo depth node st = .ok (node', st')) (hnode : node.AllKinds Q) :
    node'.AllKinds Q := by
  obtain ⟨hnode, hparts⟩ := AstNode.allKinds_iff.mp hnode
  obtain ⟨hkind, hparts'⟩ := buildTo_parts h hparts
  exact AstNode.allKinds_iff.mpr ⟨hkind ▸ hnode, hparts'⟩

/-- Children of the same classes leave the node in its class. -/
theorem Shape.withChildren {k : NodeClass} {nodes : List AstNode} (h : Shape k node)
    (hnodes : List.Forall₂ (fun c c' => ∀ k, Shape k c → Shape k c') node.children nodes) :
    Shape k (node.withChildren nodes) := by
  have list {cs nodes : List AstNode} {k : NodeClass}
      (hnodes : List.Forall₂ (fun c c' => ∀ k, Shape k c → Shape k c') cs nodes)
      (h : ∀ c ∈ cs, Shape k c) : ∀ c ∈ nodes, Shape k c := by
    induction hnodes with
    | nil => exact List.forall_mem_nil _
    | cons hc _ ih =>
      rw [List.forall_mem_cons] at h ⊢
      exact ⟨hc k h.1, ih h.2⟩
  have opt {o : Option AstNode} {nodes : List AstNode} {k : NodeClass}
      (hnodes : List.Forall₂ (fun c c' => ∀ k, Shape k c → Shape k c') o.toList nodes)
      (h : ∀ c ∈ o, Shape k c) : ∀ c ∈ nodes.head?, Shape k c := fun c hc =>
    list hnodes (fun c hc => h c (Option.mem_toList.mp hc)) c (List.mem_of_mem_head? hc)
  induction h generalizing nodes with
  | literal => exact .literal
  | table => exact .table
  | exprstmt _ ih => exact .exprstmt (ih hnodes)
  | blockstmt _ ih => exact .blockstmt (ih hnodes)
  | block h => exact .block (list hnodes h)
  | program h => exact .program (list hnodes h)
  | array h => exact .array (list hnodes h)
  | vardecl h => exact .vardecl (opt hnodes h)
  | return_ h => exact .return_ (opt hnodes h)
  | proc h => exact .proc (opt hnodes h)
  | grouping h =>
    cases hnodes with
    | cons hc hrest =>
      cases hrest
      exact .grouping (hc _ h)
  | unaryop h =>
    cases hnodes with
    | cons hc hrest =>
      cases hrest
      exact .unaryop (hc _ h)
  | assign h ht =>
    cases hnodes with
    | cons hc hrest =>
      cases hrest
      exact .assign (hc _ h) ht
  | binop h h' =>
    cases hnodes with
    | cons hc hrest =>
      cases hrest with
      | cons hc' hrest =>
        cases hrest
        exact .binop (hc _ h) (hc' _ h')
  | index h h' =>
    cases hnodes with
    | cons hc hrest =>
      cases hrest with
      | cons hc' hrest =>
        cases hrest
        exact .index (hc _ h) (hc' _ h')
  | while_ h h' =>
    cases hnodes with
    | cons hc hrest =>
      cases hrest with
      | cons hc' hrest =>
        cases hrest
        exact .while_ (hc _ h) (hc' _ h')
  | call h h' =>
    cases hnodes with
    | cons hc hrest => exact .call (hc _ h) (list hrest h')
  | if_ h h' ho =>
    cases hnodes with
    | cons hc hrest =>
      cases hrest with
      | cons hc' hrest => exact .if_ (hc _ h) (hc' _ h') (opt hrest ho)
  | @for_ op ident cond step body init type h h' h'' hinit =>
    cases hnodes with
    | cons hc hrest =>
      cases hrest with
      | cons hc' hrest =>
        cases hrest with
        | cons hc'' hrest =>
          cases hrest
          exact .for_ h h' h'' hinit

theorem PreStep.shape {k : NodeClass} (h : PreStep node st node' st') (hshape : Shape k node) :
    Shape k node' := by
  cases h with
  | other => exact hshape
  | block =>
    cases hshape with
    | block hs => exact .block hs
    | program hs => exact .program hs
    | exprstmt hs => cases hs
    | blockstmt hs =>
      cases hs with
      | block hs => exact .blockstmt (.block hs)
  | vardecl =>
    cases hshape with
    | vardecl hs => exact .vardecl hs
    | exprstmt hs | blockstmt hs => cases hs
  | proc =>
    cases hshape with
    | proc hs => exact .proc hs
    | exprstmt hs | blockstmt hs => cases hs
  | table =>
    cases hshape with
    | table => exact .table
    | exprstmt hs | blockstmt hs => cases hs
  | array =>
    cases hshape with
    | array hs => exact .array hs
    | blockstmt hs => cases hs
    | exprstmt hs =>
      cases hs with
      | array hs => exact .exprstmt (.array hs)

theorem PostStep.shape {k : NodeClass} (h : PostStep node st node' st') (hshape : Shape k node) :
    Shape k node' := by
  cases h with
  | proc =>
    cases hshape with
    | proc hs => exact .proc hs
    | exprstmt hs | blockstmt hs => cases hs
  | _ => exact hshape

/-- Annotating a tree leaves every node in its class. -/
theorem Shape.annotated {k : NodeClass} {depth : Nat} (hshape : Shape k node)
    (h : buildTo depth node st = .ok (node', st')) : Shape k node' := by
  induction depth generalizing node node' st st' k with
  | zero => cases h
  | succ depth ih =>
    obtain ⟨d, node₁, st₁, nodes, st₂, hd, hpre, hlist, -, hpost⟩ := buildTo_ok h
    cases hd
    refine hpost.shape ((hpre.shape hshape).withChildren ?_)
    exact forall₂_of_traverseList (fun c c' _ _ hc k hk => ih hk hc) hlist

theorem symboltableBuild_ok {root root' : AstNode} :
    symboltableBuild root = .ok (root', st) ↔
      buildTo root.traverseDepth root {} = .ok (root', st) := .rfl

/-! ## Programs -/

/-- The symbol that a top-level declaration adds to the table of the program. -/
def AstNode.global : AstNode → List (String × Symbol)
  | .proc _ ident _ type _ _ => [(ident.value, { kind := .procedure, type })]
  | .table _ ident type => [(ident.value, { kind := .table, type })]
  | _ => []

/-- Procedures are not nested. -/
theorem Shape.procFree {k : NodeClass} (h : Shape k node) (hdecl : k ≠ .decl)
    (hprogram : k ≠ .program) : node.AllKinds (· ≠ .proc) := by
  induction h with
  | proc | table => exact (hdecl rfl).elim
  | program => exact (hprogram rfl).elim
  | exprstmt _ ih | blockstmt _ ih => exact ih nofun nofun
  | _ =>
    refine AstNode.allKinds_iff.mpr ⟨by simp [AstNode.kind], ?_⟩
    simp_all [AstNode.parts, AstNode.children]

theorem Shape.decl_parts (h : Shape .decl node) : ∀ c ∈ node.parts, c.AllKinds (· ≠ .proc) := by
  cases h with
  | proc hbody => exact fun c hc => (hbody c (Option.mem_toList.mp hc)).procFree nofun nofun
  | table => nofun

/-- A visit of a procedure with a body: its symbol, the body in an empty frame, the parameters. -/
theorem buildTo_proc {depth : Nat} {op ident : Token} {body : AstNode} {sig : ProcSignature}
    {table : Option Nat} {stackSize : Int} (hshape : Shape .decl node)
    (h : buildTo depth node st =
      .ok (.proc op ident (some body) (.procedure sig) table stackSize, st')) :
    ∃ d body₀ params₀ table₀ size₀ st₁ st₂ stmts,
      node = .proc op ident (some body₀) (.procedure { sig with params := params₀ }) table₀ size₀ ∧
      Shape .block body₀ ∧
      symboltableInsert st.head ident.value
        { kind := .procedure, type := .procedure { sig with params := params₀ } } st =
          .ok ((), st₁) ∧
      buildTo d body₀ { st₁ with stackSize := 0 } = .ok (body, st₂) ∧ body = .block stmts table ∧
      procPostParams table params₀ st₂ = .ok (sig.params, st') ∧ stackSize = st'.stackSize := by
  obtain ⟨d, node₁, st₁, nodes, st₂, -, hpre, hlist, -, hpost⟩ := buildTo_ok h
  cases hshape with
  | table => cases hpre <;> cases hpost
  | @proc op₀ ident₀ body₀ sig₀ table₀ size₀ hbody =>
    obtain ⟨params₀, returntype⟩ := sig₀
    cases hpre with
    | other _ _ hproc => exact (hproc rfl).elim
    | proc hins =>
      cases body₀ with
      | none =>
        cases hlist
        cases hpost
      | some body₀ =>
        obtain ⟨body', st₃, rest, hbuild, hrest, rfl⟩ := traverseList_cons_ok hlist
        cases hrest
        generalize hnode : AstNode.withChildren _ [body'] = node' at hpost
        cases hpost with
        | other _ hproc => exact (hproc rfl).elim
        | proc hparams =>
          cases hnode
          exact ⟨d, body₀, params₀, table₀, size₀, _, st₂, _, rfl, hbody _ rfl, hins, hbuild, rfl,
            hparams, rfl⟩

/-- A visit of any other declaration inserts a symbol. -/
theorem buildTo_decl {depth : Nat} (hshape : Shape .decl node)
    (h : buildTo depth node st = .ok (node', st')) :
    (∃ key value, node.global = [(key, value)] ∧
      symboltableInsert st.head key value st = .ok ((), st')) ∨
    ∃ op ident body sig table stackSize,
      node' = .proc op ident (some body) (.procedure sig) table stackSize := by
  obtain ⟨d, node₁, st₁, nodes, st₂, -, hpre, hlist, -, hpost⟩ := buildTo_ok h
  cases hshape with
  | table =>
    cases hpre with
    | other _ _ _ htable => exact (htable rfl).elim
    | table hins =>
      cases hlist
      cases hpost
      exact .inl ⟨_, _, rfl, hins⟩
  | @proc op₀ ident₀ body₀ sig₀ table₀ size₀ hbody =>
    cases hpre with
    | other _ _ hproc => exact (hproc rfl).elim
    | proc hins =>
      cases body₀ with
      | none =>
        cases hlist
        cases hpost with
        | other _ hproc => exact (hproc rfl).elim
        | noBody => exact .inl ⟨_, _, rfl, hins⟩
      | some body₀ =>
        obtain ⟨body', st₃, rest, hbuild, hrest, rfl⟩ := traverseList_cons_ok hlist
        cases hrest
        generalize hnode : AstNode.withChildren _ [body'] = node' at hpost
        cases hpost with
        | other _ hproc => exact (hproc (by rw [← hnode]; rfl)).elim
        | noBody => cases hnode
        | block => cases hnode
        | proc => exact .inr ⟨_, _, _, _, _, _, rfl⟩

/-- The state in which the declarations of a program are visited. -/
def Symboltable.started : Symboltable :=
  { head := some 0, tables := [{ hashtableInit 50 with parent := none }] }

/-- The visit of a program visits its declarations in the scope of the first table. -/
theorem symboltableBuild_block {root root' : AstNode} (hshape : Shape .program root)
    (h : symboltableBuild root = .ok (root', st)) :
    ∃ decls t nodes st₁ ht, root = .block decls t ∧ (∀ d ∈ decls, Shape .decl d) ∧
      traverseList (buildTo (AstNode.traverseDepth.listDepth decls)) decls .started =
        .ok (nodes, st₁) ∧
      st₁.head.bind (st₁.tables[·]?) = some ht ∧ root' = .block nodes (some 0) ∧
      st = { st₁ with head := ht.parent } := by
  cases hshape with
  | @program decls t hdecls =>
    obtain ⟨d, node₁, st₁, nodes, st₂, hd, hpre, hlist, -, hpost⟩ :=
      buildTo_ok (symboltableBuild_ok.mp h)
    rw [AstNode.traverseDepth] at hd
    cases hd
    cases hpre with
    | other hblock => exact (hblock rfl).elim
    | block =>
      cases hpost with
      | other hblock => exact (hblock rfl).elim
      | @block _ _ _ ht hget =>
        exact ⟨decls, t, nodes, st₂, ht, rfl, hdecls, hlist, hget, rfl, rfl⟩

/-- All procedures are among the declarations of the program. -/
theorem symboltableBuild_program {root root' : AstNode} (hshape : Shape .program root)
    (h : symboltableBuild root = .ok (root', st)) :
    ∃ decls t depth nodes st₁, root = .block decls t ∧ (∀ d ∈ decls, Shape .decl d) ∧
      traverseList (buildTo depth) decls .started = .ok (nodes, st₁) ∧ st.tables = st₁.tables ∧
      ∀ x ∈ root'.subtrees, x.kind = .proc → x ∈ nodes := by
  obtain ⟨decls, t, nodes, st₁, ht, rfl, hdecls, hlist, -, rfl, rfl⟩ :=
    symboltableBuild_block hshape h
  have hparts : ∀ d ∈ nodes, ∀ c ∈ d.parts, c.AllKinds (· ≠ .proc) :=
    forall_mem_of_traverseList
      (fun d hd _ _ _ h => (buildTo_parts h (hdecls d hd).decl_parts).2) hlist
  refine ⟨decls, t, _, nodes, st₁, rfl, hdecls, hlist, rfl, fun x hx hkind => ?_⟩
  rcases AstNode.mem_subtrees.mp hx with rfl | ⟨n, hn, hx⟩
  · cases hkind
  · rcases AstNode.mem_subtrees.mp hx with rfl | ⟨c, hc, hx⟩
    · exact hn
    · exact (hparts n hn c hc x hx hkind).elim

/-- Every procedure with a body in an annotated program is the result of a visit. -/
theorem symboltableBuild_proc {root root' : AstNode} {op ident : Token} {body : AstNode}
    {sig : ProcSignature} {table : Option Nat} {stackSize : Int} (hshape : Shape .program root)
    (h : symboltableBuild root = .ok (root', st))
    (hproc : .proc op ident (some body) (.procedure sig) table stackSize ∈ root'.subtrees) :
    ∃ depth d st₁ st₂, Shape .decl d ∧ buildTo depth d st₁ =
      .ok (.proc op ident (some body) (.procedure sig) table stackSize, st₂) := by
  obtain ⟨decls, t, depth, nodes, st₁, -, hdecls, hlist, -, hprocs⟩ :=
    symboltableBuild_program hshape h
  obtain ⟨d, hd, st₂, st₃, hvisit⟩ := exists_of_traverseList hlist (hprocs _ hproc rfl)
  exact ⟨depth, d, st₂, st₃, hdecls d hd, hvisit⟩

/-- Runs a test on a program after the expansion, after the annotation, and on its tables. -/
def annotatesTo (test : AstNode → AstNode → List Hashtable → Bool) (fuel : Nat)
    (toks : List Token) : Bool :=
  parsesTo (fun root =>
    match expandAst root with
    | .ok root' =>
      match symboltableBuild root' with
      | .ok (root'', st) => test root' root'' st.tables
      | .error _ => false
    | .error _ => false) fuel toks

theorem of_annotatesTo {test : AstNode → AstNode → List Hashtable → Bool} {fuel : Nat}
    {toks : List Token} (h : annotatesTo test fuel toks = true) :
    ∃ root p root' root'' st, parse fuel [] toks = .ok root p ∧ expandAst root = .ok root' ∧
      symboltableBuild root' = .ok (root'', st) ∧ test root' root'' st.tables = true := by
  obtain ⟨root, p, hparse, htest⟩ := of_parsesTo h
  split at htest
  · rename_i root' hexpand
    split at htest
    · rename_i root'' st hbuild
      exact ⟨root, p, root', root'', st, hparse, hexpand, hbuild, htest⟩
    · cases htest
  · cases htest

end Seron
