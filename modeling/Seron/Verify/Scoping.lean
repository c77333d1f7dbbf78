import Seron.Verify.Tables
import Seron.Verify.Frame

/-! # Lexical scoping

Which declarations the tables answer with when the code generator looks up an identifier, compared
with the declarations that stand before the identifier in the blocks around it. -/

namespace Seron

open Shadowing (Block)

/-! ## Declarations -/

/-- The symbol that a statement adds to the table of its block. -/
def AstNode.declared : AstNode → List (String × Symbol)
  | .vardecl _ ident _ type offset => [(ident.value, { kind := .variable, type, offset })]
  | _ => []

/-- The symbol of a parameter. -/
def Param.declared (param : Param) : String × Symbol :=
  (param.ident, { kind := .parameter, type := param.type, offset := param.offset })

/-- The top-level procedures and tables of a program that has not been annotated yet. -/
def AstNode.globals (root : AstNode) : List (String × Symbol) := root.children.flatMap global

theorem AstNode.declared_eq_nil {node : AstNode} (h : node.kind ≠ .vardecl) :
    node.declared = [] := by
  cases node
  case vardecl => exact (h rfl).elim
  all_goals rfl

theorem AstNode.declared_withChildren (node : AstNode) (nodes : List AstNode) :
    (node.withChildren nodes).declared = node.declared := by
  unfold withChildren
  split <;> rfl

/-! ## Shapes -/

variable {node : AstNode}

/-- The parts of expressions are expressions. -/
theorem Shape.expr_part {c : AstNode} (h : Shape .expr node) (hc : c ∈ node.parts) :
    Shape .expr c := by
  cases h <;> simp only [AstNode.parts, AstNode.children, List.mem_cons, List.not_mem_nil,
    or_false] at hc
  case grouping h | unaryop h => exact hc ▸ h
  case binop h h' | assign h h' | index h h' =>
    rcases hc with rfl | rfl
    · exact h
    · exact h'
  case call h hargs =>
    rcases hc with rfl | hc
    · exact h
    · exact hargs c hc
  case array h => exact h c hc

/-- The parts that no traversal visits. -/
def AstNode.unvisited : AstNode → List AstNode
  | .assign _ _ target => [target]
  | .for_ _ _ _ _ _ _ _ init => [init]
  | _ => []

theorem AstNode.mem_parts {c : AstNode} (h : c ∈ node.parts) :
    c ∈ node.children ∨ c ∈ node.unvisited := by
  cases node
  case assign | for_ => simpa [parts, children, unvisited, or_assoc] using h
  all_goals exact .inl h

theorem AstNode.unvisited_withChildren (node : AstNode) (nodes : List AstNode) :
    (node.withChildren nodes).unvisited = node.unvisited := by
  unfold withChildren
  split <;> rfl

theorem Shape.unvisited {k : NodeClass} {c : AstNode} (h : Shape k node)
    (hc : c ∈ node.unvisited) : Shape .expr c := by
  induction h with
  | exprstmt _ ih | blockstmt _ ih => exact ih hc
  | assign _ ht => exact List.mem_singleton.mp hc ▸ ht
  | for_ _ _ _ hinit => exact List.mem_singleton.mp hc ▸ hinit
  | _ => cases hc

/-- The children of statements are statements, and declarations stand in blocks only. -/
theorem Shape.stmt_child {c : AstNode} (h : Shape .stmt node) (hc : c ∈ node.children) :
    Shape .stmt c ∧ (node.kind ≠ .block → c.kind ≠ .vardecl) := by
  have expr {c : AstNode} (h : Shape .expr c) :
      Shape .stmt c ∧ (node.kind ≠ .block → c.kind ≠ .vardecl) :=
    ⟨.exprstmt h, fun _ => by cases h <;> simp [AstNode.kind]⟩
  have block {c : AstNode} (h : Shape .block c) :
      Shape .stmt c ∧ (node.kind ≠ .block → c.kind ≠ .vardecl) :=
    ⟨.blockstmt h, fun _ => by cases h; simp [AstNode.kind]⟩
  cases h with
  | exprstmt h => exact expr (h.expr_part (AstNode.mem_parts_of_children hc))
  | blockstmt h =>
    cases h with
    | block hstmts => exact ⟨hstmts c hc, fun hkind => (hkind rfl).elim⟩
  | vardecl hinit => exact expr (hinit c (Option.mem_toList.mp hc))
  | return_ hvalue => exact expr (hvalue c (Option.mem_toList.mp hc))
  | if_ hcond hthen helse =>
    rcases List.mem_cons.mp hc with rfl | hc
    · exact expr hcond
    · rcases List.mem_cons.mp hc with rfl | hc
      · exact block hthen
      · exact block (helse c (Option.mem_toList.mp hc))
  | while_ hcond hbody =>
    simp only [AstNode.children, List.mem_cons, List.not_mem_nil, or_false] at hc
    rcases hc with rfl | rfl
    · exact expr hcond
    · exact block hbody
  | for_ hcond hstep hbody =>
    simp only [AstNode.children, Option.toList_none, List.nil_append, List.mem_cons,
      List.not_mem_nil, or_false] at hc
    rcases hc with rfl | rfl | rfl
    · exact expr hcond
    · exact expr hstep
    · exact block hbody

/-! ## Building the tables -/

/-- The tables of the blocks in an annotated tree: table by table the declarations of the block,
from the number `lo` on, and the table of the block around it as the parent. -/
inductive Scoped (tables : List Hashtable) : Nat → Option Nat → AstNode → Prop
  | block {lo t : Nat} {scope : Option Nat} {stmts : List AstNode} {ht : Hashtable} : lo ≤ t →
    tables[t]? = some ht → ht.parent = scope → (∀ j ∈ scope, j < t) →
    Binds ht (stmts.flatMap AstNode.declared) →
    (∀ stmt ∈ stmts, Scoped tables (t + 1) (some t) stmt) →
    Scoped tables lo scope (.block stmts (some t))
  | other {lo : Nat} {scope : Option Nat} {node : AstNode} : node.kind ≠ .block →
    (∀ c ∈ node.children, Scoped tables lo scope c) → (∀ c ∈ node.unvisited, Shape .expr c) →
    Scoped tables lo scope node

variable {node' : AstNode} {st st' st'' : Symboltable} {scope : Option Nat} {lo : Nat}
  {tables tables' : List Hashtable}

/-- Only the tables from `lo` on matter. -/
theorem Scoped.mono {lo' : Nat} (h : Scoped tables lo scope node) (hlo : lo' ≤ lo)
    (heq : ∀ i ht, lo ≤ i → tables[i]? = some ht → tables'[i]? = some ht) :
    Scoped tables' lo' scope node := by
  induction h generalizing lo' with
  | block ht hget hparent hscope hbinds _ ih =>
    refine .block (hlo.trans ht) (heq _ _ ht hget) hparent hscope hbinds fun stmt hstmt => ?_
    exact ih stmt hstmt le_rfl fun i _ hi => heq i _ (by omega)
  | other hkind _ hunvisited ih => exact .other hkind (fun c hc => ih c hc hlo heq) hunvisited

/-- A step that adds declarations to one table, and new tables. -/
structure Grows (table : Option Nat) (st st' : Symboltable) (decls : List (String × Symbol)) :
    Prop where
  head : st'.head = st.head
  length : st.tables.length ≤ st'.tables.length
  others : ∀ i < st.tables.length, i ∉ table → st'.tables[i]? = st.tables[i]?
  binds : ∀ t ∈ table, ∀ ht ds, st.tables[t]? = some ht → Binds ht ds →
    ∃ ht', st'.tables[t]? = some ht' ∧ ht'.parent = ht.parent ∧ Binds ht' (ds ++ decls)

namespace Grows

variable {table : Option Nat} {decls decls' : List (String × Symbol)}

theorem refl (hhead : st'.head = st.head) (htables : st'.tables = st.tables) :
    Grows table st st' [] :=
  ⟨hhead, by rw [htables], fun i _ _ => by rw [htables],
    fun t _ ht ds hget hbinds => ⟨ht, by rw [htables, hget], rfl, by rwa [List.append_nil]⟩⟩

theorem trans (h : Grows table st st' decls) (h' : Grows table st' st'' decls') :
    Grows table st st'' (decls ++ decls') := by
  refine ⟨h'.head.trans h.head, h.length.trans h'.length, fun i hi hne => ?_, ?_⟩
  · rw [h'.others i (by have := h.length; omega) hne, h.others i hi hne]
  · intro t ht tbl ds hget hbinds
    obtain ⟨tbl₁, hget₁, hparent₁, hbinds₁⟩ := h.binds t ht tbl ds hget hbinds
    obtain ⟨tbl₂, hget₂, hparent₂, hbinds₂⟩ := h'.binds t ht tbl₁ _ hget₁ hbinds₁
    exact ⟨tbl₂, hget₂, hparent₂.trans hparent₁, by rwa [← List.append_assoc]⟩

/-- What was put into the new tables of an earlier step stays there. -/
theorem keeps (h : Grows table st st' decls) (hlo : ∀ t ∈ table, t < lo) {i : Nat}
    {ht : Hashtable} (hi : lo ≤ i) (hget : st.tables[i]? = some ht) : st'.tables[i]? = some ht := by
  rw [h.others i (List.getElem?_eq_some_iff.mp hget).1 fun hmem => by have := hlo i hmem; omega]
  exact hget

end Grows

theorem symboltableInsert_grows {table : Option Nat} {key : String} {value : Symbol}
    (h : symboltableInsert table key value st = .ok ((), st')) :
    Grows table st st' [(key, value)] := by
  obtain ⟨t, ht, ht', r, rfl, hget, hins, rfl⟩ := symboltableInsert_ok h
  have ht_lt := (List.getElem?_eq_some_iff.mp hget).1
  refine ⟨rfl, by simp, fun i hi hne => ?_, fun t' ht' tbl ds hget' hbinds => ?_⟩
  · have : t ≠ i := fun heq => hne (by rw [heq]; rfl)
    simp [this]
  · cases ht'
    cases hget.symm.trans hget'
    obtain ⟨hbinds', hparent⟩ := hbinds.insert hins
    exact ⟨_, by simp [ht_lt], hparent, hbinds'⟩

/-- What a visit of a statement does to the tables, and what it leaves in the tree. -/
structure Builds (head : Option Nat) (st st' : Symboltable) (nodes : List AstNode) : Prop where
  grows : Grows head st st' (nodes.flatMap AstNode.declared)
  inner : ∀ node ∈ nodes, Scoped st'.tables st.tables.length head node

theorem traverseList_builds {f : AstNode → Walk Symboltable AstNode} {nodes nodes' : List AstNode}
    (hf : ∀ node ∈ nodes, ∀ st node' st', f node st = .ok (node', st') →
      (∀ t ∈ st.head, t < st.tables.length) → Builds st.head st st' [node'])
    (h : traverseList f nodes st = .ok (nodes', st')) (hhead : ∀ t ∈ st.head, t < st.tables.length) :
    Builds st.head st st' nodes' := by
  induction nodes generalizing nodes' st with
  | nil =>
    cases h
    exact ⟨.refl rfl rfl, nofun⟩
  | cons node nodes ih =>
    obtain ⟨node', st₁, rest, hnode, hrest, rfl⟩ := traverseList_cons_ok h
    have hfirst := hf node (by simp) _ _ _ hnode hhead
    have hst := hfirst.grows.head
    have hrest := ih (fun n hn => hf n (by simp [hn])) hrest fun t ht => by
      have := hhead t (hst ▸ ht)
      have := hfirst.grows.length
      omega
    rw [hst] at hrest
    refine ⟨?_, List.forall_mem_cons.mpr ⟨?_, fun n hn => ?_⟩⟩
    · rw [← List.singleton_append, List.flatMap_append]
      exact hfirst.grows.trans hrest.grows
    · exact (hfirst.inner node' (by simp)).mono le_rfl fun i ht hi =>
        hrest.grows.keeps (fun t ht => hhead t ht) hi
    · exact (hrest.inner n hn).mono hfirst.grows.length fun i ht _ hget => hget

/-- The effect of the way down on the tables, for nodes that are no blocks. -/
theorem PreStep.grows (h : PreStep node st node' st') (hblock : node.kind ≠ .block)
    (hproc : node.kind ≠ .proc) (htable : node.kind ≠ .table) :
    Grows st.head st st' node'.declared := by
  cases h with
  | block => exact (hblock rfl).elim
  | proc => exact (hproc rfl).elim
  | table => exact (htable rfl).elim
  | vardecl _ hins =>
    have hgrows := symboltableInsert_grows hins
    exact ⟨hgrows.head, hgrows.length, hgrows.others, hgrows.binds⟩
  | array => exact .refl rfl rfl
  | other _ hvardecl =>
    rw [AstNode.declared_eq_nil hvardecl]
    exact .refl rfl rfl

theorem Shape.stmt_kind (h : Shape .stmt node) : node.kind ≠ .proc ∧ node.kind ≠ .table := by
  cases h with
  | exprstmt h => cases h <;> simp [AstNode.kind]
  | blockstmt h => cases h; simp [AstNode.kind]
  | _ => simp [AstNode.kind]

/-- The state in which the statements of a block are visited. -/
def Symboltable.opened (st : Symboltable) : Symboltable :=
  { st with
    head := some st.tables.length
    tables := st.tables ++ [{ hashtableInit 50 with parent := st.head }] }

/-- Closing a block leaves a new table with the declarations of the block. -/
theorem Builds.close {st st' : Symboltable} {nodes : List AstNode} {ht : Hashtable}
    (h : Builds (some st.tables.length) st.opened st' nodes)
    (hget : st'.head.bind (st'.tables[·]?) = some ht)
    (hhead : ∀ t ∈ st.head, t < st.tables.length) :
    Builds st.head st { st' with head := ht.parent }
      [.block nodes (some st.tables.length)] := by
  have hlen : st.opened.tables.length = st.tables.length + 1 := by simp [Symboltable.opened]
  obtain ⟨ht', hget', hparent, hbinds⟩ := h.grows.binds _ rfl
    { hashtableInit 50 with parent := st.head } [] (by simp [Symboltable.opened]) .init
  have hold : ∀ i < st.tables.length, st'.tables[i]? = st.tables[i]? := fun i hi => by
    rw [h.grows.others i (by omega) (by simp; omega)]
    exact List.getElem?_append_left hi
  rw [h.grows.head] at hget
  cases hget'.symm.trans hget
  refine ⟨⟨hparent, ?_, fun i hi _ => hold i hi, fun t ht tbl ds hget hbinds => ?_⟩, ?_⟩
  · have := h.grows.length
    simp only
    omega
  · exact ⟨tbl, by rw [hold t (hhead t ht), hget], rfl, by simpa [AstNode.declared] using hbinds⟩
  · simp only [List.mem_singleton, forall_eq]
    exact .block le_rfl hget hparent hhead hbinds fun stmt hstmt => hlen ▸ h.inner stmt hstmt

theorem PreStep.children_unvisited (h : PreStep node st node' st') :
    node'.children = node.children ∧ node'.unvisited = node.unvisited := by
  cases h <;> exact ⟨rfl, rfl⟩

theorem buildTo_kind {depth : Nat} (h : buildTo depth node st = .ok (node', st')) :
    node'.kind = node.kind :=
  (buildTo_parts (Q := fun _ => True) h fun _ _ _ _ => trivial).1

/-- A visit of a statement declares it in the block around it and fills the tables inside it. -/
theorem buildTo_builds {depth : Nat} (h : buildTo depth node st = .ok (node', st'))
    (hshape : Shape .stmt node) (hhead : ∀ t ∈ st.head, t < st.tables.length) :
    Builds st.head st st' [node'] := by
  induction depth generalizing node node' st st' with
  | zero => cases h
  | succ depth ih =>
    obtain ⟨d, node₁, st₁, nodes, st₂, hd, hpre, hlist, hnodes, hpost⟩ := buildTo_ok h
    cases hd
    obtain ⟨hproc, htable⟩ := hshape.stmt_kind
    obtain ⟨hkind, -⟩ := hpre.kind_parts
    obtain ⟨hchildren, hunvisited⟩ := hpre.children_unvisited
    have hlist_builds := traverseList_builds (fun c hc _ _ _ h hhead =>
      ih h (hshape.stmt_child (hchildren ▸ hc)).1 hhead) hlist
    by_cases hblock : node.kind = .block
    · cases hpre with
      | block =>
        cases hpost with
        | other hblock => exact (hblock rfl).elim
        | block hget => exact (hlist_builds (by simp)).close hget hhead
      | other hne => exact (hne hblock).elim
      | _ => cases hblock
    · have hgrows := hpre.grows hblock hproc htable
      have hnew := hlist_builds fun t ht => by
        have := hhead t (hgrows.head ▸ ht)
        have := hgrows.length
        omega
      rw [hgrows.head] at hnew
      have hnone : nodes.flatMap AstNode.declared = [] := by
        refine List.flatMap_eq_nil_iff.mpr (forall_mem_of_traverseList (fun c hc _ _ _ h => ?_) hlist)
        refine AstNode.declared_eq_nil ?_
        rw [buildTo_kind h]
        exact (hshape.stmt_child (hchildren ▸ hc)).2 hblock
      obtain ⟨rfl, rfl⟩ : node' = node₁.withChildren nodes ∧ st' = st₂ := by
        have hkind' := AstNode.kind_withChildren node₁ nodes
        generalize node₁.withChildren nodes = n at hpost hkind'
        cases hpost with
        | other => exact ⟨rfl, rfl⟩
        | block => exact (hblock (hkind'.trans hkind).symm).elim
        | proc | noBody => exact (hproc (hkind'.trans hkind).symm).elim
      refine ⟨?_, ?_⟩
      · rw [List.flatMap_singleton, AstNode.declared_withChildren]
        simpa [hnone] using hgrows.trans hnew.grows
      · simp only [List.mem_singleton, forall_eq]
        refine .other (by rwa [AstNode.kind_withChildren, hkind]) (fun c hc => ?_) fun c hc => ?_
        · exact (hnew.inner c (hnodes ▸ hc)).mono hgrows.length fun i ht _ hget => hget
        · rw [AstNode.unvisited_withChildren, hunvisited] at hc
          exact hshape.unvisited hc

/-! ### Procedures -/

theorem procPostParams_grows {table : Option Nat} {params params' : List Param}
    (h : procPostParams table params st = .ok (params', st')) :
    Grows table st st' (params'.map Param.declared) := by
  induction params generalizing params' st with
  | nil =>
    cases h
    exact .refl rfl rfl
  | cons param params ih =>
    obtain ⟨offset, st₁, hoffset, h₁⟩ := StateT.bind_ok.mp h
    obtain ⟨size, hsize, heq⟩ := Except.bind_ok.mp hoffset
    cases heq
    obtain ⟨u, st₂, hins, h₂⟩ := StateT.bind_ok.mp h₁
    obtain ⟨rest, st₃, hrest, h₃⟩ := StateT.bind_ok.mp h₂
    cases h₃
    have hgrows := symboltableInsert_grows hins
    have hown : Grows table st st₂ [Param.declared { param with offset := st.stackSize + size }] :=
      ⟨hgrows.head, hgrows.length, hgrows.others, hgrows.binds⟩
    exact hown.trans (ih hrest)

/-- The tables of a procedure: that of its body also has the parameters, behind the variables. -/
def ProcScoped (tables : List Hashtable) (lo : Nat) (scope : Option Nat) (node : AstNode) : Prop :=
  ∀ op ident body sig table stackSize,
    node = .proc op ident (some body) (.procedure sig) table stackSize →
    ∃ stmts t ht, body = .block stmts (some t) ∧ lo ≤ t ∧ tables[t]? = some ht ∧
      ht.parent = scope ∧ (∀ j ∈ scope, j < t) ∧
      Binds ht (stmts.flatMap AstNode.declared ++ sig.params.map Param.declared) ∧
      ∀ stmt ∈ stmts, Scoped tables (t + 1) (some t) stmt

theorem ProcScoped.mono {lo' : Nat} (h : ProcScoped tables lo scope node) (hlo : lo' ≤ lo)
    (heq : ∀ i ht, lo ≤ i → tables[i]? = some ht → tables'[i]? = some ht) :
    ProcScoped tables' lo' scope node := by
  intro op ident body sig table stackSize hnode
  obtain ⟨stmts, t, ht, hbody, hle, hget, hparent, hscope, hbinds, hstmts⟩ :=
    h op ident body sig table stackSize hnode
  exact ⟨stmts, t, ht, hbody, hlo.trans hle, heq t ht hle hget, hparent, hscope, hbinds,
    fun stmt hstmt => (hstmts stmt hstmt).mono le_rfl fun i _ hi => heq i _ (by omega)⟩

/-- A visit of a procedure fills the tables inside it. -/
theorem buildTo_procScoped {depth : Nat} (h : buildTo depth node st = .ok (node', st'))
    (hshape : Shape .decl node) (hhead : ∀ t ∈ st.head, t < st.tables.length) :
    ProcScoped st'.tables st.tables.length st.head node' := by
  rintro op ident body sig table stackSize rfl
  obtain ⟨d, body₀, params₀, table₀, size₀, st₁, st₂, stmts, rfl, hbody, hins, hbuild, rfl, hparams,
    rfl⟩ := buildTo_proc hshape h
  have hgrows := symboltableInsert_grows hins
  have hlen := hgrows.length
  have hbuilds := buildTo_builds hbuild (.blockstmt hbody) fun t ht => by
    have := hhead t (hgrows.head ▸ ht)
    simp only
    omega
  simp only [hgrows.head] at hbuilds
  cases hbuilds.inner _ (List.mem_singleton.mpr rfl) with
  | other hkind => exact (hkind rfl).elim
  | @block _ t _ _ ht hle hget hparent hscope hbinds hstmts =>
    have hpgrows := procPostParams_grows hparams
    obtain ⟨ht', hget', hparent', hbinds'⟩ := hpgrows.binds t rfl ht _ hget hbinds
    refine ⟨stmts, t, ht', rfl, by simp only at hle; omega, hget', hparent'.trans hparent, hscope,
      hbinds', fun stmt hstmt => (hstmts stmt hstmt).mono le_rfl fun i _ hi hi' => ?_⟩
    exact hpgrows.keeps (show ∀ t' ∈ some t, t' < t + 1 by simp) hi hi'

/-- A later step in a new table. -/
theorem Grows.inside {table : Option Nat} {t : Nat} {decls decls' : List (String × Symbol)}
    (h : Grows table st st' decls) (h' : Grows (some t) st' st'' decls')
    (ht : st.tables.length ≤ t) (htable : ∀ t ∈ table, t < st.tables.length) :
    Grows table st st'' decls := by
  have hold : ∀ i < st.tables.length, st''.tables[i]? = st'.tables[i]? := fun i hi =>
    h'.others i (by have := h.length; omega) (by simp; omega)
  refine ⟨h'.head.trans h.head, h.length.trans h'.length, fun i hi hne => ?_, ?_⟩
  · rw [hold i hi, h.others i hi hne]
  · intro t ht tbl ds hget hbinds
    obtain ⟨tbl', hget', h⟩ := h.binds t ht tbl ds hget hbinds
    exact ⟨tbl', by rw [hold t (htable t ht), hget'], h⟩

/-- A visit of a top-level declaration inserts its symbol. -/
theorem buildTo_global {depth : Nat} (h : buildTo depth node st = .ok (node', st'))
    (hshape : Shape .decl node) (hhead : ∀ t ∈ st.head, t < st.tables.length) :
    Grows st.head st st' node.global := by
  rcases buildTo_decl hshape h with ⟨key, value, hnode, hins⟩ |
    ⟨op, ident, body, sig, table, stackSize, rfl⟩
  · rw [hnode]
    exact symboltableInsert_grows hins
  · obtain ⟨d, body₀, params₀, table₀, size₀, st₁, st₂, stmts, rfl, hbody, hins, hbuild, rfl,
      hparams, rfl⟩ := buildTo_proc hshape h
    have hgrows := symboltableInsert_grows hins
    have hlen := hgrows.length
    have hbuilds := buildTo_builds hbuild (.blockstmt hbody) fun t ht => by
      have := hhead t (hgrows.head ▸ ht)
      simp only
      omega
    simp only [hgrows.head] at hbuilds
    cases hbuilds.inner _ (List.mem_singleton.mpr rfl) with
    | other hkind => exact (hkind rfl).elim
    | block hle =>
      have hstart : Grows st.head st { head := st.head, tables := st₁.tables } _ :=
        ⟨rfl, hgrows.length, hgrows.others, hgrows.binds⟩
      have hdecl := (hstart.trans hbuilds.grows).inside (procPostParams_grows hparams)
        (by simp only at hle; omega) hhead
      simpa [AstNode.declared, AstNode.global] using hdecl

/-- The visits of all declarations of a program. -/
theorem traverseList_procScoped {depth : Nat} {decls nodes : List AstNode}
    (h : traverseList (buildTo depth) decls st = .ok (nodes, st'))
    (hshape : ∀ d ∈ decls, Shape .decl d) (hhead : ∀ t ∈ st.head, t < st.tables.length) :
    Grows st.head st st' (decls.flatMap AstNode.global) ∧
      ∀ n ∈ nodes, ProcScoped st'.tables st.tables.length st.head n := by
  induction decls generalizing nodes st with
  | nil =>
    cases h
    exact ⟨.refl rfl rfl, nofun⟩
  | cons d decls ih =>
    obtain ⟨node', st₁, rest, hnode, hrest, rfl⟩ := traverseList_cons_ok h
    have hgrows := buildTo_global hnode (hshape d (by simp)) hhead
    have hproc := buildTo_procScoped hnode (hshape d (by simp)) hhead
    obtain ⟨hgrows', hprocs⟩ := ih hrest (fun d hd => hshape d (by simp [hd])) fun t ht => by
      have := hhead t (hgrows.head ▸ ht)
      have := hgrows.length
      omega
    rw [hgrows.head] at hgrows' hprocs
    refine ⟨hgrows.trans hgrows', List.forall_mem_cons.mpr ⟨?_, fun n hn => ?_⟩⟩
    · exact hproc.mono le_rfl fun i ht hi => hgrows'.keeps (fun t ht => hhead t ht) hi
    · exact (hprocs n hn).mono hgrows.length fun i ht _ hget => hget

/-- The tables of a program: the first one has the top-level declarations, and each procedure has
its own. -/
theorem symboltableBuild_scoped {root root' : AstNode} (hshape : Shape .program root)
    (h : symboltableBuild root = .ok (root', st)) :
    (∃ ht, st.tables[0]? = some ht ∧ ht.parent = none ∧ Binds ht root.globals) ∧
      ∀ x ∈ root'.subtrees, x.kind = .proc → ProcScoped st.tables 1 (some 0) x := by
  obtain ⟨decls, t, depth, nodes, st₁, rfl, hdecls, hlist, htables, hprocs⟩ :=
    symboltableBuild_program hshape h
  obtain ⟨hgrows, hscoped⟩ := traverseList_procScoped hlist hdecls (by simp [Symboltable.started])
  obtain ⟨ht, hget, hparent, hbinds⟩ := hgrows.binds 0 rfl _ [] rfl .init
  rw [htables]
  exact ⟨⟨ht, hget, hparent, hbinds⟩, fun x hx hkind => hscoped x (hprocs x hx hkind)⟩

/-! ## Occurrences -/

/-- An identifier, the scope of the code generator when it comes to it, and the blocks around the
identifier from the innermost one outwards. -/
structure Occurrence where
  ident : Token
  scope : Option Nat
  blocks : List (Block String Symbol)

/-- A block at one of its statements. Whether a declaration is in scope in its own initialiser is
left open. -/
def splitAt (own : Bool) (earlier : List AstNode) (stmt : AstNode) (later : List AstNode) :
    Block String Symbol where
  before := (earlier ++ if own then [stmt] else []).flatMap AstNode.declared
  after := ((if own then [] else [stmt]) ++ later).flatMap AstNode.declared

/-- The identifiers in a tree after the expansion. A `while` that comes from a `for` has the token
of the `for`. It ends with the step, which stands before the body in the program. -/
inductive Occurs (own : Bool) :
    Option Nat → List (Block String Symbol) → AstNode → Occurrence → Prop
  | ident {scope : Option Nat} {blocks : List (Block String Symbol)} {op : Token} :
    Occurs own scope blocks (.literal op .ident) ⟨op, scope, blocks⟩
  | part {scope : Option Nat} {blocks : List (Block String Symbol)} {node c : AstNode}
    {o : Occurrence} : node.kind ≠ .block → node.kind ≠ .while_ → c ∈ node.parts →
    Occurs own scope blocks c o → Occurs own scope blocks node o
  | stmt {scope t : Option Nat} {blocks : List (Block String Symbol)} {stmt : AstNode}
    {earlier later : List AstNode} {o : Occurrence} :
    Occurs own t (splitAt own earlier stmt later :: blocks) stmt o →
    Occurs own scope blocks (.block (earlier ++ stmt :: later) t) o
  | cond {scope : Option Nat} {blocks : List (Block String Symbol)} {op : Token}
    {cond body : AstNode} {o : Occurrence} : Occurs own scope blocks cond o →
    Occurs own scope blocks (.while_ op cond body) o
  | body {scope : Option Nat} {blocks : List (Block String Symbol)} {op : Token}
    {cond body : AstNode} {o : Occurrence} : op.kind ≠ .kwFor → Occurs own scope blocks body o →
    Occurs own scope blocks (.while_ op cond body) o
  | loopStmt {scope t : Option Nat} {blocks : List (Block String Symbol)} {op : Token}
    {cond stmt step : AstNode} {earlier later : List AstNode} {o : Occurrence} :
    op.kind = .kwFor →
    Occurs own t (splitAt own earlier stmt (later ++ [step]) :: blocks) stmt o →
    Occurs own scope blocks (.while_ op cond (.block (earlier ++ stmt :: (later ++ [step])) t)) o
  | step {scope t : Option Nat} {blocks : List (Block String Symbol)} {op : Token}
    {cond step : AstNode} {stmts : List AstNode} {o : Occurrence} : op.kind = .kwFor →
    Occurs own t (⟨[], (stmts ++ [step]).flatMap AstNode.declared⟩ :: blocks) step o →
    Occurs own scope blocks (.while_ op cond (.block (stmts ++ [step]) t)) o

theorem splitAt_decls (own : Bool) (earlier : List AstNode) (stmt : AstNode)
    (later : List AstNode) :
    (splitAt own earlier stmt later).decls =
      (earlier ++ stmt :: later).flatMap AstNode.declared := by
  cases own <;> simp [splitAt, Block.decls]

/-- The variables declared in a tree. -/
def AstNode.vars (node : AstNode) : List (String × Symbol) := node.visited.flatMap declared

theorem AstNode.vars_eq (node : AstNode) :
    node.vars = node.declared ++ node.children.flatMap vars := by
  rw [vars, visited_eq, List.flatMap_cons, List.flatMap_assoc]
  rfl

variable {own : Bool} {o : Occurrence} {b : Block String Symbol}
  {blocks : List (Block String Symbol)} {chain : List (List (String × Symbol))}
  {vars vars' : List (String × Symbol)}

/-- Inside expressions the scope does not change. -/
theorem Occurs.of_expr (h : Occurs own scope blocks node o) (hshape : Shape .expr node) :
    o.scope = scope ∧ o.blocks = blocks := by
  induction h with
  | ident => exact ⟨rfl, rfl⟩
  | part _ _ hc _ ih => exact ih (hshape.expr_part hc)
  | _ => cases hshape

theorem sublist_flatMap {α β : Type} {l : List α} {f : α → List β} {a : α} (h : a ∈ l) :
    (f a).Sublist (l.flatMap f) := by
  rw [List.flatMap_def]
  exact List.sublist_flatten_of_mem (List.mem_map_of_mem h)

/-- Variables inside one of some statements, and the variables that the statements declare. -/
theorem subperm_flatMap_vars {stmts : List AstNode} {stmt : AstNode}
    (h : vars.Subperm (stmt.children.flatMap AstNode.vars)) (hstmt : stmt ∈ stmts) :
    (vars ++ stmts.flatMap AstNode.declared).Subperm (stmts.flatMap AstNode.vars) := by
  have hdeep : (stmt.children.flatMap AstNode.vars).Sublist
      (stmts.flatMap fun s => s.children.flatMap AstNode.vars) :=
    sublist_flatMap (f := fun s : AstNode => s.children.flatMap AstNode.vars) hstmt
  have hperm : (stmts.flatMap (fun s => s.children.flatMap AstNode.vars) ++
      stmts.flatMap AstNode.declared).Perm (stmts.flatMap AstNode.vars) := by
    refine List.perm_append_comm.trans ((List.flatMap_append_perm ..).trans (.of_eq ?_))
    simp only [← AstNode.vars_eq]
  exact ((List.subperm_append_right _).mpr (h.trans hdeep.subperm)).trans hperm.subperm

/-- The tables that answer at an occurrence: those of the blocks around it, up to some block. -/
structure Reaches (tables : List Hashtable) (blocks : List (Block String Symbol))
    (chain : List (List (String × Symbol))) (vars : List (String × Symbol)) (o : Occurrence) :
    Prop where
  scope : o.scope ≠ none
  inner : ∃ inner, o.blocks = inner ++ blocks ∧
    Chain tables o.scope (inner.map Block.decls ++ chain) ∧
    (inner.flatMap Block.decls).Subperm vars

namespace Reaches

theorem here (hscope : scope ≠ none) (hchain : Chain tables scope chain) (h : o.scope = scope)
    (h' : o.blocks = blocks) : Reaches tables blocks chain vars o := by
  subst h h'
  exact ⟨hscope, [], rfl, hchain, List.nil_subperm⟩

theorem mono (h : Reaches tables blocks chain vars o) (hvars : vars.Sublist vars') :
    Reaches tables blocks chain vars' o := by
  obtain ⟨hscope, inner, hblocks, hchain, hsub⟩ := h
  exact ⟨hscope, inner, hblocks, hchain, hsub.trans hvars.subperm⟩

/-- The declarations of a block and those in the blocks inside one of its statements. -/
theorem subperm_vars {inner : List (Block String Symbol)} {stmts : List AstNode} {stmt : AstNode}
    (h : (inner.flatMap Block.decls).Subperm (stmt.children.flatMap AstNode.vars))
    (hb : b.decls = stmts.flatMap AstNode.declared) (hstmt : stmt ∈ stmts) :
    ((inner ++ [b]).flatMap Block.decls).Subperm (stmts.flatMap AstNode.vars) := by
  rw [List.flatMap_append, List.flatMap_singleton, hb]
  exact subperm_flatMap_vars h hstmt

/-- From a statement to the block it stands in. -/
theorem leave {stmts : List AstNode} {stmt : AstNode}
    (h : Reaches tables (b :: blocks) (b.decls :: chain) (stmt.children.flatMap AstNode.vars) o)
    (hb : b.decls = stmts.flatMap AstNode.declared) (hstmt : stmt ∈ stmts) :
    Reaches tables blocks chain (stmts.flatMap AstNode.vars) o := by
  obtain ⟨hscope, inner, hblocks, hchain, hsub⟩ := h
  exact ⟨hscope, inner ++ [b], by simp [hblocks], by simpa using hchain,
    subperm_vars hsub hb hstmt⟩

end Reaches

/-- The table of a block answers with its declarations. -/
theorem Scoped.enter {t : Option Nat} {stmts : List AstNode}
    (h : Scoped tables lo scope (.block stmts t)) (hchain : Chain tables scope chain) :
    t ≠ none ∧ Chain tables t (stmts.flatMap AstNode.declared :: chain) ∧
      ∀ stmt ∈ stmts, ∃ lo, Scoped tables lo t stmt := by
  cases h with
  | other hkind => exact (hkind rfl).elim
  | @block _ t _ _ ht _ hget hparent hscope hbinds hstmts =>
    refine ⟨nofun, .cons hget hbinds (hparent ▸ hscope) (hparent ▸ hchain), fun stmt hstmt => ?_⟩
    exact ⟨_, hstmts stmt hstmt⟩

/-- From a child to its parent. -/
theorem Reaches.up {c : AstNode} (hc : c ∈ node.children)
    (h : Reaches tables blocks chain (c.children.flatMap AstNode.vars) o) :
    Reaches tables blocks chain (node.children.flatMap AstNode.vars) o := by
  refine h.mono (List.Sublist.trans ?_ (sublist_flatMap hc))
  rw [AstNode.vars_eq]
  exact List.sublist_append_right ..

/-- The tables answer at every occurrence with the declarations of the blocks around it. -/
theorem Occurs.reaches (h : Occurs own scope blocks node o) (hscoped : Scoped tables lo scope node)
    (hscope : scope ≠ none) (hchain : Chain tables scope chain) :
    Reaches tables blocks chain (node.children.flatMap AstNode.vars) o := by
  induction h generalizing lo chain with
  | ident => exact .here hscope hchain rfl rfl
  | part hblock _ hc h ih =>
    cases hscoped with
    | block => exact (hblock rfl).elim
    | other _ hchildren hunvisited =>
      rcases AstNode.mem_parts hc with hc | hc
      · exact .up hc (ih (hchildren _ hc) hscope hchain)
      · obtain ⟨hscope', hblocks⟩ := h.of_expr (hunvisited _ hc)
        exact .here hscope hchain hscope' hblocks
  | @stmt scope t blocks stmt earlier later o _ ih =>
    have hmem : stmt ∈ earlier ++ stmt :: later := by simp
    obtain ⟨ht, hchain, hstmts⟩ := hscoped.enter hchain
    obtain ⟨lo, hstmt⟩ := hstmts stmt hmem
    rw [← splitAt_decls own] at hchain
    exact (ih hstmt ht hchain).leave (splitAt_decls ..) hmem
  | @cond scope blocks op cond body o _ ih =>
    cases hscoped with
    | other _ hchildren =>
      have hmem : cond ∈ (AstNode.while_ op cond body).children := by simp [AstNode.children]
      exact .up hmem (ih (hchildren _ hmem) hscope hchain)
  | @body scope blocks op cond body o _ _ ih =>
    cases hscoped with
    | other _ hchildren =>
      have hmem : body ∈ (AstNode.while_ op cond body).children := by simp [AstNode.children]
      exact .up hmem (ih (hchildren _ hmem) hscope hchain)
  | @loopStmt scope t blocks op cond stmt step earlier later o _ _ ih =>
    cases hscoped with
    | other _ hchildren =>
      have hbody : AstNode.block (earlier ++ stmt :: (later ++ [step])) t ∈
        (AstNode.while_ op cond (.block (earlier ++ stmt :: (later ++ [step])) t)).children := by
        simp [AstNode.children]
      have hmem : stmt ∈ earlier ++ stmt :: (later ++ [step]) := by simp
      obtain ⟨ht, hchain, hstmts⟩ := (hchildren _ hbody).enter hchain
      obtain ⟨lo, hstmt⟩ := hstmts stmt hmem
      rw [← splitAt_decls own] at hchain
      exact .up hbody ((ih hstmt ht hchain).leave (splitAt_decls ..) hmem)
  | @step scope t blocks op cond step stmts o _ _ ih =>
    cases hscoped with
    | other _ hchildren =>
      have hbody : AstNode.block (stmts ++ [step]) t ∈
        (AstNode.while_ op cond (.block (stmts ++ [step]) t)).children := by
        simp [AstNode.children]
      have hmem : step ∈ stmts ++ [step] := by simp
      obtain ⟨ht, hchain, hstmts⟩ := (hchildren _ hbody).enter hchain
      obtain ⟨lo, hstep⟩ := hstmts step hmem
      exact .up hbody ((ih hstep ht hchain).leave rfl hmem)

/-! ## Different variables -/

/-- A point inside the slot of each variable. -/
def AstNode.points (node : AstNode) : List (Set Int) :=
  node.declared.map fun decl => Set.Ico (-decl.2.offset) (-decl.2.offset + 1)

theorem PreStep.allots_points (h : PreStep node st node' st') (hproc : node.kind ≠ .proc)
    {nodes : List AstNode} (hlen : nodes.length = node'.children.length) :
    Allots st st' (node'.withChildren nodes).points := by
  have hslot := h.allots hproc hlen
  rw [AstNode.points, AstNode.declared_withChildren]
  cases h with
  | @vardecl _ st' op ident init type _ size hsize hins =>
    have hst := symboltableInsert_stackSize hins
    have := typePrimitiveSize_bounds hsize
    have := align16_typePrimitiveSize hsize
    refine ⟨hslot.1, .single ?_ ?_⟩
    · simp [hst]
    · simp only
      omega
  | other _ hvardecl =>
    rw [AstNode.declared_eq_nil hvardecl]
    exact ⟨hslot.1, .nil⟩
  | _ => exact ⟨hslot.1, .nil⟩

/-- No two variables of a body have the same offset. -/
theorem vars_nodup {depth : Nat} (h : buildTo depth node st = .ok (node', st'))
    (hfree : node.AllKinds (· ≠ .proc)) : (node'.vars.map Prod.snd).Nodup := by
  have hallots := @buildTo_allots _ _ _ _ AstNode.points _
    (fun _ _ _ _ hpre hproc _ hlen => hpre.allots_points hproc hlen) h hfree
  have hpoints : node'.visited.flatMap AstNode.points = node'.vars.map fun decl =>
      Set.Ico (-decl.2.offset) (-decl.2.offset + 1) := by
    rw [AstNode.vars, List.map_flatMap]
    rfl
  have hdisjoint := hallots.2.disjoint
  rw [hpoints, List.pairwise_map] at hdisjoint
  refine List.pairwise_map.mpr (hdisjoint.imp fun {a b} hdisj heq => ?_)
  rw [heq] at hdisj
  exact Set.disjoint_left.mp hdisj (Set.left_mem_Ico.mpr (by omega)) (Set.left_mem_Ico.mpr (by omega))

theorem vars_kind {decl : String × Symbol} (h : decl ∈ node.vars) : decl.2.kind = .variable := by
  obtain ⟨n, -, hdecl⟩ := List.mem_flatMap.mp h
  unfold AstNode.declared at hdecl
  split at hdecl
  · rw [List.mem_singleton.mp hdecl]
  · cases hdecl

theorem globals_kind {decl : String × Symbol} (h : decl ∈ node.globals) :
    decl.2.kind ≠ .variable := by
  obtain ⟨n, -, hdecl⟩ := List.mem_flatMap.mp h
  unfold AstNode.global at hdecl
  split at hdecl
  · rw [List.mem_singleton.mp hdecl]
    simp
  · rw [List.mem_singleton.mp hdecl]
    simp
  · cases hdecl

/-! ## Programs -/

/-- The declarations outside the blocks of a procedure: its parameters and the top level. -/
def outer (sig : ProcSignature) (root : AstNode) : List (String × Symbol) :=
  sig.params.map Param.declared ++ root.globals

theorem outer_kind {sig : ProcSignature} {root : AstNode} {decl : String × Symbol}
    (h : decl ∈ outer sig root) : decl.2.kind ≠ .variable := by
  rcases List.mem_append.mp h with h | h
  · obtain ⟨param, -, rfl⟩ := List.mem_map.mp h
    simp [Param.declared]
  · exact globals_kind h

/-- The lookup at an occurrence answers with the nearest declaration that precedes it in the
blocks around it, else with the parameter, else with the top-level declaration. -/
def ResolvesLexically (tables : List Hashtable) (outer : List (String × Symbol))
    (o : Occurrence) : Prop :=
  symboltableLookup tables o.scope o.ident.value =
    .ok (Shadowing.nearest o.ident.value o.blocks outer)

/-- The innermost block that declares the name, before or after the occurrence, does so exactly
once before it, and the name fits into an entry of a table, or no entry is like it. -/
def Unambiguous (outer : List (String × Symbol)) (o : Occurrence) : Prop :=
  Shadowing.DeclaredOnce o.ident.value o.blocks ∧
    (o.ident.value.length < maxIdentLen ∨
      ∀ decl ∈ o.blocks.flatMap Block.decls ++ outer, ¬ SameEntry o.ident.value decl.1)

/-- What the tables answer, as a statement about the declarations around the occurrence. -/
theorem Chain.resolvesLexically_iff {outer : List (String × Symbol)} (hscope : o.scope ≠ none)
    (hchain : Chain tables o.scope chain)
    (hflat : chain.flatten = o.blocks.flatMap Block.decls ++ outer)
    (hnodup : ((o.blocks.flatMap Block.decls).map Prod.snd).Nodup)
    (houter : ∀ v ∈ (o.blocks.flatMap Block.decls).map Prod.snd, v ∉ outer.map Prod.snd) :
    ResolvesLexically tables outer o ↔ Unambiguous outer o := by
  obtain ⟨i, hi⟩ := Option.ne_none_iff_exists'.mp hscope
  rw [hi] at hchain
  unfold ResolvesLexically Unambiguous
  rw [hi, ← Shadowing.first_eq_nearest_iff hnodup houter]
  by_cases hlen : o.ident.value.length < maxIdentLen
  · rw [hchain.symboltableLookup_short hlen, hflat, Except.ok.injEq]
    simp [hlen, Shadowing.first]
  · rw [hchain.symboltableLookup_long (Nat.le_of_not_lt hlen), hflat]
    by_cases hsame : ∃ decl ∈ o.blocks.flatMap Block.decls ++ outer,
        SameEntry o.ident.value decl.1
    · rw [if_pos hsame]
      refine iff_of_false (by simp) ?_
      rintro ⟨-, h | h⟩
      · exact hlen h
      · obtain ⟨decl, hdecl, hsame⟩ := hsame
        exact h decl hdecl hsame
    · have hfirst : Shadowing.first o.ident.value o.blocks outer = none := by
        refine Shadowing.lookup_eq_none.mpr fun hk => hsame ?_
        obtain ⟨decl, hdecl, hk⟩ := List.mem_map.mp hk
        exact ⟨decl, hdecl, by rw [hk]; exact ⟨rfl, rfl⟩⟩
      rw [if_neg hsame, hfirst, Shadowing.nearest_eq_none hfirst]
      exact iff_of_true rfl ⟨rfl, .inr fun decl hdecl h => hsame ⟨decl, hdecl, h⟩⟩

/-- The tables at an occurrence in the body of a procedure. -/
theorem ProcScoped.reaches {op ident : Token} {body : AstNode} {sig : ProcSignature}
    {table : Option Nat} {stackSize : Int} {ht : Hashtable} {globals : List (String × Symbol)}
    (h : ProcScoped tables lo (some 0) (.proc op ident (some body) (.procedure sig) table stackSize))
    (hget : tables[0]? = some ht) (hparent : ht.parent = none) (hbinds : Binds ht globals)
    (ho : Occurs own none [] body o) :
    o.scope ≠ none ∧ (∃ chain, Chain tables o.scope chain ∧
      chain.flatten = o.blocks.flatMap Block.decls ++ (sig.params.map Param.declared ++ globals)) ∧
      (o.blocks.flatMap Block.decls).Subperm body.vars := by
  obtain ⟨stmts, t, ht', rfl, -, hget', hparent', hscope, hbinds', hstmts⟩ := h _ _ _ _ _ _ rfl
  have hroot : Chain tables (some 0) [globals] :=
    .cons hget hbinds (by simp [hparent]) (hparent ▸ .nil)
  have hchain := Chain.cons hget' hbinds' (hparent' ▸ hscope) (hparent' ▸ hroot)
  generalize hbody : AstNode.block stmts (some t) = body at ho
  cases ho with
  | @stmt _ t' _ stmt earlier later o ho =>
    cases hbody
    have hmem : stmt ∈ earlier ++ stmt :: later := by simp
    obtain ⟨hscope', inner, hblocks, hchain', hsub⟩ :=
      ho.reaches (hstmts stmt hmem) nofun hchain
    have hdecls := splitAt_decls own earlier stmt later
    refine ⟨hscope', ⟨_, hchain', ?_⟩, ?_⟩
    · rw [hblocks]
      simp [hdecls, List.flatMap_def]
    · rw [hblocks, AstNode.vars_eq]
      exact Reaches.subperm_vars hsub hdecls hmem
  | part hblock => exact (hblock (by rw [← hbody]; rfl)).elim
  | _ => cases hbody

/-- No two variables of a procedure have the same offset. -/
theorem symboltableBuild_nodup {root root' : AstNode} {op ident : Token} {body : AstNode}
    {sig : ProcSignature} {table : Option Nat} {stackSize : Int} (hshape : Shape .program root)
    (h : symboltableBuild root = .ok (root', st))
    (hproc : .proc op ident (some body) (.procedure sig) table stackSize ∈ root'.subtrees) :
    (body.vars.map Prod.snd).Nodup := by
  obtain ⟨depth, d, st₁, st₂, hd, hvisit⟩ := symboltableBuild_proc hshape h hproc
  obtain ⟨d', body₀, params₀, table₀, size₀, st₃, st₄, stmts, -, hbody, -, hvisit', -⟩ :=
    buildTo_proc hd hvisit
  exact vars_nodup hvisit' (hbody.procFree nofun nofun)

/-- A lookup in the body of a procedure answers with the declaration that the text says iff the
occurrence is unambiguous. -/
theorem lookup_lexical_iff {fuel : Nat} {garbage : List Nat} {toks : List Token}
    {root root' root'' : AstNode} {p : Parser} {op ident : Token} {body : AstNode}
    {sig : ProcSignature} {table : Option Nat} {stackSize : Int}
    (hparse : parse fuel garbage toks = .ok root p) (hexpand : expandAst root = .ok root')
    (hbuild : symboltableBuild root' = .ok (root'', st))
    (hproc : .proc op ident (some body) (.procedure sig) table stackSize ∈ root''.subtrees)
    (ho : Occurs own none [] body o) :
    ResolvesLexically st.tables (outer sig root') o ↔ Unambiguous (outer sig root') o := by
  have hshape := parse_shape hparse
  cases (expandAst_eq hshape).symm.trans hexpand
  obtain ⟨⟨ht, hget, hparent, hbinds⟩, hscoped⟩ := symboltableBuild_scoped hshape.expanded hbuild
  obtain ⟨hscope, ⟨chain, hchain, hflat⟩, hsub⟩ :=
    (hscoped _ hproc rfl).reaches hget hparent hbinds ho
  have hnodup := symboltableBuild_nodup hshape.expanded hbuild hproc
  refine hchain.resolvesLexically_iff hscope hflat ?_ fun v hv hv' => ?_
  · obtain ⟨l, hperm, hsublist⟩ := hsub
    exact (hperm.map Prod.snd).nodup_iff.mp (hnodup.sublist (hsublist.map Prod.snd))
  · obtain ⟨decl, hdecl, rfl⟩ := List.mem_map.mp hv
    obtain ⟨decl', hdecl', heq⟩ := List.mem_map.mp hv'
    refine outer_kind hdecl' ?_
    rw [heq]
    exact vars_kind (hsub.subset hdecl)

/-- `proc f() int { let x: int = 1; let x: int = 2; return x; }` -/
def redeclared : List Token :=
  [{ kind := .kwProc }, .ident "f", { kind := .lparen }, { kind := .rparen }, { kind := .kwTypeInt },
    { kind := .lbrace },
    { kind := .kwVardecl }, .ident "x", { kind := .colon }, { kind := .kwTypeInt },
    { kind := .assign }, .num 1, { kind := .semicolon },
    { kind := .kwVardecl }, .ident "x", { kind := .colon }, { kind := .kwTypeInt },
    { kind := .assign }, .num 2, { kind := .semicolon },
    { kind := .kwReturn }, .ident "x", { kind := .semicolon }, { kind := .rbrace }, .eof]

/-- Whether a procedure with two declarations returns a variable that is looked up elsewhere than
where its nearest declaration puts it. -/
def returnsOther (root root' : AstNode) (tables : List Hashtable) : Bool :=
  match root' with
  | .block [.proc _ _ (some (.block [d, d', .return_ op (some (.literal x .ident))] t))
      (.procedure sig) _ _] _ =>
    match symboltableLookup tables t x.value with
    | .ok sym =>
      [true, false].all fun own =>
        sym.map (·.offset) ≠ (Shadowing.nearest x.value
          [splitAt own [d, d'] (.return_ op (some (.literal x .ident))) []]
          (outer sig root)).map (·.offset)
    | .error _ => false
  | _ => false

theorem redeclared_returnsOther :
    ∃ root p root' root'' st, parse 100 [] redeclared = .ok root p ∧ expandAst root = .ok root' ∧
      symboltableBuild root' = .ok (root'', st) ∧ returnsOther root' root'' st.tables = true :=
  of_annotatesTo (by decide +kernel)

theorem returnsOther_elim {root root' : AstNode} (h : returnsOther root root' tables = true)
    (own : Bool) :
    ∃ op ident body sig table stackSize o,
      .proc op ident (some body) (.procedure sig) table stackSize ∈ root'.subtrees ∧
        Occurs own none [] body o ∧ ¬ ResolvesLexically tables (outer sig root) o := by
  unfold returnsOther at h
  split at h
  · rename_i op ident d d' opr x t sig table stackSize t'
    have ho : Occurs own none [] (.block [d, d', .return_ opr (some (.literal x .ident))] t)
        ⟨x, t, [splitAt own [d, d'] (.return_ opr (some (.literal x .ident))) []]⟩ :=
      @Occurs.stmt own none t [] _ [d, d'] [] _ (.part (by simp [AstNode.kind])
        (by simp [AstNode.kind]) (by simp [AstNode.parts, AstNode.children]) .ident)
    refine ⟨_, _, _, _, _, _, _, AstNode.mem_subtrees.mpr (.inr ⟨_, List.mem_singleton.mpr rfl,
      AstNode.mem_subtrees.mpr (.inl rfl)⟩), ho, fun hres => ?_⟩
    rw [show symboltableLookup tables t x.value = _ from hres] at h
    cases own <;> simp at h
  · cases h

theorem lookup_lexical_iff_redeclared :
    ∃ root p root' root'' st, parse 100 [] redeclared = .ok root p ∧ expandAst root = .ok root' ∧
      symboltableBuild root' = .ok (root'', st) ∧
      ∀ own, ∃ op ident body sig table stackSize o,
        .proc op ident (some body) (.procedure sig) table stackSize ∈ root''.subtrees ∧
          Occurs own none [] body o ∧
          (ResolvesLexically st.tables (outer sig root') o ↔ Unambiguous (outer sig root') o) := by
  obtain ⟨root, p, root', root'', st, hparse, hexpand, hbuild, htest⟩ := redeclared_returnsOther
  refine ⟨root, p, root', root'', st, hparse, hexpand, hbuild, fun own => ?_⟩
  obtain ⟨op, ident, body, sig, table, stackSize, o, hproc, ho, -⟩ := returnsOther_elim htest own
  exact ⟨op, ident, body, sig, table, stackSize, o, hproc, ho,
    lookup_lexical_iff hparse hexpand hbuild hproc ho⟩

/-- The lookup of a redeclared variable answers with its first declaration. -/
theorem shadowing_ignored :
    ∃ root p root' root'' st, parse 100 [] redeclared = .ok root p ∧ expandAst root = .ok root' ∧
      symboltableBuild root' = .ok (root'', st) ∧
      ∀ own, ∃ op ident body sig table stackSize o,
        .proc op ident (some body) (.procedure sig) table stackSize ∈ root''.subtrees ∧
          Occurs own none [] body o ∧ ¬ ResolvesLexically st.tables (outer sig root') o := by
  obtain ⟨root, p, root', root'', st, hparse, hexpand, hbuild, htest⟩ := redeclared_returnsOther
  exact ⟨root, p, root', root'', st, hparse, hexpand, hbuild, returnsOther_elim htest⟩

end Seron
