import Seron.Verify.Typing
import Seron.Verify.Hygiene
import Seron.Verify.Mirror
import Seron.Verify.Relocation

/-! # Annotated trees

The annotation of a tree adds places and tables and nothing else, and it fails only where a type has
no size. -/

namespace Seron

/-! ## Trees without annotations -/

def Param.erase (param : Param) : Param := { param with offset := 0 }

/-- The signature without the places of the parameters. -/
def Ty.erase : Ty → Ty
  | .procedure sig => .procedure { sig with params := sig.params.map Param.erase }
  | ty => ty

namespace AstNode

/-- The tree without its annotations. -/
@[simp] def erase : AstNode → AstNode
  | .literal op kind => .literal op kind
  | .grouping e => .grouping e.erase
  | .binop lhs rhs op kind => .binop lhs.erase rhs.erase op kind
  | .unaryop e op kind => .unaryop e.erase op kind
  | .call op callee args => .call op callee.erase (list args)
  | .block stmts _ => .block (list stmts) none
  | .proc op ident body type _ _ => .proc op ident (opt body) type.erase none 0
  | .vardecl op ident init type _ => .vardecl op ident (opt init) type 0
  | .if_ op cond thenBody elseBody => .if_ op cond.erase thenBody.erase (opt elseBody)
  | .while_ op cond body => .while_ op cond.erase body.erase
  | .assign op value target => .assign op value.erase target.erase
  | .return_ op e => .return_ op (opt e)
  | .table op ident type => .table op ident type
  | .array op values type _ => .array op (list values) type 0
  | .for_ op decl cond step body type ident init =>
    .for_ op (opt decl) cond.erase step.erase body.erase type ident init.erase
  | .index op e i => .index op e.erase i.erase
where
  list : List AstNode → List AstNode
    | [] => []
    | node :: nodes => node.erase :: list nodes
  opt : Option AstNode → Option AstNode
    | none => none
    | some node => some node.erase

theorem erase_list (nodes : List AstNode) : erase.list nodes = nodes.map erase := by
  induction nodes with
  | nil => rfl
  | cons node nodes ih => rw [erase.list, ih, List.map_cons]

theorem children_erase (node : AstNode) : node.erase.children = node.children.map erase := by
  have toList (node : Option AstNode) : (erase.opt node).toList = node.toList.map erase := by
    cases node <;> rfl
  cases node <;> simp [children, erase_list, toList]

theorem withChildren_children (node : AstNode) : node.withChildren node.children = node := by
  cases node
  case return_ op e => cases e <;> rfl
  case proc op ident body type t size => cases body <;> rfl
  case vardecl op ident init type offset => cases init <;> rfl
  case if_ op cond thenBody elseBody => cases elseBody <;> rfl
  case for_ op decl cond step body type ident e => cases decl <;> rfl
  all_goals rfl

theorem erase_withChildren_map (node : AstNode) (nodes : List AstNode) :
    (node.withChildren nodes).erase = node.erase.withChildren (nodes.map erase) := by
  have head (nodes : List AstNode) : (nodes.map erase).head? = erase.opt nodes.head? := by
    cases nodes <;> rfl
  cases node
  case block | array => simp only [erase, withChildren, erase_list]
  case return_ | proc | vardecl => simp only [erase, withChildren, head]
  case table | literal => rfl
  case grouping | unaryop | assign =>
    rcases nodes with _ | ⟨a, _ | ⟨b, nodes⟩⟩ <;> rfl
  case binop | while_ | index =>
    rcases nodes with _ | ⟨a, _ | ⟨b, _ | ⟨c, nodes⟩⟩⟩ <;> rfl
  case call =>
    rcases nodes with _ | ⟨a, nodes⟩
    · rfl
    · simp only [erase, withChildren, List.map_cons, erase_list]
  case if_ =>
    rcases nodes with _ | ⟨a, _ | ⟨b, nodes⟩⟩
    · rfl
    · rfl
    · simp only [erase, withChildren, List.map_cons, head]
  case for_ =>
    rcases nodes with _ | ⟨a, _ | ⟨b, _ | ⟨c, _ | ⟨d, _ | ⟨e, nodes⟩⟩⟩⟩⟩ <;> rfl

/-- Children that differ by their annotations only. -/
theorem erase_withChildren {node : AstNode} {nodes : List AstNode}
    (h : nodes.map erase = node.children.map erase) :
    (node.withChildren nodes).erase = node.erase := by
  rw [erase_withChildren_map, h, ← children_erase, withChildren_children]

end AstNode

variable {node node' : AstNode} {st st' : Symboltable} {depth : Nat}

theorem PreStep.erase (h : PreStep node st node' st') : node'.erase = node.erase := by
  cases h <;> rfl

theorem procPostParams_erase {table : Option Nat} {params params' : List Param}
    (h : procPostParams table params st = .ok (params', st')) :
    params'.map Param.erase = params.map Param.erase := by
  induction params generalizing params' st with
  | nil =>
    cases h
    rfl
  | cons param params ih =>
    obtain ⟨offset, st₁, -, h₁⟩ := StateT.bind_ok.mp h
    obtain ⟨u, st₂, -, h₂⟩ := StateT.bind_ok.mp h₁
    obtain ⟨rest, st₃, hrest, h₃⟩ := StateT.bind_ok.mp h₂
    cases h₃
    rw [List.map_cons, List.map_cons, ih hrest]
    rfl

theorem PostStep.erase (h : PostStep node st node' st') : node'.erase = node.erase := by
  cases h with
  | proc hparams => simp [Ty.erase, procPostParams_erase hparams]
  | block | noBody | other => rfl

theorem map_eq_of_forall₂ {α β : Type} {f : α → β} {as bs : List α}
    (h : List.Forall₂ (fun a b => f b = f a) as bs) : bs.map f = as.map f := by
  induction h with
  | nil => rfl
  | cons hab _ ih => rw [List.map_cons, List.map_cons, hab, ih]

/-- A visit changes annotations only. -/
theorem buildTo_erase (h : buildTo depth node st = .ok (node', st')) : node'.erase = node.erase := by
  induction depth generalizing node node' st st' with
  | zero => cases h
  | succ depth ih =>
    obtain ⟨d, node₁, st₁, nodes, st₂, hd, hpre, hlist, -, hpost⟩ := buildTo_ok h
    cases hd
    have hnodes := map_eq_of_forall₂ (forall₂_of_traverseList (fun _ _ _ _ hc => ih hc) hlist)
    rw [hpost.erase, AstNode.erase_withChildren hnodes, hpre.erase]

/-! ## Steps that succeed -/

/-- A step that keeps the scope, and the parents of the tables. -/
structure Stays (st st' : Symboltable) : Prop where
  head : st'.head = st.head
  parents : ∀ i < st.tables.length, ∃ ht, st'.tables[i]? = some ht ∧
    ht.parent = st.tables[i]?.bind (·.parent)

/-- The scope has a table. -/
def Symboltable.InScope (st : Symboltable) : Prop := ∃ t ∈ st.head, t < st.tables.length

namespace Stays

variable {st'' : Symboltable}

theorem refl (hhead : st'.head = st.head) (htables : st'.tables = st.tables) : Stays st st' :=
  ⟨hhead, fun i hi => ⟨st.tables[i], by rw [htables, List.getElem?_eq_getElem hi],
    by rw [List.getElem?_eq_getElem hi]; rfl⟩⟩

theorem lt {i : Nat} (h : Stays st st') (hi : i < st.tables.length) : i < st'.tables.length := by
  obtain ⟨ht, hget, -⟩ := h.parents i hi
  exact (List.getElem?_eq_some_iff.mp hget).1

theorem trans (h : Stays st st') (h' : Stays st' st'') : Stays st st'' := by
  refine ⟨h'.head.trans h.head, fun i hi => ?_⟩
  obtain ⟨ht, hget, hparent⟩ := h.parents i hi
  obtain ⟨ht', hget', hparent'⟩ := h'.parents i (h.lt hi)
  rw [hget] at hparent'
  exact ⟨ht', hget', hparent'.trans hparent⟩

theorem inScope (h : Stays st st') (hscope : st.InScope) : st'.InScope := by
  obtain ⟨t, hhead, ht⟩ := hscope
  exact ⟨t, h.head ▸ hhead, h.lt ht⟩

end Stays

theorem insertChain_total {key : List Char} (hkey : key.length < maxIdentLen) (value : Symbol)
    (chain : List HashtableEntry) : ∃ result, insertChain key value chain = .ok result := by
  induction chain with
  | nil => exact ⟨_, rfl⟩
  | cons entry chain ih =>
    obtain ⟨same, hsame⟩ : ∃ same, strcmpKey entry key = .ok same := by
      unfold strcmpKey
      split
      · exact ⟨_, rfl⟩
      · rename_i hfull
        rw [if_neg]
        · exact ⟨_, rfl⟩
        · intro heq
          rw [List.take_of_length_le hkey.le] at heq
          exact hfull (heq ▸ hkey)
    obtain ⟨result, hresult⟩ := ih
    cases same
    · exact ⟨_, Except.bind_ok.mpr ⟨_, hsame, Except.bind_ok.mpr ⟨_, hresult, rfl⟩⟩⟩
    · exact ⟨_, Except.bind_ok.mpr ⟨_, hsame, rfl⟩⟩

theorem hashtableInsert_total {key : String} (hkey : key.length < maxIdentLen) (ht : Hashtable)
    (value : Symbol) :
    ∃ ht' r, hashtableInsert ht key value = .ok (ht', r) ∧ ht'.parent = ht.parent := by
  rw [← String.length_toList] at hkey
  obtain ⟨result, hresult⟩ := insertChain_total hkey value
    (ht.buckets.getD (hash ht.size key.toList) [])
  cases result with
  | none => exact ⟨_, _, Except.bind_ok.mpr ⟨_, hresult, rfl⟩, rfl⟩
  | some chain => exact ⟨_, _, Except.bind_ok.mpr ⟨_, hresult, rfl⟩, rfl⟩

/-- A short name can be inserted into every table. -/
theorem symboltableInsert_total {key : String} {t : Nat} (hkey : key.length < maxIdentLen)
    (value : Symbol) (ht : t < st.tables.length) :
    ∃ st', symboltableInsert (some t) key value st = .ok ((), st') ∧ Stays st st' := by
  obtain ⟨ht', r, hinsert, hparent⟩ := hashtableInsert_total hkey st.tables[t] value
  refine ⟨{ st with tables := st.tables.set t ht' }, ?_, rfl, fun i hi => ?_⟩
  · rw [symboltableInsert, List.getElem?_eq_getElem ht]
    exact Except.bind_ok.mpr ⟨_, hinsert, rfl⟩
  · by_cases heq : t = i
    · subst heq
      exact ⟨ht', by simp [ht], by simp [ht, hparent]⟩
    · exact ⟨st.tables[i], by simp [heq, hi], by simp [hi]⟩

/-- What a declaration adds to the table of the scope. -/
theorem insertHead_total {key : String} (hkey : key.length < maxIdentLen) (value : Symbol)
    (hscope : st.InScope) :
    ∃ st', symboltableInsert st.head key value st = .ok ((), st') ∧ Stays st st' := by
  obtain ⟨t, hhead, ht⟩ := hscope
  rw [Option.mem_def.mp hhead]
  exact symboltableInsert_total hkey value ht

theorem procPostParams_total {t : Nat} {params : List Param} (ht : t < st.tables.length)
    (hsized : ∀ param ∈ params, param.type.Fits)
    (hshort : ∀ param ∈ params, param.ident.length < maxIdentLen) :
    ∃ params' st', procPostParams (some t) params st = .ok (params', st') ∧ Stays st st' := by
  induction params generalizing st with
  | nil => exact ⟨[], st, rfl, .refl rfl rfl⟩
  | cons param params ih =>
    obtain ⟨⟨n, hsize⟩, hsized⟩ := List.forall_mem_cons.mp hsized
    obtain ⟨hname, hshort⟩ := List.forall_mem_cons.mp hshort
    obtain ⟨st₁, hinsert, hstays⟩ := @symboltableInsert_total
      { st with stackSize := st.stackSize + n } param.ident t hname
      { kind := .parameter, type := param.type, offset := st.stackSize + n } ht
    have hfirst : Stays st st₁ := ⟨hstays.head, hstays.parents⟩
    obtain ⟨params', st₂, hparams, hrest⟩ := ih (hfirst.lt ht) hsized hshort
    refine ⟨{ param with offset := st.stackSize + n } :: params', st₂, ?_, hfirst.trans hrest⟩
    refine StateT.bind_ok.mpr ⟨st.stackSize + n, { st with stackSize := st.stackSize + n }, ?_, ?_⟩
    · exact Except.bind_ok.mpr ⟨n, hsize, rfl⟩
    · exact StateT.bind_ok.mpr ⟨(), st₁, hinsert, StateT.bind_ok.mpr ⟨params', st₂, hparams, rfl⟩⟩

/-! ## Visits that succeed -/

theorem AstNode.visited_self (node : AstNode) : node ∈ node.visited := by
  rw [visited_eq]
  exact List.mem_cons_self

/-- What the node puts on the stack has a size. -/
def AstNode.Sized : AstNode → Prop
  | .vardecl _ _ _ type _ | .array _ _ type _ => type.Fits
  | .proc _ _ (some _) type _ _ => ∀ param ∈ type.params, param.type.Fits
  | _ => True

/-- The names that the node declares. -/
def AstNode.newNames : AstNode → List String
  | .vardecl _ ident _ _ _ | .table _ ident _ => [ident.value]
  | .proc _ ident _ type _ _ => ident.value :: type.params.map (·.ident)
  | _ => []

/-- The visit succeeds and stays in its scope. The table of a block is there afterwards. -/
def Succeeds (depth : Nat) (node : AstNode) (st : Symboltable) : Prop :=
  ∃ node' st', buildTo depth node st = .ok (node', st') ∧ Stays st st' ∧
    ∀ stmts t, node = .block stmts t → ∃ stmts' t', node' = .block stmts' (some t') ∧
      t' < st'.tables.length

/-- The visits of the nodes succeed, one after the other, and stay in their scope. -/
def AllSucceed (depth : Nat) (nodes : List AstNode) : Prop :=
  ∀ st : Symboltable, st.InScope →
    ∃ nodes' st', traverseList (buildTo depth) nodes st = .ok (nodes', st') ∧ Stays st st'

theorem allSucceed {nodes : List AstNode}
    (h : ∀ node ∈ nodes, ∀ st : Symboltable, st.InScope → Succeeds depth node st) :
    AllSucceed depth nodes := by
  intro st hscope
  induction nodes generalizing st with
  | nil => exact ⟨[], st, rfl, .refl rfl rfl⟩
  | cons node nodes ih =>
    obtain ⟨hnode, hnodes⟩ := List.forall_mem_cons.mp h
    obtain ⟨node', st₁, hvisit, hstays, -⟩ := hnode st hscope
    obtain ⟨nodes', st₂, hlist, hrest⟩ := ih hnodes st₁ (hstays.inScope hscope)
    exact ⟨node' :: nodes', st₂, StateT.bind_ok.mpr ⟨node', st₁, hvisit,
      StateT.bind_ok.mpr ⟨nodes', st₂, hlist, rfl⟩⟩, hstays.trans hrest⟩

/-- The way up, for what is neither a block nor a procedure. -/
theorem PostStep.withChildren {nodes : List AstNode} (hblock : node.kind ≠ .block)
    (hproc : node.kind ≠ .proc) : PostStep (node.withChildren nodes) st (node.withChildren nodes) st :=
  .other (by rwa [AstNode.kind_withChildren]) (by rwa [AstNode.kind_withChildren])

/-- A block opens a table of its own, and leaves it again. -/
theorem block_succeeds {stmts : List AstNode} {t : Option Nat} (h : AllSucceed depth stmts) :
    Succeeds (depth + 1) (.block stmts t) st := by
  obtain ⟨nodes', st₂, hlist, hstays⟩ :=
    h st.opened ⟨st.tables.length, rfl, by simp [Symboltable.opened]⟩
  obtain ⟨ht, hget, hparent⟩ := hstays.parents st.tables.length (by simp [Symboltable.opened])
  have hhead : st₂.head.bind (st₂.tables[·]?) = some ht := by
    rw [hstays.head]
    exact hget
  refine ⟨.block nodes' (some st.tables.length), { st₂ with head := ht.parent },
    buildTo_of_steps .block (by simp) hlist (.block hhead), ⟨?_, fun i hi => ?_⟩, fun _ _ _ => ?_⟩
  · rw [hparent]
    simp [Symboltable.opened]
  · obtain ⟨ht', hget', hparent'⟩ := hstays.parents i (by simp [Symboltable.opened]; omega)
    refine ⟨ht', hget', ?_⟩
    rw [hparent', Symboltable.opened, List.getElem?_append_left hi]
  · exact ⟨nodes', _, rfl, (List.getElem?_eq_some_iff.mp hget).1⟩

theorem vardecl_succeeds {op ident : Token} {init : Option AstNode} {type : Ty} {offset : Int}
    (hsized : (AstNode.vardecl op ident init type offset).Sized)
    (hshort : ident.value.length < maxIdentLen) (hscope : st.InScope)
    (h : AllSucceed depth init.toList) :
    Succeeds (depth + 1) (.vardecl op ident init type offset) st := by
  obtain ⟨n, hn⟩ := hsized
  obtain ⟨st₁, hinsert, hstays⟩ := @insertHead_total
    { st with stackSize := st.stackSize + align16 n } ident.value hshort
    { kind := .variable, type, offset := st.stackSize + align16 n } hscope
  have hstays : Stays st st₁ := ⟨hstays.head, hstays.parents⟩
  obtain ⟨nodes', st₂, hlist, hrest⟩ := h st₁ (hstays.inScope hscope)
  exact ⟨_, st₂, buildTo_of_steps (.vardecl hn hinsert) (by simp) hlist
    (.withChildren (by simp [AstNode.kind]) (by simp [AstNode.kind])), hstays.trans hrest, by simp⟩

theorem table_succeeds {op ident : Token} {type : Ty} (hshort : ident.value.length < maxIdentLen)
    (hscope : st.InScope) : Succeeds (depth + 1) (.table op ident type) st := by
  obtain ⟨st₁, hinsert, hstays⟩ := insertHead_total hshort { kind := .table, type } hscope
  exact ⟨_, st₁, buildTo_of_steps (.table hinsert) (by simp) rfl
    (.withChildren (by simp [AstNode.kind]) (by simp [AstNode.kind])), hstays, by simp⟩

theorem array_succeeds {op : Token} {values : List AstNode} {type : Ty} {offset : Int}
    (hsized : (AstNode.array op values type offset).Sized) (hscope : st.InScope)
    (h : AllSucceed depth values) : Succeeds (depth + 1) (.array op values type offset) st := by
  obtain ⟨n, hn⟩ := hsized
  obtain ⟨nodes', st₂, hlist, hstays⟩ :=
    h { st with stackSize := st.stackSize + (align16 n * values.length + align16 n) } hscope
  exact ⟨_, st₂, buildTo_of_steps (.array hn) (by simp) hlist
    (.withChildren (by simp [AstNode.kind]) (by simp [AstNode.kind])),
    ⟨hstays.head, hstays.parents⟩, by simp⟩

/-- The parameters go into the table of the body, behind its declarations. -/
theorem proc_succeeds {op ident : Token} {body : Option AstNode} {type : Ty} {t : Option Nat}
    {size : Int} (hshape : Shape .decl (.proc op ident body type t size))
    (hsized : (AstNode.proc op ident body type t size).Sized)
    (hshort : ∀ name ∈ ident.value :: type.params.map (·.ident), name.length < maxIdentLen)
    (hscope : st.InScope)
    (h : ∀ b ∈ body, ∀ st : Symboltable, st.InScope → Succeeds depth b st) :
    Succeeds (depth + 1) (.proc op ident body type t size) st := by
  obtain ⟨st₁, hinsert, hstays⟩ := insertHead_total (hshort _ List.mem_cons_self)
    { kind := .procedure, type } hscope
  cases body with
  | none =>
    exact ⟨_, st₁, buildTo_of_steps (.proc hinsert) (by simp) rfl .noBody, hstays, by simp⟩
  | some body =>
    have hstays : Stays st { st₁ with stackSize := 0 } := ⟨hstays.head, hstays.parents⟩
    obtain ⟨node', st₂, hvisit, hrest, hblock⟩ := h body rfl _ (hstays.inScope hscope)
    cases hshape with
    | @proc _ _ _ sig _ _ hbody =>
      cases hbody body rfl
      obtain ⟨stmts', t', rfl, ht'⟩ := hblock _ _ rfl
      have hparams : ∀ param ∈ sig.params, param.ident.length < maxIdentLen :=
        fun param hparam => hshort _ (List.mem_cons_of_mem _ (List.mem_map_of_mem hparam))
      obtain ⟨params, st₃, hpost, hlast⟩ := procPostParams_total ht' hsized hparams
      exact ⟨_, st₃, buildTo_of_steps (.proc hinsert) (by simp)
        (StateT.bind_ok.mpr ⟨_, st₂, hvisit, rfl⟩) (.proc hpost),
        (hstays.trans hrest).trans hlast, by simp⟩

theorem Shape.decl_of_proc {k : NodeClass} (hshape : Shape k node) (hkind : node.kind = .proc) :
    Shape .decl node := by
  cases hshape with
  | proc hbody => exact .proc hbody
  | exprstmt h | blockstmt h => cases h <;> cases hkind
  | _ => cases hkind

/-- A program whose types have sizes and whose names are short is annotated. -/
theorem buildTo_total {k : NodeClass} (hshape : Shape k node) (hfor : node.AllKinds (· ≠ .for_))
    (hsized : ∀ n ∈ node.visited, n.Sized)
    (hshort : ∀ n ∈ node.visited, ∀ name ∈ n.newNames, name.length < maxIdentLen)
    (hdepth : node.traverseDepth ≤ depth) (hscope : node.kind = .block ∨ st.InScope) :
    Succeeds depth node st := by
  induction depth generalizing node k st with
  | zero =>
    have : 0 < node.traverseDepth := by cases node <;> simp [AstNode.traverseDepth]
    omega
  | succ depth ih =>
    have hself := AstNode.visited_self node
    have hnotFor : ∀ op cond step body type ident e,
        node ≠ .for_ op none cond step body type ident e := by
      rintro op cond step body type ident e rfl
      exact (AstNode.allKinds_iff.mp hfor).1 rfl
    have hvisit (c : AstNode) (hc : c ∈ node.children) (st : Symboltable) (hscope : st.InScope) :
        Succeeds depth c st := by
      obtain ⟨k', hc'⟩ := hshape.child hc
      have hvisited {n : AstNode} (hn : n ∈ c.visited) : n ∈ node.visited :=
        AstNode.visited_of_child hc hn
      have := AstNode.traverseDepth_child hc
      exact ih hc' ((AstNode.allKinds_iff.mp hfor).2 c (AstNode.mem_parts_of_children hc))
        (fun n hn => hsized n (hvisited hn)) (fun n hn => hshort n (hvisited hn)) (by omega)
        (.inr hscope)
    have hchildren : AllSucceed depth node.children := allSucceed hvisit
    cases node
    case block stmts t => exact block_succeeds hchildren
    all_goals replace hscope := hscope.resolve_left (by simp [AstNode.kind])
    case vardecl op ident init type offset =>
      exact vardecl_succeeds (hsized _ hself) (hshort _ hself _ List.mem_cons_self) hscope hchildren
    case table op ident type => exact table_succeeds (hshort _ hself _ List.mem_cons_self) hscope
    case array op values type offset => exact array_succeeds (hsized _ hself) hscope hchildren
    case proc op ident body type t size =>
      exact proc_succeeds (hshape.decl_of_proc rfl) (hsized _ hself) (hshort _ hself) hscope
        fun b hb => hvisit b (Option.mem_toList.mpr hb)
    all_goals
      obtain ⟨nodes', st', hlist, hstays⟩ := hchildren st hscope
      exact ⟨_, st', buildTo_of_steps (.other (by simp [AstNode.kind]) (by simp [AstNode.kind])
        (by simp [AstNode.kind]) (by simp [AstNode.kind]) (by simp [AstNode.kind])) hnotFor hlist
        (.withChildren (by simp [AstNode.kind]) (by simp [AstNode.kind])), hstays, by simp⟩

end Seron
