import Seron.Verify.Scoping

/-! # Visits in other states

When the tables of a procedure get other numbers, because other declarations were visited before it,
the visit of the procedure does the same, and its result is the same except for these numbers. -/

namespace Seron

/-- The number that a table has if the tables from `lo` on start at `lo'`. -/
def moveTable (lo lo' t : Nat) : Nat := if t < lo then t else t - lo + lo'

/-- The tree with other tables. There are blocks in statements and in procedures only. -/
def AstNode.moved (f : Nat → Nat) : AstNode → AstNode
  | .block stmts t => .block (list stmts) (t.map f)
  | .if_ op cond thenBody elseBody => .if_ op cond (thenBody.moved f) (opt elseBody)
  | .while_ op cond body => .while_ op cond (body.moved f)
  | .proc op ident (some body) type t size => .proc op ident (some (body.moved f)) type (t.map f) size
  | node => node
where
  list : List AstNode → List AstNode
    | [] => []
    | node :: nodes => node.moved f :: list nodes
  opt : Option AstNode → Option AstNode
    | none => none
    | some node => some (node.moved f)

variable {lo lo' t : Nat} {node node' node₁ : AstNode} {st st' st₁ st₁' : Symboltable}
  {f : Nat → Nat}

theorem moveTable_lt (h : t < lo) : moveTable lo lo' t = t := if_pos h

theorem moveTable_le (h : lo ≤ t) : moveTable lo lo' t = t - lo + lo' := if_neg (by omega)

theorem moveTable_inj {t' : Nat} (h : lo ≤ t) (h' : lo ≤ t')
    (heq : moveTable lo lo' t = moveTable lo lo' t') : t = t' := by
  rw [moveTable_le h, moveTable_le h'] at heq
  omega

namespace AstNode

theorem moved_list (nodes : List AstNode) : moved.list f nodes = nodes.map (moved f) := by
  induction nodes with
  | nil => rfl
  | cons node nodes ih => rw [moved.list, ih, List.map_cons]

theorem moved_opt (node : Option AstNode) : moved.opt f node = node.map (moved f) := by
  cases node <;> rfl

theorem moved_block {stmts : List AstNode} {t : Option Nat} :
    (block stmts t).moved f = .block (stmts.map (moved f)) (t.map f) := by
  rw [moved, moved_list]

theorem declared_moved (node : AstNode) : (node.moved f).declared = node.declared := by
  cases node
  case proc op ident body type t size => cases body <;> rfl
  all_goals rfl

end AstNode

theorem Shape.moved_expr (h : Shape .expr node) : node.moved f = node := by
  cases h <;> rfl

/-- Statements that are no blocks are moved by moving their children. -/
theorem Shape.moved_withChildren {nodes : List AstNode} (h : Shape .stmt node)
    (hblock : node.kind ≠ .block) (hfor : node.kind ≠ .for_)
    (hnodes : List.Forall₂ (fun c n => ∀ k, Shape k c → Shape k n) node.children nodes) :
    (node.withChildren nodes).moved f = node.withChildren (nodes.map (AstNode.moved f)) := by
  have exprs {cs nodes : List AstNode}
      (hnodes : List.Forall₂ (fun c n => ∀ k, Shape k c → Shape k n) cs nodes)
      (h : ∀ c ∈ cs, Shape .expr c) : nodes.map (AstNode.moved f) = nodes := by
    induction hnodes with
    | nil => rfl
    | cons hc _ ih =>
      obtain ⟨hhead, htail⟩ := List.forall_mem_cons.mp h
      rw [List.map_cons, (hc _ hhead).moved_expr, ih htail]
  have opt {o : Option AstNode} (h : ∀ c ∈ o, Shape .expr c) : ∀ c ∈ o.toList, Shape .expr c :=
    fun c hc => h c (Option.mem_toList.mp hc)
  cases h with
  | blockstmt h =>
    cases h
    exact absurd rfl hblock
  | for_ => exact absurd rfl hfor
  | exprstmt h =>
    rw [exprs hnodes fun c hc => h.expr_part (AstNode.mem_parts_of_children hc)]
    have hkind := AstNode.kind_withChildren node nodes
    generalize node.withChildren nodes = n at hkind
    cases h <;> cases n <;> first | rfl | cases hkind
  | vardecl hinit =>
    rw [exprs hnodes (opt hinit)]
    rfl
  | return_ hvalue =>
    rw [exprs hnodes (opt hvalue)]
    rfl
  | if_ hcond _ _ =>
    cases hnodes with
    | cons hc hrest =>
      cases hrest with
      | @cons _ thenBody _ rest _ _ =>
        have hc := (hc _ hcond).moved_expr (f := f)
        cases rest <;> simp [AstNode.withChildren, AstNode.moved, AstNode.moved_opt, hc]
  | while_ hcond _ =>
    cases hnodes with
    | cons hc hrest =>
      cases hrest with
      | cons _ hrest =>
        cases hrest
        have hc := (hc _ hcond).moved_expr (f := f)
        simp [AstNode.withChildren, AstNode.moved, hc]

/-! ## Steps forwards -/

theorem PreStep.run (h : PreStep node st node' st') :
    dispatchCallbackPre symboltableTable node st = .ok (node', st') := by
  cases h with
  | block => rfl
  | vardecl hsize hins =>
    refine StateT.bind_ok.mpr ⟨_, _, Except.bind_ok.mpr ⟨_, hsize, rfl⟩, ?_⟩
    refine StateT.bind_ok.mpr ⟨_, _, rfl, StateT.bind_ok.mpr ⟨(), _, hins, rfl⟩⟩
  | @proc _ st₁ op ident body type table size hins =>
    refine StateT.bind_ok.mpr ⟨_, _, rfl, StateT.bind_ok.mpr ⟨(), st₁, hins, ?_⟩⟩
    cases body <;> rfl
  | table hins => exact StateT.bind_ok.mpr ⟨_, _, rfl, StateT.bind_ok.mpr ⟨(), _, hins, rfl⟩⟩
  | array hsize => exact Except.bind_ok.mpr ⟨_, hsize, rfl⟩
  | other hblock hvardecl hproc htable harray =>
    cases node
    case block => exact absurd rfl hblock
    case vardecl => exact absurd rfl hvardecl
    case proc => exact absurd rfl hproc
    case table => exact absurd rfl htable
    case array => exact absurd rfl harray
    all_goals rfl

theorem PostStep.run (h : PostStep node st node' st') :
    dispatchCallbackPost symboltableTable node st = .ok (node', st') := by
  cases h with
  | @block _ stmts table ht hget =>
    have hpop : symboltablePop st = .ok ((), { st with head := ht.parent }) := by
      simp only [symboltablePop, hget]
    exact StateT.bind_ok.mpr ⟨(), _, hpop, rfl⟩
  | proc hparams => exact StateT.bind_ok.mpr ⟨_, _, hparams, StateT.bind_ok.mpr ⟨_, _, rfl, rfl⟩⟩
  | noBody => rfl
  | other hblock hproc =>
    cases node
    case block => exact absurd rfl hblock
    case proc => exact absurd rfl hproc
    all_goals rfl

/-- A visit succeeds if its steps do. -/
theorem buildTo_of_steps {d : Nat} {nodes : List AstNode} {st₂ : Symboltable}
    (hpre : PreStep node st node₁ st₁)
    (hfor : ∀ op cond step body type ident e, node₁ ≠ .for_ op none cond step body type ident e)
    (hlist : traverseList (buildTo d) node₁.children st₁ = .ok (nodes, st₂))
    (hpost : PostStep (node₁.withChildren nodes) st₂ node' st') :
    buildTo (d + 1) node st = .ok (node', st') := by
  refine StateT.bind_ok.mpr ⟨node₁, st₁, hpre.run, ?_⟩
  refine StateT.bind_ok.mpr ⟨node₁.withChildren nodes, st₂, ?_, hpost.run⟩
  rw [traverseChildren_eq _ _ hfor]
  exact StateT.map_ok.mpr ⟨nodes, st₂, hlist, rfl⟩

theorem buildTo_notFor {depth : Nat} (h : buildTo depth node st = .ok (node', st')) :
    ∀ op cond step body type ident e, node ≠ .for_ op none cond step body type ident e := by
  rintro op cond step body type ident e rfl
  cases depth with
  | zero => cases h
  | succ d =>
    obtain ⟨node₁, st₁, hpre, h₁⟩ := StateT.bind_ok.mp h
    cases hpre
    obtain ⟨node₂, st₂, hchildren, -⟩ := StateT.bind_ok.mp h₁
    cases hchildren

theorem Shape.stmt_notFor (h : Shape .stmt node)
    (hfor : ∀ op cond step body type ident e, node ≠ .for_ op none cond step body type ident e) :
    node.kind ≠ .for_ := by
  cases h with
  | for_ => exact absurd rfl (hfor _ _ _ _ _ _ _)
  | exprstmt h => cases h <;> simp [AstNode.kind]
  | blockstmt h => cases h; simp [AstNode.kind]
  | _ => simp [AstNode.kind]

/-! ## Moved states -/

/-- The table with its parent moved. -/
def Hashtable.moved (f : Nat → Nat) (ht : Hashtable) : Hashtable :=
  { ht with parent := ht.parent.map f }

/-- The two states have the same tables from `lo` and `lo'` on. -/
structure Moved (lo lo' : Nat) (st st' : Symboltable) : Prop where
  head : st'.head = st.head.map (moveTable lo lo')
  stackSize : st'.stackSize = st.stackSize
  lower : lo ≤ st.tables.length
  length : st'.tables.length = moveTable lo lo' st.tables.length
  tables : ∀ i ht, lo ≤ i → st.tables[i]? = some ht →
    st'.tables[moveTable lo lo' i]? = some (ht.moved (moveTable lo lo'))

theorem hashtableInsert_moved {ht ht' : Hashtable} {key : String} {value : Symbol} {r : Int}
    (h : hashtableInsert ht key value = .ok (ht', r)) :
    hashtableInsert (ht.moved f) key value = .ok (ht'.moved f, r) := by
  obtain ⟨result, hchain, h₁⟩ := Except.bind_ok.mp h
  refine Except.bind_ok.mpr ⟨result, hchain, ?_⟩
  cases result <;> cases h₁ <;> rfl

theorem symboltableInsert_moved {table : Option Nat} {key : String} {value : Symbol}
    (h : symboltableInsert table key value st = .ok ((), st₁)) (hm : Moved lo lo' st st')
    (htable : ∀ t ∈ table, lo ≤ t) :
    ∃ st₁', symboltableInsert (table.map (moveTable lo lo')) key value st' = .ok ((), st₁') ∧
      Moved lo lo' st₁ st₁' := by
  obtain ⟨t, ht, ht', r, rfl, hget, hins, rfl⟩ := symboltableInsert_ok h
  have ht_lo := htable t rfl
  have hget' := hm.tables t ht ht_lo hget
  have hins' := hashtableInsert_moved (f := moveTable lo lo') hins
  refine ⟨{ st' with tables := st'.tables.set (moveTable lo lo' t) (ht'.moved (moveTable lo lo')) },
    ?_, ⟨hm.head, hm.stackSize, ?_, ?_, fun i tbl hi hget => ?_⟩⟩
  · simp only [symboltableInsert, Option.map_some, hget']
    exact Except.bind_ok.mpr ⟨_, hins', rfl⟩
  · simpa using hm.lower
  · simpa using hm.length
  · rw [List.getElem?_set] at hget ⊢
    by_cases heq : t = i
    · subst heq
      rw [if_pos rfl] at hget ⊢
      obtain ⟨-, heq⟩ := Option.ite_none_right_eq_some.mp hget
      rw [if_pos (List.getElem?_eq_some_iff.mp hget').1, ← Option.some.inj heq]
    · have hne : moveTable lo lo' t ≠ moveTable lo lo' i := fun h =>
        heq (moveTable_inj ht_lo hi h)
      rw [if_neg heq] at hget
      rw [if_neg hne]
      exact hm.tables i tbl hi hget

theorem Moved.withStack (hm : Moved lo lo' st st') (size : Int) :
    Moved lo lo' { st with stackSize := size } { st' with stackSize := size } :=
  ⟨hm.head, rfl, hm.lower, hm.length, hm.tables⟩

/-- The new tables of a block. -/
theorem Moved.opened (hm : Moved lo lo' st st') : Moved lo lo' st.opened st'.opened := by
  have hlower := hm.lower
  have hlen := hm.length
  refine ⟨?_, hm.stackSize, ?_, ?_, fun i ht hi hget => ?_⟩
  · simp only [Symboltable.opened, hlen, Option.map_some]
  · simp only [Symboltable.opened, List.length_append, List.length_singleton]
    omega
  · simp only [Symboltable.opened, List.length_append, List.length_singleton, hlen]
    rw [moveTable_le hlower, moveTable_le (by omega)]
    omega
  · simp only [Symboltable.opened] at hget ⊢
    rw [List.getElem?_append] at hget ⊢
    have hmove : moveTable lo lo' i < st'.tables.length ↔ i < st.tables.length := by
      rw [hlen, moveTable_le hlower, moveTable_le hi]
      omega
    by_cases hlt : i < st.tables.length
    · rw [if_pos hlt] at hget
      rw [if_pos (hmove.mpr hlt)]
      exact hm.tables i ht hi hget
    · rw [if_neg hlt] at hget
      rw [if_neg (mt hmove.mp hlt)]
      have hi' : i = st.tables.length := by
        have := (List.getElem?_eq_some_iff.mp hget).1
        simp only [List.length_singleton] at this
        omega
      subst hi'
      simp only [hlen, Nat.sub_self, List.getElem?_cons_zero, Option.some.injEq] at hget ⊢
      rw [← hget, Hashtable.moved, hm.head]

theorem procPostParams_moved {table : Option Nat} {ps ps' : List Param}
    (h : procPostParams table ps st = .ok (ps', st₁)) (hm : Moved lo lo' st st')
    (htable : ∀ t ∈ table, lo ≤ t) :
    ∃ st₁', procPostParams (table.map (moveTable lo lo')) ps st' = .ok (ps', st₁') ∧
      Moved lo lo' st₁ st₁' := by
  induction ps generalizing ps' st st' with
  | nil =>
    cases h
    exact ⟨st', rfl, hm⟩
  | cons param ps ih =>
    obtain ⟨offset, st₂, hoffset, h₁⟩ := StateT.bind_ok.mp h
    obtain ⟨size, hsize, heq⟩ := Except.bind_ok.mp hoffset
    cases heq
    obtain ⟨u, st₃, hins, h₂⟩ := StateT.bind_ok.mp h₁
    obtain ⟨rest, st₄, hrest, h₃⟩ := StateT.bind_ok.mp h₂
    cases h₃
    obtain ⟨st₃', hins', hm₃⟩ := symboltableInsert_moved hins (hm.withStack _) htable
    obtain ⟨st₄', hrest', hm₄⟩ := ih hrest hm₃
    refine ⟨st₄', StateT.bind_ok.mpr ⟨_, _, Except.bind_ok.mpr ⟨size, hsize, rfl⟩, ?_⟩, hm₄⟩
    rw [hm.stackSize]
    exact StateT.bind_ok.mpr ⟨(), st₃', hins', StateT.bind_ok.mpr ⟨rest, st₄', hrest', rfl⟩⟩

/-- The way down of a statement that is no block. -/
theorem PreStep.moved (h : PreStep node st node₁ st₁) (hshape : Shape .stmt node)
    (hblock : node.kind ≠ .block) (hm : Moved lo lo' st st')
    (hin : node.kind = .vardecl → ∀ t ∈ st.head, lo ≤ t) :
    ∃ st₁', PreStep node st' node₁ st₁' ∧ Moved lo lo' st₁ st₁' := by
  cases h with
  | block => exact absurd rfl hblock
  | proc => exact absurd rfl hshape.stmt_kind.1
  | table => exact absurd rfl hshape.stmt_kind.2
  | vardecl hsize hins =>
    obtain ⟨st₁', hins', hm₁⟩ := symboltableInsert_moved hins (hm.withStack _) (hin rfl)
    rw [← hm.head, ← hm.stackSize] at hins'
    refine ⟨st₁', ?_, hm₁⟩
    rw [← hm.stackSize]
    exact .vardecl hsize hins'
  | array hsize =>
    rw [← hm.stackSize]
    exact ⟨_, .array hsize, hm.withStack _⟩
  | other h₁ h₂ h₃ h₄ h₅ => exact ⟨st', .other h₁ h₂ h₃ h₄ h₅, hm⟩

theorem traverseList_moved {g : AstNode → Walk Symboltable AstNode} {nodes nodes' : List AstNode}
    {head : Option Nat}
    (hg : ∀ node ∈ nodes, ∀ st node' st₁ st', g node st = .ok (node', st₁) → st.head = head →
      (∀ t ∈ head, t < st.tables.length) → Moved lo lo' st st' →
      st₁.head = head ∧ st.tables.length ≤ st₁.tables.length ∧
        ∃ st₁', g node st' = .ok (node'.moved (moveTable lo lo'), st₁') ∧ Moved lo lo' st₁ st₁')
    (h : traverseList g nodes st = .ok (nodes', st₁)) (hhead : st.head = head)
    (hlen : ∀ t ∈ head, t < st.tables.length) (hm : Moved lo lo' st st') :
    ∃ st₁', traverseList g nodes st' = .ok (nodes'.map (AstNode.moved (moveTable lo lo')), st₁') ∧
      Moved lo lo' st₁ st₁' := by
  induction nodes generalizing nodes' st st' with
  | nil =>
    cases h
    exact ⟨st', rfl, hm⟩
  | cons node nodes ih =>
    obtain ⟨node', st₂, rest, hnode, hrest, rfl⟩ := traverseList_cons_ok h
    obtain ⟨hfirst, hothers⟩ := List.forall_mem_cons.mp hg
    obtain ⟨hhead₂, hlen₂, st₂', hnode', hm₂⟩ := hfirst _ _ _ _ hnode hhead hlen hm
    obtain ⟨st₁', hrest', hm₁⟩ := ih hothers hrest hhead₂
      (fun t ht => (hlen t ht).trans_le hlen₂) hm₂
    exact ⟨st₁', StateT.bind_ok.mpr ⟨_, st₂', hnode', StateT.bind_ok.mpr ⟨_, st₁', hrest', rfl⟩⟩, hm₁⟩

/-- A visit of a statement in a moved state has the moved result. -/
theorem buildTo_moved {depth : Nat} (h : buildTo depth node st = .ok (node', st₁))
    (hshape : Shape .stmt node) (hhead : ∀ t ∈ st.head, t < st.tables.length)
    (hin : node.kind = .vardecl → ∀ t ∈ st.head, lo ≤ t) (hm : Moved lo lo' st st') :
    ∃ st₁', buildTo depth node st' = .ok (node'.moved (moveTable lo lo'), st₁') ∧
      Moved lo lo' st₁ st₁' := by
  induction depth generalizing node node' st st₁ st' with
  | zero => cases h
  | succ depth ih =>
    obtain ⟨d, node₁, st₂, nodes, st₃, hd, hpre, hlist, hnodes, hpost⟩ := buildTo_ok h
    cases hd
    have child {c : AstNode} (hc : c ∈ node₁.children) {head : Option Nat}
        (hhead : node.kind = .block → ∀ t ∈ head, lo ≤ t) :
        ∀ st node' st₁ st', buildTo depth c st = .ok (node', st₁) → st.head = head →
          (∀ t ∈ head, t < st.tables.length) → Moved lo lo' st st' →
          st₁.head = head ∧ st.tables.length ≤ st₁.tables.length ∧
            ∃ st₁', buildTo depth c st' = .ok (node'.moved (moveTable lo lo'), st₁') ∧
              Moved lo lo' st₁ st₁' := by
      rintro st c' st₁ st' hc' rfl hlen hm
      obtain ⟨hcshape, hcvar⟩ := hshape.stmt_child (hpre.children_unvisited.1 ▸ hc)
      have hgrows := (buildTo_builds hc' hcshape hlen).grows
      refine ⟨hgrows.head, hgrows.length, ih hc' hcshape hlen (fun hkind => ?_) hm⟩
      exact hhead (not_not.mp fun hblock => hcvar hblock hkind)
    by_cases hblock : node.kind = .block
    · cases hpre with
      | other hne => exact absurd hblock hne
      | @block _ stmts t =>
        cases hpost with
        | other hne => exact absurd rfl hne
        | @block _ _ _ ht hget =>
          have hlower : ∀ t ∈ some st.tables.length, lo ≤ t := fun t ht => by
            cases ht
            exact hm.lower
          have hbuilds := traverseList_builds (fun c hc _ _ _ h hhead =>
            buildTo_builds h (hshape.stmt_child hc).1 hhead) hlist (by simp)
          obtain ⟨st₃', hlist', hm₃⟩ := traverseList_moved
            (fun c hc => child hc fun _ => hlower) hlist rfl (by simp) hm.opened
          rw [show st₃.head = some st.tables.length from hbuilds.grows.head] at hget
          have hget' := hm₃.tables _ ht hm.lower hget
          have hhead' : st₃'.head = some (moveTable lo lo' st.tables.length) := by
            rw [hm₃.head, show st₃.head = some st.tables.length from hbuilds.grows.head,
              Option.map_some]
          rw [AstNode.moved_block, Option.map_some, ← hm.length]
          rw [← hm.length] at hget' hhead'
          have hpost : PostStep (.block (nodes.map (AstNode.moved (moveTable lo lo')))
              (some st'.tables.length)) st₃' (.block (nodes.map (AstNode.moved (moveTable lo lo')))
              (some st'.tables.length)) { st₃' with head := (ht.moved (moveTable lo lo')).parent } :=
            .block (by rw [hhead']; exact hget')
          exact ⟨_, buildTo_of_steps .block (by simp) hlist' hpost, rfl, hm₃.stackSize, hm₃.lower,
            hm₃.length, hm₃.tables⟩
      | _ => cases hblock
    · obtain ⟨st₂', hpre', hm₂⟩ := hpre.moved hshape hblock hm hin
      have hlen₂ : ∀ t ∈ st₂.head, t < st₂.tables.length := fun t ht => by
        have hgrows := hpre.grows hblock hshape.stmt_kind.1 hshape.stmt_kind.2
        exact (hhead t (hgrows.head ▸ ht)).trans_le hgrows.length
      obtain ⟨st₃', hlist', hm₃⟩ := traverseList_moved
        (fun c hc => child hc fun hkind => absurd hkind hblock) hlist rfl hlen₂ hm₂
      have hkind := hpre.kind_parts.1
      have hfor : node₁.kind ≠ .for_ := hkind ▸ hshape.stmt_notFor (buildTo_notFor h)
      have hmoved := (hpre.shape hshape).moved_withChildren (f := moveTable lo lo')
        (hkind ▸ hblock) hfor
        (forall₂_of_traverseList (fun c c' _ _ hc k hk => hk.annotated hc) hlist)
      have hkinds : (node₁.withChildren nodes).kind ≠ .block ∧
          (node₁.withChildren nodes).kind ≠ .proc := by
        rw [AstNode.kind_withChildren, hkind]
        exact ⟨hblock, hshape.stmt_kind.1⟩
      obtain ⟨rfl, rfl⟩ : node' = node₁.withChildren nodes ∧ st₁ = st₃ := by
        generalize node₁.withChildren nodes = n at hpost hkinds
        cases hpost with
        | other => exact ⟨rfl, rfl⟩
        | block => exact absurd rfl hkinds.1
        | proc | noBody => exact absurd rfl hkinds.2
      refine ⟨st₃', buildTo_of_steps hpre' ?_ hlist' ?_, hm₃⟩
      · rintro op cond step body type ident e rfl
        exact hfor rfl
      · rw [hmoved]
        refine .other ?_ ?_ <;> rw [AstNode.kind_withChildren, hkind]
        · exact hblock
        · exact hshape.stmt_kind.1

/-! ## Declarations -/

theorem insertChain_short {key : String} {value : Symbol} (hkey : key.length < maxIdentLen)
    (entries : List (String × Symbol)) :
    ∃ result, insertChain key.toList value (entries.map entryOf) = .ok result := by
  induction entries with
  | nil => exact ⟨_, rfl⟩
  | cons decl entries ih =>
    obtain ⟨result, hresult⟩ := ih
    rw [List.map_cons, insertChain, strcmpKey_short hkey, hresult]
    cases key == decl.1 <;> exact ⟨_, rfl⟩

/-- A name that fits into an entry can be inserted. -/
theorem symboltableInsert_short {ht : Hashtable} {decls : List (String × Symbol)} {key : String}
    {value : Symbol} (hget : st.tables[t]? = some ht) (hbinds : Binds ht decls)
    (hkey : key.length < maxIdentLen) :
    ∃ st₁, symboltableInsert (some t) key value st = .ok ((), st₁) := by
  obtain ⟨entries, hentries, -, -⟩ := hbinds.chain _ (Binds.hash_lt key.toList)
  obtain ⟨result, hresult⟩ := @insertChain_short key value hkey entries
  obtain ⟨⟨ht', r⟩, hins⟩ : ∃ r, hashtableInsert ht key value = .ok r := by
    rw [hashtableInsert, Hashtable.size, hbinds.size, List.getD, hentries, Option.getD_some,
      hresult]
    cases result <;> exact ⟨_, rfl⟩
  refine ⟨{ st with tables := st.tables.set t ht' }, ?_⟩
  simp only [symboltableInsert, hget]
  exact Except.bind_ok.mpr ⟨_, hins, rfl⟩

/-- A visit of a top-level declaration that succeeds does so in every other state. -/
theorem buildTo_decl_moved {depth : Nat} {ht : Hashtable} {decls : List (String × Symbol)}
    (h : buildTo depth node st = .ok (node', st₁)) (hshape : Shape .decl node)
    (hhead : st.head = some 0) (hlen : 0 < st.tables.length) (hhead' : st'.head = some 0)
    (hget : st'.tables[0]? = some ht) (hbinds : Binds ht decls)
    (hshort : ∀ decl ∈ node.global, decl.1.length < maxIdentLen) :
    ∃ lo lo' st₁', 0 < lo ∧ buildTo depth node st' = .ok (node'.moved (moveTable lo lo'), st₁') := by
  obtain ⟨d, node₁, st₂, nodes, st₃, rfl, hpre, hlist, -, hpost⟩ := buildTo_ok h
  cases hshape with
  | table =>
    cases hpre with
    | other _ _ _ htable => exact absurd rfl htable
    | table hins =>
      obtain ⟨st₂', hins'⟩ := symboltableInsert_short hget hbinds (hshort _ (List.mem_singleton.mpr rfl))
      rw [← hhead'] at hins'
      cases hlist
      cases hpost
      exact ⟨1, 1, st₂', Nat.one_pos, buildTo_of_steps (.table hins') (by simp) rfl
        (.other (by simp [AstNode.withChildren, AstNode.kind])
          (by simp [AstNode.withChildren, AstNode.kind]))⟩
  | @proc op ident body sig table size hbody =>
    cases hpre with
    | other _ _ hproc => exact absurd rfl hproc
    | @proc _ st₂ _ _ _ _ _ _ hins =>
      obtain ⟨st₂', hins'⟩ := symboltableInsert_short hget hbinds (hshort _ (List.mem_singleton.mpr rfl))
      rw [← hhead'] at hins'
      cases body with
      | none =>
        cases hlist
        cases hpost with
        | other _ hproc => exact absurd rfl hproc
        | noBody =>
          exact ⟨1, 1, st₂', Nat.one_pos, buildTo_of_steps (.proc hins') (by simp) rfl .noBody⟩
      | some body =>
        have hgrows := symboltableInsert_grows hins
        have hgrows' := symboltableInsert_grows hins'
        have hlower : 0 < st₂.tables.length := hlen.trans_le hgrows.length
        have hhead₂ : st₂.head = some 0 := hgrows.head.trans hhead
        obtain ⟨body', st₄, rest, hbuild, hrest, rfl⟩ := traverseList_cons_ok hlist
        cases hrest
        have hblock := hbody body rfl
        have hm : Moved st₂.tables.length st₂'.tables.length { st₂ with stackSize := 0 }
            { st₂' with stackSize := 0 } := by
          refine ⟨?_, rfl, le_rfl, ?_, fun i ht hi hget => ?_⟩
          · simp only [hhead₂, hgrows'.head, hhead', Option.map_some, moveTable_lt hlower]
          · simp only [moveTable_le le_rfl, Nat.sub_self, Nat.zero_add]
          · have := (List.getElem?_eq_some_iff.mp hget).1
            simp only at this
            omega
        have hin : body.kind ≠ .vardecl := by
          cases hblock
          simp [AstNode.kind]
        have hheads : ∀ t ∈ st₂.head, t < st₂.tables.length := by
          rw [hhead₂]
          rintro t ⟨⟩
          exact hlower
        obtain ⟨st₃', hbuild', hm₃⟩ := buildTo_moved hbuild (.blockstmt hblock) hheads
          (fun hkind => absurd hkind hin) hm
        have hbuilds := buildTo_builds hbuild (.blockstmt hblock) hheads
        generalize hnode : AstNode.withChildren _ [body'] = n at hpost
        cases hpost with
        | other _ hproc => exact absurd (by rw [← hnode]; rfl) hproc
        | noBody => cases hnode
        | block => cases hnode
        | @proc _ _ _ _ stmts _ table _ _ params hparams =>
          cases hnode
          cases hbuilds.inner _ (List.mem_singleton.mpr rfl) with
          | other hkind => exact absurd rfl hkind
          | @block _ t _ _ _ hle =>
            obtain ⟨st₄', hparams', hm₄⟩ := procPostParams_moved hparams hm₃ (by simpa using hle)
            rw [AstNode.moved_block] at hbuild'
            refine ⟨_, st₂'.tables.length, st₄', hlower, buildTo_of_steps (.proc hins') (by simp)
              (StateT.bind_ok.mpr ⟨_, _, hbuild', rfl⟩) ?_⟩
            rw [AstNode.moved, AstNode.moved_block, ← hm₄.stackSize]
            exact .proc hparams'

/-! ## Programs -/

/-- The node is the result of a visit of the declaration in the scope of the program. -/
def Visited (depth : Nat) (decl node : AstNode) : Prop :=
  ∃ st st', st.head = some 0 ∧ 0 < st.tables.length ∧ buildTo depth decl st = .ok (node, st')

theorem head_lt (hhead : st.head = some 0) (hlen : 0 < st.tables.length) :
    ∀ t ∈ st.head, t < st.tables.length := by
  rw [hhead]
  rintro t ⟨⟩
  exact hlen

theorem traverseList_visited {depth : Nat} {decls nodes : List AstNode}
    (h : traverseList (buildTo depth) decls st = .ok (nodes, st')) (hshape : ∀ d ∈ decls, Shape .decl d)
    (hhead : st.head = some 0) (hlen : 0 < st.tables.length) :
    List.Forall₂ (Visited depth) decls nodes := by
  induction decls generalizing nodes st with
  | nil =>
    cases h
    exact .nil
  | cons d decls ih =>
    obtain ⟨node, st₁, rest, hnode, hrest, rfl⟩ := traverseList_cons_ok h
    obtain ⟨hd, hds⟩ := List.forall_mem_cons.mp hshape
    have hgrows := buildTo_global hnode hd (head_lt hhead hlen)
    refine .cons ⟨st, st₁, hhead, hlen, hnode⟩ (ih hrest hds (hgrows.head.trans hhead) ?_)
    exact hlen.trans_le hgrows.length

/-- Declarations that were visited can be visited one after the other from another state. -/
theorem traverseList_revisited {depth : Nat} {P : AstNode → Prop} {decls : List AstNode}
    {ht : Hashtable} {ds : List (String × Symbol)}
    (hvisited : ∀ d ∈ decls, ∃ n, P n ∧ Visited depth d n) (hshape : ∀ d ∈ decls, Shape .decl d)
    (hshort : ∀ d ∈ decls, ∀ g ∈ d.global, g.1.length < maxIdentLen) (hhead : st.head = some 0)
    (hget : st.tables[0]? = some ht) (hbinds : Binds ht ds) :
    ∃ nodes st', traverseList (buildTo depth) decls st = .ok (nodes, st') ∧
      ∀ n' ∈ nodes, ∃ n lo lo', P n ∧ 0 < lo ∧ n' = n.moved (moveTable lo lo') := by
  induction decls generalizing st ht ds with
  | nil => exact ⟨[], st, rfl, List.forall_mem_nil _⟩
  | cons d decls ih =>
    obtain ⟨⟨n, hn, st₀, st₀', hhead₀, hlen₀, hvisit⟩, hvisiteds⟩ := List.forall_mem_cons.mp hvisited
    obtain ⟨hd, hds⟩ := List.forall_mem_cons.mp hshape
    obtain ⟨hfirst, hothers⟩ := List.forall_mem_cons.mp hshort
    have hlen := (List.getElem?_eq_some_iff.mp hget).1
    obtain ⟨lo, lo', st₁, hlo, hnode⟩ :=
      buildTo_decl_moved hvisit hd hhead₀ hlen₀ hhead hget hbinds hfirst
    have hgrows := buildTo_global hnode hd (head_lt hhead hlen)
    obtain ⟨ht₁, hget₁, -, hbinds₁⟩ := hgrows.binds 0 hhead ht ds hget hbinds
    obtain ⟨nodes, st', hrest, hnodes⟩ :=
      ih hvisiteds hds hothers (hgrows.head.trans hhead) hget₁ hbinds₁
    refine ⟨_, st', StateT.bind_ok.mpr ⟨_, st₁, hnode, StateT.bind_ok.mpr ⟨_, st', hrest, rfl⟩⟩, ?_⟩
    exact List.forall_mem_cons.mpr ⟨⟨n, lo, lo', hn, hlo, rfl⟩, hnodes⟩

theorem AstNode.listDepth_perm {nodes nodes' : List AstNode} (h : nodes.Perm nodes') :
    traverseDepth.listDepth nodes = traverseDepth.listDepth nodes' := by
  induction h with
  | nil => rfl
  | cons node _ ih => rw [traverseDepth.listDepth, traverseDepth.listDepth, ih]
  | swap a b nodes =>
    simp only [traverseDepth.listDepth]
    exact Nat.max_left_comm ..
  | trans _ _ ih ih' => exact ih.trans ih'

/-- The tables of a program can be built for its declarations in another order. The results are the
same declarations with other numbers of tables. -/
theorem symboltableBuild_permuted {decls decls' : List AstNode} {t : Option Nat} {root : AstNode}
    (hshape : ∀ d ∈ decls, Shape .decl d) (h : symboltableBuild (.block decls t) = .ok (root, st))
    (hshort : ∀ d ∈ decls, ∀ g ∈ d.global, g.1.length < maxIdentLen) (hperm : decls.Perm decls') :
    ∃ nodes nodes' st', root = .block nodes (some 0) ∧
      symboltableBuild (.block decls' t) = .ok (.block nodes' (some 0), st') ∧
      ∀ n' ∈ nodes', ∃ n ∈ nodes, ∃ lo lo', 0 < lo ∧ n' = n.moved (moveTable lo lo') := by
  obtain ⟨decls, t, nodes, st₁, ht, heq, -, hlist, -, rfl, rfl⟩ :=
    symboltableBuild_block (.program hshape) h
  cases heq
  have hvisited := traverseList_visited hlist hshape rfl Nat.one_pos
  have hshape' : ∀ d ∈ decls', Shape .decl d := fun d hd => hshape d (hperm.mem_iff.mpr hd)
  have hexists : ∀ d ∈ decls', ∃ n ∈ nodes, Visited _ d n := fun d hd => by
    obtain ⟨n, hn, hvisit⟩ := exists_of_forall₂ hvisited (hperm.mem_iff.mpr hd)
    exact ⟨n, (List.of_mem_zip hn).2, hvisit⟩
  obtain ⟨nodes', st₁', hlist', hnodes'⟩ := @traverseList_revisited .started _ _ _ _ _ hexists
    hshape' (fun d hd => hshort d (hperm.mem_iff.mpr hd)) rfl rfl .init
  obtain ⟨hgrows, -⟩ := traverseList_procScoped hlist' hshape' (by simp [Symboltable.started])
  obtain ⟨ht', hget', -, -⟩ := hgrows.binds 0 rfl _ [] rfl .init
  refine ⟨nodes, nodes', { st₁' with head := ht'.parent }, rfl, symboltableBuild_ok.mpr ?_, ?_⟩
  · rw [AstNode.traverseDepth]
    refine buildTo_of_steps .block (by simp) (AstNode.listDepth_perm hperm ▸ hlist') (.block ?_)
    rw [hgrows.head]
    exact hget'
  · intro n' hn'
    obtain ⟨n, lo, lo', hn, hlo, rfl⟩ := hnodes' n' hn'
    exact ⟨n, hn, lo, lo', hlo, rfl⟩

end Seron
