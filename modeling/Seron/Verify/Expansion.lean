import Seron.Verify.Traversal
import Seron.Verify.Shape
import Seron.Expand

/-! # Completeness of the expansion

The traversal expands every `for` and every index expression it reaches. It does not reach the
targets of assignments. -/

namespace Seron

namespace AstNode

/-- No `for` and no index expression is reachable. -/
def SugarFree (node : AstNode) : Prop :=
  node.AllKinds fun kind => kind ≠ .for_ ∧ kind ≠ .index

theorem sugarFree_iff {node : AstNode} :
    node.SugarFree ↔ (node.kind ≠ .for_ ∧ node.kind ≠ .index) ∧ ∀ c ∈ node.parts, c.SugarFree :=
  allKinds_iff

/-- No assignment has sugar in its target. -/
def TargetsSugarFree (node : AstNode) : Prop :=
  ∀ op value target, .assign op value target ∈ node.subtrees → target.SugarFree

theorem targetsSugarFree_iff {node : AstNode} :
    node.TargetsSugarFree ↔ (∀ op value target, node = .assign op value target → target.SugarFree) ∧
      ∀ c ∈ node.parts, c.TargetsSugarFree := by
  constructor
  · intro h
    exact ⟨fun op value target heq => h op value target (mem_subtrees.mpr (.inl heq.symm)),
      fun c hc op value target hx => h op value target (mem_subtrees.mpr (.inr ⟨c, hc, hx⟩))⟩
  · rintro ⟨hnode, h⟩ op value target hx
    rcases mem_subtrees.mp hx with heq | ⟨c, hc, hx⟩
    · exact hnode op value target heq.symm
    · exact h c hc op value target hx

theorem SugarFree.targets {node : AstNode} (h : node.SugarFree) : node.TargetsSugarFree := by
  induction node using parts_induct with
  | step node ih =>
    obtain ⟨-, hparts⟩ := sugarFree_iff.mp h
    refine targetsSugarFree_iff.mpr ⟨?_, fun c hc => ih c hc (hparts c hc)⟩
    rintro op value target rfl
    exact hparts target (by simp [parts])

/-- What the expansion makes of a tree. -/
def expanded : AstNode → AstNode
  | .grouping e => .grouping e.expanded
  | .binop lhs rhs op kind => .binop lhs.expanded rhs.expanded op kind
  | .unaryop e op kind => .unaryop e.expanded op kind
  | .call op callee args => .call op callee.expanded (list args)
  | .block stmts t => .block (list stmts) t
  | .proc op ident body type t size => .proc op ident (opt body) type t size
  | .vardecl op ident init type offset => .vardecl op ident (opt init) type offset
  | .if_ op cond thenBody elseBody => .if_ op cond.expanded thenBody.expanded (opt elseBody)
  | .while_ op cond body => .while_ op cond.expanded body.expanded
  | .assign op value target => .assign op value.expanded target
  | .return_ op e => .return_ op (opt e)
  | .array op values type offset => .array op (list values) type offset
  | .for_ op _ cond step (.block stmts t) type ident init =>
    .block [.vardecl op ident (some init.expanded) type 0,
      .while_ op cond.expanded (.block (list stmts ++ [step.expanded]) t)] none
  | .index op e i => .unaryop (.binop e.expanded i.expanded op .add) op .deref
  | node => node
where
  list : List AstNode → List AstNode
    | [] => []
    | node :: nodes => node.expanded :: list nodes
  opt : Option AstNode → Option AstNode
    | none => none
    | some node => some node.expanded

theorem expanded_list (nodes : List AstNode) : expanded.list nodes = nodes.map expanded := by
  induction nodes with
  | nil => rfl
  | cons node nodes ih => rw [expanded.list, ih, List.map_cons]

theorem expanded_opt (node : Option AstNode) : expanded.opt node = node.map expanded := by
  cases node <;> rfl

theorem sugarFree_block {stmts : List AstNode} {t : Option Nat} :
    (block stmts t).SugarFree ↔ ∀ s ∈ stmts, s.SugarFree := by
  rw [sugarFree_iff]
  simp [kind, parts, children]

/-- Expansion leaves sugar in the targets of assignments only. -/
theorem sugarFree_expanded {c : NodeClass} {node : AstNode} (h : Shape c node) :
    node.expanded.SugarFree ↔ node.TargetsSugarFree := by
  induction h with
  | @assign op value target _ _ ihv _ =>
    rw [expanded, sugarFree_iff, targetsSugarFree_iff]
    simp only [parts, List.forall_mem_cons, List.not_mem_nil, false_implies, implies_true, and_true]
    constructor
    · rintro ⟨-, hv, ht⟩
      exact ⟨fun _ _ _ heq => by cases heq; exact ht, ihv.mp hv, ht.targets⟩
    · rintro ⟨ht, hv, -⟩
      exact ⟨by simp [kind], ihv.mpr hv, ht op value target rfl⟩
  | @index op e i _ _ ihe ihi =>
    have hsum : (binop e.expanded i.expanded op .add).SugarFree ↔
        e.TargetsSugarFree ∧ i.TargetsSugarFree := by
      rw [sugarFree_iff]
      simp [kind, parts, children, ihe, ihi]
    rw [expanded, sugarFree_iff, targetsSugarFree_iff]
    simp [kind, parts, children, hsum]
  | @for_ op ident cond step body init type _ _ hbody _ ihcond ihstep ihbody ihinit =>
    cases hbody with
    | @block stmts t =>
      rw [expanded, expanded_list, sugarFree_block] at ihbody
      have hdecl : (vardecl op ident (some init.expanded) type 0).SugarFree ↔
          init.TargetsSugarFree := by
        rw [sugarFree_iff]
        simp [kind, parts, children, ihinit]
      have hwhile : (while_ op cond.expanded
          (.block (stmts.map expanded ++ [step.expanded]) t)).SugarFree ↔
          cond.TargetsSugarFree ∧ (block stmts t).TargetsSugarFree ∧ step.TargetsSugarFree := by
        rw [sugarFree_iff]
        simp only [kind, parts, children, List.forall_mem_cons, sugarFree_block,
          List.forall_mem_append, ihcond, ihstep, ihbody]
        simp
      rw [expanded, expanded_list, sugarFree_block, targetsSugarFree_iff]
      simp only [parts, List.forall_mem_cons, hdecl, hwhile, Option.toList_none, List.nil_append]
      constructor
      · rintro ⟨hinit, ⟨hcond, hbody, hstep⟩, -⟩
        exact ⟨by simp, hcond, hstep, hbody, hinit, by simp⟩
      · rintro ⟨-, hcond, hstep, hbody, hinit, -⟩
        exact ⟨hinit, ⟨hcond, hbody, hstep⟩, by simp⟩
  | exprstmt _ ih | blockstmt _ ih => exact ih
  | _ =>
    rw [sugarFree_iff, targetsSugarFree_iff]
    simp_all [expanded, parts, children, kind, expanded_list, expanded_opt]

end AstNode

theorem Shape.child {k : NodeClass} {node c : AstNode} (h : Shape k node)
    (hc : c ∈ node.children) :
    ∃ k, Shape k c := by
  induction h with
  | exprstmt _ ih | blockstmt _ ih => exact ih hc
  | literal | table => cases hc
  | grouping h | unaryop h | assign h => exact ⟨_, List.mem_singleton.mp hc ▸ h⟩
  | binop h h' | index h h' | while_ h h' =>
    simp only [AstNode.children, List.mem_cons, List.not_mem_nil, or_false] at hc
    rcases hc with rfl | rfl
    · exact ⟨_, h⟩
    · exact ⟨_, h'⟩
  | call h hargs =>
    rcases List.mem_cons.mp hc with rfl | hc
    · exact ⟨_, h⟩
    · exact ⟨_, hargs c hc⟩
  | array h | block h | program h => exact ⟨_, h c hc⟩
  | vardecl h | return_ h | proc h => exact ⟨_, h c (Option.mem_toList.mp hc)⟩
  | if_ hcond hthen helse =>
    rcases List.mem_cons.mp hc with rfl | hc
    · exact ⟨_, hcond⟩
    · rcases List.mem_cons.mp hc with rfl | hc
      · exact ⟨_, hthen⟩
      · exact ⟨_, helse c (Option.mem_toList.mp hc)⟩
  | for_ hcond hstep hbody _ =>
    simp only [AstNode.children, Option.toList_none, List.nil_append, List.mem_cons, List.not_mem_nil,
      or_false] at hc
    rcases hc with rfl | rfl | rfl
    · exact ⟨_, hcond⟩
    · exact ⟨_, hstep⟩
    · exact ⟨_, hbody⟩

/-- The pass itself, to some depth. -/
def expandTo (depth : Nat) : AstNode → Walk Unit AstNode :=
  parserDispatchAst expandTable depth

theorem Shape.index_inv {k : NodeClass} {op : Token} {e i : AstNode}
    (h : Shape k (.index op e i)) : Shape .expr e ∧ Shape .expr i := by
  cases h with
  | index he hi => exact ⟨he, hi⟩
  | exprstmt h =>
    cases h with
    | index he hi => exact ⟨he, hi⟩
  | blockstmt h => cases h

theorem Shape.for_inv {k : NodeClass} {op ident : Token} {decl : Option AstNode}
    {cond step body init : AstNode} {type : Ty}
    (h : Shape k (.for_ op decl cond step body type ident init)) :
    Shape .expr cond ∧ Shape .expr step ∧ Shape .block body ∧ Shape .expr init := by
  cases h with
  | for_ hcond hstep hbody hinit => exact ⟨hcond, hstep, hbody, hinit⟩
  | exprstmt h | blockstmt h => cases h

/-- What a `for` is expanded to. -/
theorem Shape.loop {op ident : Token} {cond step init : AstNode} {stmts : List AstNode}
    {t : Option Nat} {type : Ty} (hcond : Shape .expr cond) (hstep : Shape .expr step)
    (hbody : Shape .block (.block stmts t)) (hinit : Shape .expr init) :
    Shape .block (.block [.vardecl op ident (some init) type 0,
      .while_ op cond (.block (stmts ++ [step]) t)] none) := by
  cases hbody with
  | block hstmts =>
    have hdecl : Shape .stmt (.vardecl op ident (some init) type 0) :=
      .vardecl fun _ he => by cases he; exact hinit
    have hloop : Shape .stmt (.while_ op cond (.block (stmts ++ [step]) t)) :=
      .while_ hcond <| .block <| List.forall_mem_append.mpr
        ⟨hstmts, by simpa using .exprstmt hstep⟩
    exact .block (by simp [hdecl, hloop])

/-- The expansion keeps the class of a tree. -/
theorem Shape.expanded {k : NodeClass} (h : Shape k node) : Shape k node.expanded := by
  induction h with
  | literal => exact .literal
  | grouping _ ih => exact .grouping ih
  | binop _ _ ih ih' => exact .binop ih ih'
  | unaryop _ ih => exact .unaryop ih
  | call _ _ ih ih' =>
    rw [AstNode.expanded, AstNode.expanded_list]
    exact .call ih (by simpa using ih')
  | array _ ih =>
    rw [AstNode.expanded, AstNode.expanded_list]
    exact .array (by simpa using ih)
  | assign _ ht ih _ => exact .assign ih ht
  | index _ _ ih ih' => exact .unaryop (.binop ih ih')
  | exprstmt _ ih => exact .exprstmt ih
  | blockstmt _ ih => exact .blockstmt ih
  | vardecl _ ih =>
    rw [AstNode.expanded, AstNode.expanded_opt]
    exact .vardecl (by simpa using ih)
  | if_ _ _ _ ih ih' ih'' =>
    rw [AstNode.expanded, AstNode.expanded_opt]
    exact .if_ ih ih' (by simpa using ih'')
  | while_ _ _ ih ih' => exact .while_ ih ih'
  | for_ _ _ hbody _ ihcond ihstep ihbody ihinit =>
    cases hbody with
    | block =>
      simp only [AstNode.expanded, AstNode.expanded_list] at ihbody ⊢
      exact .blockstmt (.loop ihcond ihstep ihbody ihinit)
  | return_ _ ih =>
    rw [AstNode.expanded, AstNode.expanded_opt]
    exact .return_ (by simpa using ih)
  | block _ ih =>
    rw [AstNode.expanded, AstNode.expanded_list]
    exact .block (by simpa using ih)
  | proc _ ih =>
    rw [AstNode.expanded, AstNode.expanded_opt]
    exact .proc (by simpa using ih)
  | table => exact .table
  | program _ ih =>
    rw [AstNode.expanded, AstNode.expanded_list]
    exact .program (by simpa using ih)

/-- What the callback leaves of a node: no sugar, and what is expanded next. -/
theorem expand_pre {k : NodeClass} {node : AstNode} (h : Shape k node) :
    ∃ node', dispatchCallbackPre expandTable node = pure node' ∧ (∃ k, Shape k node') ∧
      node'.kind ≠ .for_ ∧ node'.traverseDepth ≤ node.traverseDepth ∧
      node'.withChildren (node'.children.map AstNode.expanded) = node.expanded := by
  cases node
  case index op e i =>
    obtain ⟨he, hi⟩ := h.index_inv
    refine ⟨.unaryop (.binop e i op .add) op .deref, rfl, ⟨.expr, .unaryop (.binop he hi)⟩,
      by simp [AstNode.kind], ?_, rfl⟩
    simp only [AstNode.traverseDepth]
    omega
  case for_ op decl cond step body type ident init =>
    obtain ⟨hcond, hstep, hbody, hinit⟩ := h.for_inv
    cases hbody with
    | @block stmts t hstmts =>
      refine ⟨.block [.vardecl op ident (some init) type 0,
        .while_ op cond (.block (stmts ++ [step]) t)] none, rfl,
        ⟨.block, .loop hcond hstep (.block hstmts) hinit⟩, by simp [AstNode.kind], ?_, ?_⟩
      · simp only [AstNode.traverseDepth, AstNode.traverseDepth.listDepth,
          AstNode.traverseDepth.optDepth, AstNode.listDepth_append]
        omega
      · simp [AstNode.withChildren, AstNode.children, AstNode.expanded, AstNode.expanded_list,
          AstNode.expanded.opt]
  all_goals
    refine ⟨_, rfl, ⟨k, h⟩, by simp [AstNode.kind], Nat.le_refl _, ?_⟩
    simp [AstNode.withChildren, AstNode.children, AstNode.expanded, AstNode.expanded_list,
      AstNode.expanded_opt]

theorem traverseList_expanded {f : AstNode → Walk Unit AstNode} {nodes : List AstNode}
    (h : ∀ node ∈ nodes, f node () = .ok (node.expanded, ())) :
    traverseList f nodes () = .ok (nodes.map AstNode.expanded, ()) := by
  induction nodes with
  | nil => rfl
  | cons node nodes ih =>
    rw [traverseList]
    refine StateT.bind_ok.mpr ⟨_, _, h node (by simp), StateT.bind_ok.mpr ⟨_, _, ih ?_, rfl⟩⟩
    exact fun node hnode => h node (by simp [hnode])

theorem expandTo_eq {k : NodeClass} {node : AstNode} {depth : Nat} (h : Shape k node)
    (hdepth : node.traverseDepth ≤ depth) :
    expandTo depth node () = .ok (node.expanded, ()) := by
  induction depth generalizing node k with
  | zero =>
    have : 0 < node.traverseDepth := by cases node <;> simp [AstNode.traverseDepth]
    omega
  | succ depth ih =>
    obtain ⟨node', hpre, ⟨k', hshape⟩, hfor, hle, hexp⟩ := expand_pre h
    have hlist : traverseList (expandTo depth) node'.children () = .ok (_, ()) :=
      traverseList_expanded fun c hc => by
        obtain ⟨k'', hc'⟩ := hshape.child hc
        have := AstNode.traverseDepth_child hc
        exact ih hc' (by omega)
    have hpost (n : AstNode) : dispatchCallbackPost expandTable n = pure n := by
      cases n <;> rfl
    have hkind : ∀ op cond step body type ident e,
        node' ≠ .for_ op none cond step body type ident e := by
      rintro op cond step body type ident e rfl
      exact hfor rfl
    rw [← hexp]
    refine StateT.bind_ok.mpr ⟨node', (), by rw [hpre]; rfl, StateT.bind_ok.mpr ⟨_, (), ?_, by rw [hpost]; rfl⟩⟩
    rw [traverseChildren_eq _ _ hkind]
    exact StateT.map_ok.mpr ⟨_, (), hlist, rfl⟩

/-- The expansion terminates, and this is its result. -/
theorem expandAst_eq {k : NodeClass} {root : AstNode} (h : Shape k root) :
    expandAst root = .ok root.expanded := by
  simp only [expandAst, StateT.run']
  rw [show parserDispatchAst expandTable root.traverseDepth root () = _ from expandTo_eq h (Nat.le_refl _)]
  rfl

end Seron
