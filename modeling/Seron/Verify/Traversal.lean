import Mathlib.Data.List.Forall2
import Seron.Traverse

/-! # Traversal by lists of children

The traversal visits the same children in every pass. With these as a list, and a node with its
children replaced, the sixteen cases of the switch become one. -/

namespace Seron

variable {σ : Type}

namespace AstNode

/-- The children `parser_traverse_ast` visits, in their order; the target of an assignment and the
parts of a `for` that belong to its declaration are not among them. -/
def children : AstNode → List AstNode
  | .block stmts _ => stmts
  | .array _ values _ _ => values
  | .index _ e i => [e, i]
  | .assign _ value _ => [value]
  | .call _ callee args => callee :: args
  | .for_ _ decl cond step body _ _ _ => decl.toList ++ [cond, step, body]
  | .while_ _ cond body => [cond, body]
  | .return_ _ e => e.toList
  | .if_ _ cond thenBody elseBody => cond :: thenBody :: elseBody.toList
  | .grouping e => [e]
  | .proc _ _ body _ _ _ => body.toList
  | .vardecl _ _ init _ _ => init.toList
  | .binop lhs rhs _ _ => [lhs, rhs]
  | .unaryop e _ _ => [e]
  | .table .. | .literal .. => []

/-- The node with other children. -/
def withChildren : AstNode → List AstNode → AstNode
  | .block _ t, stmts => .block stmts t
  | .array op _ type offset, values => .array op values type offset
  | .index op _ _, [e, i] => .index op e i
  | .assign op _ target, [value] => .assign op value target
  | .call op _ _, callee :: args => .call op callee args
  | .for_ op _ _ _ _ type ident e, [decl, cond, step, body] =>
    .for_ op (some decl) cond step body type ident e
  | .while_ op _ _, [cond, body] => .while_ op cond body
  | .return_ op _, e => .return_ op e.head?
  | .if_ op _ _ _, cond :: thenBody :: elseBody => .if_ op cond thenBody elseBody.head?
  | .grouping _, [e] => .grouping e
  | .proc op ident _ type t size, body => .proc op ident body.head? type t size
  | .vardecl op ident _ type offset, init => .vardecl op ident init.head? type offset
  | .binop _ _ op kind, [lhs, rhs] => .binop lhs rhs op kind
  | .unaryop _ op kind, [e] => .unaryop e op kind
  | node, _ => node

theorem kind_withChildren (node : AstNode) (nodes : List AstNode) :
    (node.withChildren nodes).kind = node.kind := by
  unfold withChildren
  split <;> rfl

theorem children_withChildren {node : AstNode} {nodes : List AstNode}
    (hfor : ∀ op cond step body type ident e, node ≠ .for_ op none cond step body type ident e)
    (h : nodes.length = node.children.length) : (node.withChildren nodes).children = nodes := by
  have opt {o : Option AstNode} {nodes : List AstNode} (h : nodes.length = o.toList.length) :
      nodes.head?.toList = nodes := by
    match nodes, o, h with
    | [], none, _ | [_], some _, _ => rfl
  cases node
  case block | array => rfl
  case table | literal => exact (List.length_eq_zero_iff.mp h).symm
  case return_ | proc | vardecl => exact opt h
  case grouping | unaryop | assign =>
    match nodes, h with
    | [_], _ => rfl
  case binop | while_ | index =>
    match nodes, h with
    | [_, _], _ => rfl
  case call =>
    match nodes, h with
    | _ :: _, _ => rfl
  case if_ cond thenBody elseBody =>
    match nodes, h with
    | _ :: _ :: rest, h =>
      have h : rest.length = elseBody.toList.length := by simpa [children] using h
      simp [withChildren, children, opt h]
  case for_ decl cond step body type ident e =>
    cases decl with
    | none => exact (hfor _ _ _ _ _ _ _ rfl).elim
    | some decl =>
      match nodes, h with
      | [_, _, _, _], _ => rfl

/-- All children of a node, whether a traversal visits them or not. -/
def parts : AstNode → List AstNode
  | .assign _ value target => [value, target]
  | .for_ _ decl cond step body _ _ init => decl.toList ++ [cond, step, body, init]
  | node => node.children

theorem mem_parts_of_children {node c : AstNode} (h : c ∈ node.children) : c ∈ node.parts := by
  cases node <;> simp_all [parts, children]
  grind

/-- The parts of a node with other children are those children or old parts. -/
theorem mem_parts_withChildren {node c : AstNode} {nodes : List AstNode}
    (h : c ∈ (node.withChildren nodes).parts) : c ∈ nodes ∨ c ∈ node.parts := by
  have head {nodes : List AstNode} (h : c ∈ nodes.head?.toList) : c ∈ nodes :=
    List.mem_of_mem_head? (Option.mem_toList.mp h)
  unfold withChildren at h
  split at h <;> simp only [parts, children, List.mem_cons, List.mem_append, List.not_mem_nil,
    or_false] at h ⊢
  all_goals first
    | exact .inl h
    | exact .inl (head h)
    | exact .inr h
    | grind

/-- The nodes that are reachable from a node, itself included. -/
def subtrees : AstNode → List AstNode
  | node@(.grouping e) => node :: e.subtrees
  | node@(.binop lhs rhs _ _) => node :: (lhs.subtrees ++ rhs.subtrees)
  | node@(.unaryop e _ _) => node :: e.subtrees
  | node@(.call _ callee args) => node :: (callee.subtrees ++ list args)
  | node@(.block stmts _) => node :: list stmts
  | node@(.proc _ _ body _ _ _) => node :: opt body
  | node@(.vardecl _ _ init _ _) => node :: opt init
  | node@(.if_ _ cond thenBody elseBody) =>
    node :: (cond.subtrees ++ (thenBody.subtrees ++ opt elseBody))
  | node@(.while_ _ cond body) => node :: (cond.subtrees ++ body.subtrees)
  | node@(.assign _ value target) => node :: (value.subtrees ++ target.subtrees)
  | node@(.return_ _ e) => node :: opt e
  | node@(.array _ values _ _) => node :: list values
  | node@(.for_ _ decl cond step body _ _ init) => node :: (opt decl ++ (cond.subtrees ++
    (step.subtrees ++ (body.subtrees ++ init.subtrees))))
  | node@(.index _ e i) => node :: (e.subtrees ++ i.subtrees)
  | node@(.literal ..) => [node]
  | node@(.table ..) => [node]
where
  list : List AstNode → List AstNode
    | [] => []
    | node :: nodes => node.subtrees ++ list nodes
  opt : Option AstNode → List AstNode
    | none => []
    | some node => node.subtrees

theorem subtrees_list (nodes : List AstNode) : subtrees.list nodes = nodes.flatMap subtrees := by
  induction nodes with
  | nil => rfl
  | cons node nodes ih => rw [subtrees.list, ih, List.flatMap_cons]

theorem subtrees_opt (node : Option AstNode) : subtrees.opt node = node.toList.flatMap subtrees := by
  cases node <;> simp [subtrees.opt]

theorem subtrees_eq (node : AstNode) : node.subtrees = node :: node.parts.flatMap subtrees := by
  cases node <;> simp [subtrees, parts, children, subtrees_list, subtrees_opt]

theorem mem_subtrees {node x : AstNode} :
    x ∈ node.subtrees ↔ x = node ∨ ∃ c ∈ node.parts, x ∈ c.subtrees := by
  rw [subtrees_eq, List.mem_cons, List.mem_flatMap]

/-- The kinds of all nodes that are reachable from a node satisfy the predicate. -/
def AllKinds (Q : AstNodeKind → Prop) (node : AstNode) : Prop :=
  ∀ x ∈ node.subtrees, Q x.kind

theorem allKinds_iff {Q : AstNodeKind → Prop} {node : AstNode} :
    node.AllKinds Q ↔ Q node.kind ∧ ∀ c ∈ node.parts, c.AllKinds Q := by
  constructor
  · intro h
    exact ⟨h node (mem_subtrees.mpr (.inl rfl)),
      fun c hc x hx => h x (mem_subtrees.mpr (.inr ⟨c, hc, hx⟩))⟩
  · rintro ⟨hnode, h⟩ x hx
    rcases mem_subtrees.mp hx with rfl | ⟨c, hc, hx⟩
    · exact hnode
    · exact h c hc x hx

/-- Induction on the parts of a tree. -/
@[elab_as_elim]
theorem parts_induct {P : AstNode → Prop}
    (step : ∀ node : AstNode, (∀ c ∈ node.parts, P c) → P node) (node : AstNode) : P node := by
  induction node using AstNode.induct <;> refine step _ ?_ <;> simp only [parts, children] <;> grind

theorem listDepth_append (nodes nodes' : List AstNode) :
    traverseDepth.listDepth (nodes ++ nodes') =
      max (traverseDepth.listDepth nodes) (traverseDepth.listDepth nodes') := by
  induction nodes with
  | nil => simp [traverseDepth.listDepth]
  | cons node nodes ih => rw [List.cons_append, traverseDepth.listDepth, ih,
      traverseDepth.listDepth, Nat.max_assoc]

/-- The visited children of a node are less deep. -/
theorem traverseDepth_child {node c : AstNode} (hc : c ∈ node.children) :
    c.traverseDepth < node.traverseDepth := by
  have list {nodes : List AstNode} (h : c ∈ nodes) :
      c.traverseDepth ≤ traverseDepth.listDepth nodes := by
    induction nodes with
    | nil => cases h
    | cons n nodes ih =>
      rw [traverseDepth.listDepth]
      rcases List.mem_cons.mp h with rfl | h
      · exact Nat.le_max_left ..
      · exact Nat.le_trans (ih h) (Nat.le_max_right ..)
  have opt {o : Option AstNode} (h : c ∈ o) : c.traverseDepth ≤ traverseDepth.optDepth o := by
    cases h
    exact Nat.le_refl _
  cases node <;> rw [traverseDepth] <;>
    simp only [children, List.mem_cons, List.mem_append, List.not_mem_nil, or_false,
      Option.mem_toList] at hc
  case grouping | unaryop | assign =>
    subst hc
    omega
  case binop | while_ | index =>
    rcases hc with rfl | rfl <;> omega
  case call =>
    rcases hc with rfl | hc
    · omega
    · have := list hc
      omega
  case block | array =>
    have := list hc
    omega
  case proc | vardecl | return_ =>
    have := opt hc
    omega
  case if_ =>
    rcases hc with rfl | rfl | hc
    · omega
    · omega
    · have := opt hc
      omega
  case for_ =>
    rcases hc with hc | rfl | rfl | rfl
    · have := opt hc
      omega
    all_goals omega

end AstNode

theorem traverseOpt_eq (f : AstNode → Walk σ AstNode) (node : Option AstNode) :
    traverseOpt f node = List.head? <$> traverseList f node.toList := by
  cases node <;> simp [traverseOpt, traverseList]

theorem traverseChildren_eq (f : AstNode → Walk σ AstNode) (node : AstNode)
    (h : ∀ op cond step body type ident e, node ≠ .for_ op none cond step body type ident e) :
    traverseChildren f node = node.withChildren <$> traverseList f node.children := by
  cases node
  case for_ op decl cond step body type ident e =>
    cases decl with
    | none => exact (h _ _ _ _ _ _ _ rfl).elim
    | some decl => simp [traverseChildren, AstNode.children, traverseList, AstNode.withChildren]
  case block | proc | vardecl | return_ | array =>
    simp only [traverseChildren, traverseOpt_eq, map_eq_pure_bind, bind_assoc, pure_bind]
    rfl
  all_goals
    simp [traverseChildren, traverseOpt_eq, AstNode.children, traverseList, AstNode.withChildren]

theorem traverseList_cons_ok {f : AstNode → Walk σ AstNode} {node : AstNode}
    {nodes nodes' : List AstNode} {s s' : σ}
    (h : traverseList f (node :: nodes) s = .ok (nodes', s')) :
    ∃ node' s₁ rest, f node s = .ok (node', s₁) ∧ traverseList f nodes s₁ = .ok (rest, s') ∧
      nodes' = node' :: rest := by
  obtain ⟨node', s₁, hnode, h₁⟩ := StateT.bind_ok.mp h
  obtain ⟨rest, s₂, hrest, h₂⟩ := StateT.bind_ok.mp h₁
  cases h₂
  exact ⟨node', s₁, rest, hnode, hrest, rfl⟩

theorem traverseList_length {f : AstNode → Walk σ AstNode} {nodes nodes' : List AstNode} {s s' : σ}
    (h : traverseList f nodes s = .ok (nodes', s')) : nodes'.length = nodes.length := by
  induction nodes generalizing nodes' s with
  | nil =>
    cases h
    rfl
  | cons node nodes ih =>
    obtain ⟨node', s₁, rest, -, hrest, rfl⟩ := traverseList_cons_ok h
    rw [List.length_cons, List.length_cons, ih hrest]

/-- A visit of the children that succeeds visits the list of children, and its results are the
children of the result. -/
theorem traverseChildren_ok {f : AstNode → Walk σ AstNode} {node node' : AstNode} {s s' : σ}
    (h : traverseChildren f node s = .ok (node', s')) :
    ∃ nodes, traverseList f node.children s = .ok (nodes, s') ∧
      node' = node.withChildren nodes ∧ node'.children = nodes := by
  have hfor : ∀ op cond step body type ident e,
      node ≠ .for_ op none cond step body type ident e := by
    rintro op cond step body type ident e rfl
    cases h
  rw [traverseChildren_eq _ _ hfor] at h
  obtain ⟨nodes, s₁, hlist, heq⟩ := StateT.map_ok.mp h
  cases heq
  exact ⟨nodes, hlist, rfl, AstNode.children_withChildren hfor (traverseList_length hlist)⟩

theorem exists_of_forall₂ {α β : Type} {R : α → β → Prop} {as : List α} {bs : List β} {a : α}
    (h : List.Forall₂ R as bs) (ha : a ∈ as) : ∃ b, (a, b) ∈ as.zip bs ∧ R a b := by
  induction h with
  | nil => cases ha
  | cons hab _ ih =>
    rw [List.zip_cons_cons]
    rcases List.mem_cons.mp ha with rfl | ha
    · exact ⟨_, List.mem_cons_self, hab⟩
    · obtain ⟨b, hb, hr⟩ := ih ha
      exact ⟨b, List.mem_cons_of_mem _ hb, hr⟩

/-- Every node after the visit of a list is the result of a visit. -/
theorem exists_of_traverseList {f : AstNode → Walk σ AstNode} {nodes nodes' : List AstNode}
    {s s' : σ} (h : traverseList f nodes s = .ok (nodes', s')) {node' : AstNode}
    (hnode : node' ∈ nodes') : ∃ node ∈ nodes, ∃ s s', f node s = .ok (node', s') := by
  induction nodes generalizing nodes' s with
  | nil =>
    cases h
    cases hnode
  | cons node nodes ih =>
    obtain ⟨first, s₁, rest, hfirst, hrest, rfl⟩ := traverseList_cons_ok h
    rcases List.mem_cons.mp hnode with rfl | hnode
    · exact ⟨node, by simp, s, s₁, hfirst⟩
    · obtain ⟨n, hn, hvisit⟩ := ih hrest hnode
      exact ⟨n, by simp [hn], hvisit⟩

/-- What a visit makes true of each node is true of all nodes after the visit of a list. -/
theorem forall_mem_of_traverseList {f : AstNode → Walk σ AstNode} {Q : AstNode → Prop}
    {nodes nodes' : List AstNode} {s s' : σ}
    (hf : ∀ node ∈ nodes, ∀ s node' s', f node s = .ok (node', s') → Q node')
    (h : traverseList f nodes s = .ok (nodes', s')) : ∀ node ∈ nodes', Q node := by
  intro node' hnode'
  obtain ⟨node, hnode, s₁, s₂, hvisit⟩ := exists_of_traverseList h hnode'
  exact hf node hnode s₁ node' s₂ hvisit

theorem forall₂_of_traverseList {f : AstNode → Walk σ AstNode} {R : AstNode → AstNode → Prop}
    {nodes nodes' : List AstNode} {s s' : σ}
    (hf : ∀ node node' s s', f node s = .ok (node', s') → R node node')
    (h : traverseList f nodes s = .ok (nodes', s')) : List.Forall₂ R nodes nodes' := by
  induction nodes generalizing nodes' s with
  | nil =>
    cases h
    exact .nil
  | cons node nodes ih =>
    obtain ⟨node', s₁, rest, hnode, hrest, rfl⟩ := traverseList_cons_ok h
    exact .cons (hf _ _ _ _ hnode) (ih hrest)

end Seron
