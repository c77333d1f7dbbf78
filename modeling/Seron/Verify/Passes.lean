import Seron.Verify.Hygiene
import Seron.Verify.Meaning

/-! # What the passes keep

The expansion of sugar and the annotation of the tree leave a program its meaning: where a procedure
means something in the tree that was parsed, it means the same in the tree that code is generated
for. -/

namespace Seron

/-- What the procedures return in the one program, they return in the other one. -/
def Meaning.Le (P P' : Meaning) : Prop := ∀ name ws w, P name ws = some w → P' name ws = some w

theorem Meaning.Le.refl {P : Meaning} : P.Le P := fun _ _ _ h => h

/-- Where the one node means something, the other one means the same. -/
structure Carries (P P' : Meaning) (node node' : AstNode) : Prop where
  names : node'.declared.map Prod.fst = node.declared.map Prod.fst
  ident : ∀ op, node = .literal op .ident → node' = .literal op .ident
  expr : ∀ vars w, evalExpr P vars node = some w → evalExpr P' vars node' = some w
  stmt : ∀ rounds vars ending, evalStmt P rounds node vars = some ending →
    evalStmt P' rounds node' vars = some ending

variable {node node' : AstNode} {nodes nodes' : List AstNode} {P P' : Meaning} {rounds : Nat}
  {vars : Vars}

theorem Carries.refl (node : AstNode) : Carries P P node node :=
  ⟨rfl, fun _ h => h, fun _ _ h => h, fun _ _ _ h => h⟩

theorem Carries.trans {P'' : Meaning} {node'' : AstNode} (h : Carries P P' node node')
    (h' : Carries P' P'' node' node'') : Carries P P'' node node'' where
  names := h'.names.trans h.names
  ident op hop := h'.ident op (h.ident op hop)
  expr vars w hw := h'.expr vars w (h.expr vars w hw)
  stmt rounds vars ending hend := h'.stmt rounds vars ending (h.stmt rounds vars ending hend)

/-- A node that is no identifier. -/
theorem Carries.of_kind (hnames : node'.declared.map Prod.fst = node.declared.map Prod.fst)
    (hkind : node.kind ≠ .literal)
    (hexpr : ∀ vars w, evalExpr P vars node = some w → evalExpr P' vars node' = some w)
    (hstmt : ∀ rounds vars ending, evalStmt P rounds node vars = some ending →
      evalStmt P' rounds node' vars = some ending) : Carries P P' node node' :=
  ⟨hnames, fun _ hop => (hkind (hop ▸ rfl)).elim, hexpr, hstmt⟩

/-- A node that is no expression. -/
theorem Carries.of_stmt (hnames : node'.declared.map Prod.fst = node.declared.map Prod.fst)
    (hkind : node.kind ≠ .literal) (hexpr : ∀ vars, evalExpr P vars node = none)
    (hstmt : ∀ rounds vars ending, evalStmt P rounds node vars = some ending →
      evalStmt P' rounds node' vars = some ending) : Carries P P' node node' :=
  .of_kind hnames hkind (fun vars w h => by rw [hexpr] at h; cases h) hstmt

/-- A node without a meaning. -/
theorem Carries.none (hnames : node'.declared.map Prod.fst = node.declared.map Prod.fst)
    (hkind : node.kind ≠ .literal) (hexpr : ∀ vars, evalExpr P vars node = none)
    (hstmt : ∀ rounds vars, evalStmt P rounds node vars = none) : Carries P P' node node' :=
  .of_stmt hnames hkind hexpr fun rounds vars ending h => by rw [hstmt] at h; cases h

theorem evalArgs_carried {ws : List Number} (h : List.Forall₂ (Carries P P') nodes nodes')
    (heval : evalArgs P vars nodes = some ws) : evalArgs P' vars nodes' = some ws := by
  induction h generalizing ws with
  | nil => exact heval
  | cons hnode _ ih =>
    obtain ⟨w, hw, heval⟩ := Option.bind_eq_some_iff.mp heval
    obtain ⟨ws, hws, heq⟩ := Option.bind_eq_some_iff.mp heval
    rw [evalArgs, hnode.expr vars w hw, ih hws]
    exact heq

theorem undeclared_carried (h : List.Forall₂ (Carries P P') nodes nodes') :
    undeclared nodes' = undeclared nodes := by
  have hnames : (nodes'.flatMap AstNode.declared).map Prod.fst =
      (nodes.flatMap AstNode.declared).map Prod.fst := by
    induction h with
    | nil => rfl
    | cons hnode _ ih => simp only [List.flatMap_cons, List.map_append, hnode.names, ih]
  have hmap {decls : List (String × Symbol)} :
      decls.map (fun decl => (decl.1, (none : Option Number))) =
        (decls.map Prod.fst).map (·, none) := by
    rw [List.map_map]
    rfl
  rw [undeclared, undeclared, hmap, hmap, hnames]

theorem evalStmts_carried {ending : Ending} (h : List.Forall₂ (Carries P P') nodes nodes')
    (heval : evalStmts P rounds nodes vars = some ending) :
    evalStmts P' rounds nodes' vars = some ending := by
  induction h generalizing vars with
  | nil => exact heval
  | cons hnode _ ih =>
    obtain ⟨first, hfirst, heval⟩ := Option.bind_eq_some_iff.mp heval
    rw [evalStmts, hnode.stmt rounds vars first hfirst]
    cases first with
    | normal vars => exact ih heval
    | returned w => exact heval

theorem evalLoop_carried {condition condition' : Vars → Option Number}
    {body body' : Vars → Option Ending} {n : Nat} {ending : Ending}
    (hcond : ∀ vars w, condition vars = some w → condition' vars = some w)
    (hbody : ∀ vars ending, body vars = some ending → body' vars = some ending)
    (heval : evalLoop condition body n vars = some ending) :
    evalLoop condition' body' n vars = some ending := by
  induction n with
  | zero => cases heval
  | succ n ih =>
    obtain ⟨w, hw, heval⟩ := Option.bind_eq_some_iff.mp heval
    rw [evalLoop, hcond vars w hw]
    simp only [Option.bind_eq_bind, Option.bind_some]
    split at heval
    · rename_i htruth
      obtain ⟨round, hround, heval⟩ := Option.bind_eq_some_iff.mp heval
      rw [if_pos htruth, hbody vars round hround]
      cases round with
      | normal => exact ih heval
      | returned => exact heval
    · rename_i htruth
      rw [if_neg htruth]
      exact heval

theorem evalStmts_append :
    evalStmts P rounds (nodes ++ nodes') vars =
      (evalStmts P rounds nodes vars).bind fun
        | .normal vars => evalStmts P rounds nodes' vars
        | .returned w => some (.returned w) := by
  induction nodes generalizing vars with
  | nil => rfl
  | cons node nodes ih =>
    rw [List.cons_append, evalStmts, evalStmts]
    cases evalStmt P rounds node vars with
    | none => rfl
    | some ending =>
      cases ending with
      | normal => exact ih
      | returned => rfl

/-- An expression as a statement. -/
theorem Carries.of_expr (hnames : node'.declared.map Prod.fst = node.declared.map Prod.fst)
    (hkind : node.kind ≠ .literal)
    (hexpr : ∀ vars w, evalExpr P vars node = some w → evalExpr P' vars node' = some w)
    (heval : ∀ rounds vars,
      evalStmt P rounds node vars = (evalExpr P vars node).map fun _ => .normal vars)
    (heval' : ∀ rounds vars,
      evalStmt P' rounds node' vars = (evalExpr P' vars node').map fun _ => .normal vars) :
    Carries P P' node node' := by
  refine .of_kind hnames hkind hexpr fun rounds vars ending h => ?_
  rw [heval] at h
  obtain ⟨w, hw, rfl⟩ := Option.map_eq_some_iff.mp h
  rw [heval', hexpr vars w hw]
  rfl

theorem forall₂_one {α β : Type} {R : α → β → Prop} {a : α} {bs : List β}
    (h : List.Forall₂ R [a] bs) : ∃ b, R a b ∧ bs = [b] := by
  obtain ⟨b, bs, hb, hbs, rfl⟩ := List.forall₂_cons_left_iff.mp h
  cases hbs
  exact ⟨b, hb, rfl⟩

theorem forall₂_two {α β : Type} {R : α → β → Prop} {a a' : α} {bs : List β}
    (h : List.Forall₂ R [a, a'] bs) : ∃ b b', R a b ∧ R a' b' ∧ bs = [b, b'] := by
  obtain ⟨b, bs, hb, hbs, rfl⟩ := List.forall₂_cons_left_iff.mp h
  obtain ⟨b', hb', rfl⟩ := forall₂_one hbs
  exact ⟨b, b', hb, hb', rfl⟩

namespace Carries

theorem block {t : Option Nat} (h : List.Forall₂ (Carries P P') nodes nodes') :
    Carries P P' (.block nodes t) (.block nodes' t) := by
  refine .of_stmt rfl (by simp [AstNode.kind]) (fun _ => rfl) fun rounds vars ending heval => ?_
  rw [evalStmt] at heval
  obtain ⟨inner, hinner, rfl⟩ := Option.map_eq_some_iff.mp heval
  rw [evalStmt, undeclared_carried h, evalStmts_carried h hinner]
  rfl

theorem grouping (h : Carries P P' node node') : Carries P P' (.grouping node) (.grouping node') :=
  .of_expr rfl (by simp [AstNode.kind]) h.expr (fun _ _ => rfl) fun _ _ => rfl

theorem unaryop {op : Token} {kind : UnaryOpKind} (h : Carries P P' node node') :
    Carries P P' (.unaryop node op kind) (.unaryop node' op kind) := by
  refine .of_expr rfl (by simp [AstNode.kind]) (fun vars w heval => ?_) (fun _ _ => rfl) fun _ _ => rfl
  cases kind with
  | minus =>
    obtain ⟨v, hv, rfl⟩ := Option.map_eq_some_iff.mp heval
    rw [evalExpr, h.expr vars v hv]
    rfl
  | _ => cases heval

theorem binop {lhs lhs' rhs rhs' : AstNode} {op : Token} {kind : BinOpKind}
    (hl : Carries P P' lhs lhs') (hr : Carries P P' rhs rhs') :
    Carries P P' (.binop lhs rhs op kind) (.binop lhs' rhs' op kind) := by
  refine .of_expr rfl (by simp [AstNode.kind]) (fun vars w heval => ?_) (fun _ _ => rfl) fun _ _ => rfl
  obtain ⟨a, ha, heval⟩ := Option.bind_eq_some_iff.mp heval
  obtain ⟨b, hb, heval⟩ := Option.bind_eq_some_iff.mp heval
  rw [evalExpr, hl.expr vars a ha, hr.expr vars b hb]
  exact heval

theorem call {callee callee' : AstNode} {op : Token} (hP : P.Le P')
    (hcallee : Carries P P' callee callee') (hargs : List.Forall₂ (Carries P P') nodes nodes') :
    Carries P P' (.call op callee nodes) (.call op callee' nodes') := by
  refine .of_expr rfl (by simp [AstNode.kind]) (fun vars w heval => ?_) (fun _ _ => rfl) fun _ _ => rfl
  obtain ⟨name, ws, rfl, hws, hunknown, hname⟩ := evalExpr_call.mp heval
  obtain rfl := hcallee.ident name rfl
  exact evalExpr_call.mpr ⟨name, ws, rfl, evalArgs_carried hargs hws, hunknown, hP _ _ _ hname⟩

theorem vardecl {op ident : Token} {init : Option AstNode} {type : Ty} {offset : Int}
    (h : List.Forall₂ (Carries P P') init.toList nodes) :
    Carries P P' (.vardecl op ident init type offset) (.vardecl op ident nodes.head? type offset) := by
  refine .of_stmt rfl (by simp [AstNode.kind]) (fun _ => rfl) fun rounds vars ending heval => ?_
  cases init with
  | none =>
    cases h
    exact heval
  | some init =>
    obtain ⟨init', hinit, rfl⟩ := forall₂_one h
    obtain ⟨w, hw, rfl⟩ := Option.map_eq_some_iff.mp heval
    rw [List.head?_cons, evalStmt, hinit.expr vars w hw]
    rfl

theorem return_ {op : Token} {value : Option AstNode}
    (h : List.Forall₂ (Carries P P') value.toList nodes) :
    Carries P P' (.return_ op value) (.return_ op nodes.head?) := by
  refine .of_stmt rfl (by simp [AstNode.kind]) (fun _ => rfl) fun rounds vars ending heval => ?_
  cases value with
  | none => cases heval
  | some e =>
    obtain ⟨e', he, rfl⟩ := forall₂_one h
    obtain ⟨w, hw, rfl⟩ := Option.map_eq_some_iff.mp heval
    rw [List.head?_cons, evalStmt, he.expr vars w hw]
    rfl

theorem while_ {op : Token} {condition condition' body body' : AstNode}
    (hcond : Carries P P' condition condition') (hbody : Carries P P' body body') :
    Carries P P' (.while_ op condition body) (.while_ op condition' body') := by
  refine .of_stmt rfl (by simp [AstNode.kind]) (fun _ => rfl) fun rounds vars ending heval => ?_
  rw [evalStmt] at heval
  rw [evalStmt]
  exact evalLoop_carried hcond.expr (hbody.stmt rounds) heval

theorem if_ {op : Token} {condition condition' thenBody thenBody' : AstNode}
    {elseBody : Option AstNode} (hcond : Carries P P' condition condition')
    (hthen : Carries P P' thenBody thenBody')
    (helse : List.Forall₂ (Carries P P') elseBody.toList nodes) :
    Carries P P' (.if_ op condition thenBody elseBody)
      (.if_ op condition' thenBody' nodes.head?) := by
  refine .of_stmt rfl (by simp [AstNode.kind]) (fun _ => rfl) fun rounds vars ending heval => ?_
  have hbranch {c c' : AstNode} (hc : Carries P P' c c')
      (h : (evalStmt P rounds c vars).map (·.leave vars) = some ending) :
      (evalStmt P' rounds c' vars).map (·.leave vars) = some ending := by
    obtain ⟨inner, hinner, rfl⟩ := Option.map_eq_some_iff.mp h
    rw [hc.stmt rounds vars inner hinner]
    rfl
  obtain ⟨w, hw, heval⟩ := evalStmt_if.mp heval
  refine evalStmt_if.mpr ⟨w, hcond.expr vars w hw, ?_⟩
  split at heval
  · rename_i htruth
    rw [if_pos htruth]
    exact hbranch hthen heval
  · rename_i htruth
    rw [if_neg htruth]
    cases elseBody with
    | none =>
      cases helse
      exact heval
    | some elseBody =>
      obtain ⟨elseBody', helse', rfl⟩ := forall₂_one helse
      exact hbranch helse' heval

/-- A node whose children mean what they meant. -/
theorem withChildren (hP : P.Le P') (h : List.Forall₂ (Carries P P') node.children nodes)
    (hfor : node.kind ≠ .for_) : Carries P P' node (node.withChildren nodes) := by
  cases node
  case block stmts t => exact block h
  case literal op kind =>
    refine ⟨rfl, fun _ h => h, fun _ _ h => ?_, fun _ _ _ h => ?_⟩
    · cases kind <;> exact h
    · cases kind <;> exact h
  case table => exact .none rfl (by simp [AstNode.kind]) (fun _ => rfl) fun _ _ => rfl
  case for_ => exact (hfor rfl).elim
  case proc | array | index | assign =>
    refine .none ?_ (by simp [AstNode.kind]) (fun vars => rfl) fun rounds vars => rfl
    rw [AstNode.declared_withChildren]
  case grouping e =>
    obtain ⟨e', he, rfl⟩ := forall₂_one h
    exact grouping he
  case unaryop e op kind =>
    obtain ⟨e', he, rfl⟩ := forall₂_one h
    exact unaryop he
  case binop lhs rhs op kind =>
    obtain ⟨lhs', rhs', hl, hr, rfl⟩ := forall₂_two h
    exact binop hl hr
  case call op callee args =>
    obtain ⟨callee', args', hcallee, hargs, rfl⟩ := List.forall₂_cons_left_iff.mp h
    exact call hP hcallee hargs
  case vardecl op ident init type offset => exact vardecl h
  case return_ op value => exact return_ h
  case while_ op condition body =>
    obtain ⟨condition', body', hcond, hbody, rfl⟩ := forall₂_two h
    exact while_ hcond hbody
  case if_ op condition thenBody elseBody =>
    obtain ⟨condition', rest, hcond, hrest, rfl⟩ := List.forall₂_cons_left_iff.mp h
    obtain ⟨thenBody', nodes, hthen, helse, rfl⟩ := List.forall₂_cons_left_iff.mp hrest
    exact if_ hcond hthen helse

end Carries

/-! ## Names and values -/

/-- An expression depends on the values of the names in it. -/
theorem evalExpr_congr {vars' : Vars} {e : AstNode}
    (h : ∀ key ∈ e.idents, vars'.lookup key = vars.lookup key) :
    evalExpr P vars' e = evalExpr P vars e := by
  induction e using AstNode.parts_induct with
  | step e ih =>
    have hpart {c : AstNode} (hc : c ∈ e.parts) : evalExpr P vars' c = evalExpr P vars c :=
      ih c hc fun key hkey => h key (AstNode.mem_idents.mpr (.inr ⟨c, hc, hkey⟩))
    cases e
    case literal op kind =>
      cases kind
      case ident => rw [evalExpr, evalExpr, h op.value (AstNode.mem_idents.mpr (.inl rfl))]
      all_goals rfl
    case grouping e => rw [evalExpr, evalExpr, hpart (by simp [AstNode.parts, AstNode.children])]
    case unaryop e op kind =>
      cases kind
      case minus => rw [evalExpr, evalExpr, hpart (by simp [AstNode.parts, AstNode.children])]
      all_goals rfl
    case binop lhs rhs op kind =>
      rw [evalExpr, evalExpr, hpart (by simp [AstNode.parts, AstNode.children]),
        hpart (c := rhs) (by simp [AstNode.parts, AstNode.children])]
    case call op callee args =>
      have hargs : evalArgs P vars' args = evalArgs P vars args := by
        have hargs : ∀ arg ∈ args, evalExpr P vars' arg = evalExpr P vars arg := fun arg harg =>
          hpart (by simp [AstNode.parts, AstNode.children, harg])
        clear hpart ih h
        induction args with
        | nil => rfl
        | cons arg args ih =>
          obtain ⟨harg, hargs⟩ := List.forall_mem_cons.mp hargs
          rw [evalArgs, evalArgs, harg, ih hargs]
      cases callee
      case literal name kind =>
        cases kind
        case ident =>
          have hname : name.value ∈ (AstNode.call op (.literal name .ident) args).idents :=
            AstNode.mem_idents.mpr (.inr ⟨.literal name .ident,
              AstNode.mem_parts_of_children List.mem_cons_self, AstNode.mem_idents.mpr (.inl rfl)⟩)
          rw [evalExpr, evalExpr, hargs, h name.value hname]
        all_goals rfl
      all_goals rfl
    all_goals rfl

theorem evalLoop_normal {condition : Vars → Option Number} {body : Vars → Option Ending} {n : Nat}
    {vars' : Vars} (h : evalLoop condition body n vars = some (.normal vars')) : vars' = vars := by
  induction n with
  | zero => cases h
  | succ n ih =>
    obtain ⟨w, -, h⟩ := Option.bind_eq_some_iff.mp h
    split at h
    · obtain ⟨round, -, h⟩ := Option.bind_eq_some_iff.mp h
      cases round with
      | normal => exact ih h
      | returned => cases h
    · cases h
      rfl

theorem leave_normal {x : Option Ending} {vars' : Vars}
    (h : x.map (·.leave vars) = some (.normal vars')) : vars' = vars := by
  obtain ⟨ending, -, h⟩ := Option.map_eq_some_iff.mp h
  cases ending <;> cases h
  rfl

/-- A statement changes no variable but the one that it declares. -/
theorem evalStmt_lookup {vars' : Vars} {key : String}
    (h : evalStmt P rounds node vars = some (.normal vars'))
    (hkey : key ∉ node.declared.map Prod.fst) : vars'.lookup key = vars.lookup key := by
  have hexpr {e : AstNode} (h : (evalExpr P vars e).map (fun _ => Ending.normal vars) =
      some (.normal vars')) : vars' = vars := by
    obtain ⟨w, -, heq⟩ := Option.map_eq_some_iff.mp h
    cases heq
    rfl
  cases node
  case vardecl op ident init type offset =>
    cases init with
    | none =>
      cases h
      rfl
    | some init =>
      rw [evalStmt] at h
      obtain ⟨w, -, heq⟩ := Option.map_eq_some_iff.mp h
      cases heq
      have hne : key ≠ ident.value := fun heq => hkey (List.mem_singleton.mpr heq)
      rw [List.lookup_cons, beq_eq_false_iff_ne.mpr hne]
  case block => rw [leave_normal h]
  case if_ op condition thenBody elseBody =>
    cases elseBody with
    | none =>
      rw [evalStmt] at h
      obtain ⟨w, -, h⟩ := Option.bind_eq_some_iff.mp h
      split at h
      · rw [leave_normal h]
      · cases h
        rfl
    | some elseBody =>
      rw [evalStmt] at h
      obtain ⟨w, -, h⟩ := Option.bind_eq_some_iff.mp h
      split at h
      · rw [leave_normal h]
      · rw [leave_normal h]
  case while_ => rw [evalLoop_normal h]
  case for_ op decl condition step body type ident init =>
    rw [evalStmt] at h
    obtain ⟨w, -, h⟩ := Option.bind_eq_some_iff.mp h
    rw [leave_normal h]
  case return_ op value =>
    cases value with
    | none => cases h
    | some e =>
      rw [evalStmt] at h
      obtain ⟨w, -, heq⟩ := Option.map_eq_some_iff.mp h
      cases heq
  all_goals rw [hexpr h]

theorem evalStmts_lookup {vars' : Vars} {key : String}
    (h : evalStmts P rounds nodes vars = some (.normal vars'))
    (hkey : key ∉ (nodes.flatMap AstNode.declared).map Prod.fst) :
    vars'.lookup key = vars.lookup key := by
  induction nodes generalizing vars with
  | nil =>
    cases h
    rfl
  | cons node nodes ih =>
    rw [List.flatMap_cons, List.map_append, List.mem_append, not_or] at hkey
    obtain ⟨first, hfirst, h⟩ := Option.bind_eq_some_iff.mp h
    cases first with
    | normal vars₁ => rw [ih h hkey.2, evalStmt_lookup hfirst hkey.1]
    | returned => cases h

/-! ## The passes -/

theorem AstNode.declared_expanded (node : AstNode) :
    node.expanded.declared.map Prod.fst = node.declared.map Prod.fst := by
  cases node
  case for_ _ _ _ _ body _ _ _ => cases body <;> rfl
  all_goals rfl

theorem declared_map_expanded (nodes : List AstNode) :
    ((nodes.map AstNode.expanded).flatMap AstNode.declared).map Prod.fst =
      (nodes.flatMap AstNode.declared).map Prod.fst := by
  induction nodes with
  | nil => rfl
  | cons node nodes ih =>
    simp only [List.map_cons, List.flatMap_cons, List.map_append, node.declared_expanded, ih]

theorem evalRound_carried {body body' : Vars → Option Ending} {step : Vars → Option Number}
    {ending : Ending} (hbody : ∀ vars ending, body vars = some ending → body' vars = some ending)
    (h : evalRound body step vars = some ending) : evalRound body' step vars = some ending := by
  obtain ⟨round, hround, h⟩ := Option.bind_eq_some_iff.mp h
  rw [evalRound, hbody vars round hround]
  exact h

/-- The step behind the body, in the block of the body. -/
theorem evalStmt_snoc {stmts : List AstNode} {t : Option Nat} {step step' : AstNode}
    {ending : Ending} (hstep : Carries P P step step') (hshape : Shape .expr step')
    (hnames : ∀ key ∈ step.idents, key ∉ (stmts.flatMap AstNode.declared).map Prod.fst)
    (h : evalRound (evalStmt P rounds (.block stmts t)) (fun vars => evalExpr P vars step) vars =
      some ending) : evalStmt P rounds (.block (stmts ++ [step']) t) vars = some ending := by
  have hdecl : step'.declared = [] := by cases hshape <;> rfl
  have hundeclared : undeclared (stmts ++ [step']) = undeclared stmts := by simp [undeclared, hdecl]
  obtain ⟨round, hround, h⟩ := Option.bind_eq_some_iff.mp h
  rw [evalStmt] at hround
  obtain ⟨inner, hinner, rfl⟩ := Option.map_eq_some_iff.mp hround
  rw [evalStmt, hundeclared, evalStmts_append, hinner]
  cases inner with
  | returned w => exact h
  | normal vars' =>
    obtain ⟨v, hv, rfl⟩ := Option.map_eq_some_iff.mp h
    have hsame : evalExpr P vars' step = some v := by
      rw [← hv]
      refine evalExpr_congr fun key hkey => ?_
      have hfresh : (stmts.flatMap AstNode.declared).lookup key = none :=
        Shadowing.lookup_eq_none.mpr (hnames key hkey)
      rw [evalStmts_lookup hinner (hnames key hkey), List.lookup_append, lookup_undeclared, hfresh]
      rfl
    simp only [Option.bind_some, evalStmts, evalStmt_expr hshape, hstep.expr vars' v hsame]
    rfl

/-- The step of a `for` loop names nothing that its body declares. -/
def AstNode.stepApart : AstNode → Bool
  | .for_ _ _ _ step body _ _ _ => step.idents.all fun key =>
    key ∉ (body.children.flatMap declared).map Prod.fst
  | _ => true

def AstNode.StepsApart (node : AstNode) : Prop := ∀ x ∈ node.subtrees, x.stepApart = true

instance (node : AstNode) : Decidable node.StepsApart :=
  inferInstanceAs (Decidable (∀ x ∈ node.subtrees, x.stepApart = true))

theorem AstNode.StepsApart.part {c : AstNode} (h : node.StepsApart) (hc : c ∈ node.parts) :
    c.StepsApart :=
  fun x hx => h x (mem_subtrees.mpr (.inr ⟨c, hc, hx⟩))

theorem AstNode.StepsApart.for_ {op ident : Token} {decl : Option AstNode}
    {condition step body init : AstNode} {type : Ty}
    (h : (AstNode.for_ op decl condition step body type ident init).StepsApart) :
    ∀ key ∈ step.idents, key ∉ (body.children.flatMap declared).map Prod.fst := by
  have hstep := h _ mem_subtrees_self
  rw [stepApart, List.all_eq_true] at hstep
  exact fun key hkey => of_decide_eq_true (hstep key hkey)

theorem carries_expanded {k : NodeClass} (hshape : Shape k node) (hsteps : node.StepsApart) :
    Carries P P node node.expanded := by
  induction node using AstNode.parts_induct generalizing k with
  | step node ih =>
    have hchild {c : AstNode} (hc : c ∈ node.children) : Carries P P c c.expanded := by
      obtain ⟨k', hc'⟩ := hshape.child hc
      exact ih c (AstNode.mem_parts_of_children hc) hc'
        (hsteps.part (AstNode.mem_parts_of_children hc))
    have hchildren : List.Forall₂ (Carries P P) node.children (node.children.map AstNode.expanded) :=
      List.forall₂_map_right_iff.mpr (List.forall₂_same.mpr fun c hc => hchild hc)
    have hrest (hfor : node.kind ≠ .for_)
        (h : node.expanded = node.withChildren (node.children.map AstNode.expanded)) :
        Carries P P node node.expanded := h ▸ .withChildren .refl hchildren hfor
    cases node
    case for_ op decl condition step body type ident init =>
      have hmem : init ∈ (AstNode.for_ op decl condition step body type ident init).unvisited :=
        List.mem_singleton_self _
      have hpart : init ∈ (AstNode.for_ op decl condition step body type ident init).parts := by
        simp [AstNode.parts]
      have hinit := ih init hpart (hshape.unvisited hmem) (hsteps.part hpart)
      cases hshape with
      | exprstmt h => cases h
      | blockstmt h => cases h
      | for_ _ hstep hbody =>
        cases hbody with
        | @block stmts t _ =>
          have hcond := hchild (c := condition) (by simp [AstNode.children])
          have hstep' := hchild (c := step) (by simp [AstNode.children])
          have hbody := hchild (c := .block stmts t) (by simp [AstNode.children])
          simp only [AstNode.expanded, AstNode.expanded_list] at hbody ⊢
          refine .of_stmt rfl (by simp [AstNode.kind]) (fun _ => rfl)
            fun rounds vars ending heval => ?_
          rw [evalStmt] at heval
          obtain ⟨w, hw, heval⟩ := Option.bind_eq_some_iff.mp heval
          obtain ⟨inner, hinner, rfl⟩ := Option.map_eq_some_iff.mp heval
          have hnames : ∀ key ∈ step.idents,
              key ∉ ((stmts.map AstNode.expanded).flatMap AstNode.declared).map Prod.fst := by
            rw [declared_map_expanded]
            exact hsteps.for_
          have hloop := evalLoop_carried hcond.expr (fun vars ending hround =>
            evalStmt_snoc (t := t) hstep' hstep.expanded hnames
              (evalRound_carried (hbody.stmt rounds) hround)) hinner
          have hinit' : evalStmt P rounds (.vardecl op ident (some init.expanded) type 0)
              ((ident.value, none) :: vars) =
                some (.normal ((ident.value, some w) :: (ident.value, none) :: vars)) := by
            rw [evalStmt, hinit.expr _ w hw]
            rfl
          have hwhile : evalStmt P rounds (.while_ op condition.expanded
              (.block (stmts.map AstNode.expanded ++ [step.expanded]) t))
                ((ident.value, some w) :: (ident.value, none) :: vars) = some inner := hloop
          rw [evalStmt, show undeclared _ = [(ident.value, none)] from rfl]
          simp only [evalStmts, List.cons_append, List.nil_append, hinit', hwhile,
            Option.bind_eq_bind, Option.bind_some]
          cases inner <;> rfl
    case index => exact .none rfl (by simp [AstNode.kind]) (fun _ => rfl) fun _ _ => rfl
    all_goals
      refine hrest (by simp [AstNode.kind]) ?_
      simp [AstNode.expanded, AstNode.withChildren, AstNode.children, AstNode.expanded_list,
        AstNode.expanded_opt]

variable {st st' : Symboltable}

theorem PreStep.carries (h : PreStep node st node' st') : Carries P P node node' := by
  cases h with
  | block => exact .of_stmt rfl (by simp [AstNode.kind]) (fun _ => rfl) fun _ _ _ h => h
  | @vardecl _ _ _ _ init =>
    refine .of_stmt rfl (by simp [AstNode.kind]) (fun _ => rfl) fun rounds vars ending h => ?_
    cases init <;> exact h
  | array => exact .none rfl (by simp [AstNode.kind]) (fun _ => rfl) fun _ _ => rfl
  | proc | table | other => exact .refl _

theorem PostStep.carries (h : PostStep node st node' st') : Carries P P node node' := by
  cases h with
  | proc => exact .none rfl (by simp [AstNode.kind]) (fun _ => rfl) fun _ _ => rfl
  | block | noBody | other => exact .refl _

/-- The annotations have no meaning. -/
theorem buildTo_carries {depth : Nat} (hP : P.Le P') (h : buildTo depth node st = .ok (node', st'))
    (hfor : node.AllKinds (· ≠ .for_)) : Carries P P' node node' := by
  induction depth generalizing node node' st st' with
  | zero => cases h
  | succ depth ih =>
    obtain ⟨d, node₁, st₁, nodes, st₂, hd, hpre, hlist, -, hpost⟩ := buildTo_ok h
    cases hd
    obtain ⟨hkind, hparts⟩ := hpre.kind_parts
    obtain ⟨hnode, hfree⟩ := AstNode.allKinds_iff.mp hfor
    have hvisits : List.Forall₂ (fun c c' => c.AllKinds (· ≠ .for_) → Carries P P' c c')
        node₁.children nodes :=
      forall₂_of_traverseList (fun c c' _ _ hc hfor => ih hc hfor) hlist
    have hchildren : List.Forall₂ (Carries P P') node₁.children nodes := by
      refine ((List.forall₂_and_left _ _).mpr ⟨fun c hc => ?_, hvisits⟩).imp fun c c' h => h.2 h.1
      exact hfree c (hparts ▸ AstNode.mem_parts_of_children hc)
    exact (hpre.carries.trans (.withChildren hP hchildren (hkind ▸ hnode))).trans hpost.carries

/-! ## Procedures -/

variable {depth : Nat} {st₁ st₂ : Symboltable}

/-- The parameters keep their names and types. -/
theorem procPostParams_keeps {table : Option Nat} {params params' : List Param}
    (h : procPostParams table params st = .ok (params', st')) :
    params'.map (·.type) = params.map (·.type) ∧
      ∀ ws, bindParams params' ws = bindParams params ws := by
  induction params generalizing params' st with
  | nil =>
    cases h
    exact ⟨rfl, fun _ => rfl⟩
  | cons param params ih =>
    obtain ⟨offset, st₁, -, h₁⟩ := StateT.bind_ok.mp h
    obtain ⟨u, st₂, -, h₂⟩ := StateT.bind_ok.mp h₁
    obtain ⟨rest, st₃, hrest, h₃⟩ := StateT.bind_ok.mp h₂
    cases h₃
    obtain ⟨htypes, hbind⟩ := ih hrest
    refine ⟨by rw [List.map_cons, List.map_cons, htypes], fun ws => ?_⟩
    cases ws with
    | nil => rfl
    | cons w ws => rw [bindParams, bindParams, hbind]

/-- The annotation of a procedure with a body. -/
theorem buildTo_procedure {op ident : Token} {body₀ : AstNode} {sig₀ : ProcSignature}
    {table₀ : Option Nat} {size₀ : Int}
    (h : buildTo depth (.proc op ident (some body₀) (.procedure sig₀) table₀ size₀) st =
      .ok (node', st')) :
    ∃ body params table size,
      node' = .proc op ident (some body) (.procedure { sig₀ with params }) table size := by
  obtain ⟨d, node₁, st₁, nodes, st₂, -, hpre, hlist, -, hpost⟩ := buildTo_ok h
  cases hpre with
  | other _ _ hproc => exact (hproc rfl).elim
  | proc hins =>
    obtain ⟨body', st₃, rest, hbuild, hrest, rfl⟩ := traverseList_cons_ok hlist
    cases hrest
    generalize hnode : AstNode.withChildren _ [body'] = node' at hpost
    cases hpost with
    | other _ hproc => exact (hproc (by rw [← hnode]; rfl)).elim
    | noBody => cases hnode
    | block => cases hnode
    | proc =>
      cases hnode
      exact ⟨_, _, _, _, rfl⟩

/-- What the passes make of a signature and a body. -/
structure Annotates (sig₀ : ProcSignature) (body₀ : AstNode) (sig : ProcSignature) (body : AstNode) :
    Prop where
  returntype : sig.returntype = sig₀.returntype
  params : ∀ ws, bindParams sig.params ws = bindParams sig₀.params ws
  body : ∀ {P P' : Meaning}, P.Le P' → Carries P P' body₀ body

theorem buildTo_annotates {op ident : Token} {body₀ : AstNode} {sig₀ : ProcSignature}
    {table₀ : Option Nat} {size₀ : Int}
    (hshape : Shape .decl (.proc op ident (some body₀) (.procedure sig₀) table₀ size₀))
    (hsteps : body₀.StepsApart)
    (h : buildTo depth (AstNode.expanded (.proc op ident (some body₀) (.procedure sig₀) table₀ size₀))
      st = .ok (node', st')) :
    ∃ stmts t params size,
      node' = .proc op ident (some (.block stmts t)) (.procedure { sig₀ with params }) t size ∧
      Annotates sig₀ body₀ { sig₀ with params } (.block stmts t) := by
  obtain ⟨params₀, returntype⟩ := sig₀
  have hexpanded := hshape.expanded
  rw [AstNode.expanded, AstNode.expanded_opt, Option.map_some] at h hexpanded
  obtain ⟨body, params, table, size, rfl⟩ := buildTo_procedure h
  obtain ⟨d, body₁, params₁, _, _, st₂, st₃, stmts, heq, -, -, hbody, rfl, hparams, -⟩ :=
    buildTo_proc hexpanded h
  cases heq
  cases hshape with
  | proc hblock =>
    have hblock := hblock body₀ rfl
    exact ⟨stmts, table, params, size, rfl, rfl, (procPostParams_keeps hparams).2, fun hP =>
      (carries_expanded hblock hsteps).trans (buildTo_carries hP hbody (forFree_expanded hblock))⟩

/-- The visits of the declarations of a program. -/
theorem symboltableBuild_visits {decls : List AstNode} {t : Option Nat} {root' : AstNode}
    (hshape : Shape .program (.block decls t))
    (hbuild : symboltableBuild (AstNode.block decls t).expanded = .ok (root', st)) :
    ∃ nodes, root' = .block nodes (some 0) ∧ List.Forall₂ (fun d d' =>
      ∃ depth st st', buildTo depth d.expanded st = .ok (d', st')) decls nodes := by
  obtain ⟨decls', t', nodes, st₁, ht, heq, -, hlist, -, rfl, -⟩ :=
    symboltableBuild_block hshape.expanded hbuild
  rw [AstNode.expanded, AstNode.expanded_list] at heq
  cases heq
  refine ⟨nodes, rfl, ?_⟩
  rw [← List.forall₂_map_left_iff (f := AstNode.expanded)
    (R := fun d d' => ∃ depth st st', buildTo depth d st = .ok (d', st'))]
  exact forall₂_of_traverseList (fun _ _ _ _ h => ⟨_, _, _, h⟩) hlist

theorem AstNode.global_expanded (decl : AstNode) : decl.expanded.global = decl.global := by
  cases decl
  case for_ op _ _ _ body _ _ _ =>
    cases body <;> rfl
  all_goals simp [expanded, global]

theorem AstNode.globals_expanded (decls : List AstNode) (t : Option Nat) :
    (AstNode.block decls t).expanded.globals = (AstNode.block decls t).globals := by
  rw [expanded, expanded_list, globals, globals, children, children, List.flatMap_map]
  exact List.flatMap_congr fun decl _ => decl.global_expanded

/-- The passes keep the names of what is declared. -/
theorem buildTo_global_names (h : buildTo depth node st = .ok (node', st')) :
    node'.global.map Prod.fst = node.global.map Prod.fst := by
  obtain ⟨d, node₁, st₁, nodes, st₂, -, hpre, -, -, hpost⟩ := buildTo_ok h
  have hchildren : (node₁.withChildren nodes).global = node₁.global := by
    unfold AstNode.withChildren
    split <;> rfl
  have hpre' : node₁.global.map Prod.fst = node.global.map Prod.fst := by cases hpre <;> rfl
  have hpost' : node'.global.map Prod.fst = (node₁.withChildren nodes).global.map Prod.fst := by
    generalize node₁.withChildren nodes = node₂ at hpost
    cases hpost <;> rfl
  rw [hpost', hchildren, hpre']

theorem lookup_isSome_congr {ds ds' : List (String × Symbol)} (name : String)
    (h : ds'.map Prod.fst = ds.map Prod.fst) : (ds'.lookup name).isSome = (ds.lookup name).isSome := by
  have hnone : ds'.lookup name = none ↔ ds.lookup name = none := by
    rw [Shadowing.lookup_eq_none, Shadowing.lookup_eq_none, h]
  rw [Bool.eq_iff_iff, Option.isSome_iff_ne_none, Option.isSome_iff_ne_none, ne_eq, hnone]

theorem find?_of_forall₂ {α β : Type} {R : α → β → Prop} {p : α → Bool} {q : β → Bool} {as : List α}
    {bs : List β} {a : α} (h : List.Forall₂ R as bs) (hpq : ∀ a b, R a b → q b = p a)
    (ha : as.find? p = some a) : ∃ b, bs.find? q = some b ∧ R a b := by
  induction h with
  | nil => cases ha
  | @cons a' b' as bs hab _ ih =>
    rw [List.find?_cons] at ha ⊢
    rw [hpq a' b' hab]
    cases hp : p a' with
    | true =>
      rw [hp] at ha
      cases ha
      exact ⟨b', rfl, hab⟩
    | false =>
      rw [hp] at ha
      exact ih ha

theorem AstNode.procNamed?_annotated {decls nodes : List AstNode} {t t' : Option Nat} {name : String}
    {sig₀ : ProcSignature} {body₀ : AstNode} (hdecls : ∀ d ∈ decls, Shape .decl d)
    (hsteps : (AstNode.block decls t).StepsApart)
    (hvisits : List.Forall₂ (fun d d' => ∃ depth st st', buildTo depth d.expanded st = .ok (d', st'))
      decls nodes) (h : (AstNode.block decls t).procNamed? name = some (sig₀, body₀)) :
    ∃ sig body, (AstNode.block nodes t').procNamed? name = some (sig, body) ∧
      Annotates sig₀ body₀ sig body := by
  unfold procNamed? at h
  split at h
  · rename_i op ident body' sig' table size hfind
    cases h
    obtain ⟨d', hfind', depth, st, st', hvisit⟩ := find?_of_forall₂
      (q := fun decl => (decl.global.lookup name).isSome) hvisits
      (fun d d' ⟨depth, st, st', hvisit⟩ => lookup_isSome_congr name
        (by rw [buildTo_global_names hvisit, d.global_expanded])) hfind
    have hmem := List.mem_of_find?_eq_some hfind
    have hbody : body₀ ∈ (AstNode.proc op ident (some body₀) (.procedure sig₀) table size).parts := by
      simp [parts, children]
    obtain ⟨stmts, t'', params, size', rfl, hannotates⟩ :=
      buildTo_annotates (hdecls _ hmem) ((hsteps.part (mem_parts_of_children hmem)).part hbody) hvisit
    refine ⟨_, _, ?_, hannotates⟩
    rw [procNamed?, children, hfind']
  · cases h

/-- The passes between the parser and the code generator leave a program its meaning. -/
theorem meaning_le_annotated {root root' : AstNode} (hshape : Shape .program root)
    (hsteps : root.StepsApart) (hbuild : symboltableBuild root.expanded = .ok (root', st))
    (depth : Nat) : (meaning root depth).Le (meaning root' depth) := by
  cases hshape with
  | @program decls t hdecls =>
    obtain ⟨nodes, rfl, hvisits⟩ := symboltableBuild_visits (.program hdecls) hbuild
    induction depth with
    | zero =>
      intro name args w h
      cases h
    | succ depth ih =>
      intro name args w h
      rw [meaning] at h
      obtain ⟨⟨sig₀, body₀⟩, hproc, h⟩ := Option.bind_eq_some_iff.mp h
      obtain ⟨vars, hbind, h⟩ := Option.bind_eq_some_iff.mp h
      obtain ⟨ending, heval, h⟩ := Option.bind_eq_some_iff.mp h
      obtain ⟨sig, body, hproc', hannotates⟩ := AstNode.procNamed?_annotated hdecls hsteps
        hvisits hproc
      have hbind' := (hannotates.params args).trans hbind
      have heval' := (hannotates.body ih).stmt _ _ _ heval
      rw [meaning]
      refine Option.bind_eq_some_iff.mpr ⟨(sig, body), hproc', Option.bind_eq_some_iff.mpr
        ⟨vars, hbind', Option.bind_eq_some_iff.mpr ⟨ending, heval', ?_⟩⟩⟩
      cases ending with
      | normal => cases h
      | returned v => rwa [hannotates.returntype]

/-- What a procedure means in the program that was parsed, it means in the annotated program, unless
the step of a `for` loop names what the body declares. -/
theorem passes_keep_meaning {fuel : Nat} {garbage : List Nat} {toks : List Token}
    {root root' root'' : AstNode} {p : Parser} {depth : Nat} {name : String} {args : List Number}
    {w : Number} (hparse : parse fuel garbage toks = .ok root p) (hexpand : expandAst root = .ok root')
    (hbuild : symboltableBuild root' = .ok (root'', st)) (hsteps : root.StepsApart)
    (hmeaning : meaning root depth name args = some w) :
    meaning root'' depth name args = some w := by
  have hshape := parse_shape hparse
  cases (expandAst_eq hshape).symm.trans hexpand
  exact meaning_le_annotated hshape hsteps hbuild depth name args w hmeaning

/-- `proc f(n: int) int { for i: int = n, i, f(0) { let n: int = i; return n + i; } return 1; }` -/
def forReturning : List Token :=
  [{ kind := .kwProc }, .ident "f", { kind := .lparen }, .ident "n", { kind := .colon },
    { kind := .kwTypeInt }, { kind := .rparen }, { kind := .kwTypeInt }, { kind := .lbrace },
    { kind := .kwFor }, .ident "i", { kind := .colon }, { kind := .kwTypeInt }, { kind := .assign },
    .ident "n", { kind := .comma }, .ident "i", { kind := .comma }, .ident "f", { kind := .lparen },
    .num 0, { kind := .rparen }, { kind := .lbrace }, { kind := .kwVardecl }, .ident "n",
    { kind := .colon }, { kind := .kwTypeInt }, { kind := .assign }, .ident "i",
    { kind := .semicolon }, { kind := .kwReturn }, .ident "n", { kind := .plus }, .ident "i",
    { kind := .semicolon }, { kind := .rbrace }, { kind := .kwReturn }, .num 1,
    { kind := .semicolon }, { kind := .rbrace }, .eof]

theorem passes_keep_meaning_forReturning :
    ∃ root p root' root'' st, parse 100 [] forReturning = .ok root p ∧
      expandAst root = .ok root' ∧ symboltableBuild root' = .ok (root'', st) ∧
      meaning root'' 2 "f" [⟨.int, 3⟩] = some ⟨.int, 6⟩ := by
  obtain ⟨root₀, p₀, hparse₀, hmeaning⟩ :=
    @of_parsesTo (fun root => root.StepsApart ∧ meaning root 2 "f" [⟨.int, 3⟩] = some ⟨.int, 6⟩) 100
      forReturning (by decide +kernel)
  obtain ⟨root, p, root', root'', st, hparse, hexpand, hbuild, -⟩ :=
    @of_annotatesTo (fun _ _ _ => true) 100 forReturning (by decide +kernel)
  cases hparse.symm.trans hparse₀
  obtain ⟨hsteps, hmeaning⟩ := of_decide_eq_true hmeaning
  exact ⟨_, _, root', root'', st, hparse, hexpand, hbuild,
    passes_keep_meaning hparse hexpand hbuild hsteps hmeaning⟩

end Seron
