import Seron.Verify.Lowering
import Seron.Verify.Parallel

/-! # The names in the expansion of `for`

The step of a `for` is moved into the block of the body. It means there what it means in the header
iff the body declares none of its identifiers, and then the machine runs the loop of the source. -/

namespace Seron

open ControlFlow
open Shadowing (exists_lookup lookup_eq_none mem_of_lookup)

/-! ## Expressions and statements -/

variable {node node' : AstNode} {k : NodeClass}

theorem Shape.straight (h : Shape .expr node) : node.Straight := by
  induction node using AstNode.parts_induct with
  | step node ih =>
    refine AstNode.allKinds_iff.mpr ⟨?_, fun c hc => ih c hc (h.expr_part hc)⟩
    cases h <;> rfl

theorem Shape.declared_eq_nil (h : Shape .expr node) : node.declared = [] := by
  cases h <;> rfl

/-- There is no `for` inside an expression. -/
theorem Shape.expr_kind {x : AstNode} (h : Shape .expr node) (hx : x ∈ node.subtrees) :
    x.kind ≠ .for_ ∧ x.kind ≠ .block := by
  have hcontrol := h.straight x hx
  constructor <;> intro hkind <;> rw [hkind] at hcontrol <;> cases hcontrol

theorem AstNode.mem_subtrees_self : node ∈ node.subtrees := mem_subtrees.mpr (.inl rfl)

theorem AstNode.mem_visited {x : AstNode} :
    x ∈ node.visited ↔ x = node ∨ ∃ c ∈ node.children, x ∈ c.visited := by
  rw [visited_eq, List.mem_cons, List.mem_flatMap]

theorem AstNode.subtrees_of_visited {x : AstNode} (h : x ∈ node.visited) : x ∈ node.subtrees := by
  induction node using AstNode.parts_induct with
  | step node ih =>
    rcases mem_visited.mp h with rfl | ⟨c, hc, hx⟩
    · exact mem_subtrees_self
    · exact mem_subtrees.mpr (.inr ⟨c, mem_parts_of_children hc, ih c (mem_parts_of_children hc) hx⟩)

/-- Everything that is emitted inside an expression is an expression. -/
theorem Shape.operand {c : AstNode} (h : Shape .expr node) (hc : c ∈ node.operands) :
    Shape .expr c := by
  have addr {e : AstNode} (he : Shape .expr e) (hc : c ∈ e.addrOperands) : Shape .expr c := by
    unfold AstNode.addrOperands at hc
    split at hc
    · exact he.expr_part (by simpa [AstNode.parts, AstNode.children] using hc)
    · cases hc
  unfold AstNode.operands at hc
  split at hc
  · rcases List.mem_append.mp hc with hc | hc
    · exact addr (h.expr_part (by simp [AstNode.parts])) hc
    · exact h.expr_part (by simp_all [AstNode.parts])
  · exact addr (h.expr_part (by simp [AstNode.parts, AstNode.children])) hc
  · exact h.expr_part (AstNode.mem_parts_of_children hc)

theorem Visits.expr {scope scope' : Option Nat} (h : Visits scope node scope' node')
    (hshape : Shape .expr node) : Shape .expr node' := by
  induction h with
  | self => exact hshape
  | inside hc _ ih => exact ih (hshape.operand hc)

/-- Apart from the operators that take an address, all children are emitted. -/
theorem AstNode.operands_eq (hassign : node.kind ≠ .assign) (hunary : node.kind ≠ .unaryop) :
    node.operands = node.children := by
  cases node
  case assign => exact (hassign rfl).elim
  case unaryop => exact (hunary rfl).elim
  all_goals rfl

theorem Shape.not_operator (h : Shape k node) (hexpr : ¬ Shape .expr node) :
    node.kind ≠ .assign ∧ node.kind ≠ .unaryop := by
  constructor <;> intro hkind <;> cases h with
  | exprstmt h => exact hexpr h
  | blockstmt h => cases h; cases hkind
  | assign h h' => exact hexpr (.assign h h')
  | unaryop h => exact hexpr (.unaryop h)
  | _ => cases hkind

/-! ## What the passes make of a tree -/

/-- A visit of the symbol table pass makes the second tree of the first one. -/
def Built (node node' : AstNode) : Prop :=
  ∃ depth st st', buildTo depth node st = .ok (node', st')

namespace Built

theorem shape (h : Built node node') (hshape : Shape k node) : Shape k node' := by
  obtain ⟨depth, st, st', h⟩ := h
  exact hshape.annotated h

theorem kind (h : Built node node') : node'.kind = node.kind := by
  obtain ⟨depth, st, st', h⟩ := h
  exact buildTo_kind h

theorem children (h : Built node node') : List.Forall₂ Built node.children node'.children := by
  obtain ⟨depth, st, st', h⟩ := h
  obtain ⟨d, node₁, st₁, nodes, st₂, rfl, hpre, hlist, hnodes, hpost⟩ := buildTo_ok h
  have hchildren : node'.children = nodes := by
    rw [← hnodes]
    generalize node₁.withChildren nodes = node₂ at hpost
    cases hpost <;> rfl
  rw [hchildren, ← hpre.children_unvisited.1]
  exact forall₂_of_traverseList (fun c c' st st' hc => ⟨d, st, st', hc⟩) hlist

variable {op ident : Token} {type : Ty} {offset : Int} {cond body init : AstNode}
  {stmts : List AstNode} {t : Option Nat}

theorem vardecl (h : Built (.vardecl op ident (some init) type offset) node') :
    ∃ init' offset', node' = .vardecl op ident (some init') type offset' ∧ Built init init' := by
  obtain ⟨depth, st, st', h⟩ := h
  obtain ⟨d, node₁, st₁, nodes, st₂, rfl, hpre, hlist, hnodes, hpost⟩ := buildTo_ok h
  cases hpre with
  | other _ hkind => exact (hkind rfl).elim
  | vardecl =>
    obtain ⟨init', st₃, rest, hinit, hrest, rfl⟩ := traverseList_cons_ok hlist
    cases hrest
    cases hpost
    exact ⟨init', _, rfl, d, _, _, hinit⟩

theorem while_ (h : Built (.while_ op cond body) node') :
    ∃ cond' body', node' = .while_ op cond' body' ∧ Built cond cond' ∧ Built body body' := by
  obtain ⟨depth, st, st', h⟩ := h
  obtain ⟨d, node₁, st₁, nodes, st₂, rfl, hpre, hlist, hnodes, hpost⟩ := buildTo_ok h
  cases hpre
  obtain ⟨cond', st₃, rest, hcond, hrest, rfl⟩ := traverseList_cons_ok hlist
  obtain ⟨body', st₄, rest', hbody, hrest', rfl⟩ := traverseList_cons_ok hrest
  cases hrest'
  cases hpost
  exact ⟨cond', body', rfl, ⟨d, _, _, hcond⟩, ⟨d, _, _, hbody⟩⟩

theorem assign {value target : AstNode} (h : Built (.assign op value target) node') :
    ∃ value', node' = .assign op value' target := by
  obtain ⟨depth, st, st', h⟩ := h
  obtain ⟨d, node₁, st₁, nodes, st₂, rfl, hpre, hlist, hnodes, hpost⟩ := buildTo_ok h
  cases hpre
  obtain ⟨value', st₃, rest, hvalue, hrest, rfl⟩ := traverseList_cons_ok hlist
  cases hrest
  cases hpost
  exact ⟨value', rfl⟩

theorem block (h : Built (.block stmts t) node') :
    ∃ stmts' t', node' = .block stmts' t' ∧ List.Forall₂ Built stmts stmts' := by
  have hkind := h.kind
  have hchildren := h.children
  cases node'
  case block stmts' t' => exact ⟨stmts', t', rfl, hchildren⟩
  all_goals cases hkind

end Built

/-- A `for` after both passes: the block with the loop variable, in it a `while`, in whose block the
step is the last statement. -/
structure ForLoop where
  op : Token
  ident : Token
  init : AstNode
  type : Ty
  offset : Int
  cond : AstNode
  step : AstNode
  stmts : List AstNode
  own : Option Nat
  inner : Option Nat

namespace ForLoop

/-- The declaration of the loop variable. -/
def vardecl (l : ForLoop) : AstNode := .vardecl l.op l.ident (some l.init) l.type l.offset

def block (l : ForLoop) : AstNode :=
  .block [l.vardecl, .while_ l.op l.cond (.block (l.stmts ++ [l.step]) l.inner)] l.own

/-- The loop is what both passes make of the `for`. -/
def Expands (l : ForLoop) (node : AstNode) : Prop := Built node.expanded l.block

end ForLoop

theorem forall₂_concat {α β : Type} {R : α → β → Prop} {xs : List α} {x : α} {ys : List β}
    (h : List.Forall₂ R (xs ++ [x]) ys) :
    ∃ ys' y, ys = ys' ++ [y] ∧ List.Forall₂ R xs ys' ∧ R x y := by
  have hreverse := List.forall₂_reverse_iff.mpr h
  rw [List.reverse_append] at hreverse
  obtain ⟨y, rest, hxy, hrest, heq⟩ := List.forall₂_cons_left_iff.mp hreverse
  refine ⟨rest.reverse, y, ?_, ?_, hxy⟩
  · rw [← List.reverse_reverse ys, heq, List.reverse_cons]
  · rwa [← List.forall₂_reverse_iff, List.reverse_reverse]

/-- What both passes make of a `for`. -/
theorem built_for {op ident : Token} {decl : Option AstNode} {cond step init : AstNode}
    {stmts : List AstNode} {t : Option Nat} {type : Ty}
    (h : Built (AstNode.for_ op decl cond step (.block stmts t) type ident init).expanded node') :
    ∃ l : ForLoop, node' = l.block ∧ Built cond.expanded l.cond ∧ Built step.expanded l.step ∧
      List.Forall₂ Built (stmts.map AstNode.expanded) l.stmts := by
  rw [AstNode.expanded, AstNode.expanded_list] at h
  obtain ⟨nodes, own, rfl, hnodes⟩ := h.block
  obtain ⟨vardecl, rest, hdecl, hrest, rfl⟩ := List.forall₂_cons_left_iff.mp hnodes
  obtain ⟨loop, rest', hloop, hrest', rfl⟩ := List.forall₂_cons_left_iff.mp hrest
  cases hrest'
  obtain ⟨init', offset, rfl, -⟩ := hdecl.vardecl
  obtain ⟨cond', body, rfl, hcond, hbody⟩ := hloop.while_
  obtain ⟨nodes', inner, rfl, hnodes'⟩ := hbody.block
  obtain ⟨stmts', step', rfl, hstmts, hstep⟩ := forall₂_concat hnodes'
  exact ⟨⟨op, ident, init', type, offset, cond', step', stmts', own, inner⟩, rfl, hcond, hstep,
    hstmts⟩

theorem ForLoop.block_inj {l l' : ForLoop} (h : l.block = l'.block) : l = l' := by
  obtain ⟨op, ident, init, type, offset, cond, step, stmts, own, inner⟩ := l
  obtain ⟨op', ident', init', type', offset', cond', step', stmts', own', inner'⟩ := l'
  simp only [block, vardecl, AstNode.block.injEq, List.cons.injEq, AstNode.vardecl.injEq,
    AstNode.while_.injEq, Option.some.injEq] at h
  obtain ⟨⟨⟨rfl, rfl, rfl, rfl, rfl⟩, ⟨-, rfl, hstmts, rfl⟩, -⟩, rfl⟩ := h
  obtain ⟨rfl, hstep⟩ := List.append_inj' hstmts rfl
  cases hstep
  rfl

theorem ForLoop.Expands.parts {l : ForLoop} {op ident : Token} {decl : Option AstNode}
    {cond step init : AstNode} {stmts : List AstNode} {t : Option Nat} {type : Ty}
    (h : l.Expands (.for_ op decl cond step (.block stmts t) type ident init)) :
    Built cond.expanded l.cond ∧ Built step.expanded l.step ∧
      List.Forall₂ Built (stmts.map AstNode.expanded) l.stmts := by
  obtain ⟨l', hl, hparts⟩ := built_for h
  cases ForLoop.block_inj hl
  exact hparts

/-- A statement with the kind of a `for`. -/
theorem Shape.for_cases (h : Shape .stmt node) (hkind : node.kind = .for_) :
    ∃ op cond step stmts t type ident init, node = .for_ op none cond step (.block stmts t) type ident
      init ∧ Shape .expr cond ∧ Shape .expr step := by
  cases h with
  | exprstmt h => exact absurd hkind (h.expr_kind AstNode.mem_subtrees_self).1
  | blockstmt h => cases h; cases hkind
  | for_ hcond hstep hbody =>
    cases hbody with
    | block => exact ⟨_, _, _, _, _, _, _, _, rfl, hcond, hstep⟩
  | _ => cases hkind

theorem ForLoop.Expands.shapes {l : ForLoop} (h : l.Expands node) (hshape : Shape .stmt node)
    (hkind : node.kind = .for_) : Shape .expr l.cond ∧ Shape .expr l.step ∧ Shape .stmt l.block := by
  obtain ⟨op, cond, step, stmts, t, type, ident, init, rfl, hcond, hstep⟩ := hshape.for_cases hkind
  obtain ⟨hcond', hstep', -⟩ := h.parts
  exact ⟨hcond'.shape hcond.expanded, hstep'.shape hstep.expanded, h.shape hshape.expanded⟩

/-! ## Every `for` is emitted -/

theorem AstNode.visited_of_child {c x : AstNode} (hc : c ∈ node.children) (hx : x ∈ c.visited) :
    x ∈ node.visited :=
  mem_visited.mpr (.inr ⟨c, hc, hx⟩)

/-- A `for` is expanded where a traversal comes to it. -/
theorem Shape.visited_expanded {x : AstNode} (h : Shape k node) (hx : x ∈ node.subtrees)
    (hkind : x.kind = .for_) : x.expanded ∈ node.expanded.visited := by
  suffices hall : ∀ n ∈ node.subtrees, ∀ k, Shape k n → x ∈ n.subtrees →
      x.expanded ∈ n.expanded.visited from hall node AstNode.mem_subtrees_self k h hx
  clear h hx
  induction node using AstNode.parts_induct with
  | step node ih =>
    intro n hn k h hx
    rcases AstNode.mem_subtrees.mp hn with rfl | ⟨c, hc, hn⟩
    · rcases AstNode.mem_subtrees.mp hx with rfl | ⟨c, hc, hxc⟩
      · exact AstNode.mem_visited.mpr (.inl rfl)
      have deep {k : NodeClass} (h : Shape k c) : x.expanded ∈ c.expanded.visited :=
        ih c hc c AstNode.mem_subtrees_self k h hxc
      have noExpr (h : Shape .expr c) : x.expanded ∈ n.expanded.visited :=
        absurd hkind (h.expr_kind hxc).1
      have inBlock {k : NodeClass} {stmts : List AstNode} {t : Option Nat} (hc : c ∈ stmts)
          (h : Shape k c) : x.expanded ∈ (AstNode.block stmts t).expanded.visited := by
        rw [AstNode.expanded, AstNode.expanded_list]
        exact AstNode.visited_of_child (List.mem_map_of_mem hc) (deep h)
      cases h with
      | exprstmt h => exact absurd hkind (h.expr_kind hx).1
      | blockstmt h =>
        cases h with
        | block hstmts => exact inBlock hc (hstmts c hc)
      | block hstmts => exact inBlock hc (hstmts c hc)
      | program hdecls => exact inBlock hc (hdecls c hc)
      | vardecl hinit => exact noExpr (hinit c (Option.mem_toList.mp hc))
      | return_ hvalue => exact noExpr (hvalue c (Option.mem_toList.mp hc))
      | if_ hcond hthen helse =>
        rcases List.mem_cons.mp hc with rfl | hc
        · exact noExpr hcond
        · rw [AstNode.expanded, AstNode.expanded_opt]
          rcases List.mem_cons.mp hc with rfl | hc
          · exact AstNode.visited_of_child (by simp [AstNode.children]) (deep hthen)
          · have hc := Option.mem_toList.mp hc
            refine AstNode.visited_of_child ?_ (deep (helse c hc))
            simp [AstNode.children, Option.mem_def.mp hc]
      | while_ hcond hbody =>
        rcases List.mem_cons.mp hc with rfl | hc
        · exact noExpr hcond
        · cases List.mem_singleton.mp hc
          rw [AstNode.expanded]
          exact AstNode.visited_of_child (by simp [AstNode.children]) (deep hbody)
      | proc hbody =>
        rw [AstNode.expanded, AstNode.expanded_opt]
        have hc := Option.mem_toList.mp hc
        refine AstNode.visited_of_child ?_ (deep (hbody c hc))
        simp [AstNode.children, Option.mem_def.mp hc]
      | table => cases hc
      | for_ hcond hstep hbody hinit =>
        simp only [AstNode.parts, Option.toList_none, List.nil_append, List.mem_cons,
          List.not_mem_nil, or_false] at hc
        rcases hc with rfl | rfl | rfl | rfl
        · exact noExpr hcond
        · exact noExpr hstep
        · cases hbody with
          | block hstmts =>
            -- the statements of the body are not in a block of their own any more
            rcases AstNode.mem_subtrees.mp hxc with rfl | ⟨stmt, hstmt, hxs⟩
            · cases hkind
            have hdeep := ih _ (by simp [AstNode.parts]) stmt (AstNode.mem_subtrees.mpr
              (.inr ⟨stmt, hstmt, AstNode.mem_subtrees_self⟩)) _ (hstmts stmt hstmt) hxs
            rw [AstNode.expanded, AstNode.expanded_list]
            refine AstNode.visited_of_child (List.mem_cons_of_mem _ List.mem_cons_self)
              (AstNode.visited_of_child (List.mem_cons_of_mem _ List.mem_cons_self) ?_)
            exact AstNode.visited_of_child
              (List.mem_append_left _ (List.mem_map_of_mem hstmt)) hdeep
        · exact noExpr hinit
      | _ =>
        exact absurd hkind (Shape.expr_kind (by constructor <;> assumption) hx).1
    · exact ih c hc n hn k h hx

/-- What is visited is built, and emitted if it is a block. -/
theorem Built.visits {x : AstNode} {scope : Option Nat} (h : Built node node') (hshape : Shape k node)
    (hx : x ∈ node.visited) (hkind : x.kind = .block) :
    ∃ x' scope', Built x x' ∧ Visits scope node' scope' x' := by
  induction node using AstNode.parts_induct generalizing node' scope k with
  | step node ih =>
    rcases AstNode.mem_visited.mp hx with rfl | ⟨c, hc, hx⟩
    · exact ⟨node', scope, h, .self⟩
    · have hexpr : ¬ Shape .expr node := by
        intro hexpr
        have hmem := AstNode.subtrees_of_visited (AstNode.mem_visited.mpr (.inr ⟨c, hc, hx⟩))
        exact (hexpr.expr_kind hmem).2 hkind
      obtain ⟨k', hc'⟩ := hshape.child hc
      obtain ⟨c', hzip, hbuilt⟩ := exists_of_forall₂ h.children hc
      obtain ⟨x', scope', hx', hvisits⟩ :=
        ih c (AstNode.mem_parts_of_children hc) hbuilt hc' hx
      obtain ⟨hassign, hunary⟩ := hshape.not_operator hexpr
      refine ⟨x', scope', hx', .inside ?_ hvisits⟩
      rw [AstNode.operands_eq (h.kind ▸ hassign) (h.kind ▸ hunary)]
      exact (List.of_mem_zip hzip).2

theorem Shape.subtree {x : AstNode} (h : Shape k node) (hx : x ∈ node.subtrees) :
    ∃ k, Shape k x := by
  induction node using AstNode.parts_induct generalizing k with
  | step node ih =>
    rcases AstNode.mem_subtrees.mp hx with rfl | ⟨c, hc, hx⟩
    · exact ⟨k, h⟩
    · rcases AstNode.mem_parts hc with hchild | hunvisited
      · obtain ⟨k', hc'⟩ := h.child hchild
        exact ih c hc hc' hx
      · exact ih c hc (h.unvisited hunvisited) hx

theorem Shape.for_stmt (h : Shape k node) (hkind : node.kind = .for_) :
    Shape .stmt node ∧ node.expanded.kind = .block := by
  cases h with
  | for_ hcond hstep hbody hinit =>
    cases hbody with
    | block hstmts => exact ⟨.for_ hcond hstep (.block hstmts) hinit, rfl⟩
  | exprstmt h => exact absurd hkind (h.expr_kind AstNode.mem_subtrees_self).1
  | blockstmt h => cases h; cases hkind
  | _ => cases hkind

/-- The node is emitted in the scope, inside a statement in the body of a procedure. -/
inductive InBody (root : AstNode) (scope : Option Nat) (node : AstNode) : Prop
  | mk {op ident : Token} {stmts : List AstNode} {t table : Option Nat} {type : Ty}
    {stackSize : Int} {stmt : AstNode} :
    .proc op ident (some (.block stmts t)) type table stackSize ∈ root.children → stmt ∈ stmts →
    Visits t stmt scope node → InBody root scope node

theorem Built.proc {op ident : Token} {body : AstNode} {type : Ty} {table : Option Nat}
    {stackSize : Int} (h : Built (.proc op ident (some body) type table stackSize) node') :
    ∃ op' ident' body' type' table' stackSize',
      node' = .proc op' ident' (some body') type' table' stackSize' ∧ Built body body' := by
  have hkind := h.kind
  have hchildren := h.children
  cases node'
  case proc op' ident' body' type' table' stackSize' =>
    obtain ⟨b, rest, hbody, hrest, heq⟩ := List.forall₂_cons_left_iff.mp hchildren
    cases hrest
    cases body' with
    | none => cases heq
    | some body' =>
      cases heq
      exact ⟨_, _, _, _, _, _, rfl, hbody⟩
  all_goals cases hkind

/-- Every `for` of a program is emitted, as the loop that the passes make of it. -/
theorem exists_loop {root root'' : AstNode} {st : Symboltable} (hshape : Shape .program root)
    (hbuild : symboltableBuild root.expanded = .ok (root'', st)) (hfor : node ∈ root.subtrees)
    (hkind : node.kind = .for_) :
    ∃ (l : ForLoop) (scope : Option Nat), l.Expands node ∧ InBody root'' scope l.block := by
  obtain ⟨k, hnode⟩ := hshape.subtree hfor
  obtain ⟨hstmt, hblock⟩ := hnode.for_stmt hkind
  have hbuilt : Built root.expanded root'' := ⟨_, _, _, symboltableBuild_ok.mp hbuild⟩
  cases hshape with
  | @program decls t hdecls =>
    rcases AstNode.mem_subtrees.mp hfor with rfl | ⟨decl, hdecl, hdeep⟩
    · cases hkind
    rcases AstNode.mem_subtrees.mp hdeep with rfl | ⟨body, hbody, hinner⟩
    · cases hdecls _ hdecl <;> cases hkind
    have hdecl' := hdecls decl hdecl
    cases hdecl' with
    | table => cases hbody
    | @proc op ident body' sig table stackSize hshapes =>
      obtain rfl := Option.mem_toList.mp hbody
      have hshape := hshapes body rfl
      cases hshape with
      | @block stmts t' hstmts =>
        rcases AstNode.mem_subtrees.mp hinner with rfl | ⟨stmt, hmem, hx⟩
        · cases hkind
        rw [AstNode.expanded, AstNode.expanded_list] at hbuilt
        obtain ⟨nodes, t₁, rfl, hnodes⟩ := hbuilt.block
        obtain ⟨decl', hzip, hdecl'⟩ := exists_of_forall₂ hnodes (List.mem_map_of_mem hdecl)
        rw [AstNode.expanded, AstNode.expanded_opt, Option.map_some, AstNode.expanded,
          AstNode.expanded_list] at hdecl'
        obtain ⟨op', ident', body', type', table', size', rfl, hbody'⟩ := hdecl'.proc
        obtain ⟨stmts', t₂, rfl, hstmts'⟩ := hbody'.block
        obtain ⟨stmt', hzip', hstmt'⟩ := exists_of_forall₂ hstmts' (List.mem_map_of_mem hmem)
        obtain ⟨node', scope, hnode', hvisits⟩ := hstmt'.visits (hstmts stmt hmem).expanded
          ((hstmts stmt hmem).visited_expanded hx hkind) hblock
        obtain ⟨op₀, cond, step, body, t₀, type₀, ident₀, init, heq, _, _⟩ := hstmt.for_cases hkind
        obtain ⟨l, rfl, -⟩ := built_for (heq ▸ hnode')
        exact ⟨l, scope, hnode', .mk (List.of_mem_zip hzip).2 (List.of_mem_zip hzip').2 hvisits⟩

/-! ## Tables around a loop -/

variable {tables : List Hashtable} {scope scope' : Option Nat} {lo : Nat}
  {chain : List (List (String × Symbol))}

/-- The tables that answer at a statement inside another one, and the variables they hold and that
the inner statement holds. -/
theorem Visits.around (h : Visits scope node scope' node') (hstmt : ¬ Shape .expr node')
    (hshape : Shape .stmt node) (hscoped : Scoped tables lo scope node) (hscope : scope ≠ none)
    (hchain : Chain tables scope chain) :
    scope' ≠ none ∧ ∃ lo' inner, Scoped tables lo' scope' node' ∧
      Chain tables scope' (inner ++ chain) ∧
      (node'.children.flatMap AstNode.vars ++ inner.flatten).Subperm
        (node.children.flatMap AstNode.vars) := by
  induction h generalizing lo chain with
  | self => exact ⟨hscope, lo, [], hscoped, hchain, by simp [List.Subperm.refl]⟩
  | @inside scope scope' node c node' hc hvisits ih =>
    have hexpr : ¬ Shape .expr node := fun hexpr => hstmt (hvisits.expr (hexpr.operand hc))
    obtain ⟨hassign, hunary⟩ := hshape.not_operator hexpr
    rw [AstNode.operands_eq hassign hunary] at hc
    have hc' := (hshape.stmt_child hc).1
    cases hscoped with
    | other hkind hchildren =>
      have hinner : node.innerScope scope = scope := by
        cases node
        case block => exact (hkind rfl).elim
        all_goals rfl
      rw [hinner] at hvisits ih
      obtain ⟨hscope', lo', inner, hscoped', hchain', hsub⟩ :=
        ih hstmt hc' (hchildren c hc) hscope hchain
      refine ⟨hscope', lo', inner, hscoped', hchain', hsub.trans ?_⟩
      have hvars : (c.children.flatMap AstNode.vars).Sublist c.vars := by
        rw [AstNode.vars_eq]
        exact List.sublist_append_right ..
      exact (hvars.trans (sublist_flatMap hc)).subperm
    | @block _ t _ stmts ht hle hget hparent hlt hbinds hstmts =>
      obtain ⟨hscope', lo', inner, hscoped', hchain', hsub⟩ := ih hstmt hc' (hstmts c hc) nofun
        (.cons hget hbinds (hparent ▸ hlt) (hparent ▸ hchain))
      refine ⟨hscope', lo', inner ++ [stmts.flatMap AstNode.declared], hscoped',
        by simpa using hchain',
        ?_⟩
      rw [List.flatten_append, List.flatten_singleton, ← List.append_assoc]
      exact subperm_flatMap_vars hsub hc

/-- The tables that answer at a statement in the body of a procedure: those of the blocks around it,
and behind them that of the body with the parameters, and that of the program. -/
theorem proc_around {root root'' : AstNode} {st : Symboltable} {op ident : Token}
    {stmts : List AstNode} {stmt : AstNode} {t table : Option Nat} {sig : ProcSignature}
    {stackSize : Int} (hshape : Shape .program root)
    (hbuild : symboltableBuild root = .ok (root'', st))
    (hproc : .proc op ident (some (.block stmts t)) (.procedure sig) table stackSize ∈
      root''.children) (hmem : stmt ∈ stmts) (hvisits : Visits t stmt scope node)
    (hstmt : ¬ Shape .expr node) :
    scope ≠ none ∧ ∃ lo inner, Scoped st.tables lo scope node ∧
      Chain st.tables scope (inner ++ [stmts.flatMap AstNode.declared ++
        sig.params.map Param.declared, root.globals]) ∧
      (node.children.flatMap AstNode.vars ++ inner.flatten).Subperm
        (stmt.children.flatMap AstNode.vars) := by
  have hshape' : Shape .program root'' :=
    Built.shape ⟨_, _, _, symboltableBuild_ok.mp hbuild⟩ hshape
  have hsub := AstNode.mem_subtrees.mpr
    (.inr ⟨_, AstNode.mem_parts_of_children hproc, AstNode.mem_subtrees_self⟩)
  obtain ⟨⟨ht₀, hget₀, hparent₀, hbinds₀⟩, hscoped⟩ := symboltableBuild_scoped hshape hbuild
  cases hshape' with
  | program hdecls =>
    cases hdecls _ hproc with
    | proc hbody =>
      obtain ⟨stmts', t', ht, heq, -, hget, hparent, hlt, hbinds, hstmts⟩ :=
        hscoped _ hsub rfl _ _ _ _ _ _ rfl
      cases heq
      have hshapes : ∀ s ∈ stmts, Shape .stmt s := by
        cases hbody _ rfl with
        | block hstmts => exact hstmts
      have hroot : Chain st.tables (some 0) [root.globals] :=
        .cons hget₀ hbinds₀ (by simp [hparent₀]) (hparent₀ ▸ .nil)
      have hchain := Chain.cons hget hbinds (hparent ▸ hlt) (hparent ▸ hroot)
      exact hvisits.around hstmt (hshapes stmt hmem) (hstmts stmt hmem) nofun hchain

/-- The tables that answer at a block in the body of a procedure hold none of the variables in the
block. -/
theorem InBody.around {root root'' : AstNode} {st : Symboltable} (h : InBody root'' scope node)
    (hblock : node.kind = .block) (hshape : Shape .program root)
    (hbuild : symboltableBuild root = .ok (root'', st)) :
    ∃ lo chain, scope ≠ none ∧ Scoped st.tables lo scope node ∧ Chain st.tables scope chain ∧
      ((node.children.flatMap AstNode.vars).map Prod.snd).Nodup ∧
      ∀ decl ∈ node.children.flatMap AstNode.vars, decl.2 ∉ chain.flatten.map Prod.snd := by
  obtain @⟨op, ident, stmts, t, table, type, stackSize, stmt, hproc, hmem, hvisits⟩ := h
  have hsub := AstNode.mem_subtrees.mpr
    (.inr ⟨_, AstNode.mem_parts_of_children hproc, AstNode.mem_subtrees_self⟩)
  have hshape' : Shape .program root'' :=
    Built.shape ⟨_, _, _, symboltableBuild_ok.mp hbuild⟩ hshape
  obtain ⟨sig, rfl⟩ : ∃ sig, type = .procedure sig := by
    cases hshape' with
    | program hdecls =>
      cases hdecls _ hproc with
      | proc => exact ⟨_, rfl⟩
  have hexpr : ¬ Shape .expr node := fun h => (h.expr_kind AstNode.mem_subtrees_self).2 hblock
  obtain ⟨hscope, lo, inner, hscoped', hchain', hvars⟩ :=
    proc_around hshape hbuild hproc hmem hvisits hexpr
  have hnodup := symboltableBuild_nodup hshape hbuild hsub
  obtain ⟨vars, hperm, hsublist⟩ := subperm_flatMap_vars hvars hmem
  rw [AstNode.vars_eq] at hnodup
  have hall := (hperm.map Prod.snd).nodup_iff.mp (hnodup.sublist (hsublist.map Prod.snd))
  rw [List.append_assoc, List.map_append] at hall
  obtain ⟨hown, -, hdisjoint⟩ := List.nodup_append'.mp hall
  refine ⟨lo, _, hscope, hscoped', hchain', hown, fun decl hdecl hin => ?_⟩
  have hmap := List.mem_map_of_mem (f := Prod.snd) hdecl
  have hflat : (inner ++ [stmts.flatMap AstNode.declared ++ sig.params.map Param.declared,
      root.globals]).flatten =
      (inner.flatten ++ stmts.flatMap AstNode.declared) ++ outer sig root := by
    simp [outer]
  rw [hflat, List.map_append, List.mem_append] at hin
  rcases hin with hin | hin
  · exact hdisjoint hmap hin
  · obtain ⟨decl', hdecl', heq⟩ := List.mem_map.mp hin
    refine outer_kind hdecl' ?_
    rw [heq]
    have hvar : decl ∈ node.vars := by
      rw [AstNode.vars_eq]
      exact List.mem_append_right _ hdecl
    exact vars_kind hvar

/-! ## Names in the header -/

namespace ForLoop

variable (l : ForLoop) (tables : List Hashtable) (scope : Option Nat)

/-- The symbol of the loop variable. -/
def symbol : Symbol := { kind := .variable, type := l.type, offset := l.offset }

/-- What a name means in the header of the loop: the loop variable, or what it means around it. -/
def lookup (key : String) : Except Failure (Option Symbol) :=
  if key = l.ident.value then .ok (some l.symbol) else symboltableLookup tables scope key

/-- The variables that the body declares, apart from those in blocks inside it. -/
def declared : List (String × Symbol) := l.stmts.flatMap AstNode.declared

/-- None of the names is taken for the other one. A name that fills the array of an entry is never
found: nothing is, or the comparison does not stop at the end of the array. -/
def Clear (names : List String) (key : String) : Prop :=
  if key.length < maxIdentLen then key ∉ names
  else key ≠ l.ident.value ∧ ∀ name ∈ l.ident.value :: names, SameEntry key name →
    symboltableLookup tables scope key ≠ .ok none

/-- The identifiers of the condition and of the step mean what they mean in the header. -/
structure Resolves : Prop where
  cond : ∀ key ∈ l.cond.idents, symboltableLookup tables l.own key = l.lookup tables scope key
  step : ∀ key ∈ l.step.idents, symboltableLookup tables l.inner key = l.lookup tables scope key

/-- The body declares no identifier of the step. -/
structure Uncaptured : Prop where
  cond : ∀ key ∈ l.cond.idents, l.Clear tables scope [] key
  step : ∀ key ∈ l.step.idents, l.Clear tables scope (l.declared.map Prod.fst) key

end ForLoop

/-- A table with some more declarations, inside that of the loop variable. -/
theorem Chain.lookup_iff {l : ForLoop} {i j : Nat} {decls : List (String × Symbol)}
    {chain' : List (List (String × Symbol))} {key : String} (h : Chain tables (some i) chain)
    (h' : Chain tables (some j) chain')
    (hflat : chain'.flatten = decls ++ (l.ident.value, l.symbol) :: chain.flatten)
    (hdecls : ∀ decl ∈ decls, decl.2 ≠ l.symbol ∧ decl.2 ∉ chain.flatten.map Prod.snd) :
    symboltableLookup tables (some j) key = l.lookup tables (some i) key ↔
      l.Clear tables (some i) (decls.map Prod.fst) key := by
  unfold ForLoop.lookup ForLoop.Clear
  by_cases hkey : key.length < maxIdentLen
  · rw [if_pos hkey, h'.symboltableLookup_short hkey, h.symboltableLookup_short hkey, hflat,
      List.lookup_append]
    have hheader : (if key = l.ident.value then .ok (some l.symbol) else
        (.ok (chain.flatten.lookup key) : Except Failure (Option Symbol))) =
        .ok (((l.ident.value, l.symbol) :: chain.flatten).lookup key) := by
      rw [List.lookup_cons]
      by_cases heq : key = l.ident.value
      · rw [if_pos heq, beq_iff_eq.mpr heq]
      · rw [if_neg heq, beq_eq_false_iff_ne.mpr heq]
    rw [hheader, Except.ok.injEq]
    constructor
    · intro heq hmem
      obtain ⟨v, hv⟩ := exists_lookup hmem
      rw [hv, Option.some_or] at heq
      obtain ⟨decl, hdecl, rfl⟩ := List.mem_map.mp (mem_of_lookup hv)
      rcases List.mem_cons.mp (mem_of_lookup heq.symm) with heq | hflat
      · exact (hdecls decl hdecl).1 heq
      · exact (hdecls decl hdecl).2 hflat
    · intro hnot
      rw [lookup_eq_none.mpr hnot, Option.none_or]
  · have hlen := Nat.le_of_not_lt hkey
    rw [if_neg hkey, h'.symboltableLookup_long hlen, h.symboltableLookup_long hlen, hflat]
    have hmem : (∃ decl ∈ decls ++ (l.ident.value, l.symbol) :: chain.flatten,
        SameEntry key decl.1) ↔ (∃ name ∈ l.ident.value :: decls.map Prod.fst, SameEntry key name) ∨
          ∃ decl ∈ chain.flatten, SameEntry key decl.1 := by
      simp only [List.mem_append, List.mem_cons, or_and_right, exists_or, exists_eq_left,
        List.mem_map, exists_exists_and_eq_and]
      exact or_left_comm.trans or_assoc.symm
    rw [if_congr hmem rfl rfl]
    by_cases hident : key = l.ident.value
    · refine iff_of_false ?_ fun hclear => hclear.1 hident
      rw [if_pos hident]
      split <;> simp
    · rw [if_neg hident]
      by_cases hout : ∃ decl ∈ chain.flatten, SameEntry key decl.1
      · rw [if_pos (.inr hout), if_pos hout]
        exact iff_of_true rfl ⟨hident, fun _ _ _ h => by cases h⟩
      · rw [if_neg hout]
        by_cases hsame : ∃ name ∈ l.ident.value :: decls.map Prod.fst, SameEntry key name
        · obtain ⟨name, hname, hentry⟩ := hsame
          rw [if_pos (.inl ⟨name, hname, hentry⟩)]
          exact iff_of_false (fun h => by cases h) fun hclear => hclear.2 name hname hentry rfl
        · rw [if_neg (not_or.mpr ⟨hsame, hout⟩)]
          exact iff_of_true rfl ⟨hident, fun name hname h => (hsame ⟨name, hname, h⟩).elim⟩

theorem AstNode.vars_of_child {c : AstNode} {decl : String × Symbol} (hc : c ∈ node.children)
    (h : decl ∈ c.vars) : decl ∈ node.vars := by
  rw [vars_eq]
  exact List.mem_append_right _ (List.mem_flatMap.mpr ⟨c, hc, h⟩)

theorem AstNode.vars_of_declared {decl : String × Symbol} (h : decl ∈ node.declared) :
    decl ∈ node.vars := by
  rw [vars_eq]
  exact List.mem_append_left _ h

/-- The variables of the body differ from the loop variable. -/
theorem ForLoop.declared_ne {l : ForLoop} {decl : String × Symbol}
    (hnodup : ((l.block.children.flatMap AstNode.vars).map Prod.snd).Nodup)
    (h : decl ∈ l.declared) : decl.2 ≠ l.symbol ∧ decl ∈ l.block.children.flatMap AstNode.vars := by
  obtain ⟨stmt, hstmt, hdecl⟩ := List.mem_flatMap.mp h
  have hbody : decl ∈ (AstNode.block (l.stmts ++ [l.step]) l.inner).vars :=
    AstNode.vars_of_child (List.mem_append_left _ hstmt) (AstNode.vars_of_declared hdecl)
  have hloop : decl ∈ (AstNode.while_ l.op l.cond (.block (l.stmts ++ [l.step]) l.inner)).vars :=
    AstNode.vars_of_child (by simp [AstNode.children]) hbody
  have hown : (l.ident.value, l.symbol) ∈ l.vardecl.vars :=
    AstNode.vars_of_declared List.mem_cons_self
  have hvars : l.block.children.flatMap AstNode.vars = l.vardecl.vars ++
      (AstNode.while_ l.op l.cond (.block (l.stmts ++ [l.step]) l.inner)).vars := by
    simp [ForLoop.block, AstNode.children]
  rw [hvars, List.map_append] at hnodup
  rw [hvars]
  refine ⟨fun heq => ?_, List.mem_append_right _ hloop⟩
  have hmem := List.mem_map_of_mem (f := Prod.snd) hloop
  rw [heq] at hmem
  exact (List.nodup_append'.mp hnodup).2.2 (List.mem_map_of_mem hown) hmem

/-- What the tables of the loop variable and of the body answer, compared with the header. -/
theorem ForLoop.lookups_iff {l : ForLoop} (hscoped : Scoped tables lo scope l.block)
    (hscope : scope ≠ none) (hchain : Chain tables scope chain) (hstep : l.step.declared = [])
    (hnodup : ((l.block.children.flatMap AstNode.vars).map Prod.snd).Nodup)
    (hchainless : ∀ decl ∈ l.block.children.flatMap AstNode.vars,
      decl.2 ∉ chain.flatten.map Prod.snd) (key : String) :
    (symboltableLookup tables l.own key = l.lookup tables scope key ↔
      l.Clear tables scope [] key) ∧
    (symboltableLookup tables l.inner key = l.lookup tables scope key ↔
      l.Clear tables scope (l.declared.map Prod.fst) key) := by
  obtain ⟨i, rfl⟩ := Option.ne_none_iff_exists'.mp hscope
  obtain ⟨hown, hchain₁, hchildren⟩ := hscoped.enter hchain
  obtain ⟨lo₁, hloop⟩ := hchildren _ (List.mem_cons_of_mem _ List.mem_cons_self)
  have hbody : Scoped tables lo₁ l.own (.block (l.stmts ++ [l.step]) l.inner) := by
    cases hloop with
    | other _ hchildren => exact hchildren _ (by simp [AstNode.children])
  obtain ⟨hinner, hchain₂, -⟩ := hbody.enter hchain₁
  obtain ⟨j, hj⟩ := Option.ne_none_iff_exists'.mp hown
  obtain ⟨j', hj'⟩ := Option.ne_none_iff_exists'.mp hinner
  constructor
  · rw [hj] at hchain₁ ⊢
    exact hchain.lookup_iff hchain₁ rfl (List.forall_mem_nil _)
  · rw [hj'] at hchain₂ ⊢
    refine hchain.lookup_iff hchain₂ ?_ fun decl hdecl => ?_
    · rw [List.flatten_cons, List.flatten_cons, List.flatMap_append, List.flatMap_singleton, hstep,
        List.append_nil]
      rfl
    · obtain ⟨hne, hmem⟩ := ForLoop.declared_ne hnodup hdecl
      exact ⟨hne, hchainless decl hmem⟩

theorem ForLoop.Clear.of_names {l : ForLoop} {names : List String} {key : String}
    (h : l.Clear tables scope names key) : l.Clear tables scope [] key := by
  unfold ForLoop.Clear at h ⊢
  split at h <;> rename_i hkey
  · rw [if_pos hkey]
    exact List.not_mem_nil
  · rw [if_neg hkey]
    refine ⟨h.1, fun name hname => h.2 name ?_⟩
    rw [List.mem_singleton.mp hname]
    exact List.mem_cons_self

/-! ## Structured statements -/

theorem straight_vardecl {op ident : Token} {init : Option AstNode} {type : Ty} {offset : Int}
    (h : ∀ e ∈ init, Shape .expr e) : (AstNode.vardecl op ident init type offset).Straight :=
  AstNode.allKinds_iff.mpr ⟨rfl, fun c hc => (h c (Option.mem_toList.mp hc)).straight⟩

theorem Shape.nested (h : Shape k node) (hdecl : k ≠ .decl) (hprogram : k ≠ .program)
    (hfor : node.AllKinds (· ≠ .for_)) : node.Nested := by
  induction h with
  | exprstmt _ ih | blockstmt _ ih => exact ih (by simp) (by simp) hfor
  | vardecl hinit => exact .leaf (straight_vardecl hinit)
  | if_ hcond _ _ _ ih ih' =>
    have hparts := (AstNode.allKinds_iff.mp hfor).2
    refine .if_ hcond.straight (ih (by simp) (by simp) (hparts _ ?_)) fun b hb =>
      ih' b hb (by simp) (by simp) (hparts b ?_)
    · simp [AstNode.parts, AstNode.children]
    · simp [AstNode.parts, AstNode.children, Option.mem_def.mp hb]
  | while_ hcond _ _ ih =>
    have hparts := (AstNode.allKinds_iff.mp hfor).2
    refine .while_ hcond.straight (ih (by simp) (by simp) (hparts _ ?_))
    simp [AstNode.parts, AstNode.children]
  | return_ hvalue => exact .return_ fun e he => (hvalue e he).straight
  | block _ ih =>
    have hparts := (AstNode.allKinds_iff.mp hfor).2
    exact .block fun s hs => ih s hs (by simp) (by simp) (hparts s hs)
  | for_ => exact absurd rfl (AstNode.allKinds_iff.mp hfor).1
  | proc | table => exact (hdecl rfl).elim
  | program => exact (hprogram rfl).elim
  | _ => exact .leaf (Shape.straight (by constructor <;> assumption))

open AstNode in
/-- No `for` is left behind the expansion. -/
theorem forFree_expanded (h : Shape k node) : node.expanded.AllKinds (· ≠ .for_) := by
  induction h with
  | exprstmt _ ih | blockstmt _ ih => exact ih
  | assign _ htarget ih _ =>
    rw [expanded, allKinds_iff]
    refine ⟨by simp [kind], fun c hc => ?_⟩
    rcases List.mem_cons.mp hc with rfl | hc
    · exact ih
    · rw [List.mem_singleton.mp hc]
      exact fun x hx => (htarget.expr_kind hx).1
  | @for_ op ident cond step body init type _ _ hbody _ ihcond ihstep ihbody ihinit =>
    cases hbody with
    | @block stmts t =>
      simp only [expanded, expanded_list] at ihbody ⊢
      have hstmts : ∀ c ∈ stmts.map expanded, c.AllKinds (· ≠ .for_) := (allKinds_iff.mp ihbody).2
      have hblock : (AstNode.block (stmts.map expanded ++ [step.expanded]) t).AllKinds (· ≠ .for_) :=
        allKinds_iff.mpr ⟨by simp [kind], List.forall_mem_append.mpr
          ⟨hstmts, List.forall_mem_singleton.mpr ihstep⟩⟩
      have hloop : (AstNode.while_ op cond.expanded
          (.block (stmts.map expanded ++ [step.expanded]) t)).AllKinds (· ≠ .for_) :=
        allKinds_iff.mpr ⟨by simp [kind],
          List.forall_mem_cons.mpr ⟨ihcond, List.forall_mem_singleton.mpr hblock⟩⟩
      have hdecl : (AstNode.vardecl op ident (some init.expanded) type 0).AllKinds (· ≠ .for_) :=
        allKinds_iff.mpr ⟨by simp [kind], List.forall_mem_singleton.mpr ihinit⟩
      exact allKinds_iff.mpr ⟨by simp [kind],
        List.forall_mem_cons.mpr ⟨hdecl, List.forall_mem_singleton.mpr hloop⟩⟩
  | @index op e i _ _ ih ih' =>
    have hsum : (AstNode.binop e.expanded i.expanded op .add).AllKinds (· ≠ .for_) :=
      allKinds_iff.mpr ⟨by simp [kind],
        List.forall_mem_cons.mpr ⟨ih, List.forall_mem_singleton.mpr ih'⟩⟩
    exact allKinds_iff.mpr ⟨by simp [expanded, kind], List.forall_mem_singleton.mpr hsum⟩
  | _ =>
    rw [allKinds_iff]
    simp_all [expanded, parts, children, kind, expanded_list, expanded_opt]

/-! ## Code of the loop -/

/-- Equal states apart from the scope. -/
def otherScope : Coupling where
  scopes _ _ := True
  state s s' gen gen' := gen.scope = s ∧ gen' = { gen with scope := s' }
  line _ _ i i' := i = i'
  later _ _ h := h

theorem otherScope_lawful : otherScope.Lawful where
  scope h := by
    obtain ⟨rfl, rfl⟩ := h
    exact ⟨trivial, rfl, rfl⟩
  enter _ h := by
    obtain ⟨rfl, rfl⟩ := h
    exact ⟨rfl, rfl⟩
  fixed _ := rfl
  label h := by
    obtain ⟨rfl, rfl⟩ := h
    exact ⟨rfl, rfl⟩
  numbered h hl := by
    obtain ⟨rfl, rfl⟩ := h
    intro mk _ _ _
    cases hl <;> rfl
  push h := by
    obtain ⟨rfl, rfl⟩ := h
    exact ⟨rfl, rfl⟩
  string h := by
    obtain ⟨rfl, rfl⟩ := h
    rfl

/-- An expression has the same code in two scopes in which its identifiers mean the same. -/
theorem Shape.emit_otherScope {gen gen' : Gen} {ty : Ty} {code : List Instr}
    (h : Shape .expr node)
    (hlookup : ∀ key ∈ node.idents,
      symboltableLookup tables scope key = symboltableLookup tables scope' key)
    (hscope : gen.scope = scope) (hemit : emit tables node gen = .ok (ty, code, gen')) :
    emit tables node { gen with scope := scope' } = .ok (ty, code, { gen' with scope := scope' }) := by
  have hparallel := (h.emit_idents otherScope_lawful fun key hkey addr =>
    .literalIdent otherScope_lawful (hlookup key hkey) fun _ _ _ _ _ => rfl).1
  obtain ⟨code', gen'', hemit', hlines, -, rfl⟩ := hparallel.ok ⟨hscope, rfl⟩ hemit
  have heq : List.Forall₂ (· = ·) code code' := hlines
  rw [List.forall₂_eq_eq_eq] at heq
  rw [hemit', heq]

/-- Wherever the text stands, the machine runs it as a counting loop: the first statement once, the
condition before every round, and the step after every round that was completed. -/
def RunsAsFor (E : Env) (text : List Instr) (init cond step : Atom) (body : Stmt Atom) : Prop :=
  ∃ s, (∀ L p, Segment L p (text.map Instr.line) → (labels L).Nodup → (backend E).Simulates L p s) ∧
    ∀ p, ∃ pc ps pb, ∀ fuel m,
      (backend E).placedAtoms.eval fuel ((backend E).place p s) m =
        (backend E).placedAtoms.evalFor (p, init) (pc, cond) (ps, step)
          ((backend E).placedAtoms.eval fuel ((backend E).place pb body)) fuel m

namespace ForLoop

variable (l : ForLoop) (tables : List Hashtable) (scope : Option Nat)

/-- The code of the parts of the loop: the declaration, the condition and the step as in the header,
the body in its own scope. -/
inductive Code (gen : Gen) : Atom → Atom → Atom → Stmt Atom → Prop
  | mk {gen₁ gen₂ gen₃ gen₄ : Gen} {ty ty' : Ty} {code code' : List Instr} {cond : Atom}
    {body : Stmt Atom} :
    emit tables l.vardecl { gen with scope := l.own } = .ok (ty, code, gen₁) →
    StructuredSeq tables { gen₁ with labelCount := gen₁.labelCount + 1, scope := l.inner } l.stmts
      body gen₂ →
    emit tables l.step { gen₂ with scope := l.own } = .ok (ty', code', gen₃) →
    Tested tables gen₃ l.cond cond gen₄ →
    Code gen (.leaf l.vardecl code) cond (.leaf l.step code') body

/-- The names of the header keep their meaning, and the machine runs the loop with the code of the
header. -/
structure Preserved (E : Env) : Prop extends l.Resolves tables scope where
  runs : ∀ gen ty text gen', gen.scope = scope → emit tables l.block gen = .ok (ty, text, gen') →
    ∃ init cond step body, l.Code tables gen init cond step body ∧
      RunsAsFor E text init cond step body

end ForLoop

section
variable {gen gen' : Gen} {ty : Ty} {text : List Instr}

/-- Some statements and a leaf behind them. -/
theorem emitSeq_followedBy {E : Env} {nodes : List AstNode} (hnodes : ∀ n ∈ nodes, n.Nested)
    (hnode : node.Straight)
    (h : emitSeq (emits tables (nodes ++ [node])) gen = .ok ((), text, gen')) :
    ∃ body s gen₁ ty code, StructuredSeq tables gen nodes body gen₁ ∧ gen₁.scope = gen.scope ∧
      emit tables node gen₁ = .ok (ty, code, gen') ∧ body.FollowedBy (.leaf node code) s ∧
      text.map Instr.line = (backend E).lower s gen.labelCount := by
  induction nodes generalizing gen text with
  | nil =>
    obtain ⟨ty, t₁, gen₁, t₂, hemit, hrest, rfl⟩ := discard_bind_ok.mp h
    obtain ⟨-, rfl, rfl⟩ := Emit.pure_ok.mp hrest
    obtain ⟨hcode, -, -⟩ := hnode.emit hemit
    refine ⟨.skip, _, gen, ty, t₁, .nil, rfl, hemit, .nil, ?_⟩
    rw [List.append_nil, map_line hcode, Backend.lower, Backend.lower, Backend.lower,
      List.append_nil]
    rfl
  | cons n nodes ih =>
    obtain ⟨hn, hns⟩ := List.forall_mem_cons.mp hnodes
    obtain ⟨ty, t₁, gen₁, t₂, hemit, hrest, rfl⟩ := discard_bind_ok.mp h
    obtain ⟨s, hs, hline, hlabels⟩ := emit_structured E hn hemit
    obtain ⟨body, s', gen₂, ty', code, hbody, hscope, hstep, hfollowed, hline'⟩ := ih hns hrest
    refine ⟨.seq s body, .seq s s', gen₂, ty', code, .cons hs hbody,
      hscope.trans (emit_checked hemit).2, hstep, .cons hfollowed, ?_⟩
    rw [List.map_append, hline, hline', hlabels, Backend.lower]

/-- The machine runs the text of the loop with the code of the header, if the step has the same code
there. -/
theorem ForLoop.runs_of_code {l : ForLoop} (E : Env) (hinit : l.vardecl.Straight)
    (hcond : l.cond.Straight) (hstep : Shape .expr l.step) (hstmts : ∀ n ∈ l.stmts, n.Nested)
    (hlookup : ∀ key ∈ l.step.idents,
      symboltableLookup tables l.inner key = symboltableLookup tables l.own key)
    (h : emit tables l.block gen = .ok (ty, text, gen')) :
    ∃ init cond step body, l.Code tables gen init cond step body ∧
      RunsAsFor E text init cond step body := by
  rw [ForLoop.block, emit] at h
  obtain ⟨-, hblock⟩ := statement_ok.mp h
  obtain ⟨gen₁, hseq, -⟩ := block_ok hblock
  obtain ⟨ty₁, t₁, gen₂, t₂, hdecl, hrest, rfl⟩ := discard_bind_ok.mp hseq
  obtain ⟨ty₂, t₃, gen₃, t₄, hloop, hnil, rfl⟩ := discard_bind_ok.mp hrest
  obtain ⟨-, rfl, rfl⟩ := Emit.pure_ok.mp hnil
  rw [emit] at hloop
  obtain ⟨-, hwhile⟩ := statement_ok.mp hloop
  obtain ⟨tb, cb, gen₄, tc, cc, rax, hbody, hc, hrax, rfl⟩ := while_ok hwhile
  rw [emit] at hbody
  obtain ⟨-, hbody⟩ := statement_ok.mp hbody
  obtain ⟨gen₅, hstmts', rfl⟩ := block_ok hbody
  obtain ⟨body, s, gen₆, ty₃, code, hs, hscope, hemit, hfollowed, hline⟩ :=
    emitSeq_followedBy (E := E) hstmts hstep.straight hstmts'
  obtain ⟨hcode, hlabels, hown⟩ := hinit.emit hdecl
  have hheader := hstep.emit_otherScope hlookup hscope hemit
  rw [show ({ gen₂ with labelCount := gen₂.labelCount + 1 } : Gen).scope = l.own from hown] at hc
  obtain ⟨cond, htested, -, hline'⟩ := tested_of_emit hcond hc hrax
  refine ⟨_, cond, _, body, .mk hdecl hs hheader htested,
    .seq (.leaf (.leaf l.vardecl t₁)) (.seq (.loop cond s) .skip), fun L p hseg hnodup => ?_,
    fun p => Backend.eval_place_for hfollowed p⟩
  refine Backend.parts_simulate (n := gen.labelCount) hnodup ?_ .refl
  have htext := map_line_loop hline' hline
  rw [List.append_nil, List.map_append, map_line hcode, htext, hlabels] at hseg
  rw [Backend.lower, Backend.lower, Backend.lower, Backend.lower, List.append_nil]
  exact hseg

end

/-! ## Programs -/

/-- The parts of a loop are structured programs. -/
theorem ForLoop.Expands.nested {l : ForLoop} (h : l.Expands node) (hshape : Shape .stmt node)
    (hkind : node.kind = .for_) : l.vardecl.Straight ∧ ∀ n ∈ l.stmts, n.Nested := by
  obtain ⟨-, -, hblock⟩ := h.shapes hshape hkind
  obtain ⟨depth, st, st', hbuild⟩ := h
  have hnested := hblock.nested (by simp) (by simp) (allKinds_buildTo hbuild (forFree_expanded hshape))
  have straight {n : AstNode} (hn : n.Straight) : n.kind.control = false :=
    (AstNode.allKinds_iff.mp hn).1
  cases hnested with
  | leaf hleaf => cases straight hleaf
  | block hstmts =>
    obtain ⟨hdecl, hrest⟩ := List.forall_mem_cons.mp hstmts
    refine ⟨?_, ?_⟩
    · cases hdecl with
      | leaf hleaf => exact hleaf
    · cases List.forall_mem_singleton.mp hrest with
      | leaf hleaf => cases straight hleaf
      | while_ _ hbody =>
        cases hbody with
        | leaf hleaf => cases straight hleaf
        | block hstmts => exact fun n hn => hstmts n (List.mem_append_left _ hn)

theorem ForLoop.preserved_iff {l : ForLoop} {root root'' : AstNode} {st : Symboltable} {E : Env}
    (hshape : Shape .program root) (hbuild : symboltableBuild root.expanded = .ok (root'', st))
    (hfor : node ∈ root.subtrees) (hkind : node.kind = .for_) (hexpands : l.Expands node)
    (hbody : InBody root'' scope l.block) :
    l.Preserved st.tables scope E ↔ l.Uncaptured st.tables scope := by
  obtain ⟨k, hnode⟩ := hshape.subtree hfor
  obtain ⟨hstmt, -⟩ := hnode.for_stmt hkind
  obtain ⟨hcond, hstep, -⟩ := hexpands.shapes hstmt hkind
  obtain ⟨hdecl, hstmts⟩ := hexpands.nested hstmt hkind
  obtain ⟨lo, chain, hscope, hscoped, hchain, hnodup, hchainless⟩ :=
    hbody.around rfl hshape.expanded hbuild
  have hlookups :=
    ForLoop.lookups_iff hscoped hscope hchain hstep.declared_eq_nil hnodup hchainless
  constructor
  · intro h
    exact ⟨fun key hkey => (hlookups key).1.mp (h.cond key hkey),
      fun key hkey => (hlookups key).2.mp (h.step key hkey)⟩
  · intro h
    have hresolves : l.Resolves st.tables scope :=
      ⟨fun key hkey => (hlookups key).1.mpr (h.cond key hkey),
        fun key hkey => (hlookups key).2.mpr (h.step key hkey)⟩
    refine ⟨hresolves, fun gen ty text gen' _ hemit =>
      ForLoop.runs_of_code E hdecl hcond.straight hstep hstmts (fun key hkey => ?_) hemit⟩
    rw [hresolves.step key hkey, (hlookups key).1.mpr (h.step key hkey).of_names]

/-- The expansion of a `for` preserves the names of its header, and the machine runs it as the loop
that the header says, iff the body declares none of the names in the step. -/
theorem for_preserved_iff {fuel : Nat} {garbage : List Nat} {toks : List Token}
    {root root' root'' : AstNode} {p : Parser} {st : Symboltable}
    (hparse : parse fuel garbage toks = .ok root p) (hexpand : expandAst root = .ok root')
    (hbuild : symboltableBuild root' = .ok (root'', st)) (hfor : node ∈ root.subtrees)
    (hkind : node.kind = .for_) (E : Env) :
    (∃ (l : ForLoop) (scope : Option Nat), l.Expands node ∧ InBody root'' scope l.block) ∧
      ∀ (l : ForLoop) (scope : Option Nat), l.Expands node → InBody root'' scope l.block →
        (l.Preserved st.tables scope E ↔ l.Uncaptured st.tables scope) := by
  have hshape := parse_shape hparse
  cases (expandAst_eq hshape).symm.trans hexpand
  exact ⟨exists_loop hshape hbuild hfor hkind, fun l scope hexpands hbody =>
    ForLoop.preserved_iff hshape hbuild hfor hkind hexpands hbody⟩

/-- `proc f(q: *int, r: *int) void { for p: *int = q, p, p = r { let p: *int = q; } }` -/
def redeclaringBody : List Token :=
  [{ kind := .kwProc }, .ident "f", { kind := .lparen }, .ident "q", { kind := .colon },
    { kind := .asterisk }, { kind := .kwTypeInt }, { kind := .comma }, .ident "r",
    { kind := .colon }, { kind := .asterisk }, { kind := .kwTypeInt }, { kind := .rparen },
    { kind := .kwTypeVoid }, { kind := .lbrace }, { kind := .kwFor }, .ident "p", { kind := .colon },
    { kind := .asterisk }, { kind := .kwTypeInt }, { kind := .assign }, .ident "q",
    { kind := .comma }, .ident "p", { kind := .comma }, .ident "p", { kind := .assign }, .ident "r",
    { kind := .lbrace }, { kind := .kwVardecl }, .ident "p", { kind := .colon },
    { kind := .asterisk }, { kind := .kwTypeInt }, { kind := .assign }, .ident "q",
    { kind := .semicolon }, { kind := .rbrace }, { kind := .rbrace }, .eof]

/-- Whether a procedure consists of a `for` whose body declares the variable that the step assigns
to. -/
def redeclaresTarget : AstNode → Bool
  | .block [.proc _ _ (some (.block [.for_ _ _ _ (.assign _ _ (.literal x .ident))
      (.block [.vardecl _ y (some _) _ _] _) _ _ _] _)) _ _ _] _ =>
    x.value == y.value && decide (x.value.length < maxIdentLen)
  | _ => false

theorem redeclaresTarget_elim {root : AstNode} (h : redeclaresTarget root = true) :
    ∃ n ∈ root.subtrees, n.kind = .for_ ∧
      ∀ (l : ForLoop) tables scope, l.Expands n → ¬ l.Uncaptured tables scope := by
  unfold redeclaresTarget at h
  split at h
  · rename_i x _ y _ _ _ _ _ _ _ _ _ _ _ _
    obtain ⟨hname, hshort⟩ := Bool.and_eq_true_iff.mp h
    refine ⟨_, AstNode.mem_subtrees.mpr (.inr ⟨_, List.mem_singleton.mpr rfl,
      AstNode.mem_subtrees.mpr (.inr ⟨_, List.mem_singleton.mpr rfl, AstNode.mem_subtrees.mpr
        (.inr ⟨_, List.mem_singleton.mpr rfl, AstNode.mem_subtrees_self⟩)⟩)⟩), rfl, ?_⟩
    intro l tables scope hexpands hclear
    obtain ⟨-, hstep, hstmts⟩ := hexpands.parts
    obtain ⟨value', hstep⟩ := hstep.assign
    obtain ⟨decl, rest, hdecl, hrest, hdecls⟩ := List.forall₂_cons_left_iff.mp hstmts
    cases hrest
    obtain ⟨init', offset, rfl, -⟩ := hdecl.vardecl
    have hmem : x.value ∈ l.step.idents := by
      rw [hstep]
      exact AstNode.mem_idents.mpr (.inr ⟨_, List.mem_cons_of_mem _ List.mem_cons_self,
        AstNode.mem_idents.mpr (.inl rfl)⟩)
    have hx := hclear.step x.value hmem
    unfold ForLoop.Clear ForLoop.declared at hx
    rw [if_pos (of_decide_eq_true hshort), hdecls] at hx
    exact hx (List.mem_singleton.mpr (beq_iff_eq.mp hname))
  · cases h

theorem redeclaringBody_annotates :
    ∃ root p root' root'' st, parse 100 [] redeclaringBody = .ok root p ∧
      expandAst root = .ok root' ∧ symboltableBuild root' = .ok (root'', st) ∧
      (∃ out, codegen st.tables root'' = .ok out) ∧ redeclaresTarget root = true := by
  obtain ⟨root, p, root', root'', st, hparse, hexpand, hbuild, haccepted⟩ :=
    @of_annotatesTo (fun _ root tables => (codegen tables root).toBool) 100 redeclaringBody
      (by decide +kernel)
  obtain ⟨_, _, hparse', htest⟩ := @of_parsesTo redeclaresTarget 100 redeclaringBody
    (by decide +kernel)
  cases hparse.symm.trans hparse'
  refine ⟨root, p, root', root'', st, hparse, hexpand, hbuild, ?_, htest⟩
  cases hcodegen : codegen st.tables root'' with
  | ok out => exact ⟨out, rfl⟩
  | error e => simp [hcodegen, Except.toBool] at haccepted

theorem for_preserved_iff_redeclaringBody :
    ∃ root p root' root'' st n, parse 100 [] redeclaringBody = .ok root p ∧
      expandAst root = .ok root' ∧ symboltableBuild root' = .ok (root'', st) ∧
      (∃ out, codegen st.tables root'' = .ok out) ∧ n ∈ root.subtrees ∧ n.kind = .for_ ∧
      (∃ (l : ForLoop) (scope : Option Nat), l.Expands n ∧ InBody root'' scope l.block) ∧
      ∀ (l : ForLoop) (scope : Option Nat), l.Expands n → InBody root'' scope l.block →
        (l.Preserved st.tables scope .returning ↔ l.Uncaptured st.tables scope) := by
  obtain ⟨root, p, root', root'', st, hparse, hexpand, hbuild, haccepted, htest⟩ :=
    redeclaringBody_annotates
  obtain ⟨n, hn, hkind, -⟩ := redeclaresTarget_elim htest
  exact ⟨root, p, root', root'', st, n, hparse, hexpand, hbuild, haccepted, hn, hkind,
    for_preserved_iff hparse hexpand hbuild hn hkind .returning⟩

/-- A step that assigns to the loop variable assigns to the variable of the body. -/
theorem step_captured :
    ∃ root p root' root'' st n l scope, parse 100 [] redeclaringBody = .ok root p ∧
      expandAst root = .ok root' ∧ symboltableBuild root' = .ok (root'', st) ∧
      (∃ out, codegen st.tables root'' = .ok out) ∧ n ∈ root.subtrees ∧ n.kind = .for_ ∧
      ForLoop.Expands l n ∧ InBody root'' scope l.block ∧ ∀ E, ¬ l.Preserved st.tables scope E := by
  obtain ⟨root, p, root', root'', st, hparse, hexpand, hbuild, haccepted, htest⟩ :=
    redeclaringBody_annotates
  obtain ⟨n, hn, hkind, hcaptured⟩ := redeclaresTarget_elim htest
  have hshape := parse_shape hparse
  cases (expandAst_eq hshape).symm.trans hexpand
  obtain ⟨l, scope, hexpands, hbody⟩ := exists_loop hshape hbuild hn hkind
  refine ⟨root, p, _, root'', st, n, l, scope, hparse, hexpand, hbuild, haccepted, hn, hkind,
    hexpands, hbody, fun E hpreserved => ?_⟩
  exact hcaptured l st.tables scope hexpands
    ((ForLoop.preserved_iff hshape hbuild hn hkind hexpands hbody).mp hpreserved)

end Seron
