import Seron.Verify.Hygiene

/-! # Slots of names

What a name stands for in the body of a procedure has its slot in the frame of the procedure, apart
from the elements of the array literals there. -/

namespace Seron

open Layout

/-! ## The regions of a frame -/

/-- The bytes of a variable or a parameter, relative to `rbp`. -/
def Symbol.slot (sym : Symbol) : Set Int := Set.Ico (-sym.offset) (-sym.offset + sym.type.size)

/-- The bytes that `array` writes. -/
def AstNode.elements : AstNode → List (Set Int)
  | .array _ values type offset => [Set.Ico (-(offset + values.length * type.size)) (-offset)]
  | _ => []

variable {node node' : AstNode} {scope scope' : Option Nat}

theorem AstNode.slot_split (node : AstNode) :
    node.slot = node.declared.map (fun decl => decl.2.slot) ++ node.elements := by
  cases node <;> rfl

/-- The slots of the variables in a tree, and the elements of the arrays. -/
theorem AstNode.slots_perm (node : AstNode) :
    (node.vars.map (fun decl => decl.2.slot) ++ node.visited.flatMap elements).Perm node.slots := by
  have hsplit : node.slots = node.visited.flatMap fun n =>
      n.declared.map (fun decl => decl.2.slot) ++ n.elements :=
    List.flatMap_congr fun n _ => n.slot_split
  rw [hsplit, vars, List.map_flatMap]
  exact List.flatMap_append_perm ..

/-- The slots of variables and parameters in a frame are apart from the elements of its arrays. -/
theorem slot_in_frame {body : AstNode} {params : List Param} {size : Int} {decl : String × Symbol}
    (h : LaidOut (-size) 0 (body.slots ++ params.map Param.slot))
    (hdecl : decl ∈ body.vars ++ params.map Param.declared) :
    decl.2.slot ⊆ Set.Ico (-size) 0 ∧
      ∀ region ∈ body.visited.flatMap AstNode.elements, Disjoint decl.2.slot region := by
  have hperm := body.slots_perm.append_right (params.map Param.slot)
  have hdisjoint := (hperm.pairwise_iff fun hdisj => hdisj.symm).mpr h.disjoint
  rw [List.append_assoc] at hdisjoint
  obtain ⟨-, hrest, hvars⟩ := List.pairwise_append.mp hdisjoint
  obtain ⟨-, -, helements⟩ := List.pairwise_append.mp hrest
  rcases List.mem_append.mp hdecl with hdecl | hdecl
  · have hslot : decl.2.slot ∈ body.vars.map (fun decl => decl.2.slot) :=
      List.mem_map_of_mem hdecl
    refine ⟨h.inside _ (List.mem_append_left _ ?_), fun region hregion => ?_⟩
    · exact body.slots_perm.mem_iff.mp (List.mem_append_left _ hslot)
    · exact hvars _ hslot _ (List.mem_append_left _ hregion)
  · obtain ⟨param, hparam, rfl⟩ := List.mem_map.mp hdecl
    have hslot : (Param.declared param).2.slot ∈ params.map Param.slot := List.mem_map_of_mem hparam
    exact ⟨h.inside _ (List.mem_append_right _ hslot), fun region hregion =>
      (helements _ hregion _ hslot).symm⟩

/-! ## Names -/

theorem AstNode.visited_trans {x y : AstNode} (h : x ∈ node.visited) (h' : y ∈ x.visited) :
    y ∈ node.visited := by
  induction node using AstNode.parts_induct with
  | step node ih =>
    rcases mem_visited.mp h with rfl | ⟨c, hc, hx⟩
    · exact h'
    · exact visited_of_child hc (ih c (mem_parts_of_children hc) hx)

/-- The symbol table pass comes to every statement that is emitted. -/
theorem Visits.visited (h : Visits scope node scope' node') (hshape : Shape .stmt node)
    (hstmt : ¬ Shape .expr node') : node' ∈ node.visited := by
  induction h with
  | self => exact AstNode.mem_visited.mpr (.inl rfl)
  | @inside scope scope' node c node' hc hvisits ih =>
    have hexpr : ¬ Shape .expr node := fun hexpr => hstmt (hvisits.expr (hexpr.operand hc))
    obtain ⟨hassign, hunary⟩ := hshape.not_operator hexpr
    rw [AstNode.operands_eq hassign hunary] at hc
    exact AstNode.visited_of_child hc (ih (hshape.stmt_child hc).1 hstmt)

/-- What a lookup finds is one of the declarations in the tables. -/
theorem Chain.mem_of_lookup {tables : List Hashtable} {chain : List (List (String × Symbol))}
    {key : String} {sym : Symbol} (h : Chain tables scope chain)
    (hlookup : symboltableLookup tables scope key = .ok (some sym)) :
    ∃ decl ∈ chain.flatten, decl.2 = sym := by
  cases scope with
  | none => cases hlookup
  | some i =>
    by_cases hkey : key.length < maxIdentLen
    · rw [h.symboltableLookup_short hkey] at hlookup
      obtain ⟨decl, hdecl, heq⟩ := List.mem_map.mp (Shadowing.mem_of_lookup (Except.ok.inj hlookup))
      exact ⟨decl, hdecl, heq⟩
    · rw [h.symboltableLookup_long (Nat.le_of_not_lt hkey)] at hlookup
      split at hlookup <;> cases hlookup

theorem globals_kind_parameter {decl : String × Symbol} (h : decl ∈ node.globals) :
    decl.2.kind ≠ .parameter := by
  obtain ⟨n, -, hdecl⟩ := List.mem_flatMap.mp h
  unfold AstNode.global at hdecl
  split at hdecl
  · rw [List.mem_singleton.mp hdecl]
    simp
  · rw [List.mem_singleton.mp hdecl]
    simp
  · cases hdecl

/-- A node in a statement in the body of a procedure, with the scope in which it is emitted. -/
def NodeOf (root : AstNode) (body : AstNode) (sig : ProcSignature) (stackSize : Int)
    (scope : Option Nat) (node : AstNode) : Prop :=
  ∃ op ident stmts t table stmt, body = .block stmts t ∧
    .proc op ident (some body) (.procedure sig) table stackSize ∈ root.children ∧ stmt ∈ stmts ∧
      Visits t stmt scope node

section
variable {root root'' body : AstNode} {st : Symboltable} {sig : ProcSignature} {stackSize : Int}

theorem NodeOf.laidOut (h : NodeOf root'' body sig stackSize scope node)
    (hlaid : FramesLaidOut root'') :
    LaidOut (-stackSize) 0 (body.slots ++ sig.params.map Param.slot) := by
  obtain ⟨op, ident, stmts, t, table, stmt, rfl, hproc, -⟩ := h
  exact hlaid _ _ _ _ _ _ (AstNode.mem_subtrees.mpr
    (.inr ⟨_, AstNode.mem_parts_of_children hproc, AstNode.mem_subtrees_self⟩))

theorem NodeOf.visited (h : NodeOf root'' body sig stackSize scope node)
    (hstmt : ¬ Shape .expr node) (hshape : Shape .program root'') : node ∈ body.visited := by
  obtain ⟨op, ident, stmts, t, table, stmt, rfl, hproc, hmem, hvisits⟩ := h
  cases hshape with
  | program hdecls =>
    cases hdecls _ hproc with
    | proc hbody =>
      cases hbody _ rfl with
      | block hstmts => exact AstNode.visited_of_child hmem (hvisits.visited (hstmts stmt hmem) hstmt)

/-- A variable or parameter that is found at a statement is one of the procedure. -/
theorem NodeOf.found (h : NodeOf root'' body sig stackSize scope node)
    (hstmt : ¬ Shape .expr node) (hshape : Shape .program root)
    (hbuild : symboltableBuild root = .ok (root'', st)) {key : String} {sym : Symbol}
    (hlookup : symboltableLookup st.tables scope key = .ok (some sym))
    (hkind : sym.kind = .variable ∨ sym.kind = .parameter) :
    ∃ decl ∈ body.vars ++ sig.params.map Param.declared, decl.2 = sym := by
  obtain ⟨op, ident, stmts, t, table, stmt, rfl, hproc, hmem, hvisits⟩ := h
  obtain ⟨-, lo, inner, -, hchain, hsub⟩ :=
    proc_around hshape hbuild hproc hmem hvisits hstmt
  obtain ⟨decl, hdecl, rfl⟩ := hchain.mem_of_lookup hlookup
  refine ⟨decl, ?_, rfl⟩
  rw [List.flatten_append, List.mem_append] at hdecl
  rcases hdecl with hdecl | hdecl
  · obtain ⟨c, hc, hdecl⟩ := List.mem_flatMap.mp (hsub.subset (List.mem_append_right _ hdecl))
    exact List.mem_append_left _ (AstNode.vars_of_child hmem (AstNode.vars_of_child hc hdecl))
  · simp only [List.flatten_cons, List.flatten_nil, List.append_nil, List.mem_append] at hdecl
    rcases hdecl with (hdecl | hdecl) | hdecl
    · obtain ⟨s, hs, hdecl⟩ := List.mem_flatMap.mp hdecl
      exact List.mem_append_left _
        (AstNode.vars_of_child hs (AstNode.vars_of_declared hdecl))
    · exact List.mem_append_right _ hdecl
    · rcases hkind with hkind | hkind
      · exact (globals_kind hdecl hkind).elim
      · exact (globals_kind_parameter hdecl hkind).elim

/-- What a name stands for at a statement has its slot in the frame, apart from all array
literals of the procedure. -/
theorem NodeOf.slot (h : NodeOf root'' body sig stackSize scope node)
    (hstmt : ¬ Shape .expr node) (hshape : Shape .program root)
    (hbuild : symboltableBuild root = .ok (root'', st)) (hlaid : FramesLaidOut root'') {key : String} {sym : Symbol}
    (hlookup : symboltableLookup st.tables scope key = .ok (some sym))
    (hkind : sym.kind = .variable ∨ sym.kind = .parameter) :
    sym.slot ⊆ Set.Ico (-stackSize) 0 ∧
      ∀ region ∈ body.visited.flatMap AstNode.elements, Disjoint sym.slot region := by
  obtain ⟨decl, hdecl, rfl⟩ := h.found hstmt hshape hbuild hlookup hkind
  exact slot_in_frame (h.laidOut hlaid) hdecl

end

end Seron
