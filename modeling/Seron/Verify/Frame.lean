import Seron.Verify.Building
import Seron.Verify.Expansion
import Seron.Theory.Layout

/-! # Frame layout

The slots that the variables, the parameters and the array literals of a procedure get in its
frame. -/

namespace Seron

open Layout

namespace AstNode

/-- The nodes a traversal visits, in the order of the calls on the way down. -/
def visited (node : AstNode) : List AstNode :=
  node :: node.children.attach.flatMap fun ⟨c, _⟩ => c.visited
termination_by node.traverseDepth
decreasing_by exact traverseDepth_child ‹_›

theorem visited_eq (node : AstNode) : node.visited = node :: node.children.flatMap visited := by
  rw [visited]
  simp [List.flatMap_subtype]

end AstNode

/-- The bytes a value of the type takes, where it can be stored at all. -/
def Ty.size (type : Ty) : Int := (typePrimitiveSize type.kind).toOption.getD 0

theorem Ty.size_eq {type : Ty} {n : Int} (h : typePrimitiveSize type.kind = .ok n) :
    type.size = n := by
  rw [size, h]
  rfl

/-- The bytes at the offset of a variable, and those `array` writes, relative to `rbp`. -/
def AstNode.slot : AstNode → List (Set Int)
  | .vardecl _ _ _ type offset => [Set.Ico (-offset) (-offset + type.size)]
  | .array _ values type offset => [Set.Ico (-(offset + values.length * type.size)) (-offset)]
  | _ => []

theorem AstNode.slot_eq_nil {node : AstNode} (hvardecl : node.kind ≠ .vardecl)
    (harray : node.kind ≠ .array) : node.slot = [] := by
  cases node
  case vardecl => exact (hvardecl rfl).elim
  case array => exact (harray rfl).elim
  all_goals rfl

/-- The slots of all nodes a traversal visits. -/
def AstNode.slots (node : AstNode) : List (Set Int) := node.visited.flatMap slot

def Param.slot (param : Param) : Set Int :=
  Set.Ico (-param.offset) (-param.offset + param.type.size)

/-- Going from one state to the other, the regions were laid out in the stack space in between. -/
def Allots (st st' : Symboltable) (regions : List (Set Int)) : Prop :=
  st.stackSize ≤ st'.stackSize ∧ LaidOut (-st'.stackSize) (-st.stackSize) regions

namespace Allots

variable {st st' st'' : Symboltable} {regions regions' : List (Set Int)}

theorem nil (h : st'.stackSize = st.stackSize) : Allots st st' [] := ⟨h.ge, .nil⟩

theorem append (h : Allots st st' regions) (h' : Allots st' st'' regions') :
    Allots st st'' (regions ++ regions') :=
  ⟨h.1.trans h'.1, h.2.append h'.2 (Int.neg_le_neg h'.1) (Int.neg_le_neg h.1)⟩

theorem congr (h : Allots st st' regions) (h' : st''.stackSize = st'.stackSize) :
    Allots st st'' regions := by
  unfold Allots
  rwa [h']

end Allots

variable {node node' : AstNode} {st st' : Symboltable}

theorem symboltableInsert_stackSize {table : Option Nat} {key : String} {value : Symbol}
    (h : symboltableInsert table key value st = .ok ((), st')) : st'.stackSize = st.stackSize := by
  obtain ⟨t, ht, ht', r, -, -, -, rfl⟩ := symboltableInsert_ok h
  rfl

/-- The way down allots the slot of the node itself. -/
theorem PreStep.allots (h : PreStep node st node' st') (hproc : node.kind ≠ .proc)
    {nodes : List AstNode} (hlen : nodes.length = node'.children.length) :
    Allots st st' (node'.withChildren nodes).slot := by
  cases h with
  | block => exact .nil rfl
  | @vardecl _ st' op ident init type _ size hsize hins =>
    have hst := symboltableInsert_stackSize hins
    have := typePrimitiveSize_bounds hsize
    have := align16_typePrimitiveSize hsize
    refine ⟨by simp only [hst]; omega, ?_⟩
    rw [AstNode.withChildren, AstNode.slot, Ty.size_eq hsize]
    exact .single (by simp [hst]) (by omega)
  | proc => exact (hproc rfl).elim
  | table hins => exact .nil (symboltableInsert_stackSize hins)
  | @array _ op values type _ size hsize =>
    have := typePrimitiveSize_bounds hsize
    have halign := align16_typePrimitiveSize hsize
    have hlen : nodes.length = values.length := hlen
    have hprod : (nodes.length : Int) * size ≤ nodes.length * 16 :=
      Int.mul_le_mul_of_nonneg_left (by omega) (by omega)
    refine ⟨by simp only [halign]; omega, ?_⟩
    rw [AstNode.withChildren, AstNode.slot, Ty.size_eq hsize]
    simp only [halign, ← hlen]
    exact .single (by omega) (by omega)
  | other hblock hvardecl hproc htable harray =>
    rw [AstNode.slot_eq_nil (by rwa [AstNode.kind_withChildren])
      (by rwa [AstNode.kind_withChildren])]
    exact .nil rfl

theorem PostStep.eq (h : PostStep node st node' st') (hproc : node.kind ≠ .proc) :
    node' = node ∧ st'.stackSize = st.stackSize := by
  cases h with
  | proc | noBody => exact (hproc rfl).elim
  | _ => exact ⟨rfl, rfl⟩

theorem traverseList_allots {f : AstNode → Walk Symboltable AstNode} {nodes nodes' : List AstNode}
    {slots : AstNode → List (Set Int)}
    (hf : ∀ node ∈ nodes, ∀ st node' st', f node st = .ok (node', st') → Allots st st' (slots node'))
    (h : traverseList f nodes st = .ok (nodes', st')) : Allots st st' (nodes'.flatMap slots) := by
  induction nodes generalizing nodes' st with
  | nil =>
    cases h
    exact .nil rfl
  | cons node nodes ih =>
    obtain ⟨node', st₁, rest, hnode, hrest, rfl⟩ := traverseList_cons_ok h
    rw [List.flatMap_cons]
    exact (hf node (by simp) _ _ _ hnode).append (ih (fun n hn => hf n (by simp [hn])) hrest)

/-- A visit of a tree without procedures allots what the way down allots to each of its nodes. -/
theorem buildTo_allots {slot : AstNode → List (Set Int)} {depth : Nat}
    (hslot : ∀ node st node' st', PreStep node st node' st' → node.kind ≠ .proc →
      ∀ nodes, nodes.length = node'.children.length →
        Allots st st' (slot (node'.withChildren nodes)))
    (h : buildTo depth node st = .ok (node', st')) (hfree : node.AllKinds (· ≠ .proc)) :
    Allots st st' (node'.visited.flatMap slot) := by
  induction depth generalizing node node' st st' with
  | zero => cases h
  | succ depth ih =>
    obtain ⟨d, node₁, st₁, nodes, st₂, hd, hpre, hlist, hnodes, hpost⟩ := buildTo_ok h
    cases hd
    obtain ⟨hproc, hfree⟩ := AstNode.allKinds_iff.mp hfree
    obtain ⟨hkind, hparts⟩ := hpre.kind_parts
    obtain ⟨rfl, hst⟩ := hpost.eq (by rwa [AstNode.kind_withChildren, hkind])
    have hown := hslot _ _ _ _ hpre hproc _ (traverseList_length hlist)
    have hrest : Allots st₁ st₂ (nodes.flatMap fun c => c.visited.flatMap slot) :=
      traverseList_allots
        (fun c hc _ _ _ h => ih h (hfree c (hparts ▸ AstNode.mem_parts_of_children hc))) hlist
    rw [AstNode.visited_eq, List.flatMap_cons, List.flatMap_assoc, hnodes]
    exact (hown.append hrest).congr hst

/-- The parameters are allotted their slots one below the other. -/
theorem procPostParams_allots {table : Option Nat} {params params' : List Param}
    (h : procPostParams table params st = .ok (params', st')) :
    Allots st st' (params'.map Param.slot) := by
  induction params generalizing params' st with
  | nil =>
    cases h
    exact .nil rfl
  | cons param params ih =>
    obtain ⟨offset, st₁, hoffset, h₁⟩ := StateT.bind_ok.mp h
    obtain ⟨size, hsize, heq⟩ := Except.bind_ok.mp hoffset
    cases heq
    obtain ⟨u, st₂, hins, h₂⟩ := StateT.bind_ok.mp h₁
    obtain ⟨rest, st₃, hrest, h₃⟩ := StateT.bind_ok.mp h₂
    cases h₃
    have := typePrimitiveSize_bounds hsize
    have hst := symboltableInsert_stackSize hins
    have hown : Allots st st₂ [Param.slot { param with offset := st.stackSize + size }] := by
      refine ⟨by simp only [hst]; omega, ?_⟩
      rw [Param.slot, Ty.size_eq hsize]
      exact .single (by simp [hst]) (by simp only; omega)
    exact hown.append (ih hrest)

/-! ## Procedures -/

/-- The regions of all procedures that are reachable from a node are laid out in their frames. -/
def FramesLaidOut (node : AstNode) : Prop :=
  ∀ op ident body sig table stackSize,
    .proc op ident (some body) (.procedure sig) table stackSize ∈ node.subtrees →
      LaidOut (-stackSize) 0 (body.slots ++ sig.params.map Param.slot)

/-- Each procedure starts with an empty frame; its body and then its parameters fill it. -/
theorem buildTo_proc_laidOut {depth : Nat} {op ident : Token} {body : AstNode}
    {sig : ProcSignature} {table : Option Nat} {stackSize : Int} (hshape : Shape .decl node)
    (h : buildTo depth node st =
      .ok (.proc op ident (some body) (.procedure sig) table stackSize, st')) :
    LaidOut (-stackSize) 0 (body.slots ++ sig.params.map Param.slot) := by
  obtain ⟨d, body₀, params₀, table₀, size₀, st₁, st₂, stmts, rfl, hbody, -, hbuild, -, hparams,
    rfl⟩ := buildTo_proc hshape h
  have hslots := @buildTo_allots _ _ _ _ AstNode.slot _
    (fun _ _ _ _ hpre hproc _ hlen => hpre.allots hproc hlen) hbuild (hbody.procFree nofun nofun)
  exact (hslots.append (procPostParams_allots hparams)).2

/-- The frames of all procedures of a program are laid out. -/
theorem frames_laidOut {fuel : Nat} {garbage : List Nat} {toks : List Token}
    {root root' root'' : AstNode} {p : Parser} (hparse : parse fuel garbage toks = .ok root p)
    (hexpand : expandAst root = .ok root') (hbuild : symboltableBuild root' = .ok (root'', st)) :
    FramesLaidOut root'' := by
  have hshape := parse_shape hparse
  cases (expandAst_eq hshape).symm.trans hexpand
  intro op ident body sig table stackSize hproc
  obtain ⟨depth, d, st₁, st₂, hd, hvisit⟩ := symboltableBuild_proc hshape.expanded hbuild hproc
  exact buildTo_proc_laidOut hd hvisit

/-- `proc f(a: char, b: int) void { let x: int = b; let xs: *char = [a, a]char; }` -/
def withArray : List Token :=
  [{ kind := .kwProc }, .ident "f", { kind := .lparen }, .ident "a", { kind := .colon },
    { kind := .kwTypeChar }, { kind := .comma }, .ident "b", { kind := .colon },
    { kind := .kwTypeInt }, { kind := .rparen }, { kind := .kwTypeVoid }, { kind := .lbrace },
    { kind := .kwVardecl }, .ident "x", { kind := .colon }, { kind := .kwTypeInt },
    { kind := .assign }, .ident "b", { kind := .semicolon },
    { kind := .kwVardecl }, .ident "xs", { kind := .colon }, { kind := .asterisk },
    { kind := .kwTypeChar }, { kind := .assign }, { kind := .lbracket }, .ident "a",
    { kind := .comma }, .ident "a", { kind := .rbracket }, { kind := .kwTypeChar },
    { kind := .semicolon }, { kind := .rbrace }, .eof]

theorem frames_laidOut_withArray :
    ∃ root p root' root'' st, parse 100 [] withArray = .ok root p ∧
      expandAst root = .ok root' ∧ symboltableBuild root' = .ok (root'', st) ∧
      FramesLaidOut root'' := by
  obtain ⟨root, p, root', root'', st, hparse, hexpand, hbuild, -⟩ :=
    @of_annotatesTo (fun _ _ _ => true) 100 withArray (by decide +kernel)
  exact ⟨root, p, root', root'', st, hparse, hexpand, hbuild, frames_laidOut hparse hexpand hbuild⟩

end Seron
