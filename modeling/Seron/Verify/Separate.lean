import Seron.Verify.Order
import Seron.Verify.Passes
import Seron.Verify.Places

/-! # Separate compilation

The code of a procedure depends on its own text and on the names and types of the other declarations,
never on their bodies: two programs that share a procedure and declare the same things at the top level
have the same code for it, up to the numbers of labels and of strings. -/

namespace Seron

/-! ## Visits in two programs -/

variable {node node' decl : AstNode} {nodes decls : List AstNode} {st st' : Symboltable}

theorem traverseList_mono {σ : Type} {f g : AstNode → Walk σ AstNode} {s s' : σ}
    {nodes' : List AstNode}
    (hfg : ∀ node ∈ nodes, ∀ s node' s', f node s = .ok (node', s') → g node s = .ok (node', s'))
    (h : traverseList f nodes s = .ok (nodes', s')) : traverseList g nodes s = .ok (nodes', s') := by
  induction nodes generalizing nodes' s with
  | nil => exact h
  | cons node nodes ih =>
    obtain ⟨hnode, hnodes⟩ := List.forall_mem_cons.mp hfg
    obtain ⟨node', s₁, rest, hfirst, hrest, rfl⟩ := traverseList_cons_ok h
    apply StateT.bind_ok.mpr
    refine ⟨node', s₁, hnode _ _ _ hfirst, ?_⟩
    exact StateT.bind_ok.mpr ⟨rest, s', ih hnodes hrest, rfl⟩

/-- A visit does not depend on the depth that is left. -/
theorem buildTo_mono {depth depth' : Nat} (h : buildTo depth node st = .ok (node', st'))
    (hle : depth ≤ depth') : buildTo depth' node st = .ok (node', st') := by
  induction depth generalizing depth' node node' st st' with
  | zero => cases h
  | succ depth ih =>
    have hnotFor := buildTo_notFor h
    obtain ⟨d, node₁, st₁, nodes, st₂, hd, hpre, hlist, -, hpost⟩ := buildTo_ok h
    cases hd
    obtain ⟨depth', rfl⟩ : ∃ d, depth' = d + 1 := ⟨depth' - 1, by omega⟩
    apply buildTo_of_steps hpre ?_ ?_ hpost
    · intro op cond step body type ident e heq
      subst heq
      cases hpre
      exact hnotFor _ _ _ _ _ _ _ rfl
    · exact traverseList_mono (fun c _ _ _ _ hc => ih hc (Nat.le_of_succ_le_succ hle)) hlist

/-- The node is the result of a visit of the declaration in the scope of the program, whose table is
filled with some declarations. -/
def VisitedAmong (depth : Nat) (decl node : AstNode) : Prop :=
  ∃ st st' ht ds, st.head = some 0 ∧ st.tables[0]? = some ht ∧ Binds ht ds ∧
    buildTo depth decl st = .ok (node, st')

theorem traverseList_visitedAmong {depth : Nat} {ht : Hashtable} {ds : List (String × Symbol)}
    (h : traverseList (buildTo depth) decls st = .ok (nodes, st'))
    (hshape : ∀ d ∈ decls, Shape .decl d)
    (hhead : st.head = some 0) (hget : st.tables[0]? = some ht) (hbinds : Binds ht ds) :
    List.Forall₂ (VisitedAmong depth) decls nodes := by
  induction decls generalizing nodes st ht ds with
  | nil =>
    cases h
    exact .nil
  | cons d decls ih =>
    obtain ⟨node, st₁, rest, hnode, hrest, rfl⟩ := traverseList_cons_ok h
    obtain ⟨hd, hds⟩ := List.forall_mem_cons.mp hshape
    have hlen := (List.getElem?_eq_some_iff.mp hget).1
    have hgrows := buildTo_global hnode hd (head_lt hhead hlen)
    obtain ⟨ht₁, hget₁, -, hbinds₁⟩ := hgrows.binds 0 hhead ht ds hget hbinds
    apply List.Forall₂.cons
    · exact ⟨st, st₁, ht, ds, hhead, hget, hbinds, hnode⟩
    · exact ih hrest hds (hgrows.head.trans hhead) hget₁ hbinds₁

/-- Two visits of one declaration have the same result, but for the numbers of the tables. -/
theorem VisitedAmong.moved {depth depth' : Nat} (h : VisitedAmong depth decl node)
    (h' : VisitedAmong depth' decl node') (hshape : Shape .decl decl)
    (hshort : ∀ g ∈ decl.global, g.1.length < maxIdentLen) :
    ∃ lo lo', node' = node.moved (moveTable lo lo') := by
  obtain ⟨st, st₁, ht, ds, hhead, hget, -, hvisit⟩ := h
  obtain ⟨st', st₁', ht', ds', hhead', hget', hbinds', hvisit'⟩ := h'
  have hlen := (List.getElem?_eq_some_iff.mp hget).1
  obtain ⟨lo, lo', st₂, -, hmoved⟩ :=
    buildTo_decl_moved (buildTo_mono hvisit (Nat.le_max_left depth depth')) hshape hhead hlen hhead'
      hget' hbinds' hshort
  cases (buildTo_mono hvisit' (Nat.le_max_right depth depth')).symm.trans hmoved
  exact ⟨lo, lo', rfl⟩

/-! ## Two programs -/

theorem generate_visited {t : Option Nat} {text : List Instr} {data : List DataLine}
    (hshape : ∀ d ∈ decls, Shape .decl d) (h : generate (.block decls t) = .ok (text, data)) :
    ∃ depth nodes st, symboltableBuild (.block decls t) = .ok (.block nodes (some 0), st) ∧
      List.Forall₂ (VisitedAmong depth) decls nodes ∧
      ∃ texts, List.Forall₂ (EmittedAs st.tables data) nodes texts ∧ text = texts.flatten := by
  obtain ⟨⟨root, st⟩, hbuild, hcodegen⟩ := Except.bind_ok.mp h
  obtain ⟨decls, t, nodes, st₁, ht, heq, -, hlist, -, rfl, rfl⟩ :=
    symboltableBuild_block (.program hshape) hbuild
  cases heq
  obtain ⟨gen, hseq, rfl⟩ := codegen_block_ok.mp hcodegen
  obtain ⟨-, texts, htexts, rfl⟩ := emitSeq_texts hseq (buildTo_declShapes hshape hbuild) rfl
  exact ⟨_, nodes, _, hbuild, traverseList_visitedAmong hlist hshape rfl rfl .init, texts, htexts, rfl⟩

/-- A procedure in two programs with the same declarations at the top level. -/
theorem generate_shared {decls' : List AstNode} {t t' : Option Nat} {text text' : List Instr}
    {data data' : List DataLine} {name : String} (hshape : ∀ d ∈ decls, Shape .decl d)
    (hshape' : ∀ d ∈ decls', Shape .decl d) (hnodup : (decls.filterMap AstNode.declName?).Nodup)
    (hshort : ∀ name ∈ decls.filterMap AstNode.declName?, name.length < maxIdentLen)
    (hperm : (decls.flatMap AstNode.global).Perm (decls'.flatMap AstNode.global))
    (h : generate (.block decls t) = .ok (text, data))
    (h' : generate (.block decls' t') = .ok (text', data')) (hdecl : decl ∈ decls)
    (hdecl' : decl ∈ decls')
    (hname : decl.procName? = some name) :
    SameText (decls.filterMap AstNode.procName?) data data' (procText name text)
      (procText name text') := by
  obtain ⟨depth, nodes, st, hbuild, hvisits, texts, htexts, rfl⟩ := generate_visited hshape h
  obtain ⟨depth', nodes', st', hbuild', hvisits', texts', htexts', rfl⟩ := generate_visited hshape' h'
  have hglobalNodup : ((decls.flatMap AstNode.global).map Prod.fst).Nodup := by rwa [globals_names]
  have hprocs : (nodes.filterMap AstNode.procName?).Nodup := by
    rw [symboltableBuild_procNames hshape hbuild]
    exact hnodup.sublist (AstNode.procNames_sublist decls)
  have hprocs' : (nodes'.filterMap AstNode.procName?).Nodup := by
    rw [symboltableBuild_procNames hshape' hbuild']
    apply List.Nodup.sublist (AstNode.procNames_sublist decls')
    rw [← globals_names]
    exact (hperm.map Prod.fst).nodup_iff.mp hglobalNodup
  obtain ⟨n, hn, hvisit⟩ := exists_of_forall₂ hvisits hdecl
  obtain ⟨n', hn', hvisit'⟩ := exists_of_forall₂ hvisits' hdecl'
  replace hn := (List.of_mem_zip hn).2
  replace hn' := (List.of_mem_zip hn').2
  have hglobals : ∀ g ∈ decl.global, g.1.length < maxIdentLen := by
    intro g hg
    apply hshort
    rw [← globals_names]
    exact List.mem_map_of_mem (List.mem_flatMap.mpr ⟨decl, hdecl, hg⟩)
  obtain ⟨lo, lo', rfl⟩ := hvisit.moved hvisit' (hshape decl hdecl) hglobals
  have hname' : n.procName? = some name := by
    obtain ⟨_, _, _, _, -, -, -, hbuildTo⟩ := hvisit
    exact (buildTo_procName hbuildTo).trans hname
  obtain ⟨t₁, hzip, ⟨start, ty, gen, hscope, hemit, hdata⟩, -⟩ := exists_of_forall₂ htexts hn
  obtain ⟨t₁', hzip', ⟨start', ty', gen', hscope', hemit', hdata'⟩, -⟩ :=
    exists_of_forall₂ htexts' hn'
  rw [procText_flatten (htexts.imp fun _ _ h => h.isText) hprocs hzip hname',
    procText_flatten (htexts'.imp fun _ _ h => h.isText) hprocs' hzip'
      ((AstNode.procName?_moved n).trans hname')]
  have hparallel : Parallel (renumbering (decls.filterMap AstNode.procName?) start start') (some 0)
      (some 0) (emit st.tables n) (emit st'.tables (n.moved (moveTable lo lo'))) :=
    (buildTo_declShapes hshape hbuild n hn).emit_decl_moved renumbering_lawful (fun _ h _ _ => .proc h)
      (fun _ _ => trivial) hperm hglobalNodup (fun _ hd hkind => globals_procNames hd hkind)
      (procScoped_of_mem hshape hbuild hn) (procScoped_of_mem hshape' hbuild' hn')
      (rootChain hshape hbuild) (rootChain hshape' hbuild')
  obtain ⟨t₂, gen₂, hemit₂, hlines, -⟩ :=
    hparallel.ok ⟨hscope, hscope', Nat.add_comm .., Nat.add_comm ..⟩ hemit
  cases hemit'.symm.trans hemit₂
  exact sameText_of_lines hlines hdata hdata'

/-! ## Two sources -/

theorem AstNode.global_move {f : Token → Token} (hf : Token.Moves f) (decl : AstNode) :
    (decl.move f).global = decl.global := by
  cases decl
  case proc op ident body type t size => rw [move, global, global, hf.value]
  case table op ident type => rw [move, global, global, hf.value]
  all_goals rfl

theorem filterMap_procName (decls : List AstNode) : decls.filterMap AstNode.procName? =
    (decls.flatMap AstNode.global).filterMap fun g =>
      if g.2.kind = .procedure then some g.1 else none := by
  induction decls with
  | nil => rfl
  | cons decl decls ih =>
    rw [List.flatMap_cons, List.filterMap_append, ← ih]
    cases decl <;> rfl

/-- The declarations that the annotation gets, without the places of their tokens. -/
def placed (root : AstNode) : List AstNode :=
  root.children.map fun decl => (decl.move Token.placeless).expanded

theorem placed_globals (root : AstNode) : (placed root).flatMap AstNode.global = root.globals := by
  rw [placed, List.flatMap_map, AstNode.globals]
  apply List.flatMap_congr
  intro decl _
  rw [AstNode.global_expanded, AstNode.global_move Token.placeless_moves]

theorem compileRoot_placed {fuel : Nat} {garbage : List Nat} {toks : List Token} {root : AstNode}
    {p : Parser} {out : List Instr × List DataLine} (hparse : parse fuel garbage toks = .ok root p)
    (h : compileRoot root = .ok out) :
    ∃ t, (∀ d ∈ placed root, Shape .decl d) ∧ generate (.block (placed root) t) = .ok out := by
  have hmove := parse_move Token.placeless_moves fuel garbage toks
  rw [hparse] at hmove
  have hshape := parse_shape hmove
  rw [← compileRoot_move Token.placeless_moves] at h
  obtain ⟨root', hexpand, hgenerate⟩ := Except.bind_ok.mp h
  cases (expandAst_eq hshape).symm.trans hexpand
  have hchildren : ∃ t, (root.move Token.placeless).expanded = .block (placed root) t := by
    have hprogram := parse_shape hparse
    cases hprogram with
    | @program decls t =>
      refine ⟨t, ?_⟩
      rw [AstNode.move, AstNode.expanded, AstNode.expanded_list, AstNode.move_list, List.map_map]
      rfl
  obtain ⟨t, heq⟩ := hchildren
  have hshape' := hshape.expanded
  rw [heq] at hshape' hgenerate
  refine ⟨t, ?_, hgenerate⟩
  cases hshape' with
  | program hdecls => exact hdecls

/-- Two sources that declare the same at the top level have the same code for each procedure that they
share, whatever the other procedures do. -/
theorem separately_compiled {fuel fuel' : Nat} {garbage garbage' : List Nat} {toks toks' : List Token}
    {root root' : AstNode} {p p' : Parser} {text text' : List Instr} {data data' : List DataLine}
    {decl decl' : AstNode} {name : String} (hparse : parse fuel garbage toks = .ok root p)
    (hparse' : parse fuel' garbage' toks' = .ok root' p')
    (hnodup : (root.globals.map Prod.fst).Nodup)
    (hshort : ∀ g ∈ root.globals, g.1.length < maxIdentLen)
    (hglobals : root.globals.Perm root'.globals)
    (hcompile : compileRoot root = .ok (text, data))
    (hcompile' : compileRoot root' = .ok (text', data'))
    (hdecl : decl ∈ root.children) (hdecl' : decl' ∈ root'.children)
    (hsame : decl'.move Token.placeless = decl.move Token.placeless)
    (hname : decl.procName? = some name) :
    SameText (root.children.filterMap AstNode.procName?) data data' (procText name text)
      (procText name text') := by
  obtain ⟨t, hshape, hgenerate⟩ := compileRoot_placed hparse hcompile
  obtain ⟨t', hshape', hgenerate'⟩ := compileRoot_placed hparse' hcompile'
  have hnames : (placed root).filterMap AstNode.procName? =
      root.children.filterMap AstNode.procName? := by
    rw [filterMap_procName, placed_globals, filterMap_procName, AstNode.globals]
  have hdeclNames : (placed root).filterMap AstNode.declName? = root.globals.map Prod.fst := by
    rw [← globals_names, placed_globals]
  rw [← hnames]
  apply generate_shared hshape hshape' ?_ ?_ ?_ hgenerate hgenerate' (List.mem_map_of_mem hdecl) ?_ ?_
  · rwa [hdeclNames]
  · rw [hdeclNames]
    intro name hname
    obtain ⟨g, hg, rfl⟩ := List.mem_map.mp hname
    exact hshort g hg
  · rwa [placed_globals, placed_globals]
  · rw [← hsame]
    exact List.mem_map_of_mem hdecl'
  · cases decl
    case proc op ident body type t size => exact hname
    all_goals cases hname

/-- `proc g() int { .. } proc f() int { return g(); }` with these statements in the first body. -/
def calling (body : List Token) : List Token :=
  [{ kind := .kwProc }, .ident "g", { kind := .lparen }, { kind := .rparen }, { kind := .kwTypeInt },
    { kind := .lbrace }] ++ body ++
  [{ kind := .rbrace }, { kind := .kwProc }, .ident "f", { kind := .lparen }, { kind := .rparen },
    { kind := .kwTypeInt }, { kind := .lbrace }, { kind := .kwReturn }, .ident "g", { kind := .lparen },
    { kind := .rparen }, { kind := .semicolon }, { kind := .rbrace }, .eof]

/-- `return 1;` -/
def shortBody : List Token := [{ kind := .kwReturn }, .num 1, { kind := .semicolon }]

/-- `if 1 { } return 2;` -/
def longBody : List Token :=
  [{ kind := .kwIf }, .num 1, { kind := .lbrace }, { kind := .rbrace }, { kind := .kwReturn }, .num 2,
    { kind := .semicolon }]

/-- The tokens of the second procedure. -/
def callerTokens? : AstNode → Option (List Token)
  | .proc op ident (some (.block [.return_ ret (some (.call call (.literal callee .ident) []))] none))
    (.procedure ⟨[], .int⟩) none 0 => some [op, ident, ret, call, callee]
  | _ => none

theorem callerTokens_inj {toks : List Token} (h : callerTokens? node = some toks)
    (h' : callerTokens? node' = some toks) : node = node' := by
  unfold callerTokens? at h h'
  split at h
  · split at h'
    · cases h
      cases h'
      rfl
    · cases h'
  · cases h

theorem callerTokens_name {op ident : Token} {toks : List Token}
    (h : callerTokens? node = some (op :: ident :: toks)) : node.procName? = some ident.value := by
  unfold callerTokens? at h
  split at h
  · cases h
    rfl
  · cases h

def compilesCaller (root : AstNode) : Bool :=
  match root.globals, root.children, compileRoot root with
  | [(g, ⟨.procedure, .procedure ⟨[], .int⟩, 0⟩), (f, ⟨.procedure, .procedure ⟨[], .int⟩, 0⟩)], [_, d],
    .ok _ => g = "g" ∧ f = "f" ∧ callerTokens? (d.move Token.placeless) =
      some [{ kind := .kwProc }, .ident "f", { kind := .kwReturn }, { kind := .lparen }, .ident "g"]
  | _, _, _ => false

theorem of_compilesCaller {toks : List Token} (h : parsesTo compilesCaller 100 toks = true) :
    ∃ root p d₁ d₂ text data, parse 100 [] toks = .ok root p ∧ root.children = [d₁, d₂] ∧
      root.globals = [("g", { kind := .procedure, type := .procedure ⟨[], .int⟩ }),
        ("f", { kind := .procedure, type := .procedure ⟨[], .int⟩ })] ∧
      compileRoot root = .ok (text, data) ∧ callerTokens? (d₂.move Token.placeless) =
        some [{ kind := .kwProc }, .ident "f", { kind := .kwReturn }, { kind := .lparen }, .ident "g"] := by
  obtain ⟨root, p, hparse, htest⟩ := of_parsesTo h
  unfold compilesCaller at htest
  split at htest
  · rename_i g f d₁ d₂ out hglobals hchildren hcompile
    obtain ⟨rfl, rfl, htoks⟩ := of_decide_eq_true htest
    exact ⟨root, p, d₁, d₂, out.1, out.2, hparse, hchildren, hglobals, hcompile, htoks⟩
  · cases htest

theorem separately_compiled_calling : ∃ root root' text data text' data',
    compileRoot root = .ok (text, data) ∧ compileRoot root' = .ok (text', data') ∧
      root.children.filterMap AstNode.procName? = ["g", "f"] ∧
      SameText ["g", "f"] data data' (procText "f" text) (procText "f" text') := by
  obtain ⟨root, p, d₁, d₂, text, data, hparse, hchildren, hglobals, hcompile, htoks⟩ :=
    @of_compilesCaller (calling shortBody) (by decide +kernel)
  obtain ⟨root', p', d₁', d₂', text', data', hparse', hchildren', hglobals', hcompile', htoks'⟩ :=
    @of_compilesCaller (calling longBody) (by decide +kernel)
  have hnames : root.children.filterMap AstNode.procName? = ["g", "f"] := by
    rw [filterMap_procName]
    change root.globals.filterMap _ = _
    rw [hglobals]
    rfl
  have hname : d₂.procName? = some "f" := by
    have hmoved : (d₂.move Token.placeless).procName? = some "f" := callerTokens_name htoks
    cases d₂
    case proc => exact hmoved
    all_goals cases hmoved
  refine ⟨root, root', text, data, text', data', hcompile, hcompile', hnames, ?_⟩
  rw [← hnames]
  exact separately_compiled hparse hparse' (by rw [hglobals]; decide) (by rw [hglobals]; decide)
    (by rw [hglobals, hglobals']) hcompile hcompile' (by simp [hchildren]) (by simp [hchildren'])
    (callerTokens_inj htoks' htoks) hname

end Seron
