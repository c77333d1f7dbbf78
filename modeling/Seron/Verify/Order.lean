import Mathlib.Logic.Relator
import Seron.Verify.Globals
import Seron.Verify.Parallel
import Seron.Verify.Relocation
import Seron.Verify.Strings

/-! # The order of declarations

A program with its declarations in another order is accepted as well, and each procedure has the
same text in both, up to the numbers of its labels and of its strings. -/

namespace Seron

/-- The passes behind the expansion. -/
def generate (root : AstNode) : Except Failure (List Instr × List DataLine) := do
  let (root, st) ← symboltableBuild root
  codegen st.tables root

/-! ## Texts up to numbers -/

/-- The same line with other numbers of labels and strings. The names of procedures stay. -/
inductive SameLine (labels strings : Nat → Nat → Prop) (names : List String) : Instr → Instr → Prop
  | fixed {i : Instr} : i.isFixed = true → SameLine labels strings names i i
  | label {n n' : Nat} {l l' : Label} {mk : Label → Instr} : labels n n' →
    Label.Renumbered n n' l l' → mk ∈ [Instr.jmp, .je, .jne, .label] →
    SameLine labels strings names (mk l) (mk l')
  | string {n n' : Nat} : strings n n' →
    SameLine labels strings names (stringLine n) (stringLine n')
  | proc {name : String} : name ∈ names →
    SameLine labels strings names (.movSym ⟨.rax, .w64⟩ name) (.movSym ⟨.rax, .w64⟩ name)

/-- Under these numbers, the data sections have the same string. -/
def SameString (data data' : List DataLine) (n n' : Nat) : Prop :=
  ∃ contents, [.label n, .db contents] <:+: data ∧ [.label n', .db contents] <:+: data'

/-- The same text up to a one-to-one renumbering, under which strings keep their contents. -/
def SameText (names : List String) (data data' : List DataLine) (text text' : List Instr) : Prop :=
  ∃ labels strings : Nat → Nat → Prop, Relator.BiUnique labels ∧ Relator.BiUnique strings ∧
    (∀ n n', strings n n' → SameString data data' n n') ∧
    List.Forall₂ (SameLine labels strings names) text text'

/-- The numbers that are as far from `a` as from `b`. -/
def Shift (a b n n' : Nat) : Prop := n + b = n' + a

theorem shift_biUnique {a b : Nat} : Relator.BiUnique (Shift a b) := by
  refine ⟨fun n m k h h' => ?_, fun n m k h h' => ?_⟩ <;> unfold Shift at h h' <;> omega

theorem SameString.mono {data data' data₁ data₁' : List DataLine} {n n' : Nat}
    (h : SameString data data' n n') (hdata : data <+: data₁) (hdata' : data' <+: data₁') :
    SameString data₁ data₁' n n' := by
  obtain ⟨contents, hmem, hmem'⟩ := h
  exact ⟨contents, hmem.trans hdata.isInfix, hmem'.trans hdata'.isInfix⟩

theorem SameLine.mono {labels strings strings' : Nat → Nat → Prop} {names : List String} {i i' : Instr}
    (h : SameLine labels strings names i i') (hstrings : ∀ n n', strings n n' → strings' n n') :
    SameLine labels strings' names i i' := by
  cases h with
  | fixed hi => exact .fixed hi
  | label hn hl hmk => exact .label hn hl hmk
  | string hn => exact .string (hstrings _ _ hn)
  | proc hname => exact .proc hname

/-- The numbers that are as far from those of the one start as from those of the other one, and the
strings that both generators have under such numbers. -/
def renumberedStrings (start start' gen gen' : Gen) (n n' : Nat) : Prop :=
  Shift start.dataCount start'.dataCount n n' ∧ SameString gen.bufData gen'.bufData n n'

/-- Generators whose numbers differ by as much as these do. -/
def renumbering (names : List String) (start start' : Gen) : Coupling where
  scopes _ _ := True
  state s s' gen gen' := gen.scope = s ∧ gen'.scope = s' ∧
    Shift start.labelCount start'.labelCount gen.labelCount gen'.labelCount ∧
    Shift start.dataCount start'.dataCount gen.dataCount gen'.dataCount
  line gen gen' := SameLine (Shift start.labelCount start'.labelCount)
    (renumberedStrings start start' gen gen') names
  later hbefore hbefore' hline :=
    hline.mono fun _ _ hn => ⟨hn.1, hn.2.mono hbefore hbefore'⟩

theorem renumbering_lawful {names : List String} {start start' : Gen} :
    (renumbering names start start').Lawful where
  scope h := ⟨trivial, h.1, h.2.1⟩
  enter _ h := ⟨rfl, rfl, h.2.2⟩
  fixed h := .fixed h
  label h := by
    obtain ⟨hs, hs', hlabel, hdata⟩ := h
    refine ⟨hs, hs', ?_, hdata⟩
    unfold Shift at hlabel ⊢
    simp only
    omega
  numbered h hl _ hmk _ _ := .label h.2.2.1 hl hmk
  push h := by
    obtain ⟨hs, hs', hlabel, hdata⟩ := h
    refine ⟨hs, hs', hlabel, ?_⟩
    unfold Shift at hdata ⊢
    simp only [Gen.push]
    omega
  string h := .string ⟨h.2.2.2, _, (List.suffix_append ..).isInfix, (List.suffix_append ..).isInfix⟩

/-- The lines of two emissions from these states on, in programs with these data sections. -/
theorem sameText_of_lines {names : List String} {start start' gen gen' : Gen}
    {text text' : List Instr} {data data' : List DataLine}
    (h : List.Forall₂ ((renumbering names start start').line gen gen') text text')
    (hdata : gen.bufData <+: data) (hdata' : gen'.bufData <+: data') :
    SameText names data data' text text' := by
  refine ⟨_, renumberedStrings start start' gen gen', shift_biUnique, ?_,
    fun n n' hn => hn.2.mono hdata hdata', h⟩
  exact ⟨fun n m k h h' => shift_biUnique.1 h.1 h'.1, fun n m k h h' => shift_biUnique.2 h.1 h'.1⟩

/-! ## Lookups -/

variable {tables tables' : List Hashtable} {names : List String} {scope scope' : Option Nat}

/-- Both scopes answer the same, and procedures under these names only. -/
structure Answers (tables tables' : List Hashtable) (names : List String)
    (scope scope' : Option Nat) : Prop where
  lookup : ∀ key, symboltableLookup tables scope key = symboltableLookup tables' scope' key
  proc : ∀ key sym, symboltableLookup tables scope key = .ok (some sym) → sym.kind = .procedure →
    key ∈ names

theorem lookup_perm {ds ds' : List (String × Symbol)} (h : ds.Perm ds')
    (hnodup : (ds.map Prod.fst).Nodup) (key : String) : ds.lookup key = ds'.lookup key := by
  induction h with
  | nil => rfl
  | cons d _ ih =>
    rw [List.map_cons, List.nodup_cons] at hnodup
    rw [List.lookup_cons, List.lookup_cons, ih hnodup.2]
  | swap d d' ds =>
    rw [List.map_cons, List.map_cons, List.nodup_cons, List.mem_cons, not_or] at hnodup
    rw [List.lookup_cons, List.lookup_cons, List.lookup_cons, List.lookup_cons]
    cases h : key == d.1 <;> cases h' : key == d'.1 <;> try rfl
    exact absurd ((beq_iff_eq.mp h').symm.trans (beq_iff_eq.mp h)) hnodup.1.1
  | trans h _ ih ih' =>
    exact (ih hnodup).trans (ih' ((h.map Prod.fst).nodup_iff.mp hnodup))

/-- The tables of blocks with the same declarations in two programs. -/
theorem Chain.answers {i j : Nat} {inner : List (List (String × Symbol))}
    {ds ds' : List (String × Symbol)} (h : Chain tables (some i) (inner ++ [ds]))
    (h' : Chain tables' (some j) (inner ++ [ds'])) (hperm : ds.Perm ds')
    (hnodup : (ds.map Prod.fst).Nodup) (hinner : ∀ d ∈ inner.flatten, d.2.kind ≠ .procedure)
    (hnames : ∀ d ∈ ds, d.2.kind = .procedure → d.1 ∈ names) :
    Answers tables tables' names (some i) (some j) := by
  have hflat {ds : List (String × Symbol)} : (inner ++ [ds]).flatten = inner.flatten ++ ds := by
    simp
  refine ⟨fun key => ?_, fun key sym hsym hkind => ?_⟩
  · by_cases hkey : key.length < maxIdentLen
    · rw [h.symboltableLookup_short hkey, h'.symboltableLookup_short hkey, hflat, hflat,
        List.lookup_append, List.lookup_append, lookup_perm hperm hnodup]
    · rw [h.symboltableLookup_long (Nat.le_of_not_lt hkey),
        h'.symboltableLookup_long (Nat.le_of_not_lt hkey), hflat, hflat]
      have hmem : (∃ decl ∈ inner.flatten ++ ds, SameEntry key decl.1) ↔
          ∃ decl ∈ inner.flatten ++ ds', SameEntry key decl.1 := by
        simp only [List.mem_append, hperm.mem_iff]
      rw [if_congr hmem rfl rfl]
  · by_cases hkey : key.length < maxIdentLen
    · rw [h.symboltableLookup_short hkey, hflat, Except.ok.injEq] at hsym
      obtain ⟨l, l', heq, -⟩ := List.lookup_eq_some_iff.mp hsym
      have hmem : (key, sym) ∈ inner.flatten ++ ds := by rw [heq]; simp
      rcases List.mem_append.mp hmem with hmem | hmem
      · exact absurd hkind (hinner _ hmem)
      · exact hnames _ hmem hkind
    · rw [h.symboltableLookup_long (Nat.le_of_not_lt hkey)] at hsym
      split at hsym <;> cases hsym

/-! ## Moved declarations -/

variable {K : Coupling} {node : AstNode} {f : Nat → Nat}

section
variable (hK : K.Lawful)
  (hnames : ∀ name ∈ names, ∀ gen gen',
    K.line gen gen' (.movSym ⟨.rax, .w64⟩ name) (.movSym ⟨.rax, .w64⟩ name))

include hK hnames

theorem Answers.literalIdent (h : Answers tables tables' names scope scope') {str : String}
    {addr : Bool} :
    Parallel K scope scope' (literalIdent tables str addr) (literalIdent tables' str addr) :=
  .literalIdent hK (h.lookup str) fun sym hsym hkind => hnames str (h.proc str sym hsym hkind)

/-- Scopes that answer the same. -/
theorem Shape.emit_answers (h : Shape .expr node)
    (hanswers : Answers tables tables' names scope scope') :
    Parallel K scope scope' (emit tables node) (emit tables' node) ∧
      Parallel K scope scope' (emitAddr tables node) (emitAddr tables' node) :=
  h.emit_idents hK fun _ _ _ => hanswers.literalIdent hK hnames

section
variable {ds ds' : List (String × Symbol)} (hscopes : ∀ s s', K.scopes s s') (hperm : ds.Perm ds')
  (hnodup : (ds.map Prod.fst).Nodup) (hprocs : ∀ d ∈ ds, d.2.kind = .procedure → d.1 ∈ names)

include hscopes hperm hnodup hprocs

omit hK hnames hscopes hperm hnodup hprocs in
theorem variables_kind (stmts : List AstNode) :
    ∀ d ∈ stmts.flatMap AstNode.declared, d.2.kind ≠ .procedure := by
  intro d hd
  obtain ⟨stmt, -, hd⟩ := List.mem_flatMap.mp hd
  unfold AstNode.declared at hd
  split at hd
  · rw [List.mem_singleton.mp hd]
    simp
  · cases hd

omit hK hnames hscopes hperm hnodup hprocs in
theorem declareds_moved (stmts : List AstNode) :
    (stmts.map (AstNode.moved f)).flatMap AstNode.declared = stmts.flatMap AstNode.declared := by
  rw [List.flatMap_map]
  exact List.flatMap_congr fun stmt _ => stmt.declared_moved

omit hK hnames hscopes hperm hnodup hprocs in
theorem emits_moved {stmts : List AstNode} {s s' : Option Nat}
    (ih : ∀ stmt ∈ stmts, Parallel K s s' (emit tables stmt) (emit tables' (stmt.moved f))) :
    List.Forall₂ (Parallel K s s') (emits tables stmts)
      (emits tables' (stmts.map (AstNode.moved f))) := by
  induction stmts with
  | nil => exact .nil
  | cons stmt stmts ihs =>
    obtain ⟨hstmt, hstmts⟩ := List.forall_mem_cons.mp ih
    exact .cons hstmt (ihs hstmts)

/-- A statement in two programs with the same declarations in another order. -/
theorem Shape.emit_moved {lo lo' i j : Nat} {inner : List (List (String × Symbol))}
    (h : Shape .stmt node) (hscoped : Scoped tables lo (some i) node)
    (hscoped' : Scoped tables' lo' (some j) (node.moved f))
    (hchain : Chain tables (some i) (inner ++ [ds]))
    (hchain' : Chain tables' (some j) (inner ++ [ds']))
    (hinner : ∀ d ∈ inner.flatten, d.2.kind ≠ .procedure) :
    Parallel K (some i) (some j) (emit tables node) (emit tables' (node.moved f)) := by
  induction node using AstNode.parts_induct generalizing lo lo' i j inner with
  | step node ih =>
    have hanswers := hchain.answers hchain' hperm hnodup hinner hprocs
    have expr {e : AstNode} (he : Shape .expr e) :
        Parallel K (some i) (some j) (emit tables e) (emit tables' e) :=
      (he.emit_answers hK hnames hanswers).1
    have opt {o : Option AstNode} (ho : ∀ e ∈ o, Shape .expr e) :
        Option.Rel (Parallel K (some i) (some j)) (emitOpt tables o) (emitOpt tables' o) := by
      cases o with
      | none => exact .none
      | some e => exact .some (expr (ho e rfl))
    cases h with
    | exprstmt he =>
      rw [he.moved_expr]
      exact expr he
    | @vardecl op ident init type offset hinit =>
      change Parallel K (some i) (some j) (emit tables (.vardecl op ident init type offset))
        (emit tables' (.vardecl op ident init type offset))
      rw [emit, emit]
      exact .bind (.vardecl hK (opt hinit)) fun _ => .pure
    | @return_ op value hvalue =>
      change Parallel K (some i) (some j) (emit tables (.return_ op value))
        (emit tables' (.return_ op value))
      rw [emit, emit]
      exact .bind (.return_ hK (opt hvalue)) fun _ => .pure
    | @for_ op ident cond step body init type =>
      change Parallel K (some i) (some j) (emit tables (.for_ op none cond step body type ident init))
        (emit tables' (.for_ op none cond step body type ident init))
      rw [emit, emit]
      exact .fail
    | blockstmt h =>
      cases h with
      | @block stmts t hstmts =>
        rw [AstNode.moved_block] at hscoped' ⊢
        rw [emit, emit]
        obtain ⟨ht, hchain, hscopeds⟩ := hscoped.enter hchain
        obtain ⟨-, hchain', hscopeds'⟩ := hscoped'.enter hchain'
        obtain ⟨t, rfl⟩ := Option.ne_none_iff_exists'.mp ht
        rw [← List.cons_append] at hchain
        rw [declareds_moved, ← List.cons_append] at hchain'
        refine .bind (.block hK (hscopes _ _) (emits_moved fun stmt hstmt => ?_)) fun _ => .pure
        obtain ⟨lo, hstmt_scoped⟩ := hscopeds stmt hstmt
        obtain ⟨lo', hstmt_scoped'⟩ := hscopeds' _ (List.mem_map_of_mem hstmt)
        refine ih stmt hstmt (hstmts stmt hstmt) hstmt_scoped hstmt_scoped' hchain hchain' ?_
        rw [List.flatten_cons]
        exact List.forall_mem_append.mpr ⟨variables_kind stmts, hinner⟩
    | @if_ op cond thenBody elseBody hcond hthen helse =>
      rw [AstNode.moved, AstNode.moved_opt] at hscoped' ⊢
      cases hscoped with
      | other _ hchildren =>
        cases hscoped' with
        | other _ hchildren' =>
          rw [emit, emit]
          refine .bind (.cond hK (expr hcond) ?_ ?_) fun _ => .pure
          · exact ih thenBody (by simp [AstNode.parts, AstNode.children]) (.blockstmt hthen)
              (hchildren _ (by simp [AstNode.children])) (hchildren' _ (by simp [AstNode.children]))
              hchain hchain' hinner
          · cases elseBody with
            | none => exact .none
            | some elseBody =>
              exact .some (ih elseBody (by simp [AstNode.parts, AstNode.children])
                (.blockstmt (helse _ rfl)) (hchildren _ (by simp [AstNode.children]))
                (hchildren' _ (by simp [AstNode.children])) hchain hchain' hinner)
    | @while_ op cond body hcond hbody =>
      rw [AstNode.moved] at hscoped' ⊢
      cases hscoped with
      | other _ hchildren =>
        cases hscoped' with
        | other _ hchildren' =>
          rw [emit, emit]
          refine .bind (.while_ hK (expr hcond) ?_) fun _ => .pure
          exact ih body (by simp [AstNode.parts, AstNode.children]) (.blockstmt hbody)
            (hchildren _ (by simp [AstNode.children])) (hchildren' _ (by simp [AstNode.children]))
            hchain hchain' hinner

/-- A declaration in both programs. -/
theorem Shape.emit_decl_moved {lo lo' : Nat} (h : Shape .decl node)
    (hscoped : node.kind = .proc → ProcScoped tables lo (some 0) node)
    (hscoped' : (node.moved f).kind = .proc → ProcScoped tables' lo' (some 0) (node.moved f))
    (hchain : Chain tables (some 0) [ds]) (hchain' : Chain tables' (some 0) [ds']) :
    Parallel K (some 0) (some 0) (emit tables node) (emit tables' (node.moved f)) := by
  cases h with
  | @table op ident type =>
    change Parallel K (some 0) (some 0) (emit tables (.table op ident type))
      (emit tables' (.table op ident type))
    rw [emit, emit]
    exact .pure
  | @proc op ident body sig table size hbody =>
    cases body with
    | none =>
      change Parallel K (some 0) (some 0)
        (emit tables (.proc op ident none (.procedure sig) table size))
        (emit tables' (.proc op ident none (.procedure sig) table size))
      rw [emit, emit]
      exact .bind (.proc hK .none) fun _ => .pure
    | some body =>
      obtain ⟨stmts, t, ht, rfl, -, hget, hparent, hlt, hbinds, hstmts⟩ := hscoped rfl _ _ _ _ _ _ rfl
      rw [AstNode.moved, AstNode.moved_block, Option.map_some] at hscoped' ⊢
      obtain ⟨stmts', t', ht', heq, -, hget', hparent', hlt', hbinds', hstmts'⟩ :=
        hscoped' rfl _ _ _ _ _ _ rfl
      cases heq
      rw [declareds_moved] at hbinds'
      have hbody_chain := Chain.cons hget hbinds (hparent ▸ hlt) (hparent ▸ hchain)
      have hbody_chain' := Chain.cons hget' hbinds' (hparent' ▸ hlt') (hparent' ▸ hchain')
      have hkinds : ∀ d ∈ [stmts.flatMap AstNode.declared ++ sig.params.map Param.declared].flatten,
          d.2.kind ≠ .procedure := by
        rw [List.flatten_singleton]
        refine List.forall_mem_append.mpr ⟨variables_kind stmts, fun d hd => ?_⟩
        obtain ⟨param, -, rfl⟩ := List.mem_map.mp hd
        simp [Param.declared]
      rw [emit, emit, emitOpt, emitOpt, emit, emit]
      refine .bind (.proc hK (.some (.bind (.block hK (hscopes _ _) ?_) fun _ => .pure)))
        fun _ => .pure
      refine emits_moved fun stmt hstmt => ?_
      cases hbody _ rfl with
      | block hshapes =>
        exact (hshapes stmt hstmt).emit_moved hK hnames hscopes hperm hnodup hprocs
          (hstmts stmt hstmt) (hstmts' _ (List.mem_map_of_mem hstmt)) hbody_chain hbody_chain' hkinds

end

end

/-! ## Texts of procedures -/

/-- The name in the first line of a procedure. -/
def Instr.opens? : Instr → Option String
  | .global ident | .externDecl ident => some ident
  | _ => none

/-- The lines of the procedure with the name, up to those of the next procedure. -/
def procText (name : String) (text : List Instr) : List Instr :=
  match text.dropWhile (fun i => i.opens? ≠ some name) with
  | [] => []
  | i :: rest => i :: rest.takeWhile (fun i => i.opens? = none)

/-- The text of a declaration: that of a procedure starts with its name, and only there. -/
def IsDeclText (node : AstNode) (text : List Instr) : Prop :=
  match node.procName? with
  | some name => ∃ i rest, text = i :: rest ∧ i.opens? = some name ∧ ∀ j ∈ rest, j.opens? = none
  | none => text = []

variable {gen gen' : Gen} {ty : Ty} {text : List Instr} {nodes : List AstNode}
  {texts : List (List Instr)}

theorem opens_of_isLocal {i : Instr} (h : i.isLocal = true) : i.opens? = none := by
  cases i <;> first | rfl | cases h

theorem emit_decl_text (hshape : Shape .decl node)
    (h : emit tables node gen = .ok (ty, text, gen')) : IsDeclText node text := by
  cases hshape with
  | table =>
    obtain ⟨-, rfl, -⟩ := Emit.pure_ok.mp h
    exact rfl
  | @proc op ident body sig table size hbody =>
    rw [emit] at h
    obtain ⟨-, hproc⟩ := statement_ok.mp h
    cases body with
    | none =>
      obtain ⟨rfl, -⟩ := genWrite_ok.mp hproc
      exact ⟨_, [], rfl, rfl, List.forall_mem_nil _⟩
    | some body =>
      have hfree : body.AllKinds (· ≠ .proc) := (hbody body rfl).procFree (by simp) (by simp)
      obtain ⟨rest, rfl, hrest⟩ := proc_symbols (emit_chained nameless_chains hfree).1 hproc
      refine ⟨_, _, rfl, rfl, List.forall_mem_cons.mpr ⟨rfl, fun j hj => ?_⟩⟩
      exact opens_of_isLocal (hrest j hj)

theorem procText_skip {name : String} {front rest : List Instr}
    (h : ∀ i ∈ front, i.opens? ≠ some name) : procText name (front ++ rest) = procText name rest := by
  unfold procText
  rw [List.dropWhile_append_of_pos fun i hi => by simpa using h i hi]

/-- The text of a procedure ends where the next one starts. -/
theorem takeWhile_texts (h : List.Forall₂ IsDeclText nodes texts) :
    texts.flatten.takeWhile (fun i => i.opens? = none) = [] := by
  induction h with
  | nil => rfl
  | @cons node text nodes texts hdecl _ ih =>
    unfold IsDeclText at hdecl
    split at hdecl
    · obtain ⟨i, rest, rfl, hopens, -⟩ := hdecl
      simp [hopens]
    · subst hdecl
      exact ih

/-- The text of each procedure is found in that of the program. -/
theorem procText_flatten (h : List.Forall₂ IsDeclText nodes texts)
    (hnodup : (nodes.filterMap AstNode.procName?).Nodup) {name : String}
    (hmem : (node, text) ∈ nodes.zip texts) (hname : node.procName? = some name) :
    procText name texts.flatten = text := by
  induction h with
  | nil => cases hmem
  | @cons first firstText nodes texts hdecl hrest ih =>
    rw [List.zip_cons_cons] at hmem
    unfold IsDeclText at hdecl
    rcases List.mem_cons.mp hmem with heq | htail
    · cases heq
      simp only [hname] at hdecl
      obtain ⟨i, rest, rfl, hopens, hlines⟩ := hdecl
      have htake : (rest ++ texts.flatten).takeWhile (fun i => i.opens? = none) = rest := by
        rw [List.takeWhile_append_of_pos fun j hj => by simpa using hlines j hj,
          takeWhile_texts hrest, List.append_nil]
      rw [List.flatten_cons, List.cons_append, procText,
        List.dropWhile_cons_of_neg (by simp [hopens])]
      exact congrArg (i :: ·) htake
    · have hlater : name ∈ nodes.filterMap AstNode.procName? :=
        List.mem_filterMap.mpr ⟨node, (List.of_mem_zip htail).1, hname⟩
      rw [List.flatten_cons]
      split at hdecl
      · rename_i other hother
        rw [List.filterMap_cons, hother, List.nodup_cons] at hnodup
        obtain ⟨i, rest, rfl, hopens, hlines⟩ := hdecl
        have hne : other ≠ name := by
          rintro rfl
          exact hnodup.1 hlater
        rw [procText_skip, ih hnodup.2 htail]
        refine List.forall_mem_cons.mpr ⟨by simpa [hopens] using hne, fun j hj => ?_⟩
        simp [hlines j hj]
      · rename_i hother
        rw [List.filterMap_cons, hother] at hnodup
        subst hdecl
        exact ih hnodup htail

/-! ## Programs -/

/-- A declaration has this text in the scope of the program with the data section. -/
structure EmittedAs (tables : List Hashtable) (data : List DataLine) (node : AstNode)
    (text : List Instr) : Prop where
  emitted : ∃ gen ty gen', gen.scope = some 0 ∧ emit tables node gen = .ok (ty, text, gen') ∧
    gen'.bufData <+: data
  isText : IsDeclText node text

theorem emitSeq_texts (h : emitSeq (emits tables nodes) gen = .ok ((), text, gen'))
    (hshape : ∀ n ∈ nodes, Shape .decl n) (hscope : gen.scope = some 0) :
    gen.bufData <+: gen'.bufData ∧
      ∃ texts, List.Forall₂ (EmittedAs tables gen'.bufData) nodes texts ∧ text = texts.flatten := by
  induction nodes generalizing gen text with
  | nil =>
    obtain ⟨-, rfl, rfl⟩ := Emit.pure_ok.mp h
    exact ⟨List.prefix_rfl, [], .nil, rfl⟩
  | cons node nodes ih =>
    obtain ⟨ty, t₁, gen₁, t₂, hnode, hrest, rfl⟩ := discard_bind_ok.mp h
    obtain ⟨hfirst, hothers⟩ := List.forall_mem_cons.mp hshape
    obtain ⟨hdata, texts, htexts, rfl⟩ := ih hrest hothers ((emit_checked hnode).2.trans hscope)
    have hemitted : EmittedAs tables gen'.bufData node t₁ :=
      ⟨⟨gen, ty, gen₁, hscope, hnode, hdata⟩, emit_decl_text hfirst hnode⟩
    have hpushed : gen.bufData <+: gen₁.bufData := (emit_pushes hnode).2 ▸ List.prefix_append ..
    exact ⟨hpushed.trans hdata, t₁ :: texts, .cons hemitted htexts, rfl⟩

theorem emitSeq_of_each (h : ∀ node ∈ nodes, ∀ gen, gen.scope = some 0 →
      ∃ r, emit tables node gen = .ok r) (hscope : gen.scope = some 0) :
    ∃ text gen', emitSeq (emits tables nodes) gen = .ok ((), text, gen') := by
  induction nodes generalizing gen with
  | nil => exact ⟨[], gen, rfl⟩
  | cons node nodes ih =>
    obtain ⟨hfirst, hrest⟩ := List.forall_mem_cons.mp h
    obtain ⟨⟨ty, t₁, gen₁⟩, hnode⟩ := hfirst gen hscope
    obtain ⟨t₂, gen₂, hseq⟩ := ih hrest ((emit_checked hnode).2.trans hscope)
    exact ⟨_, gen₂, discard_bind_ok.mpr ⟨ty, t₁, gen₁, t₂, hnode, hseq, rfl⟩⟩

/-- The code of a program is that of its declarations. -/
theorem codegen_block_ok {data : List DataLine} :
    codegen tables (.block nodes (some 0)) = .ok (text, data) ↔
      ∃ gen', emitSeq (emits tables nodes) { scope := some 0 } = .ok ((), text, gen') ∧
        data = gen'.bufData := by
  constructor
  · intro h
    obtain ⟨⟨ty, text', gen⟩, hemit, heq⟩ := Except.bind_ok.mp h
    cases heq
    rw [emit] at hemit
    obtain ⟨-, hblock⟩ := statement_ok.mp hemit
    obtain ⟨gen₁, hseq, rfl⟩ := block_ok hblock
    exact ⟨gen₁, hseq, rfl⟩
  · rintro ⟨gen₁, hseq, rfl⟩
    refine Except.bind_ok.mpr ⟨(.void, text, { gen₁ with scope := none }), ?_, rfl⟩
    rw [emit]
    refine statement_ok.mpr ⟨rfl, ?_⟩
    rw [block, getGen_bind_ok, modifyGen_bind_ok]
    exact Emit.bind_ok.mpr ⟨(), text, gen₁, [], hseq, modifyGen_ok.mpr ⟨rfl, rfl⟩,
      (List.append_nil _).symm⟩

/-! ### Names -/

theorem AstNode.procName?_withChildren (node : AstNode) (nodes : List AstNode) :
    (node.withChildren nodes).procName? = node.procName? := by
  unfold withChildren
  split <;> rfl

theorem AstNode.procName?_moved (node : AstNode) : (node.moved f).procName? = node.procName? := by
  cases node
  case proc op ident body type t size => cases body <;> rfl
  all_goals rfl

theorem buildTo_procName {depth : Nat} {node' : AstNode} {st st' : Symboltable}
    (h : buildTo depth node st = .ok (node', st')) : node'.procName? = node.procName? := by
  obtain ⟨d, node₁, st₁, nodes, st₂, -, hpre, -, -, hpost⟩ := buildTo_ok h
  have hfirst : node₁.procName? = node.procName? := by cases hpre <;> rfl
  have hlast : node'.procName? = (node₁.withChildren nodes).procName? := by
    generalize node₁.withChildren nodes = n at hpost
    cases hpost <;> rfl
  rw [hlast, AstNode.procName?_withChildren, hfirst]

theorem symboltableBuild_procNames {decls : List AstNode} {t t' : Option Nat} {st : Symboltable}
    (hshape : ∀ d ∈ decls, Shape .decl d)
    (h : symboltableBuild (.block decls t) = .ok (.block nodes t', st)) :
    nodes.filterMap AstNode.procName? = decls.filterMap AstNode.procName? := by
  obtain ⟨decls, t, nodes, st₁, ht, heq, -, hlist, -, heq', -⟩ :=
    symboltableBuild_block (.program hshape) h
  cases heq
  cases heq'
  have hnames := forall₂_of_traverseList (R := fun d n => n.procName? = d.procName?)
    (fun _ _ _ _ h => buildTo_procName h) hlist
  clear hlist h hshape
  induction hnames with
  | nil => rfl
  | cons hname _ ih => rw [List.filterMap_cons, List.filterMap_cons, hname, ih]

theorem globals_names (decls : List AstNode) :
    (decls.flatMap AstNode.global).map Prod.fst = decls.filterMap AstNode.declName? := by
  induction decls with
  | nil => rfl
  | cons d decls ih =>
    rw [List.flatMap_cons, List.map_append, ih]
    cases d <;> rfl

theorem globals_procNames {decls : List AstNode} {d : String × Symbol}
    (hd : d ∈ decls.flatMap AstNode.global) (hkind : d.2.kind = .procedure) :
    d.1 ∈ decls.filterMap AstNode.procName? := by
  obtain ⟨decl, hdecl, hd⟩ := List.mem_flatMap.mp hd
  refine List.mem_filterMap.mpr ⟨decl, hdecl, ?_⟩
  unfold AstNode.global at hd
  split at hd
  · rw [List.mem_singleton.mp hd]
    rfl
  · rw [List.mem_singleton.mp hd] at hkind
    cases hkind
  · cases hd

/-! ### Both orders -/

theorem rootChain {decls : List AstNode} {t : Option Nat} {root : AstNode} {st : Symboltable}
    (hshape : ∀ d ∈ decls, Shape .decl d) (h : symboltableBuild (.block decls t) = .ok (root, st)) :
    Chain st.tables (some 0) [decls.flatMap AstNode.global] := by
  obtain ⟨⟨ht, hget, hparent, hbinds⟩, -⟩ := symboltableBuild_scoped (.program hshape) h
  exact .cons hget hbinds (by simp [hparent]) (hparent ▸ .nil)

theorem buildTo_declShapes {decls : List AstNode} {t t' : Option Nat} {st : Symboltable}
    (hshape : ∀ d ∈ decls, Shape .decl d)
    (h : symboltableBuild (.block decls t) = .ok (.block nodes t', st)) :
    ∀ n ∈ nodes, Shape .decl n := by
  have hprogram : Shape .program (.block nodes t') :=
    Shape.annotated (.program hshape) (symboltableBuild_ok.mp h)
  cases hprogram with
  | program hnodes => exact hnodes

theorem procScoped_of_mem {decls : List AstNode} {t t' : Option Nat} {st : Symboltable}
    (hshape : ∀ d ∈ decls, Shape .decl d)
    (h : symboltableBuild (.block decls t) = .ok (.block nodes t', st)) (hnode : node ∈ nodes) :
    node.kind = .proc → ProcScoped st.tables 1 (some 0) node := by
  obtain ⟨-, hscoped⟩ := symboltableBuild_scoped (.program hshape) h
  exact hscoped node (AstNode.mem_subtrees.mpr (.inr ⟨node, hnode,
    AstNode.mem_subtrees.mpr (.inl rfl)⟩))

/-- An accepted program is accepted in every other order, with the same texts. -/
theorem generate_permuted {decls decls' : List AstNode} {t : Option Nat} {data : List DataLine}
    (hshape : ∀ d ∈ decls, Shape .decl d) (hnodup : (decls.filterMap AstNode.declName?).Nodup)
    (hshort : ∀ name ∈ decls.filterMap AstNode.declName?, name.length < maxIdentLen)
    (hperm : decls.Perm decls') (h : generate (.block decls t) = .ok (text, data)) :
    ∃ text' data', generate (.block decls' t) = .ok (text', data') ∧
      ∀ name ∈ decls.filterMap AstNode.procName?,
        SameText (decls.filterMap AstNode.procName?) data data' (procText name text)
          (procText name text') := by
  obtain ⟨⟨root, st⟩, hbuild, hcodegen⟩ := Except.bind_ok.mp h
  have hshape' : ∀ d ∈ decls', Shape .decl d := fun d hd => hshape d (hperm.mem_iff.mpr hd)
  have hshorts : ∀ d ∈ decls, ∀ g ∈ d.global, g.1.length < maxIdentLen := by
    intro d hd g hg
    refine hshort g.1 ?_
    rw [← globals_names]
    exact List.mem_map_of_mem (List.mem_flatMap.mpr ⟨d, hd, hg⟩)
  obtain ⟨nodes, nodes', st', rfl, hbuild', hmoved⟩ :=
    symboltableBuild_permuted hshape hbuild hshorts hperm
  have hparallel {n : AstNode} {lo lo' : Nat} (hn : n ∈ nodes)
      (hn' : n.moved (moveTable lo lo') ∈ nodes') (start start' : Gen) :
      Parallel (renumbering (decls.filterMap AstNode.procName?) start start') (some 0) (some 0)
        (emit st.tables n) (emit st'.tables (n.moved (moveTable lo lo'))) :=
    (buildTo_declShapes hshape hbuild n hn).emit_decl_moved renumbering_lawful (fun _ h _ _ => .proc h)
      (fun _ _ => trivial) (hperm.flatMap_right _) (by rwa [globals_names])
      (fun _ hd hkind => globals_procNames hd hkind) (procScoped_of_mem hshape hbuild hn)
      (procScoped_of_mem hshape' hbuild' hn') (rootChain hshape hbuild) (rootChain hshape' hbuild')
  have hstart {start start' : Gen} (h : start.scope = some 0) (h' : start'.scope = some 0) :
      (renumbering (decls.filterMap AstNode.procName?) start start').state (some 0) (some 0) start
        start' := ⟨h, h', Nat.add_comm .., Nat.add_comm ..⟩
  obtain ⟨gen, hseq, rfl⟩ := codegen_block_ok.mp hcodegen
  obtain ⟨-, texts, htexts, rfl⟩ := emitSeq_texts hseq (buildTo_declShapes hshape hbuild) rfl
  obtain ⟨text', gen', hseq'⟩ : ∃ text' gen',
      emitSeq (emits st'.tables nodes') { scope := some 0 } = .ok ((), text', gen') := by
    refine emitSeq_of_each (fun n' hn' start' hscope' => ?_) rfl
    obtain ⟨n, hn, lo, lo', -, rfl⟩ := hmoved n' hn'
    obtain ⟨t, -, ⟨start, ty, gen₁, hscope, hemit, -⟩, -⟩ := exists_of_forall₂ htexts hn
    obtain ⟨t', gen₁', hemit', -, -⟩ :=
      (hparallel hn hn' start start').ok (hstart hscope hscope') hemit
    exact ⟨_, hemit'⟩
  have hcodegen' := codegen_block_ok.mpr ⟨gen', hseq', rfl⟩
  refine ⟨text', _, Except.bind_ok.mpr ⟨_, hbuild', hcodegen'⟩, fun name hname => ?_⟩
  obtain ⟨-, texts', htexts', rfl⟩ := emitSeq_texts hseq' (buildTo_declShapes hshape' hbuild') rfl
  have hnames := symboltableBuild_procNames hshape hbuild
  have hnames' := symboltableBuild_procNames hshape' hbuild'
  have hprocs : (decls.filterMap AstNode.procName?).Nodup :=
    hnodup.sublist (AstNode.procNames_sublist decls)
  have hprocs' : (decls'.filterMap AstNode.procName?).Nodup :=
    (hperm.filterMap _).nodup_iff.mp hprocs
  rw [← hnames'] at hprocs'
  obtain ⟨n', hn', hname'⟩ : ∃ n' ∈ nodes', n'.procName? = some name :=
    List.mem_filterMap.mp (hnames' ▸ (hperm.filterMap _).mem_iff.mp hname)
  obtain ⟨n, hn, lo, lo', -, rfl⟩ := hmoved n' hn'
  rw [AstNode.procName?_moved] at hname'
  obtain ⟨t, hzip, ⟨start, ty, gen₁, hscope, hemit, hdata⟩, -⟩ := exists_of_forall₂ htexts hn
  obtain ⟨t', hzip', ⟨start', ty', gen₁', hscope', hemit', hdata'⟩, -⟩ :=
    exists_of_forall₂ htexts' hn'
  rw [procText_flatten (htexts.imp fun _ _ h => h.isText) (hnames ▸ hprocs) hzip hname',
    procText_flatten (htexts'.imp fun _ _ h => h.isText) hprocs' hzip'
      ((AstNode.procName?_moved n).trans hname')]
  obtain ⟨t'', gen₂, hemit'', hlines, -⟩ :=
    (hparallel hn hn' start start').ok (hstart hscope hscope') hemit
  cases hemit'.symm.trans hemit''
  exact sameText_of_lines hlines hdata hdata'

/-- The order of the declarations decides neither whether a program is accepted nor the texts of its
procedures. -/
theorem order_irrelevant {fuel : Nat} {garbage : List Nat} {toks : List Token} {root : AstNode}
    {decls decls' : List AstNode} {t : Option Nat} {p : Parser}
    (hparse : parse fuel garbage toks = .ok root p) (hexpand : expandAst root = .ok (.block decls t))
    (hnodup : (decls.filterMap AstNode.declName?).Nodup)
    (hshort : ∀ name ∈ decls.filterMap AstNode.declName?, name.length < maxIdentLen)
    (hperm : decls.Perm decls') :
    ((∃ out, generate (.block decls t) = .ok out) ↔ ∃ out, generate (.block decls' t) = .ok out) ∧
      ∀ text data text' data', generate (.block decls t) = .ok (text, data) →
        generate (.block decls' t) = .ok (text', data') →
        ∀ name ∈ decls.filterMap AstNode.procName?,
          SameText (decls.filterMap AstNode.procName?) data data' (procText name text)
            (procText name text') := by
  have hshape : ∀ d ∈ decls, Shape .decl d := by
    have hprogram := parse_shape hparse
    have hexpanded := hprogram.expanded
    rw [Except.ok.inj ((expandAst_eq hprogram).symm.trans hexpand)] at hexpanded
    cases hexpanded with
    | program hdecls => exact hdecls
  have hshape' : ∀ d ∈ decls', Shape .decl d := fun d hd => hshape d (hperm.mem_iff.mpr hd)
  have hnames := hperm.filterMap AstNode.declName?
  refine ⟨⟨?_, ?_⟩, ?_⟩
  · intro ⟨⟨text, data⟩, h⟩
    obtain ⟨text', data', h', -⟩ := generate_permuted hshape hnodup hshort hperm h
    exact ⟨_, h'⟩
  · intro ⟨⟨text, data⟩, h⟩
    obtain ⟨text', data', h', -⟩ := generate_permuted hshape' (hnames.nodup_iff.mp hnodup)
      (fun name hname => hshort name (hnames.mem_iff.mpr hname)) hperm.symm h
    exact ⟨_, h'⟩
  · intro text data text' data' h h' name hname
    obtain ⟨text'', data'', h'', hsame⟩ := generate_permuted hshape hnodup hshort hperm h
    cases h'.symm.trans h''
    exact hsame name hname

/-- `proc f() void { g(); } proc g() void { if 1 { } }` -/
def calledEarlier : List Token :=
  [{ kind := .kwProc }, .ident "f", { kind := .lparen }, { kind := .rparen },
    { kind := .kwTypeVoid }, { kind := .lbrace },
    .ident "g", { kind := .lparen }, { kind := .rparen }, { kind := .semicolon }, { kind := .rbrace },
    { kind := .kwProc }, .ident "g", { kind := .lparen }, { kind := .rparen },
    { kind := .kwTypeVoid }, { kind := .lbrace },
    { kind := .kwIf }, .num 1, { kind := .lbrace }, { kind := .rbrace }, { kind := .rbrace }, .eof]

/-- Whether an accepted program has two declarations with different short names. -/
def twoAccepted (root root' : AstNode) (tables : List Hashtable) : Bool :=
  match root, codegen tables root' with
  | .block decls _, .ok _ => decls.length = 2 ∧ (decls.filterMap AstNode.declName?).Nodup ∧
      ∀ name ∈ decls.filterMap AstNode.declName?, name.length < maxIdentLen
  | _, _ => false

theorem calledEarlier_accepted : ∃ root p decls t, parse 100 [] calledEarlier = .ok root p ∧
    expandAst root = .ok (.block decls t) ∧ decls.length = 2 ∧
    (decls.filterMap AstNode.declName?).Nodup ∧
    (∀ name ∈ decls.filterMap AstNode.declName?, name.length < maxIdentLen) ∧
    ∃ out, generate (.block decls t) = .ok out := by
  obtain ⟨root, p, root', root'', st, hparse, hexpand, hbuild, htest⟩ :=
    @of_annotatesTo twoAccepted 100 calledEarlier (by decide +kernel)
  unfold twoAccepted at htest
  split at htest
  · rename_i decls t out hcodegen
    obtain ⟨hlen, hnodup, hshort⟩ := of_decide_eq_true htest
    exact ⟨root, p, decls, t, hparse, hexpand, hlen, hnodup, hshort, out,
      Except.bind_ok.mpr ⟨_, hbuild, hcodegen⟩⟩
  · cases htest

theorem order_irrelevant_calledEarlier : ∃ decls t, decls.length = 2 ∧
    (∃ out, generate (.block decls t) = .ok out) ∧
    ((∃ out, generate (.block decls t) = .ok out) ↔
      ∃ out, generate (.block decls.reverse t) = .ok out) ∧
    ∀ text data text' data', generate (.block decls t) = .ok (text, data) →
      generate (.block decls.reverse t) = .ok (text', data') →
      ∀ name ∈ decls.filterMap AstNode.procName?,
        SameText (decls.filterMap AstNode.procName?) data data' (procText name text)
          (procText name text') := by
  obtain ⟨root, p, decls, t, hparse, hexpand, hlen, hnodup, hshort, haccepted⟩ :=
    calledEarlier_accepted
  exact ⟨decls, t, hlen, haccepted,
    order_irrelevant hparse hexpand hnodup hshort (List.reverse_perm decls).symm⟩

end Seron
