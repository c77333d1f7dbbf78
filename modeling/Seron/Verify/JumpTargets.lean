import Seron.Verify.Globals
import Seron.Verify.Hygiene

/-! # Jump targets

A local label belongs to the procedure label in front of it. The labels of the statements of one
procedure have different numbers, and so between two procedure labels each jump has one target. -/

namespace Seron

open ControlFlow

/-! ## The part of the text that belongs to a procedure -/

/-- The name of a label in the text. -/
def Label.text : Label → String
  | .proc ident => ident
  | .else_ n => s!".else{n}"
  | .end_ n => s!".end{n}"
  | .while_ n => s!".while{n}"
  | .cond n => s!".cond{n}"
  | .return_ => ".return"

/-- The lines in front of the next label of a procedure. -/
def untilProc (text : List Instr) : List Instr := text.takeWhile (·.defines? = none)

/-- The names of the labels among some lines. -/
def labelNames (text : List Instr) : List String := (labels (text.map Instr.line)).map Label.text

/-- The names that some lines jump to. -/
def jumpNames (text : List Instr) : List String := (jumps (text.map Instr.line)).map Label.text

/-- No label is defined twice, and each that is jumped to once. -/
structure TargetsUnique (text : List Instr) : Prop where
  nodup : (labelNames text).Nodup
  once : ∀ l ∈ jumpNames text, (labelNames text).count l = 1

variable {text text' after : List Instr} {name : String}

theorem untilProc_append (h : ∀ i ∈ text, i.defines? = none) :
    untilProc (text ++ text') = text ++ untilProc text' :=
  List.takeWhile_append_of_pos fun i hi => decide_eq_true (h i hi)

/-- A procedure label is not among lines without one. -/
theorem suffix_of_suffix_append (h : ∀ i ∈ text, i.defines? = none)
    (hsuffix : .label (.proc name) :: after <:+ text ++ text') :
    .label (.proc name) :: after <:+ text' := by
  induction text with
  | nil => exact hsuffix
  | cons i text ih =>
    obtain ⟨hi, htext⟩ := List.forall_mem_cons.mp h
    rcases List.suffix_cons_iff.mp hsuffix with heq | hsuffix
    · cases heq
      cases hi
    · exact ih htext hsuffix

/-! ## Local labels -/

/-- The labels of statements and the one at the end of a procedure. -/
def Label.Local (l : Label) : Prop := l = .return_ ∨ ∃ k n, l = .marked k n

/-- The characters in front of the number of a label. -/
def stem : Mark → List Char
  | .else_ => ['.', 'e', 'l', 's', 'e']
  | .end_ => ['.', 'e', 'n', 'd']
  | .while_ => ['.', 'w', 'h', 'i', 'l', 'e']
  | .cond => ['.', 'c', 'o', 'n', 'd']

theorem text_marked (k : Mark) (n : Nat) :
    (Label.marked k n).text.toList = stem k ++ Nat.toDigits 10 n := by
  cases k <;> exact String.toList_append.trans (congrArg _ Nat.toList_repr)

theorem text_return : Label.return_.text.toList = ['.', 'r', 'e', 't', 'u', 'r', 'n'] := rfl

theorem stem_append_inj {k k' : Mark} {cs cs' : List Char} (h : stem k ++ cs = stem k' ++ cs') :
    k = k' ∧ cs = cs' := by
  cases k <;> cases k' <;> simp_all [stem]

theorem stem_append_ne {k : Mark} {cs : List Char} : stem k ++ cs ≠ Label.return_.text.toList := by
  rw [text_return]
  cases k <;> simp [stem]

/-- Different local labels have different names. -/
theorem Label.Local.eq {l l' : Label} (h : l.Local) (h' : l'.Local) (heq : l.text = l'.text) :
    l = l' := by
  have hchars := congrArg String.toList heq
  rcases h with rfl | ⟨k, n, rfl⟩ <;> rcases h' with rfl | ⟨k', n', rfl⟩
  · rfl
  · rw [text_marked] at hchars
    exact (stem_append_ne hchars.symm).elim
  · rw [text_marked] at hchars
    exact (stem_append_ne hchars).elim
  · rw [text_marked, text_marked] at hchars
    obtain ⟨rfl, hdigits⟩ := stem_append_inj hchars
    rw [← Nat.ofDigitChars_ten_toDigits (n := n), hdigits, Nat.ofDigitChars_ten_toDigits]

/-- Different local labels keep apart in the text. -/
theorem TargetsUnique.of_labels (hlocal : ∀ l ∈ labels (text.map Instr.line), l.Local)
    (hnodup : (labels (text.map Instr.line)).Nodup)
    (hjumps : ∀ l ∈ jumps (text.map Instr.line), l ∈ labels (text.map Instr.line)) :
    TargetsUnique text := by
  have hnames : (labelNames text).Nodup :=
    hnodup.map_on fun l hl l' hl' heq => (hlocal l hl).eq (hlocal l' hl') heq
  refine ⟨hnames, fun name hname => ?_⟩
  obtain ⟨l, hl, rfl⟩ := List.mem_map.mp hname
  exact List.count_eq_one_of_mem hnames (List.mem_map_of_mem (hjumps l hl))

/-- Lines without labels and jumps. -/
theorem TargetsUnique.append_straight (h : TargetsUnique text)
    (h' : ∀ i ∈ text', i.straight = true) : TargetsUnique (text ++ text') := by
  have hlabels : labelNames (text ++ text') = labelNames text := by
    rw [labelNames, List.map_append, map_line h', labels_append, labels_code, List.append_nil,
      labelNames]
  have hjumps : jumpNames (text ++ text') = jumpNames text := by
    rw [jumpNames, List.map_append, map_line h', jumps_append, jumps_code, List.append_nil,
      jumpNames]
  exact ⟨hlabels ▸ h.nodup, by rw [hlabels, hjumps]; exact h.once⟩

theorem defines_of_straight {i : Instr} (h : i.straight = true) : i.defines? = none := by
  cases i <;> first | rfl | cases h

/-- There is no procedure label among lines with local labels. -/
theorem defines_of_local (hlocal : ∀ l ∈ labels (text.map Instr.line), l.Local) {i : Instr}
    (hi : i ∈ text) : i.defines? = none := by
  cases hdef : i.defines? with
  | none => rfl
  | some ident =>
    obtain rfl : i = .label (.proc ident) := by
      unfold Instr.defines? at hdef
      split at hdef <;> cases hdef
      rfl
    have hmem : Label.proc ident ∈ labels (text.map Instr.line) :=
      List.mem_filterMap.mpr ⟨_, List.mem_map_of_mem hi, rfl⟩
    rcases hlocal _ hmem with h | ⟨k, n, h⟩
    · cases h
    · cases k <;> cases h

/-! ## Procedures -/

section
variable {tables : List Hashtable} {gen gen' : Gen} {ty : Ty}

/-- The lines of a structured program, with the label of the exit behind them. -/
theorem targets_lower {E : Env} {s : Stmt Atom} {n : Nat} {before code : List Instr}
    (hbefore : ∀ i ∈ before, i.straight = true) (hline : code.map Instr.line = (backend E).lower s n) :
    (∀ i ∈ before ++ (code ++ [Instr.label .return_]), i.defines? = none) ∧
      TargetsUnique (before ++ (code ++ [Instr.label .return_])) := by
  let L := (backend E).lower s n
  have hcore : (before ++ (code ++ [Instr.label .return_])).map Instr.line =
      before.map .instr ++ (L ++ [Line.label .return_]) := by
    rw [List.map_append, List.map_append, hline, map_line hbefore]
    rfl
  have hlabels : labels ((before ++ (code ++ [Instr.label .return_])).map Instr.line) =
      labels L ++ [.return_] := by
    rw [hcore, labels_append, labels_code, labels_append]
    rfl
  have hlocal : ∀ l ∈ labels ((before ++ (code ++ [Instr.label .return_])).map Instr.line),
      l.Local := by
    intro l hl
    rw [hlabels] at hl
    rcases List.mem_append.mp hl with hl | hl
    · obtain ⟨k, m, hname, -⟩ := Backend.mem_labels_lower hl
      exact .inr ⟨k, m, hname⟩
    · exact .inl (List.mem_singleton.mp hl)
  refine ⟨fun i hi => defines_of_local hlocal hi, .of_labels hlocal ?_ ?_⟩
  · rw [hlabels]
    refine List.nodup_append'.mpr ⟨Backend.nodup_labels_lower, List.nodup_singleton _, ?_⟩
    exact List.disjoint_singleton.mpr Backend.exit_notMem_lower
  · intro l hl
    rw [hcore, jumps_append, jumps_code, jumps_append, jumps_label, jumps_nil, List.nil_append,
      List.append_nil] at hl
    rw [hlabels, List.mem_append, List.mem_singleton]
    exact (Backend.mem_jumps_lower hl).symm

/-- Behind its label, the text of a procedure has local labels only, different ones, and jumps to
no others. -/
theorem proc_targets {ident : Token} {body : AstNode} {type : Ty} {size : Int} (hbody : body.Nested)
    (h : proc ident (some (emit tables body)) type size gen = .ok ((), text, gen')) :
    ∃ rest, text = .global ident.value :: .label (.proc ident.value) :: rest ∧
      (∀ i ∈ rest, i.defines? = none) ∧ TargetsUnique rest := by
  obtain ⟨params, tb, code, hparams, hcode, rfl⟩ := proc_ok h
  obtain ⟨s, -, hline, -⟩ := emit_structured .returning hbody hcode
  let before : List Instr := .pushRbp :: .movRbpRsp :: .subRsp size :: params
  let after : List Instr := [.movRspRbp, .popRbp, .ret]
  have hbefore : ∀ i ∈ before, i.straight = true := by
    simpa [before, Instr.straight] using hparams
  have hafter : ∀ i ∈ after, i.straight = true := by simp [after, Instr.straight]
  obtain ⟨hdefines, htargets⟩ := targets_lower hbefore hline
  refine ⟨before ++ (code ++ [Instr.label .return_]) ++ after, by simp [before, after], ?_,
    htargets.append_straight hafter⟩
  intro i hi
  rcases List.mem_append.mp hi with hi | hi
  · exact hdefines i hi
  · exact defines_of_straight (hafter i hi)

/-! ## Programs -/

/-- The lines in front of a procedure label only name symbols. -/
theorem emit_decl_targets {decl : AstNode} (hshape : Shape .decl decl)
    (hfor : decl.AllKinds (· ≠ .for_)) (h : emit tables decl gen = .ok (ty, text, gen')) :
    (∀ i ∈ text, i.straight = true ∧ i.defines? = none) ∨
      ∃ ident rest, text = .global ident :: .label (.proc ident) :: rest ∧
        (∀ i ∈ rest, i.defines? = none) ∧ TargetsUnique rest := by
  cases hshape with
  | table =>
    obtain ⟨-, rfl, -⟩ := Emit.pure_ok.mp h
    exact .inl (List.forall_mem_nil _)
  | @proc op ident body sig table size hbody =>
    rw [emit] at h
    obtain ⟨-, hproc⟩ := statement_ok.mp h
    cases body with
    | none =>
      obtain ⟨rfl, -⟩ := genWrite_ok.mp hproc
      exact .inl (List.forall_mem_singleton.mpr ⟨rfl, rfl⟩)
    | some body =>
      have hpart := (AstNode.allKinds_iff.mp hfor).2 body
        (by simp [AstNode.parts, AstNode.children])
      have hnested := (hbody body rfl).nested (by simp) (by simp) hpart
      obtain ⟨rest, htext, hrest⟩ := proc_targets hnested hproc
      exact .inr ⟨ident.value, rest, htext, hrest⟩

/-- The text of some declarations: up to the first procedure label no labels and jumps, and behind
each unique targets. -/
theorem emitSeq_targets {decls : List AstNode} (hshape : ∀ d ∈ decls, Shape .decl d)
    (hfor : ∀ d ∈ decls, d.AllKinds (· ≠ .for_))
    (h : emitSeq (emits tables decls) gen = .ok ((), text, gen')) :
    (∀ i ∈ untilProc text, i.straight = true) ∧
      ∀ name after, .label (.proc name) :: after <:+ text → TargetsUnique (untilProc after) := by
  induction decls generalizing gen text with
  | nil =>
    obtain ⟨-, rfl, -⟩ := Emit.pure_ok.mp h
    refine ⟨List.forall_mem_nil _, fun name after hsuffix => ?_⟩
    cases List.suffix_nil.mp hsuffix
  | cons decl decls ih =>
    obtain ⟨ty, t₁, gen₁, t₂, hdecl, hrest, rfl⟩ := discard_bind_ok.mp h
    obtain ⟨hd, hds⟩ := List.forall_mem_cons.mp hshape
    obtain ⟨hf, hfs⟩ := List.forall_mem_cons.mp hfor
    obtain ⟨hhead, htail⟩ := ih hds hfs hrest
    rcases emit_decl_targets hd hf hdecl with hsilent | ⟨ident, rest, rfl, hrest, htargets⟩
    · have hnone : ∀ i ∈ t₁, i.defines? = none := fun i hi => (hsilent i hi).2
      refine ⟨?_, fun name after hsuffix => htail name after (suffix_of_suffix_append hnone hsuffix)⟩
      rw [untilProc_append hnone]
      exact List.forall_mem_append.mpr ⟨fun i hi => (hsilent i hi).1, hhead⟩
    · refine ⟨List.forall_mem_singleton.mpr rfl, fun name after hsuffix => ?_⟩
      rw [List.cons_append, List.cons_append] at hsuffix
      have hglobal : ∀ i ∈ [Instr.global ident], i.defines? = none :=
        List.forall_mem_singleton.mpr rfl
      apply suffix_of_suffix_append hglobal at hsuffix
      rcases List.suffix_cons_iff.mp hsuffix with heq | hsuffix
      · cases heq
        rw [untilProc_append hrest]
        exact htargets.append_straight hhead
      · exact htail name after (suffix_of_suffix_append hrest hsuffix)

/-- The procedure labels in the text are those of the procedures with a body, and between each and
the next one no local label is defined twice and all that are jumped to are defined once. -/
theorem local_targets_unique {fuel : Nat} {garbage : List Nat} {toks : List Token}
    {root root' root'' : AstNode} {p : Parser} {st : Symboltable} {data : List DataLine}
    (hparse : parse fuel garbage toks = .ok root p) (hexpand : expandAst root = .ok root')
    (hbuild : symboltableBuild root' = .ok (root'', st))
    (hcodegen : codegen st.tables root'' = .ok (text, data)) :
    text.filterMap Instr.defines? = root''.children.filterMap AstNode.definedName? ∧
      ∀ name after, .label (.proc name) :: after <:+ text → TargetsUnique (untilProc after) := by
  have hshape := parse_shape hparse
  cases (expandAst_eq hshape).symm.trans hexpand
  have hbuild' := symboltableBuild_ok.mp hbuild
  have hshape' : Shape .program root'' := hshape.expanded.annotated hbuild'
  have hfor := allKinds_buildTo hbuild' (forFree_expanded hshape)
  obtain ⟨⟨ty, text', gen⟩, hemit, heq⟩ := Except.bind_ok.mp hcodegen
  cases heq
  cases hshape' with
  | @program decls t hdecls =>
    rw [emit] at hemit
    obtain ⟨-, hblock⟩ := statement_ok.mp hemit
    obtain ⟨gen₁, hseq, -⟩ := block_ok hblock
    have hparts := (AstNode.allKinds_iff.mp hfor).2
    exact ⟨(emitSeq_symbols hdecls hseq).1, (emitSeq_targets hdecls hparts hseq).2⟩

end

/-- `proc f() void { while 1 { if 1 { return; } else { } } } proc g() void;` -/
def returnInLoop : List Token :=
  [{ kind := .kwProc }, .ident "f", { kind := .lparen }, { kind := .rparen },
    { kind := .kwTypeVoid }, { kind := .lbrace }, { kind := .kwWhile }, .num 1, { kind := .lbrace },
    { kind := .kwIf }, .num 1, { kind := .lbrace }, { kind := .kwReturn }, { kind := .semicolon },
    { kind := .rbrace }, { kind := .kwElse }, { kind := .lbrace }, { kind := .rbrace },
    { kind := .rbrace }, { kind := .rbrace },
    { kind := .kwProc }, .ident "g", { kind := .lparen }, { kind := .rparen },
    { kind := .kwTypeVoid }, { kind := .semicolon }, .eof]

theorem local_targets_unique_returnInLoop : ∃ (root'' : AstNode) (st : Symboltable)
    (text : List Instr) (data : List DataLine), codegen st.tables root'' = .ok (text, data) ∧
      text.filterMap Instr.defines? = root''.children.filterMap AstNode.definedName? ∧
      ∀ name after, .label (.proc name) :: after <:+ text → TargetsUnique (untilProc after) := by
  obtain ⟨root, p, root', root'', st, hparse, hexpand, hbuild, htest⟩ :=
    @of_annotatesTo (fun _ root tables => emitsText (fun text => jumpNames text ≠ []) root tables) 100
      returnInLoop (by decide +kernel)
  obtain ⟨text, data, hcodegen, -⟩ := of_emitsText htest
  exact ⟨root'', st, text, data, hcodegen,
    local_targets_unique hparse hexpand hbuild hcodegen⟩

end Seron
