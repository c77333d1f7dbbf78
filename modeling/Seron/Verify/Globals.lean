import Seron.Verify.Encoding
import Seron.Verify.Scoping
import Seron.Verify.Strings

/-! # Global symbols

Procedures and strings share the symbols of the output. Nothing looks at what inserting a name into a
table returns, so that names which are declared twice are defined twice. -/

namespace Seron

/-! ## The symbols of the output -/

/-- The label of a string. -/
def stringLabel (n : Nat) : String := s!"string_{n}"

def Instr.defines? : Instr → Option String
  | .label (.proc ident) => some ident
  | _ => none

def Instr.declares? : Instr → Option String
  | .externDecl ident => some ident
  | _ => none

def DataLine.defines? : DataLine → Option String
  | .label n => some (stringLabel n)
  | .db _ => none

/-- The labels of both sections that are not local. -/
def definedSymbols (text : List Instr) (data : List DataLine) : List String :=
  text.filterMap Instr.defines? ++ data.filterMap DataLine.defines?

def externSymbols (text : List Instr) : List String := text.filterMap Instr.declares?

/-- No symbol is defined twice, and none is both defined and declared to be elsewhere. -/
structure DefinedOnce (text : List Instr) (data : List DataLine) : Prop where
  nodup : (definedSymbols text data).Nodup
  apart : ∀ name ∈ externSymbols text, name ∉ definedSymbols text data

/-! ## The names of the program -/

namespace AstNode

/-- The name of a procedure with a body. -/
def definedName? : AstNode → Option String
  | .proc _ ident (some _) .. => some ident.value
  | _ => none

/-- The name of a procedure without a body. -/
def externName? : AstNode → Option String
  | .proc _ ident none .. => some ident.value
  | _ => none

def procName? : AstNode → Option String
  | .proc _ ident .. => some ident.value
  | _ => none

/-- The name of a declaration. -/
def declName? : AstNode → Option String
  | .proc _ ident .. | .table _ ident _ => some ident.value
  | _ => none

/-- Two declarations have one name, or a procedure has the name of a string. -/
def Clashes (root : AstNode) : Prop :=
  ¬ (root.children.filterMap declName?).Nodup ∨
    ∃ n < root.strings.length, stringLabel n ∈ root.children.filterMap procName?

theorem procNames_perm (decls : List AstNode) :
    (decls.filterMap definedName? ++ decls.filterMap externName?).Perm
      (decls.filterMap procName?) := by
  induction decls with
  | nil => exact .refl _
  | cons decl decls ih =>
    cases decl
    case proc op ident body type table size =>
      cases body with
      | none => exact List.perm_middle.trans (ih.cons _)
      | some body => exact ih.cons _
    all_goals exact ih

theorem procNames_sublist (decls : List AstNode) :
    (decls.filterMap procName?).Sublist (decls.filterMap declName?) := by
  induction decls with
  | nil => exact .refl _
  | cons decl decls ih =>
    cases decl
    case proc => exact ih.cons_cons _
    case table => exact ih.cons _
    all_goals exact ih

end AstNode

/-! ## The symbols of each line -/

/-- The text names no symbol. -/
def Nameless (_ : List String) (_ : Gen) (text : List Instr) (_ : Gen) : Prop :=
  ∀ i ∈ text, i.isLocal = true

theorem nameless_chains : Chains (· ≠ .proc) Nameless where
  nil := List.forall_mem_nil _
  append h h' := List.forall_mem_append.mpr ⟨h, h'⟩
  line h := by
    rintro i hi
    obtain rfl := List.mem_singleton.mp hi
    exact h.resolve_right fun hproc => hproc rfl
  label := List.forall_mem_nil _
  scope := List.forall_mem_nil _
  string := List.forall_mem_nil _

theorem defines_of_isLocal {text : List Instr} (h : ∀ i ∈ text, i.isLocal = true) :
    text.filterMap Instr.defines? = [] := by
  apply List.filterMap_eq_nil_iff.mpr
  intro i hi
  have hlocal := h i hi
  unfold Instr.defines?
  split
  · cases hlocal
  · rfl

theorem declares_of_isLocal {text : List Instr} (h : ∀ i ∈ text, i.isLocal = true) :
    text.filterMap Instr.declares? = [] := by
  apply List.filterMap_eq_nil_iff.mpr
  intro i hi
  have hlocal := h i hi
  unfold Instr.declares?
  split
  · cases hlocal
  · rfl

variable {tables : List Hashtable} {gen gen' : Gen} {ty : Ty} {text : List Instr}

/-- A procedure with a body defines its name and names no other symbol. -/
theorem proc_symbols {ss : List String} {ident : Token} {body : Emit Ty} {type : Ty} {size : Int}
    (hbody : Chained Nameless ss body)
    (h : proc ident (some body) type size gen = .ok ((), text, gen')) :
    ∃ rest, text = .global ident.value :: .label (.proc ident.value) :: rest ∧
      ∀ i ∈ rest, i.isLocal = true := by
  have hQ := nameless_chains
  cases type
  case procedure sig =>
    obtain ⟨t₁, h₁, rfl⟩ := genWrite_bind_ok.mp h
    obtain ⟨t₂, h₂, rfl⟩ := genWrite_bind_ok.mp h₁
    refine ⟨t₂, rfl, ?_⟩
    have hrest : Chained Nameless ss (do
        genWrite .pushRbp
        genWrite .movRbpRsp
        genWrite (.subRsp size)
        procParams 0 16 sig.params
        discard body
        genWrite (.label .return_)
        genWrite .movRspRbp
        genWrite .popRbp
        genWrite .ret) :=
      .write hQ (.inl rfl) (.write hQ (.inl rfl) (.write hQ (.inl rfl)
        (.seq hQ (.params hQ) fun _ => .andLast hQ (.discard hQ hbody) fun _ =>
          .write hQ (.inl rfl) (.write hQ (.inl rfl) (.write hQ (.inl rfl)
            (.genWrite hQ (.inl rfl)))))))
    exact hrest gen () t₂ gen' h₂
  all_goals cases h

/-- The symbols of a declaration are its names. -/
theorem emit_decl_symbols {decl : AstNode} (hshape : Shape .decl decl)
    (h : emit tables decl gen = .ok (ty, text, gen')) :
    text.filterMap Instr.defines? = decl.definedName?.toList ∧
      text.filterMap Instr.declares? = decl.externName?.toList := by
  cases hshape with
  | table =>
    obtain ⟨-, rfl, -⟩ := Emit.pure_ok.mp h
    exact ⟨rfl, rfl⟩
  | @proc op ident body sig table size hbody =>
    rw [emit] at h
    obtain ⟨-, hproc⟩ := statement_ok.mp h
    cases body with
    | none =>
      obtain ⟨rfl, -⟩ := genWrite_ok.mp hproc
      exact ⟨rfl, rfl⟩
    | some body =>
      have hfree : body.AllKinds (· ≠ .proc) := (hbody body rfl).procFree (by simp) (by simp)
      obtain ⟨rest, rfl, hrest⟩ := proc_symbols (emit_chained nameless_chains hfree).1 hproc
      refine ⟨?_, ?_⟩
      · exact congrArg (ident.value :: ·) (defines_of_isLocal hrest)
      · exact (declares_of_isLocal hrest :)

theorem emitSeq_symbols {decls : List AstNode} (hshape : ∀ d ∈ decls, Shape .decl d)
    (h : emitSeq (emits tables decls) gen = .ok ((), text, gen')) :
    text.filterMap Instr.defines? = decls.filterMap AstNode.definedName? ∧
      text.filterMap Instr.declares? = decls.filterMap AstNode.externName? := by
  induction decls generalizing gen text with
  | nil =>
    obtain ⟨-, rfl, -⟩ := Emit.pure_ok.mp h
    exact ⟨rfl, rfl⟩
  | cons decl decls ih =>
    obtain ⟨ty, t₁, gen₁, t₂, hdecl, hrest, rfl⟩ := discard_bind_ok.mp h
    obtain ⟨hd, hds⟩ := List.forall_mem_cons.mp hshape
    obtain ⟨hdef, hext⟩ := emit_decl_symbols hd hdecl
    obtain ⟨hdef', hext'⟩ := ih hds hrest
    have hcons (f : AstNode → Option String) :
        (decl :: decls).filterMap f = (f decl).toList ++ decls.filterMap f := by
      cases hf : f decl <;> simp [hf]
    rw [List.filterMap_append, List.filterMap_append, hdef, hdef', hext, hext', hcons, hcons]
    exact ⟨rfl, rfl⟩

/-! ## The data section -/

theorem dataLines_symbols (n : Nat) (ss : List String) :
    (dataLines n ss).filterMap DataLine.defines? = (List.range' n ss.length).map stringLabel := by
  induction ss generalizing n with
  | nil => rfl
  | cons s ss ih =>
    rw [dataLines, List.length_cons, List.range'_succ, List.map_cons, ← ih]
    rfl

theorem stringLabel_injective : Function.Injective stringLabel := by
  intro n m h
  have hrepr : n.repr = m.repr := (String.append_right_inj "string_").mp h
  rw [← Nat.ofDigitChars_ten_toDigits (n := n), ← Nat.toList_repr, hrepr, Nat.toList_repr,
    Nat.ofDigitChars_ten_toDigits]

/-! ## Programs -/

variable {root : AstNode} {data : List DataLine}

/-- The symbols of the output are the names of the procedures and the labels of the strings. -/
theorem codegen_symbols (hshape : Shape .program root) (h : codegen tables root = .ok (text, data)) :
    definedSymbols text data = root.children.filterMap AstNode.definedName? ++
        (List.range root.strings.length).map stringLabel ∧
      externSymbols text = root.children.filterMap AstNode.externName? := by
  obtain ⟨⟨ty, text', gen⟩, hemit, heq⟩ := Except.bind_ok.mp h
  cases heq
  obtain ⟨-, hdata⟩ := emit_pushes hemit
  cases hshape with
  | @program decls t hdecls =>
    rw [emit] at hemit
    obtain ⟨-, hblock⟩ := statement_ok.mp hemit
    obtain ⟨gen₁, hseq, -⟩ := block_ok hblock
    obtain ⟨hdefined, hdeclared⟩ := emitSeq_symbols hdecls hseq
    refine ⟨?_, hdeclared⟩
    rw [definedSymbols, hdefined, hdata, List.nil_append, dataLines_symbols, List.range_eq_range']
    rfl

/-- The symbols are defined once iff the names of the procedures allow it. -/
theorem definedOnce_iff (hshape : Shape .program root) (h : codegen tables root = .ok (text, data)) :
    DefinedOnce text data ↔ (root.children.filterMap AstNode.definedName?).Nodup ∧
      (∀ name ∈ root.children.filterMap AstNode.externName?,
        name ∉ root.children.filterMap AstNode.definedName?) ∧
      ∀ n < root.strings.length, stringLabel n ∉ root.children.filterMap AstNode.procName? := by
  obtain ⟨hdefined, hdeclared⟩ := codegen_symbols hshape h
  have hmem {n : Nat} : stringLabel n ∈ root.children.filterMap AstNode.procName? ↔
      stringLabel n ∈ root.children.filterMap AstNode.definedName? ∨
        stringLabel n ∈ root.children.filterMap AstNode.externName? := by
    rw [← (AstNode.procNames_perm _).mem_iff, List.mem_append]
  have hlabel {name : String} : name ∈ (List.range root.strings.length).map stringLabel ↔
      ∃ n < root.strings.length, stringLabel n = name := by
    simp only [List.mem_map, List.mem_range]
  constructor
  · intro ⟨hnodup, hapart⟩
    rw [hdefined] at hnodup hapart
    rw [hdeclared] at hapart
    obtain ⟨hnames, -, hdisjoint⟩ := List.nodup_append'.mp hnodup
    refine ⟨hnames, fun name hname hdef => ?_, fun n hn hproc => ?_⟩
    · exact hapart name hname (List.mem_append_left _ hdef)
    · rcases hmem.mp hproc with hdef | hext
      · exact hdisjoint hdef (hlabel.mpr ⟨n, hn, rfl⟩)
      · exact hapart _ hext (List.mem_append_right _ (hlabel.mpr ⟨n, hn, rfl⟩))
  · intro ⟨hnames, hapart, hstrings⟩
    refine ⟨?_, ?_⟩
    · rw [hdefined]
      refine List.nodup_append'.mpr ⟨hnames, List.nodup_range.map stringLabel_injective, ?_⟩
      intro name hname hstring
      obtain ⟨n, hn, rfl⟩ := hlabel.mp hstring
      exact hstrings n hn (hmem.mpr (.inl hname))
    · rw [hdefined, hdeclared]
      intro name hname hdef
      rcases List.mem_append.mp hdef with hdef | hstring
      · exact hapart name hname hdef
      · obtain ⟨n, hn, rfl⟩ := hlabel.mp hstring
        exact hstrings n hn (hmem.mpr (.inr hname))

/-- Names that do not clash are enough. -/
theorem definedOnce_of_not_clashes (hshape : Shape .program root)
    (h : codegen tables root = .ok (text, data)) (hclash : ¬ root.Clashes) :
    DefinedOnce text data := by
  obtain ⟨hnames, hlabels⟩ := not_or.mp hclash
  have hprocs : (root.children.filterMap AstNode.definedName? ++
      root.children.filterMap AstNode.externName?).Nodup :=
    (AstNode.procNames_perm _).nodup_iff.mpr
      ((not_not.mp hnames).sublist (AstNode.procNames_sublist _))
  obtain ⟨hnodup, -, hdisjoint⟩ := List.nodup_append'.mp hprocs
  refine (definedOnce_iff hshape h).mpr ⟨hnodup, fun name hext hdef => hdisjoint hdef hext, ?_⟩
  intro n hn hproc
  exact hlabels ⟨n, hn, hproc⟩

/-- A program whose names clash is not accepted. -/
def ClashReported (tables : List Hashtable) (root : AstNode) : Prop :=
  root.Clashes → ∀ r, codegen tables root ≠ .ok r

/-- In an accepted program every global symbol is defined once, and a clash would have been reported,
iff no names clash. -/
theorem symbols_unique_iff {fuel : Nat} {garbage : List Nat} {toks : List Token}
    {root root' root'' : AstNode} {p : Parser} {st : Symboltable}
    (hparse : parse fuel garbage toks = .ok root p) (hexpand : expandAst root = .ok root')
    (hbuild : symboltableBuild root' = .ok (root'', st))
    (hcodegen : codegen st.tables root'' = .ok (text, data)) :
    DefinedOnce text data ∧ ClashReported st.tables root'' ↔ ¬ root''.Clashes := by
  have hshape := parse_shape hparse
  cases (expandAst_eq hshape).symm.trans hexpand
  have hshape' : Shape .program root'' := hshape.expanded.annotated (symboltableBuild_ok.mp hbuild)
  constructor
  · intro h hclash
    exact h.2 hclash _ hcodegen
  · intro hclash
    exact ⟨definedOnce_of_not_clashes hshape' hcodegen hclash, fun h => absurd h hclash⟩

/-- `proc f() void { } proc f() void { }` -/
def definedTwice : List Token :=
  let f : List Token := [{ kind := .kwProc }, .ident "f", { kind := .lparen }, { kind := .rparen },
    { kind := .kwTypeVoid }, { kind := .lbrace }, { kind := .rbrace }]
  f ++ f ++ [.eof]

theorem definedTwice_accepted : ∃ root p root' root'' st text data,
    parse 100 [] definedTwice = .ok root p ∧ expandAst root = .ok root' ∧
      symboltableBuild root' = .ok (root'', st) ∧ codegen st.tables root'' = .ok (text, data) ∧
      ¬ (definedSymbols text data).Nodup := by
  obtain ⟨root, p, root', root'', st, hparse, hexpand, hbuild, htest⟩ :=
    @of_annotatesTo (fun _ root tables =>
      emitsText (fun text => !decide (text.filterMap Instr.defines?).Nodup) root tables) 100
      definedTwice (by decide +kernel)
  obtain ⟨text, data, hcodegen, htext⟩ := of_emitsText htest
  refine ⟨root, p, root', root'', st, text, data, hparse, hexpand, hbuild, hcodegen, ?_⟩
  intro hnodup
  have hprocs := (List.nodup_append'.mp hnodup).1
  simp [hprocs] at htext

/-- `proc f() void { "x"; } proc g() void { }` -/
def definedApart : List Token :=
  let empty : List Token := [{ kind := .lparen }, { kind := .rparen }, { kind := .kwTypeVoid }]
  { kind := .kwProc } :: .ident "f" :: (empty ++ [{ kind := .lbrace },
    { kind := .literalString, value := "x" }, { kind := .semicolon }, { kind := .rbrace },
    { kind := .kwProc }, .ident "g"] ++ empty ++ [{ kind := .lbrace }, { kind := .rbrace }, .eof])

theorem definedApart_accepted : ∃ root p root' root'' st text data,
    parse 100 [] definedApart = .ok root p ∧ expandAst root = .ok root' ∧
      symboltableBuild root' = .ok (root'', st) ∧ codegen st.tables root'' = .ok (text, data) ∧
      ¬ root''.Clashes := by
  obtain ⟨root, p, root', root'', st, hparse, hexpand, hbuild, htest⟩ :=
    @of_annotatesTo (fun _ root tables => emitsText (fun _ =>
      decide (root.children.filterMap AstNode.declName?).Nodup &&
        decide (∀ n < root.strings.length, stringLabel n ∉ root.children.filterMap AstNode.procName?))
      root tables) 100 definedApart (by decide +kernel)
  obtain ⟨text, data, hcodegen, hnames⟩ := of_emitsText htest
  obtain ⟨hnodup, hstrings⟩ := Bool.and_eq_true_iff.mp hnames
  refine ⟨root, p, root', root'', st, text, data, hparse, hexpand, hbuild, hcodegen, ?_⟩
  rintro (hclash | ⟨n, hn, hclash⟩)
  · exact hclash (of_decide_eq_true hnodup)
  · exact of_decide_eq_true hstrings n hn hclash

/-- The two sides hold for `definedApart` and fail for `definedTwice`. -/
theorem symbols_unique_iff_defined :
    (∃ (root : AstNode) (st : Symboltable) (text : List Instr) (data : List DataLine),
      codegen st.tables root = .ok (text, data) ∧ ¬ root.Clashes ∧ DefinedOnce text data ∧
        ClashReported st.tables root) ∧
      ∃ (root : AstNode) (st : Symboltable) (text : List Instr) (data : List DataLine),
        codegen st.tables root = .ok (text, data) ∧ ¬ DefinedOnce text data ∧ root.Clashes := by
  constructor
  · obtain ⟨_, _, _, root, st, text, data, hparse, hexpand, hbuild, hcodegen, hclash⟩ :=
      definedApart_accepted
    obtain ⟨honce, hreported⟩ := (symbols_unique_iff hparse hexpand hbuild hcodegen).mpr hclash
    exact ⟨root, st, text, data, hcodegen, hclash, honce, hreported⟩
  · obtain ⟨_, _, _, root, st, text, data, hparse, hexpand, hbuild, hcodegen, hnot⟩ :=
      definedTwice_accepted
    have honce : ¬ DefinedOnce text data := fun h => hnot h.nodup
    refine ⟨root, st, text, data, hcodegen, honce, not_not.mp fun hclash => honce ?_⟩
    exact ((symbols_unique_iff hparse hexpand hbuild hcodegen).mpr hclash).1

/-- The label of `f` is defined twice, without a diagnostic. -/
theorem definedTwice_unreported : ∃ root p root' root'' st text data,
    parse 100 [] definedTwice = .ok root p ∧ expandAst root = .ok root' ∧
      symboltableBuild root' = .ok (root'', st) ∧ codegen st.tables root'' = .ok (text, data) ∧
      ¬ DefinedOnce text data := by
  obtain ⟨root, p, root', root'', st, text, data, hparse, hexpand, hbuild, hcodegen, hnot⟩ :=
    definedTwice_accepted
  exact ⟨root, p, root', root'', st, text, data, hparse, hexpand, hbuild, hcodegen, fun h =>
    hnot h.nodup⟩

end Seron
