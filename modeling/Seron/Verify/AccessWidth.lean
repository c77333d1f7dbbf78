import Seron.Verify.Encoding

/-! # The width of memory accesses

The last line in the text of a variable, a dereference, an initialisation or an assignment is its
access to memory. The register it names tells how many bytes are touched. -/

namespace Seron

variable {tables : List Hashtable} {scope : Option Nat} {root node : AstNode} {k : TypeKind}
  {text : List Instr} {data : List DataLine}

/-- The number of bytes a line reads from memory or writes to memory. -/
def Instr.accessBytes : Instr → Option Nat
  | .load dst _ => some dst.width.bytes
  | .store _ src => some src.width.bytes
  | _ => none

/-- The node accesses an object of this kind: a variable, or what a pointer points to. -/
inductive Accesses (tables : List Hashtable) (scope : Option Nat) : AstNode → TypeKind → Prop
  | ident {op : Token} {sym : Symbol} :
    symboltableLookup tables scope op.value = .ok (some sym) →
    sym.kind = .variable ∨ sym.kind = .parameter →
    Accesses tables scope (.literal op .ident) sym.type.kind
  | deref {node : AstNode} {op : Token} {ty : Ty} :
    check tables node scope = .ok (.pointer (some ty)) →
    Accesses tables scope (.unaryop node op .deref) ty.kind
  | vardecl {op ident : Token} {init : AstNode} {type : Ty} {offset : Int} :
    Accesses tables scope (.vardecl op ident (some init) type offset) type.kind
  | assign {op : Token} {value target : AstNode} {ty : Ty} :
    checkAddr tables target scope = .ok (.pointer (some ty)) →
    Accesses tables scope (.assign op value target) ty.kind

/-- Wherever the node is emitted, its access touches as many bytes as the object has. -/
def TouchesExactly (tables : List Hashtable) (scope : Option Nat) (node : AstNode) (k : TypeKind) :
    Prop :=
  ∀ text, Emitted tables scope node text →
    ∃ i n, text.getLast? = some i ∧ i.accessBytes = some n ∧ typePrimitiveSize k = .ok n

/-- The access goes through an address that has been computed. -/
def AstNode.throughAddress : AstNode → Bool
  | .unaryop _ _ .deref | .assign .. => true
  | _ => false

/-! ## One access -/

/-- A register has as many bytes as a value of the type. -/
theorem subregister_bytes {r : Register} {reg : SubReg} (h : subregister r k = .ok reg) :
    typePrimitiveSize k = .ok reg.width.bytes := by
  cases k <;> cases h <;> rfl

/-- What is emitted for the address has the type that the check finds. -/
theorem emitAddr_agrees {gen gen' : Gen} {ty ty' : Ty}
    (h : emitAddr tables node gen = .ok (ty, text, gen'))
    (hcheck : checkAddr tables node gen.scope = .ok ty') : ty = ty' :=
  Except.ok.inj ((emitAddr_checked h).1.symm.trans hcheck)

/-- The initialiser has the kind of the variable. -/
theorem vardecl_ok {init : Emit Ty} {type : Ty} {offset : Int} {gen gen' : Gen}
    (h : vardecl (some init) type offset gen = .ok ((), text, gen')) :
    ∃ c rax, subregister .rax type.kind = .ok rax ∧ text = c ++ [.store (.rbp (-offset)) rax] := by
  obtain ⟨ty, c, gen₁, t, hinit, h₁, rfl⟩ := Emit.bind_ok.mp h
  split at h₁
  · exact (invalidTypes_ok.mp h₁).elim
  · rename_i hkinds
    obtain ⟨rax, hrax, h₂⟩ := Emit.lift_bind_ok.mp h₁
    obtain ⟨rfl, rfl⟩ := genWrite_ok.mp h₂
    exact ⟨c, rax, by rwa [not_not.mp hkinds], rfl⟩

/-- A variable is read or initialised as a whole. What is accessed through an address is taken for
a pointer. -/
theorem Accesses.touched (h : Accesses tables scope node k) (hemit : Emitted tables scope node text) :
    ∃ i n, text.getLast? = some i ∧ i.accessBytes = some n ∧
      typePrimitiveSize (if node.throughAddress then .pointer else k) = .ok n := by
  have last {c : List Instr} {i : Instr} {r : Register} {k : TypeKind} {rax : SubReg}
      (hrax : subregister r k = .ok rax) (hi : i.accessBytes = some rax.width.bytes) :
      ∃ i' n, (c ++ [i]).getLast? = some i' ∧ i'.accessBytes = some n ∧
        typePrimitiveSize k = .ok n :=
    ⟨i, _, List.getLast?_concat, hi, subregister_bytes hrax⟩
  obtain ⟨gen, ty, gen', rfl, hemit⟩ := hemit
  cases h with
  | ident hlookup hkind =>
    rw [emit, literal] at hemit
    obtain ⟨-, sym, hlookup', hsym⟩ := literalIdent_ok.mp hemit
    cases hlookup.symm.trans hlookup'
    rcases hsym with ⟨-, h, -⟩ | ⟨-, -, rfl, rax, hrax, rfl⟩ | ⟨hproc, -⟩
    · cases h
    · exact @last [] _ _ _ _ hrax rfl
    · simp [hproc] at hkind
  | deref =>
    rw [emit] at hemit
    obtain ⟨tp, c, rax, -, -, hrax, rfl⟩ := unaryop_deref_ok hemit
    exact last hrax rfl
  | vardecl =>
    rw [emit] at hemit
    obtain ⟨c, rax, hrax, rfl⟩ := vardecl_ok (statement_ok.mp hemit).2
    exact last hrax rfl
  | assign hcheck =>
    rw [emit] at hemit
    obtain ⟨ta, ca, gen₁, cv, rax, ha, -, hkinds, hrax, rfl⟩ := assign_ok hemit
    cases emitAddr_agrees ha hcheck
    rw [← hkinds] at hrax
    have hcode : ca ++ .push .rax :: (cv ++ [.pop .rdi, .store (.reg .rdi) rax]) =
        (ca ++ .push .rax :: (cv ++ [.pop .rdi])) ++ [.store (.reg .rdi) rax] := by simp
    rw [hcode]
    exact last hrax rfl

/-- In an emitted node the access is exact iff the object is not accessed through an address, or is
as big as one. -/
theorem Accesses.touchesExactly_iff (h : Accesses tables scope node k)
    (hemit : Emitted tables scope node text) : TouchesExactly tables scope node k ↔
      (node.throughAddress = true → typePrimitiveSize k = .ok 8) := by
  constructor
  · intro hexact hthrough
    obtain ⟨i, n, hi, hn, hsize⟩ := hexact text hemit
    obtain ⟨i', n', hi', hn', hsize'⟩ := h.touched hemit
    cases hi.symm.trans hi'
    cases hn.symm.trans hn'
    rw [if_pos hthrough] at hsize'
    exact hsize.trans hsize'.symm
  · intro hbig text hemit
    obtain ⟨i, n, hi, hn, hsize⟩ := h.touched hemit
    refine ⟨i, n, hi, hn, ?_⟩
    by_cases hthrough : node.throughAddress = true
    · rw [if_pos hthrough] at hsize
      exact (hbig hthrough).trans hsize
    · rwa [if_neg hthrough] at hsize

/-! ## Programs -/

/-- All accesses of an accepted program are exact iff whatever is dereferenced or assigned through
an address has 8 bytes. -/
theorem accesses_exact_iff (h : codegen tables root = .ok (text, data)) :
    (∀ scope node k, Visits none root scope node → Accesses tables scope node k →
      TouchesExactly tables scope node k) ↔
    ∀ scope node k, Visits none root scope node → Accesses tables scope node k →
      node.throughAddress = true → typePrimitiveSize k = .ok 8 := by
  obtain ⟨⟨ty, text', gen⟩, hemit, hp⟩ := Except.bind_ok.mp h
  have hroot : Emitted tables none root text' := ⟨{}, ty, gen, rfl, hemit⟩
  have hiff {scope : Option Nat} {node : AstNode} {k : TypeKind}
      (hvisits : Visits none root scope node) (haccess : Accesses tables scope node k) :
      TouchesExactly tables scope node k ↔
        (node.throughAddress = true → typePrimitiveSize k = .ok 8) := by
    obtain ⟨t, ht, -⟩ := hvisits.emitted hroot
    exact haccess.touchesExactly_iff ht
  constructor
  · intro hexact scope node k hvisits haccess
    exact (hiff hvisits haccess).mp (hexact scope node k hvisits haccess)
  · intro hbig scope node k hvisits haccess
    exact (hiff hvisits haccess).mpr (hbig scope node k hvisits haccess)

/-- `proc f(p: *char) char { return *p; }` -/
def readChar : List Token :=
  [{ kind := .kwProc }, .ident "f", { kind := .lparen }, .ident "p", { kind := .colon },
    { kind := .asterisk }, { kind := .kwTypeChar }, { kind := .rparen }, { kind := .kwTypeChar },
    { kind := .lbrace }, { kind := .kwReturn }, { kind := .asterisk }, .ident "p",
    { kind := .semicolon }, { kind := .rbrace }, .eof]

/-- Whether the only procedure returns a dereferenced pointer to a `char`. -/
def returnsChar (root : AstNode) (tables : List Hashtable) : Bool :=
  match root with
  | .block [.proc _ _ (some (.block [.return_ _ (some (.unaryop node _ .deref))] table)) _ _ _] _ =>
    match check tables node table with
    | .ok (.pointer (some .char)) => true
    | _ => false
  | _ => false

theorem returnsChar_elim (h : returnsChar root tables = true) :
    ∃ scope node, Visits none root scope node ∧ Accesses tables scope node .char ∧
      node.throughAddress = true := by
  unfold returnsChar at h
  split at h
  · split at h
    · rename_i hcheck
      refine ⟨_, _, .inside (List.mem_singleton_self _) (.inside (List.mem_singleton_self _)
        (.inside (List.mem_singleton_self _) (.inside (List.mem_singleton_self _) .self))),
        .deref hcheck, rfl⟩
    · cases h
  · cases h

theorem readChar_emits : ∃ root p root' root'' st text data, parse 100 [] readChar = .ok root p ∧
    expandAst root = .ok root' ∧ symboltableBuild root' = .ok (root'', st) ∧
    codegen st.tables root'' = .ok (text, data) ∧ returnsChar root'' st.tables = true := by
  obtain ⟨root, p, root', root'', st, hparse, hexpand, hbuild, htest⟩ :=
    @of_annotatesTo (fun _ root tables => returnsChar root tables &&
      emitsText (fun _ => true) root tables) 100 readChar (by decide +kernel)
  rw [Bool.and_eq_true] at htest
  obtain ⟨text, data, hcodegen, -⟩ := of_emitsText htest.2
  exact ⟨root, p, root', root'', st, text, data, hparse, hexpand, hbuild, hcodegen, htest.1⟩

theorem accesses_exact_iff_readChar : ∃ root tables text data,
    codegen tables root = .ok (text, data) ∧
      ((∀ scope node k, Visits none root scope node → Accesses tables scope node k →
        TouchesExactly tables scope node k) ↔
      ∀ scope node k, Visits none root scope node → Accesses tables scope node k →
        node.throughAddress = true → typePrimitiveSize k = .ok 8) := by
  obtain ⟨-, -, -, root, st, text, data, -, -, -, hcodegen, -⟩ := readChar_emits
  exact ⟨root, st.tables, text, data, hcodegen, accesses_exact_iff hcodegen⟩

/-- A whole pointer is read instead of a `char`. -/
theorem deref_reads_pointer : ∃ root p root' root'' st text data,
    parse 100 [] readChar = .ok root p ∧ expandAst root = .ok root' ∧
      symboltableBuild root' = .ok (root'', st) ∧ codegen st.tables root'' = .ok (text, data) ∧
      ∃ scope node, Visits none root'' scope node ∧ Accesses st.tables scope node .char ∧
        ¬ TouchesExactly st.tables scope node .char := by
  obtain ⟨root, p, root', root'', st, text, data, hparse, hexpand, hbuild, hcodegen, htest⟩ :=
    readChar_emits
  obtain ⟨scope, node, hvisits, haccess, hthrough⟩ := returnsChar_elim htest
  obtain ⟨⟨ty, text', gen⟩, hemit, -⟩ := Except.bind_ok.mp hcodegen
  obtain ⟨t, ht, -⟩ := hvisits.emitted ⟨{}, ty, gen, rfl, hemit⟩
  refine ⟨root, p, root', root'', st, text, data, hparse, hexpand, hbuild, hcodegen, scope, node,
    hvisits, haccess, fun hexact => ?_⟩
  have hsize := (haccess.touchesExactly_iff ht).mp hexact hthrough
  simp [typePrimitiveSize] at hsize

end Seron
