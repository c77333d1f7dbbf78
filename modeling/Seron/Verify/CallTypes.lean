import Mathlib.Data.List.Forall2
import Seron.Verify.AccessWidth
import Seron.Verify.Diagnosis
import Seron.Verify.Hygiene

/-! # Types at calls and returns

A call looks up the parameters of its callee for the registers only, and a return does not know its
procedure. Neither compares a type. -/

namespace Seron

variable {tables : List Hashtable} {scope scope' : Option Nat} {root node node' callee : AstNode}
  {args : List AstNode} {text : List Instr} {data : List DataLine} {sig : ProcSignature} {ty : Ty}

/-- The emission of a node comes to another one without entering a procedure. -/
inductive VisitsHere : Option Nat → AstNode → Option Nat → AstNode → Prop
  | self {scope : Option Nat} {node : AstNode} : VisitsHere scope node scope node
  | inside {scope scope' : Option Nat} {node c node' : AstNode} : node.kind ≠ .proc →
    c ∈ node.operands → VisitsHere (node.innerScope scope) c scope' node' →
    VisitsHere scope node scope' node'

theorem VisitsHere.visits (h : VisitsHere scope node scope' node') :
    Visits scope node scope' node' := by
  induction h with
  | self => exact .self
  | inside _ hc _ ih => exact .inside hc ih

theorem Visits.trans {scope'' : Option Nat} {node'' : AstNode}
    (h : Visits scope node scope' node') (h' : Visits scope' node' scope'' node'') :
    Visits scope node scope'' node'' := by
  induction h with
  | self => exact h'
  | inside hc _ ih => exact .inside hc (ih h')

/-! ## Typing rules -/

/-- The callee is a procedure, with one parameter of its kind for each argument. -/
def CallTyped (tables : List Hashtable) (scope : Option Nat) (callee : AstNode)
    (args : List AstNode) : Prop :=
  ∃ sig, Typed (sight tables scope) callee (.procedure sig) ∧
    List.Forall₂ (fun arg (param : Param) =>
      ∃ ty, Typed (sight tables scope) arg ty ∧ ty.kind = param.type.kind) args sig.params

/-- A procedure without a result returns nothing, any other one a value of its kind. -/
def ReturnTyped (tables : List Hashtable) (scope : Option Nat) (returntype : TypeKind) :
    Option AstNode → Prop
  | none => returntype = .void
  | some expr => returntype ≠ .void ∧
      ∃ ty, Typed (sight tables scope) expr ty ∧ ty.kind = returntype

/-- All calls and all returns of a program are well typed. -/
structure WellTyped (tables : List Hashtable) (root : AstNode) : Prop where
  calls : ∀ scope op callee args, Visits none root scope (.call op callee args) →
    CallTyped tables scope callee args
  returns : ∀ scope op ident body sig table stackSize scope' op' expr,
    Visits none root scope (.proc op ident (some body) (.procedure sig) table stackSize) →
    VisitsHere scope body scope' (.return_ op' expr) →
    ReturnTyped tables scope' sig.returntype.kind expr

/-- What is expected of the code generator: whatever is not well typed gets a diagnostic. -/
def WellTypedOrDiagnosed (tables : List Hashtable) (root : AstNode) : Prop :=
  WellTyped tables root ∨ ∃ message, codegen tables root = .error (.exit message)

/-- No call has a number of arguments that is not that of the parameters, or an argument of another
kind, and no return disagrees with its procedure. -/
structure Matches (tables : List Hashtable) (root : AstNode) : Prop where
  calls : ∀ scope op callee args sig, Visits none root scope (.call op callee args) →
    Typed (sight tables scope) callee (.procedure sig) →
    args.length = sig.params.length ∧
      ∀ (i : Nat) arg (param : Param) ty, args[i]? = some arg → sig.params[i]? = some param →
        Typed (sight tables scope) arg ty → ty.kind = param.type.kind
  returns : ∀ scope op ident body sig table stackSize scope' op' expr,
    Visits none root scope (.proc op ident (some body) (.procedure sig) table stackSize) →
    VisitsHere scope body scope' (.return_ op' expr) →
    (expr = none ↔ sig.returntype.kind = .void) ∧
      ∀ e ty, expr = some e → Typed (sight tables scope') e ty → ty.kind = sig.returntype.kind

/-! ## What is visited -/

/-- What is visited in a tree has a shape of its own. -/
theorem Shape.operands {k : NodeClass} (h : Shape k node) : ∀ c ∈ node.operands, ∃ k', Shape k' c := by
  intro c hc
  by_cases hexpr : Shape .expr node
  · exact ⟨_, hexpr.operand hc⟩
  · obtain ⟨hassign, hunary⟩ := h.not_operator hexpr
    rw [AstNode.operands_eq hassign hunary] at hc
    cases h with
    | proc hbody => exact ⟨_, hbody c (Option.mem_toList.mp hc)⟩
    | table => cases hc
    | block hstmts => exact ⟨_, hstmts c hc⟩
    | program hdecls => exact ⟨_, hdecls c hc⟩
    | exprstmt h => exact (hexpr h).elim
    | blockstmt h =>
      cases h with
      | block hstmts => exact ⟨_, hstmts c hc⟩
    | vardecl h => exact ⟨_, (Shape.stmt_child (.vardecl h) hc).1⟩
    | return_ h => exact ⟨_, (Shape.stmt_child (.return_ h) hc).1⟩
    | if_ h₁ h₂ h₃ => exact ⟨_, (Shape.stmt_child (.if_ h₁ h₂ h₃) hc).1⟩
    | while_ h₁ h₂ => exact ⟨_, (Shape.stmt_child (.while_ h₁ h₂) hc).1⟩
    | for_ h₁ h₂ h₃ h₄ => exact ⟨_, (Shape.stmt_child (.for_ h₁ h₂ h₃ h₄) hc).1⟩
    | _ => exact (hexpr (by constructor <;> assumption)).elim

theorem Visits.shape {k : NodeClass} (h : Visits scope node scope' node') (hshape : Shape k node) :
    ∃ k', Shape k' node' := by
  induction h generalizing k with
  | self => exact ⟨k, hshape⟩
  | inside hc _ ih =>
    obtain ⟨k', hk'⟩ := hshape.operands _ hc
    exact ih hk'

/-- What is visited in an accepted program follows the rules. -/
theorem Visits.valid {k : NodeClass} (hvisits : Visits none root scope node) (hshape : Shape k root)
    (h : codegen tables root = .ok (text, data)) : Valid tables scope node := by
  obtain ⟨⟨ty, text', gen⟩, hemit, -⟩ := Except.bind_ok.mp h
  obtain ⟨t, ht, -⟩ := hvisits.emitted ⟨{}, ty, gen, rfl, hemit⟩
  obtain ⟨k', hk'⟩ := hvisits.shape hshape
  exact (check_valid hk').mp ht.passes

theorem Visits.call_shape {k : NodeClass} {op : Token}
    (hvisits : Visits none root scope (.call op callee args)) (hshape : Shape k root) :
    Shape .expr callee ∧ ∀ arg ∈ args, Shape .expr arg := by
  obtain ⟨k', hk'⟩ := hvisits.shape hshape
  cases hk' with
  | call hcallee hargs => exact ⟨hcallee, hargs⟩
  | exprstmt h =>
    cases h with
    | call hcallee hargs => exact ⟨hcallee, hargs⟩
  | blockstmt h => cases h

theorem Visits.return_shape {k : NodeClass} {op : Token} {value : Option AstNode}
    (hvisits : Visits none root scope (.return_ op value)) (hshape : Shape k root) :
    ∀ e ∈ value, Shape .expr e := by
  obtain ⟨k', hk'⟩ := hvisits.shape hshape
  cases hk' with
  | return_ hvalue => exact hvalue
  | exprstmt h => cases h
  | blockstmt h => cases h

/-- A call in an accepted program has a procedure as its callee, and arguments that have types. -/
theorem Visits.call_valid {k : NodeClass} {op : Token}
    (hvisits : Visits none root scope (.call op callee args)) (hshape : Shape k root)
    (h : codegen tables root = .ok (text, data)) :
    (∃ sig, Typed (sight tables scope) callee (.procedure sig)) ∧
      ∀ arg ∈ args, ∃ ty, Typed (sight tables scope) arg ty := by
  cases hvisits.valid hshape h with
  | expr htyped =>
    cases htyped with
    | call hcallee hargs => exact ⟨⟨_, hcallee⟩, forall₂_exists.mp ⟨_, hargs⟩⟩

/-! ## Programs -/

/-- An expression has one type. -/
theorem Shape.typed_unique {ty' : Ty} (h : Shape .expr node) (hty : Typed (sight tables scope) node ty)
    (hty' : Typed (sight tables scope) node ty') : ty = ty' :=
  Except.ok.inj ((((check_typed h).1 ty).mpr hty).symm.trans (((check_typed h).1 ty').mpr hty'))

theorem callTyped_iff (hshape : Shape .expr callee) (hshapes : ∀ arg ∈ args, Shape .expr arg)
    (hcallee : Typed (sight tables scope) callee (.procedure sig))
    (hargs : ∀ arg ∈ args, ∃ ty, Typed (sight tables scope) arg ty) :
    CallTyped tables scope callee args ↔ args.length = sig.params.length ∧
      ∀ (i : Nat) arg (param : Param) ty, args[i]? = some arg → sig.params[i]? = some param →
        Typed (sight tables scope) arg ty → ty.kind = param.type.kind := by
  constructor
  · rintro ⟨sig', hcallee', htyped⟩
    cases hshape.typed_unique hcallee hcallee'
    refine ⟨htyped.length_eq, fun i arg param ty harg hparam hty => ?_⟩
    obtain ⟨hi, rfl⟩ := List.getElem?_eq_some_iff.mp harg
    obtain ⟨hi', rfl⟩ := List.getElem?_eq_some_iff.mp hparam
    obtain ⟨ty', hty', hkind⟩ := htyped.get hi hi'
    cases (hshapes _ (List.getElem_mem hi)).typed_unique hty hty'
    exact hkind
  · rintro ⟨hlen, hkinds⟩
    refine ⟨sig, hcallee, List.forall₂_iff_get.mpr ⟨hlen, fun i hi hi' => ?_⟩⟩
    obtain ⟨ty, hty⟩ := hargs _ (List.get_mem args ⟨i, hi⟩)
    exact ⟨ty, hty, hkinds i _ _ ty (List.getElem?_eq_getElem hi) (List.getElem?_eq_getElem hi') hty⟩

theorem returnTyped_iff {k : TypeKind} {value : Option AstNode} (hshape : ∀ e ∈ value, Shape .expr e)
    (hvalue : ∀ e ∈ value, ∃ ty, Typed (sight tables scope) e ty) : ReturnTyped tables scope k value ↔
      (value = none ↔ k = .void) ∧
        ∀ e ty, value = some e → Typed (sight tables scope) e ty → ty.kind = k := by
  cases value with
  | none => simp [ReturnTyped]
  | some e =>
    obtain ⟨ty, hty⟩ := hvalue e rfl
    simp only [ReturnTyped, reduceCtorEq, false_iff]
    refine and_congr_right fun _ => ⟨?_, fun h => ⟨ty, hty, h e ty rfl hty⟩⟩
    rintro ⟨ty', hty', hkind⟩ e' ty'' heq hty''
    cases heq
    cases (hshape e rfl).typed_unique hty' hty''
    exact hkind

/-- An accepted program is well typed iff no call and no return is a mismatch. -/
theorem wellTyped_iff {k : NodeClass} (hshape : Shape k root)
    (h : codegen tables root = .ok (text, data)) : WellTyped tables root ↔ Matches tables root := by
  have hcall {scope : Option Nat} {op : Token} {callee : AstNode} {args : List AstNode}
      {sig : ProcSignature} (hvisits : Visits none root scope (.call op callee args))
      (hcallee : Typed (sight tables scope) callee (.procedure sig)) :=
    callTyped_iff (hvisits.call_shape hshape).1 (hvisits.call_shape hshape).2 hcallee
      (hvisits.call_valid hshape h).2
  have hreturn {scope scope' : Option Nat} {op ident op' : Token} {body : AstNode} {type : Ty}
      {table : Option Nat} {stackSize : Int} {value : Option AstNode} {k : TypeKind}
      (hproc : Visits none root scope (.proc op ident (some body) type table stackSize))
      (hret : VisitsHere scope body scope' (.return_ op' value)) :=
    have hvisits := hproc.trans (.inside (List.mem_singleton_self _) hret.visits)
    returnTyped_iff (k := k) (hvisits.return_shape hshape)
      (Valid.return_iff.mp (hvisits.valid hshape h))
  constructor
  · intro htyped
    refine ⟨fun scope op callee args sig hvisits hcallee => ?_, ?_⟩
    · exact (hcall hvisits hcallee).mp (htyped.calls scope op callee args hvisits)
    · intro scope op ident body sig table stackSize scope' op' value hproc hret
      exact (hreturn hproc hret).mp (htyped.returns _ _ _ _ _ _ _ _ _ _ hproc hret)
  · intro hmatches
    refine ⟨fun scope op callee args hvisits => ?_, ?_⟩
    · obtain ⟨⟨sig, hcallee⟩, -⟩ := hvisits.call_valid hshape h
      exact (hcall hvisits hcallee).mpr (hmatches.calls scope op callee args sig hvisits hcallee)
    · intro scope op ident body sig table stackSize scope' op' value hproc hret
      exact (hreturn hproc hret).mpr (hmatches.returns _ _ _ _ _ _ _ _ _ _ hproc hret)

/-- An ill-typed call or return gets a diagnostic iff the program is diagnosed for another reason: no
rule of `Diagnosed` compares an argument with a parameter, or a value with the type of the procedure
that returns it. Of an accepted program everything else that `WellTyped` asks for is known. -/
theorem wellTyped_or_diagnosed_iff {fuel : Nat} {toks : List Token} {root root' root'' : AstNode}
    {p : Parser} {st : Symboltable} (hparse : parse fuel [] toks = .ok root p)
    (hexpand : expandAst root = .ok root') (hbuild : symboltableBuild root' = .ok (root'', st)) :
    (WellTypedOrDiagnosed st.tables root'' ↔
      WellTyped st.tables root'' ∨ Diagnosed st.tables none root'') ∧
    ∀ text data, codegen st.tables root'' = .ok (text, data) →
      (WellTyped st.tables root'' ↔ Matches st.tables root'') := by
  have hshape := parse_shape hparse
  cases (expandAst_eq hshape).symm.trans hexpand
  have hannotated := hshape.expanded.annotated (symboltableBuild_ok.mp hbuild)
  refine ⟨or_congr_right ?_, fun text data h => wellTyped_iff hannotated h⟩
  simp only [codegen_error_iff]
  refine .trans ?_ (check_diagnosed hannotated)
  constructor
  · rintro ⟨message, h⟩
    exact ⟨_, h, message, rfl⟩
  · rintro ⟨e, h, message, rfl⟩
    exact ⟨message, h⟩

/-- `proc f() void { return 1; }` -/
def returnFromVoid : List Token :=
  [{ kind := .kwProc }, .ident "f", { kind := .lparen }, { kind := .rparen },
    { kind := .kwTypeVoid }, { kind := .lbrace }, { kind := .kwReturn }, .num 1,
    { kind := .semicolon }, { kind := .rbrace }, .eof]

/-- `proc f() void { return 1; x; }` -/
def returnThenUndeclared : List Token :=
  [{ kind := .kwProc }, .ident "f", { kind := .lparen }, { kind := .rparen },
    { kind := .kwTypeVoid }, { kind := .lbrace }, { kind := .kwReturn }, .num 1,
    { kind := .semicolon }, .ident "x", { kind := .semicolon }, { kind := .rbrace }, .eof]

/-- `proc f(a: int) int { return f(a); }` -/
def returnCall : List Token :=
  [{ kind := .kwProc }, .ident "f", { kind := .lparen }, .ident "a", { kind := .colon },
    { kind := .kwTypeInt }, { kind := .rparen }, { kind := .kwTypeInt }, { kind := .lbrace },
    { kind := .kwReturn }, .ident "f", { kind := .lparen }, .ident "a", { kind := .rparen },
    { kind := .semicolon }, { kind := .rbrace }, .eof]

/-- Whether the only procedure returns a number first although it has no result, and what stands
behind passes the test. -/
def returnsFromVoid (test : List AstNode → Option Nat → Bool) (root : AstNode) : Bool :=
  match root with
  | .block [.proc _ _ (some (.block (.return_ _ (some (.literal _ .number)) :: rest) table))
      (.procedure ⟨[], .void⟩) _ _] _ => test rest table
  | _ => false

/-- Whether a name that is not declared is all there is. -/
def nameUndeclared (tables : List Hashtable) (stmts : List AstNode) (table : Option Nat) : Bool :=
  match stmts with
  | [.literal op .ident] =>
    match symboltableLookup tables table op.value with
    | .ok none => true
    | _ => false
  | _ => false

theorem not_wellTyped {test : List AstNode → Option Nat → Bool}
    (h : returnsFromVoid test root = true) :
    ¬ WellTyped tables root := by
  unfold returnsFromVoid at h
  split at h
  · intro htyped
    have hreturn := htyped.returns _ _ _ _ _ _ _ _ _ _ (.inside (List.mem_singleton_self _) .self)
      (.inside (by simp [AstNode.kind]) List.mem_cons_self .self)
    exact hreturn.1 rfl
  · cases h

theorem diagnosed_of_undeclared (h : returnsFromVoid (nameUndeclared tables) root = true) :
    Diagnosed tables none root := by
  unfold returnsFromVoid nameUndeclared at h
  split at h
  · split at h
    · split at h
      · rename_i hlookup
        -- The declarations in front of the procedure, and the statements in front of the name.
        refine @Diagnosed.inBlock _ _ _ _ [] _ (List.forall_mem_nil _)
          (.inProc (List.forall_mem_nil _) ?_)
        refine @Diagnosed.inBlock _ _ _ _ [_] _ (List.forall_mem_singleton.mpr ?_)
          (.name (.inl hlookup))
        refine .return_ fun e he => ?_
        cases he
        exact ⟨_, .number⟩
      · cases h
    · cases h
  · cases h

/-- Whether the only procedure has an `int`, and returns what it returns itself for it. -/
def returnsCall (root : AstNode) (tables : List Hashtable) : Bool :=
  match root with
  | .block [.proc _ _ (some (.block [.return_ _ (some (.call _ (.literal op .ident)
      [.literal op' .ident]))] table)) (.procedure ⟨[⟨.int, _, _⟩], .int⟩) _ _] _ =>
    match sight tables table op.value, sight tables table op'.value with
    | some (.procedure, .procedure ⟨[⟨.int, _, _⟩], .int⟩), some (.parameter, .int) => true
    | _, _ => false
  | _ => false

/-- A node of another kind is visited in an operand. -/
theorem Visits.operand (h : Visits scope node scope' node') (hkind : node'.kind ≠ node.kind) :
    ∃ c ∈ node.operands, Visits (node.innerScope scope) c scope' node' := by
  cases h with
  | self => exact (hkind rfl).elim
  | inside hc h => exact ⟨_, hc, h⟩

theorem Visits.only_operand {c : AstNode} (h : Visits scope node scope' node')
    (hc : node.operands = [c]) (hkind : node'.kind ≠ node.kind) :
    Visits (node.innerScope scope) c scope' node' := by
  obtain ⟨c', hc', h⟩ := h.operand hkind
  cases List.mem_singleton.mp (hc ▸ hc')
  exact h

theorem wellTyped_of_returnsCall (h : returnsCall root tables = true) : WellTyped tables root := by
  unfold returnsCall at h
  split at h
  · split at h
    · rename_i hf ha
      have hint := Typed.stored ha (.inr rfl) ⟨_, rfl⟩
      constructor
      · intro scope op callee args hvisits
        have hproc := hvisits.only_operand rfl (by simp [AstNode.kind])
        have hbody := hproc.only_operand rfl (by simp [AstNode.kind])
        have hreturn := hbody.only_operand rfl (by simp [AstNode.kind])
        cases hreturn.only_operand rfl (by simp [AstNode.kind]) with
        | self => exact ⟨_, .procedure hf, .cons ⟨_, hint, rfl⟩ .nil⟩
        | inside hc hcall =>
          simp only [AstNode.operands, AstNode.children, List.mem_cons, List.not_mem_nil,
            or_false] at hc
          rcases hc with rfl | rfl <;> cases hcall with
          | inside hc _ => cases hc
      · intro scope op ident body sig table stackSize scope' op' value hproc hret
        have hshape {op op' op'' : Token} :
            Shape .expr (.call op (.literal op' .ident) [.literal op'' .ident]) :=
          .call .literal (List.forall_mem_singleton.mpr .literal)
        cases hproc.only_operand rfl (by simp [AstNode.kind]) with
        | self =>
          cases hret.visits.only_operand rfl (by simp [AstNode.kind]) with
          | self =>
            refine ⟨by simp [Ty.kind], _, .call (.procedure hf) (.cons hint .nil) fun i hi => ?_, rfl⟩
            cases Nat.lt_one_iff.mp hi
            exact .inl ⟨_, rfl, fun _ => ⟨_, rfl⟩⟩
          | inside hc hret =>
            cases List.mem_singleton.mp hc
            cases hret.expr hshape
        | inside hc hbody =>
          cases List.mem_singleton.mp hc
          have hreturn := hbody.only_operand rfl (by simp [AstNode.kind])
          have hcall := hreturn.only_operand rfl (by simp [AstNode.kind])
          cases hcall.expr hshape
    · cases h
  · cases h

theorem wellTyped_or_diagnosed_iff_returnCall :
    (∃ root p root' root'' st, parse 100 [] returnThenUndeclared = .ok root p ∧
      expandAst root = .ok root' ∧ symboltableBuild root' = .ok (root'', st) ∧
      ¬ WellTyped st.tables root'' ∧ WellTypedOrDiagnosed st.tables root'') ∧
    ∃ root p root' root'' st text data, parse 100 [] returnCall = .ok root p ∧
      expandAst root = .ok root' ∧ symboltableBuild root' = .ok (root'', st) ∧
      codegen st.tables root'' = .ok (text, data) ∧ Matches st.tables root'' := by
  constructor
  · obtain ⟨root, p, root', root'', st, hparse, hexpand, hbuild, htest⟩ :=
      @of_annotatesTo (fun _ root tables => returnsFromVoid (nameUndeclared tables) root) 100
        returnThenUndeclared (by decide +kernel)
    exact ⟨root, p, root', root'', st, hparse, hexpand, hbuild, not_wellTyped htest,
      (wellTyped_or_diagnosed_iff hparse hexpand hbuild).1.mpr (.inr (diagnosed_of_undeclared htest))⟩
  · obtain ⟨root, p, root', root'', st, hparse, hexpand, hbuild, htest⟩ :=
      @of_annotatesTo (fun _ root tables => returnsCall root tables &&
        emitsText (fun _ => true) root tables) 100 returnCall (by decide +kernel)
    rw [Bool.and_eq_true] at htest
    obtain ⟨text, data, hcodegen, -⟩ := of_emitsText htest.2
    exact ⟨root, p, root', root'', st, text, data, hparse, hexpand, hbuild, hcodegen,
      ((wellTyped_or_diagnosed_iff hparse hexpand hbuild).2 text data hcodegen).mp
        (wellTyped_of_returnsCall htest.1)⟩

/-- The value is evaluated, and the program is accepted. -/
theorem return_not_checked : ∃ root p root' root'' st text data,
    parse 100 [] returnFromVoid = .ok root p ∧ expandAst root = .ok root' ∧
      symboltableBuild root' = .ok (root'', st) ∧ codegen st.tables root'' = .ok (text, data) ∧
      ¬ WellTypedOrDiagnosed st.tables root'' := by
  obtain ⟨root, p, root', root'', st, hparse, hexpand, hbuild, htest⟩ :=
    @of_annotatesTo (fun _ root tables => returnsFromVoid (fun _ _ => true) root &&
      emitsText (fun _ => true) root tables) 100 returnFromVoid (by decide +kernel)
  rw [Bool.and_eq_true] at htest
  obtain ⟨text, data, hcodegen, -⟩ := of_emitsText htest.2
  refine ⟨root, p, root', root'', st, text, data, hparse, hexpand, hbuild, hcodegen, ?_⟩
  rintro (hwell | ⟨message, herror⟩)
  · exact not_wellTyped htest.1 hwell
  · cases hcodegen.symm.trans herror

end Seron
