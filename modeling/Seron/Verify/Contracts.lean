import Seron.Verify.Traversal
import Seron.Codegen.Emit

/-! # Contracts for the code generator

How an emission may fail, which lines it may write and what it may do to the global state. One
induction over the tree serves all contracts. -/

namespace Seron

open AstNode

def sugarPanic : Failure := .panic "syntactic sugar should have been expanded earlier"

/-- No label and no jump. -/
def Instr.straight : Instr → Bool
  | .jmp _ | .je _ | .jne _ | .label _ => false
  | _ => true

/-- The nodes that are emitted with labels or jumps, or that open a scope. -/
def AstNodeKind.control : AstNodeKind → Bool
  | .block | .proc | .if_ | .while_ | .for_ | .return_ => true
  | _ => false

/-- Whatever the contract, it allows all failures but the panic about sugar, all lines but labels
and jumps, and strings in the data section. -/
structure Contract where
  fails : Failure → Prop
  writes : Instr → Prop
  moves : Gen → Gen → Prop
  fails_of : ∀ {e}, e ≠ sugarPanic → fails e
  writes_of : ∀ {i}, i.straight = true → writes i
  moves_of : ∀ {gen gen'}, gen'.labelCount = gen.labelCount → gen'.scope = gen.scope →
    moves gen gen'
  moves_trans : ∀ {gen₁ gen₂ gen₃}, moves gen₁ gen₂ → moves gen₂ gen₃ → moves gen₁ gen₃

namespace Contract

variable {C : Contract} {α β : Type} {x : Emit α} {f : α → Emit β}

/-- The emission keeps to the contract. -/
def Holds (C : Contract) (x : Emit α) : Prop := ∀ gen,
  match x gen with
  | .error e => C.fails e
  | .ok (_, text, gen') => (∀ i ∈ text, C.writes i) ∧ C.moves gen gen'

/-- All lines and all changes are allowed. -/
def Free (C : Contract) : Prop := (∀ i, C.writes i) ∧ ∀ gen gen', C.moves gen gen'

theorem moves_refl {gen : Gen} : C.moves gen gen := C.moves_of rfl rfl

namespace Holds

theorem pure {a : α} : C.Holds (pure a : Emit α) := fun _ => ⟨List.forall_mem_nil _, moves_refl⟩

theorem bind (hx : C.Holds x) (hf : ∀ a, C.Holds (f a)) : C.Holds (x >>= f) := by
  intro gen
  have hx := hx gen
  change match Emit.bind x f gen with
    | .error e => C.fails e
    | .ok (_, text, gen') => (∀ i ∈ text, C.writes i) ∧ C.moves gen gen'
  rw [Emit.bind]
  rcases hxr : x gen with e | ⟨a, text, gen₁⟩ <;> rw [hxr] at hx
  · exact hx
  · have hf := hf a gen₁
    dsimp only
    rcases hfr : f a gen₁ with e | ⟨b, text', gen₂⟩ <;> rw [hfr] at hf
    · exact hf
    · exact ⟨fun i hi => (List.mem_append.mp hi).elim (hx.1 i) (hf.1 i), C.moves_trans hx.2 hf.2⟩

theorem lift {x : Except Failure α} (h : ∀ e, x = .error e → e ≠ sugarPanic) :
    C.Holds (liftM x : Emit α) := by
  intro gen
  cases x with
  | error e => exact C.fails_of (h e rfl)
  | ok a => exact ⟨List.forall_mem_nil _, moves_refl⟩

theorem fail {e : Failure} (h : e ≠ sugarPanic) : C.Holds (fail e : Emit α) :=
  fun _ => C.fails_of h

theorem sugar (h : C.fails sugarPanic) : C.Holds (Seron.fail sugarPanic : Emit α) := fun _ => h

theorem getGen : C.Holds getGen := fun _ => ⟨List.forall_mem_nil _, moves_refl⟩

theorem modifyGen {g : Gen → Gen} (h : ∀ gen, C.moves gen (g gen)) : C.Holds (modifyGen g) :=
  fun gen => ⟨List.forall_mem_nil _, h gen⟩

theorem write {i : Instr} (h : C.writes i) : C.Holds (genWrite i) :=
  fun _ => ⟨fun _ hj => (List.mem_singleton.mp hj) ▸ h, moves_refl⟩

theorem genWrite {i : Instr} (h : i.straight = true) : C.Holds (genWrite i) :=
  write (C.writes_of h)

theorem genWriteData {line : DataLine} : C.Holds (genWriteData line) :=
  fun _ => ⟨List.forall_mem_nil _, C.moves_of rfl rfl⟩

theorem discard (hx : C.Holds x) : C.Holds (discard x) := bind hx fun _ => pure

theorem subregister {r : Register} {k : TypeKind} :
    C.Holds (liftM (subregister r k) : Emit SubReg) :=
  lift (by cases k <;> simp [Seron.subregister, sugarPanic])

theorem size {k : TypeKind} : C.Holds (liftM (typePrimitiveSize k) : Emit Int) :=
  lift (by cases k <;> simp [typePrimitiveSize, sugarPanic])

theorem invalidTypes {message : String} {k k' : TypeKind} :
    C.Holds (invalidTypes message k k' : Emit α) := by
  have hk {k : TypeKind} : C.Holds (liftM (stringifyTypekind k) : Emit String) :=
    lift (by cases k <;> simp [stringifyTypekind, sugarPanic])
  exact bind hk fun _ => bind hk fun _ => fail (by simp [sugarPanic])

theorem genWrites {is : List Instr} (h : ∀ i ∈ is, i.straight = true) :
    C.Holds (genWrites is) := by
  induction is with
  | nil => exact pure
  | cons i is ih =>
    exact bind (genWrite (h i List.mem_cons_self)) fun _ => ih fun j hj => h j (.tail _ hj)

theorem abiRegisterStr {i : Nat} {k : TypeKind} :
    C.Holds (liftM (abiRegisterStr i k) : Emit (Option SubReg)) := by
  refine lift fun e h => ?_
  unfold Seron.abiRegisterStr at h
  split at h
  · cases h
  · rintro rfl
    cases k <;> simp [Seron.subregister, sugarPanic, Bind.bind, Except.bind, Pure.pure,
      Except.pure] at h

theorem pointee {ty : Ty} : C.Holds (liftM ty.pointee : Emit Ty) := by
  refine lift fun e h => ?_
  unfold Ty.pointee at h
  split at h <;> cases h <;> simp [sugarPanic]

theorem paramKind {sig : ProcSignature} {i : Nat} :
    C.Holds (liftM (sig.paramKind i) : Emit TypeKind) := by
  refine lift fun e h => ?_
  unfold ProcSignature.paramKind at h
  split at h
  · cases h
  · split at h <;> cases h
    simp [sugarPanic]

theorem scalePointer {lhs rhs : Ty} : C.Holds (scalePointer lhs rhs) := by
  have scaled {r : Register} {k : TypeKind} {ty : Ty} : C.Holds (do
      let reg ← Seron.subregister r k
      let size ← typePrimitiveSize (← ty.pointee).kind
      Seron.genWrite (.imulImm reg size)) :=
    bind subregister fun _ => bind pointee fun _ => bind size fun _ => genWrite rfl
  unfold Seron.scalePointer
  split
  · exact scaled
  · split
    · exact scaled
    · split
      · exact invalidTypes
      · exact pure

/-! ### The functions that take the emission of children -/

variable {a b : Emit Ty} {xs : List (Emit Ty)}

theorem callArgs {sig : ProcSignature} {i : Nat} (hxs : ∀ x ∈ xs, C.Holds x) :
    C.Holds (callArgs sig i xs) := by
  induction xs generalizing i with
  | nil => exact pure
  | cons x xs ih =>
    have ih {i : Nat} := ih (i := i) fun y hy => hxs y (by simp [hy])
    refine bind paramKind fun k => bind abiRegisterStr fun reg =>
      bind (discard (hxs x (by simp))) fun _ => ?_
    cases reg with
    | none => exact bind (genWrite rfl) fun _ => ih
    | some reg => exact bind subregister fun _ => bind (genWrite rfl) fun _ => ih

theorem call (ha : C.Holds a) (hxs : ∀ x ∈ xs, C.Holds x) : C.Holds (call a xs) := by
  refine bind ha fun ty => bind (genWrite rfl) fun _ => ?_
  split
  · exact bind (callArgs hxs) fun _ => bind (genWrite rfl) fun _ => bind (genWrite rfl) fun _ => pure
  · exact fail (by simp [sugarPanic])

theorem procParams {i : Nat} {offset : Int} {params : List Param} :
    C.Holds (procParams i offset params) := by
  induction params generalizing i offset with
  | nil => exact pure
  | cons param params ih =>
    refine bind abiRegisterStr fun reg => ?_
    cases reg with
    | none => exact bind subregister fun _ => bind (genWrite rfl) fun _ => bind (genWrite rfl) fun _ => ih
    | some reg => exact bind (genWrite rfl) fun _ => ih

theorem emitSeq (hxs : ∀ x ∈ xs, C.Holds x) : C.Holds (emitSeq xs) := by
  induction xs with
  | nil => exact pure
  | cons x xs ih =>
    exact bind (discard (hxs x (by simp))) fun _ => ih fun y hy => hxs y (by simp [hy])

theorem vardecl {o : Option (Emit Ty)} {type : Ty} {offset : Int} (ho : ∀ x ∈ o, C.Holds x) :
    C.Holds (vardecl o type offset) := by
  cases o with
  | none => exact pure
  | some x =>
    refine bind (ho x rfl) fun _ => ?_
    split
    · exact invalidTypes
    · exact bind subregister fun _ => genWrite rfl

theorem assign (ha : C.Holds a) (hb : C.Holds b) : C.Holds (assign a b) := by
  refine bind ha fun _ => bind (genWrite rfl) fun _ => bind hb fun _ => ?_
  split
  · exact invalidTypes
  · exact bind (genWrite rfl) fun _ => bind subregister fun _ => bind (genWrite rfl) fun _ => pure

theorem arrayElems {type : Ty} {offset elemSize : Int} (hxs : ∀ x ∈ xs, C.Holds x) :
    C.Holds (arrayElems type offset elemSize xs) := by
  induction xs with
  | nil => exact pure
  | cons x xs ih =>
    exact bind (discard (hxs x (by simp))) fun _ => bind subregister fun _ =>
      bind (genWrite rfl) fun _ => ih fun y hy => hxs y (by simp [hy])

theorem array {type : Ty} {offset : Int} (hxs : ∀ x ∈ xs, C.Holds x) :
    C.Holds (array xs type offset) :=
  bind size fun _ => bind (arrayElems hxs) fun _ => bind (genWrite rfl) fun _ => pure

theorem unaryopAddr {kind : UnaryOpKind} (ha : C.Holds a) : C.Holds (unaryopAddr a kind) := by
  cases kind with
  | deref => exact ha
  | _ => exact fail (by simp [sugarPanic])

theorem unaryop {kind : UnaryOpKind} (ha : C.Holds a) (hb : C.Holds b) :
    C.Holds (unaryop a b kind) := by
  cases kind with
  | minus => exact bind ha fun _ => bind subregister fun _ => bind (genWrite rfl) fun _ => pure
  | neg =>
    exact bind ha fun _ => bind subregister fun _ => bind (genWrite rfl) fun _ => bind (genWrite rfl) fun _ =>
      pure
  | addrof => exact hb
  | deref => exact bind ha fun _ => bind subregister fun _ => bind (genWrite rfl) fun _ => pointee

theorem binop {kind : BinOpKind} (ha : C.Holds a) (hb : C.Holds b) : C.Holds (binop a b kind) :=
  bind hb fun _ => bind subregister fun _ => bind (genWrite rfl) fun _ => bind ha fun _ =>
    bind subregister fun _ => bind (genWrite rfl) fun _ => bind subregister fun _ =>
      bind scalePointer fun _ =>
        bind (genWrites (by cases kind <;> simp [binopInstrs, Instr.straight])) fun _ => pure

/-! ### The functions that write labels or jumps -/

theorem proc {ident : Token} {body : Option (Emit Ty)} {type : Ty} {size : Int} (hC : C.Free)
    (hbody : ∀ x ∈ body, C.Holds x) : C.Holds (proc ident body type size) := by
  unfold Seron.proc
  split
  · exact genWrite rfl
  · split
    · exact bind (genWrite rfl) fun _ => bind (write (hC.1 _)) fun _ => bind (genWrite rfl) fun _ =>
        bind (genWrite rfl) fun _ => bind (genWrite rfl) fun _ => bind procParams fun _ =>
        bind (discard (hbody _ rfl)) fun _ => bind (write (hC.1 _)) fun _ => bind (genWrite rfl) fun _ =>
        bind (genWrite rfl) fun _ => genWrite rfl
    · exact fail (by simp [sugarPanic])

theorem block {table : Option Nat} (hC : C.Free) (hxs : ∀ x ∈ xs, C.Holds x) :
    C.Holds (block table xs) :=
  bind getGen fun _ => bind (modifyGen fun _ => hC.2 _ _) fun _ => bind (emitSeq hxs) fun _ =>
    modifyGen fun _ => hC.2 _ _

theorem return_ {o : Option (Emit Ty)} (hC : C.Free) (ho : ∀ x ∈ o, C.Holds x) :
    C.Holds (return_ o) := by
  cases o with
  | none => exact bind pure fun _ => write (hC.1 _)
  | some x => exact bind (discard (ho x rfl)) fun _ => write (hC.1 _)

theorem cond {o : Option (Emit Ty)} (hC : C.Free) (ha : C.Holds a) (hb : C.Holds b)
    (ho : ∀ x ∈ o, C.Holds x) : C.Holds (cond a b o) := by
  refine bind getGen fun _ => bind (modifyGen fun _ => hC.2 _ _) fun _ => bind ha fun _ =>
    bind subregister fun _ => bind (genWrite rfl) fun _ => bind (write (hC.1 _)) fun _ =>
      bind (discard hb) fun _ => bind (write (hC.1 _)) fun _ => bind (write (hC.1 _)) fun _ => ?_
  cases o with
  | none => exact bind pure fun _ => write (hC.1 _)
  | some x => exact bind (discard (ho x rfl)) fun _ => write (hC.1 _)

theorem while_ (hC : C.Free) (ha : C.Holds a) (hb : C.Holds b) : C.Holds (while_ a b) :=
  bind getGen fun _ => bind (modifyGen fun _ => hC.2 _ _) fun _ => bind (write (hC.1 _)) fun _ =>
    bind (write (hC.1 _)) fun _ => bind (discard hb) fun _ => bind (write (hC.1 _)) fun _ =>
      bind ha fun _ => bind subregister fun _ => bind (genWrite rfl) fun _ => write (hC.1 _)

/-! ### Identifiers -/

variable {tables : List Hashtable} {key : String}

theorem getChain_ne {key : List Char} {chain : List HashtableEntry} :
    getChain key chain ≠ .error sugarPanic := by
  induction chain with
  | nil => nofun
  | cons current chain ih =>
    intro h
    simp only [getChain, strcmpKey, Bind.bind, Except.bind, Pure.pure, Except.pure] at h
    grind [sugarPanic]

theorem lookupChain_ne {fuel : Nat} {scope : Option Nat} :
    lookupChain tables key fuel scope ≠ .error sugarPanic := by
  induction fuel generalizing scope with
  | zero => cases scope <;> simp [lookupChain, sugarPanic]
  | succ fuel ih =>
    cases scope with
    | none => nofun
    | some scope =>
      intro h
      simp only [lookupChain] at h
      split at h
      · cases h
      · rename_i ht _
        cases hget : hashtableGet ht key with
        | error e =>
          simp only [hget, Bind.bind, Except.bind, Except.error.injEq] at h
          exact getChain_ne (hget.trans (congrArg _ h))
        | ok sym => cases sym <;> simp [hget, Bind.bind, Except.bind, Pure.pure, Except.pure, ih] at h

theorem symboltableLookup {scope : Option Nat} :
    C.Holds (liftM (symboltableLookup tables scope key) : Emit (Option Symbol)) := by
  refine lift fun e h he => ?_
  subst he
  cases scope with
  | none => simp [Seron.symboltableLookup, sugarPanic] at h
  | some scope => exact lookupChain_ne h

theorem literalIdent {addr : Bool} : C.Holds (literalIdent tables key addr) := by
  refine bind getGen fun gen => bind symboltableLookup fun sym => ?_
  cases sym with
  | none => exact fail (by simp [sugarPanic])
  | some sym =>
    rcases hkind : sym.kind <;> simp only [hkind]
    case procedure => exact bind (genWrite rfl) fun _ => pure
    case invalid | none | table => exact fail (by simp [sugarPanic])
    all_goals
      split
      · exact bind (genWrite rfl) fun _ => pure
      · exact bind subregister fun _ => bind (genWrite rfl) fun _ => pure

theorem literalAddr {op : Token} {kind : LiteralKind} : C.Holds (literalAddr tables op kind) := by
  cases kind with
  | ident => exact literalIdent
  | _ => exact fail (by simp [sugarPanic])

theorem literal {op : Token} {kind : LiteralKind} : C.Holds (literal tables op kind) := by
  cases kind with
  | ident => exact literalIdent
  | number => exact bind subregister fun _ => bind (genWrite rfl) fun _ => pure
  | string =>
    exact bind getGen fun _ => bind genWriteData fun _ => bind genWriteData fun _ =>
      bind (genWrite rfl) fun _ => bind (modifyGen fun _ => C.moves_of rfl rfl) fun _ => pure

end Holds

end Contract

theorem mem_emits {tables : List Hashtable} {nodes : List AstNode} {x : Emit Ty}
    (h : x ∈ emits tables nodes) : ∃ node ∈ nodes, x = emit tables node := by
  induction nodes with
  | nil => cases h
  | cons node nodes ih =>
    rcases List.mem_cons.mp h with rfl | h
    · exact ⟨node, by simp, rfl⟩
    · obtain ⟨node, hnode, rfl⟩ := ih h
      exact ⟨node, by simp [hnode], rfl⟩

theorem mem_emitOpt {tables : List Hashtable} {node : Option AstNode} {x : Emit Ty}
    (h : x ∈ emitOpt tables node) : ∃ n ∈ node, x = emit tables n := by
  cases node with
  | none => cases h
  | some node =>
    cases h
    exact ⟨node, rfl, rfl⟩

/-- The kinds of nodes a contract can be kept for. -/
def Contract.Admits (C : Contract) (kind : AstNodeKind) : Prop :=
  (kind = .for_ ∨ kind = .index → C.fails sugarPanic) ∧ (kind.control = true → C.Free)

/-- Both `emit` and `emit_addr` keep to the contract on trees it admits. -/
theorem Contract.holds_emit {C : Contract} {tables : List Hashtable} {node : AstNode}
    (h : node.AllKinds C.Admits) :
    C.Holds (emit tables node) ∧ C.Holds (emitAddr tables node) := by
  induction node using AstNode.parts_induct with
  | step node ih =>
    obtain ⟨⟨hsugar, hcontrol⟩, hparts⟩ := allKinds_iff.mp h
    have ih {c : AstNode} (hc : c ∈ node.parts) := ih c hc (hparts c hc)
    have list {nodes : List AstNode} (hnodes : ∀ c ∈ nodes, c ∈ node.parts) :
        ∀ x ∈ emits tables nodes, C.Holds x := fun x hx => by
      obtain ⟨c, hc, rfl⟩ := mem_emits hx
      exact (ih (hnodes c hc)).1
    have opt {o : Option AstNode} (ho : ∀ c ∈ o, c ∈ node.parts) :
        ∀ x ∈ emitOpt tables o, C.Holds x := fun x hx => by
      obtain ⟨c, hc, rfl⟩ := mem_emitOpt hx
      exact (ih (ho c hc)).1
    have other (h : emitAddr tables node = fail (.panic "unknown node kind")) :
        C.Holds (emitAddr tables node) := by
      rw [h]
      exact .fail (by simp [sugarPanic])
    cases node
    case literal =>
      rw [emit, emitAddr]
      exact ⟨.literal, .literalAddr⟩
    case unaryop =>
      have h := ih (List.mem_singleton.mpr rfl)
      rw [emit, emitAddr]
      exact ⟨.unaryop h.1 h.2, .unaryopAddr h.1⟩
    case for_ =>
      rw [emit, emitAddr]
      exact ⟨.sugar (hsugar (.inl rfl)), .sugar (hsugar (.inl rfl))⟩
    case index =>
      rw [emit, emitAddr]
      exact ⟨.sugar (hsugar (.inr rfl)), .sugar (hsugar (.inr rfl))⟩
    all_goals
      refine ⟨?_, other (by simp [emitAddr])⟩
      rw [emit]
    case grouping => exact (ih (by simp [parts, children])).1
    case binop =>
      exact .binop (ih (by simp [parts, children])).1 (ih (by simp [parts, children])).1
    case call =>
      exact .call (ih (by simp [parts, children])).1
        (list fun c hc => by simp [parts, children, hc])
    case block => exact .bind (.block (hcontrol rfl) (list fun c hc => hc)) fun _ => .pure
    case proc =>
      exact .bind (.proc (hcontrol rfl) (opt fun c hc => Option.mem_toList.mpr hc)) fun _ => .pure
    case vardecl => exact .bind (.vardecl (opt fun c hc => Option.mem_toList.mpr hc)) fun _ => .pure
    case if_ =>
      exact .bind (.cond (hcontrol rfl) (ih (by simp [parts, children])).1
        (ih (by simp [parts, children])).1 (opt fun c hc => by simp_all [parts, children]))
        fun _ => .pure
    case while_ =>
      exact .bind (.while_ (hcontrol rfl) (ih (by simp [parts, children])).1
        (ih (by simp [parts, children])).1) fun _ => .pure
    case assign =>
      exact .assign (ih (by simp [parts])).2 (ih (by simp [parts])).1
    case return_ =>
      exact .bind (.return_ (hcontrol rfl) (opt fun c hc => Option.mem_toList.mpr hc))
        fun _ => .pure
    case table => exact .pure
    case array => exact .array (list fun c hc => hc)

/-! ## Contracts -/

/-- No panic about sugar. -/
def Contract.noSugarPanic : Contract where
  fails e := e ≠ sugarPanic
  writes _ := True
  moves _ _ := True
  fails_of h := h
  writes_of _ := trivial
  moves_of _ _ := trivial
  moves_trans _ _ := trivial

/-- Straight-line code, without new labels and in the same scope. -/
def Contract.straightLine : Contract where
  fails _ := True
  writes i := i.straight = true
  moves gen gen' := gen'.labelCount = gen.labelCount ∧ gen'.scope = gen.scope
  fails_of _ := trivial
  writes_of h := h
  moves_of h h' := ⟨h, h'⟩
  moves_trans h h' := ⟨h'.1.trans h.1, h'.2.trans h.2⟩

/-- Without sugar in the tree, neither `emit` nor `emit_addr` panics about sugar. -/
theorem emit_ne_sugarPanic {tables : List Hashtable} {node : AstNode} {gen : Gen}
    (h : node.AllKinds fun kind => kind ≠ .for_ ∧ kind ≠ .index) :
    emit tables node gen ≠ .error sugarPanic := by
  have hadmits : node.AllKinds Contract.noSugarPanic.Admits := fun x hx =>
    ⟨fun hkind => absurd hkind (not_or.mpr (h x hx)), fun _ => ⟨fun _ => trivial, fun _ _ => trivial⟩⟩
  have hholds := (@Contract.holds_emit _ tables _ hadmits).1 gen
  intro he
  rw [he] at hholds
  exact hholds rfl

/-- No label, jump or scope is in the tree. -/
def AstNode.Straight (node : AstNode) : Prop := node.AllKinds fun kind => kind.control = false

theorem AstNode.Straight.emit {tables : List Hashtable} {node : AstNode} {gen gen' : Gen} {ty : Ty}
    {code : List Instr} (h : node.Straight) (hemit : emit tables node gen = .ok (ty, code, gen')) :
    (∀ i ∈ code, i.straight = true) ∧ gen'.labelCount = gen.labelCount ∧
      gen'.scope = gen.scope := by
  have hadmits : node.AllKinds Contract.straightLine.Admits := fun x hx =>
    ⟨fun _ => trivial, fun hcontrol => absurd hcontrol (by simp [h x hx])⟩
  have hholds := (@Contract.holds_emit _ tables _ hadmits).1 gen
  rwa [hemit] at hholds

end Seron
