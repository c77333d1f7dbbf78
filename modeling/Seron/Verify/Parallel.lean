import Seron.Verify.Chains
import Seron.Verify.Scoping

/-! # Two generators in step

Two emissions of the same constructs, in scopes and with numbers that may differ: both fail in the
same way, or both succeed with the same value and with lines that go together. -/

namespace Seron

/-! ## Lines -/

/-- The number of a label that is not the label of a procedure. -/
def Label.number? : Label → Option Nat
  | .else_ n | .end_ n | .while_ n | .cond n => some n
  | .proc _ | .return_ => none

/-- The line has neither a number in a label nor a symbol as its operand. -/
def Instr.isFixed : Instr → Bool
  | .movSym .. => false
  | .jmp l | .je l | .jne l | .label l => l.number?.isNone
  | _ => true

/-- A label under two numbers. -/
inductive Label.Renumbered (n n' : Nat) : Label → Label → Prop
  | else_ : Renumbered n n' (.else_ n) (.else_ n')
  | end_ : Renumbered n n' (.end_ n) (.end_ n')
  | while_ : Renumbered n n' (.while_ n) (.while_ n')
  | cond : Renumbered n n' (.cond n) (.cond n')

/-- The line that loads the address of a string. -/
def stringLine (n : Nat) : Instr := .movSym ⟨.rax, .w64⟩ s!"string_{n}"

/-! ## Couplings -/

/-- The data section of the one state is the beginning of that of the other one. -/
def Gen.Before (gen gen₁ : Gen) : Prop := gen.bufData <+: gen₁.bufData

theorem Gen.Before.refl {gen : Gen} : gen.Before gen := List.prefix_rfl

theorem Gen.Before.trans {gen gen₁ gen₂ : Gen} (h : gen.Before gen₁) (h' : gen₁.Before gen₂) :
    gen.Before gen₂ := List.IsPrefix.trans h h'

theorem Gen.before_push {gen : Gen} {contents : String} : gen.Before (gen.push contents) :=
  List.prefix_append ..

/-- Which scopes go together, which states of two generators that are in them, and which lines that
were written up to two states. These do so later as well. -/
structure Coupling where
  scopes : Option Nat → Option Nat → Prop
  state : Option Nat → Option Nat → Gen → Gen → Prop
  line : Gen → Gen → Instr → Instr → Prop
  later {gen gen' gen₁ gen₁' : Gen} {i i' : Instr} : gen.Before gen₁ → gen'.Before gen₁' →
    line gen gen' i i' → line gen₁ gen₁' i i'

/-- What the single steps of the generator do to states that go together. -/
structure Coupling.Lawful (K : Coupling) : Prop where
  scope {s s' : Option Nat} {gen gen' : Gen} : K.state s s' gen gen' →
    K.scopes s s' ∧ gen.scope = s ∧ gen'.scope = s'
  enter {s s' t t' : Option Nat} {gen gen' : Gen} : K.scopes t t' → K.state s s' gen gen' →
    K.state t t' { gen with scope := t } { gen' with scope := t' }
  fixed {gen gen' : Gen} {i : Instr} : i.isFixed = true → K.line gen gen' i i
  label {s s' : Option Nat} {gen gen' : Gen} : K.state s s' gen gen' →
    K.state s s' { gen with labelCount := gen.labelCount + 1 }
      { gen' with labelCount := gen'.labelCount + 1 }
  numbered {s s' : Option Nat} {gen gen' : Gen} {l l' : Label} : K.state s s' gen gen' →
    Label.Renumbered gen.labelCount gen'.labelCount l l' →
    ∀ mk ∈ [Instr.jmp, .je, .jne, .label], ∀ gen₁ gen₁', K.line gen₁ gen₁' (mk l) (mk l')
  push {s s' : Option Nat} {gen gen' : Gen} {contents : String} : K.state s s' gen gen' →
    K.state s s' (gen.push contents) (gen'.push contents)
  string {s s' : Option Nat} {gen gen' : Gen} {contents : String} : K.state s s' gen gen' →
    K.line (gen.push contents) (gen'.push contents) (stringLine gen.dataCount)
      (stringLine gen'.dataCount)

variable {s s' t t' : Option Nat} {gen gen' : Gen} {K : Coupling}

/-- Two results of emissions that go together, from these states on. -/
inductive Coupling.Results (K : Coupling) (s s' : Option Nat) (gen gen' : Gen) {α : Type} :
    Except Failure (α × List Instr × Gen) → Except Failure (α × List Instr × Gen) → Prop
  | error {e : Failure} : Results K s s' gen gen' (.error e) (.error e)
  | ok {a : α} {text text' : List Instr} {gen₁ gen₁' : Gen} : gen.Before gen₁ → gen'.Before gen₁' →
    List.Forall₂ (K.line gen₁ gen₁') text text' → K.state s s' gen₁ gen₁' →
    Results K s s' gen gen' (.ok (a, text, gen₁)) (.ok (a, text', gen₁'))

/-- From states that go together, two steps have results that go together. -/
def Parallel (K : Coupling) (s s' : Option Nat) {α : Type} (x y : Emit α) : Prop :=
  ∀ gen gen', K.state s s' gen gen' → K.Results s s' gen gen' (x gen) (y gen')

namespace Parallel

variable {α β : Type} {x y : Emit α} {f g : α → Emit β}

/-- A successful emission has a counterpart. -/
theorem ok {a : α} {text : List Instr} {gen₁ : Gen} (h : Parallel K s s' x y)
    (hstate : K.state s s' gen gen') (hx : x gen = .ok (a, text, gen₁)) :
    ∃ text' gen₁', y gen' = .ok (a, text', gen₁') ∧
      List.Forall₂ (K.line gen₁ gen₁') text text' ∧ K.state s s' gen₁ gen₁' := by
  have hres := h gen gen' hstate
  rw [hx] at hres
  generalize y gen' = r at hres
  cases hres with
  | ok _ _ hlines hstate' => exact ⟨_, _, rfl, hlines, hstate'⟩

theorem fail {e : Failure} : Parallel K s s' (fail e : Emit α) (Seron.fail e) :=
  fun _ _ _ => .error

theorem pure {a : α} : Parallel K s s' (pure a : Emit α) (Pure.pure a) :=
  fun _ _ h => .ok .refl .refl .nil h

theorem lift {e : Except Failure α} : Parallel K s s' (liftM e : Emit α) (liftM e) := by
  intro gen gen' h
  cases e with
  | error e => exact .error
  | ok a => exact .ok .refl .refl .nil h

theorem bind (hx : Parallel K s s' x y) (hf : ∀ a, Parallel K s s' (f a) (g a)) :
    Parallel K s s' (x >>= f) (y >>= g) := by
  intro gen gen' h
  have hxy := hx gen gen' h
  change K.Results s s' gen gen' (Emit.bind x f gen) (Emit.bind y g gen')
  unfold Emit.bind
  generalize x gen = r at hxy
  generalize y gen' = r' at hxy
  cases hxy with
  | error => exact .error
  | @ok a _ _ gen₁ gen₁' hbefore hbefore' hlines h₁ =>
    have hfg := hf a gen₁ gen₁' h₁
    dsimp only
    generalize f a gen₁ = r at hfg
    generalize g a gen₁' = r' at hfg
    cases hfg with
    | error => exact .error
    | ok hlater hlater' hlines' h₂ =>
      refine .ok (hbefore.trans hlater) (hbefore'.trans hlater') (List.rel_append ?_ hlines') h₂
      exact hlines.imp fun _ _ hline => K.later hlater hlater' hline

/-- A step that writes nothing, and a rest that may use its value. -/
theorem lifted {e : Except Failure α} (hf : ∀ a, e = .ok a → Parallel K s s' (f a) (g a)) :
    Parallel K s s' (liftM e >>= f) (liftM e >>= g) := by
  cases e with
  | error e => exact fun _ _ _ => .error
  | ok a =>
    intro gen gen' h
    have hrest := hf a rfl gen gen' h
    change K.Results s s' gen gen' (Emit.bind (liftM (.ok a : Except Failure α)) f gen)
      (Emit.bind (liftM (.ok a : Except Failure α)) g gen')
    simp only [Emit.bind, liftM, monadLift, MonadLift.monadLift, Except.map, List.nil_append]
    generalize f a gen = r at hrest
    generalize g a gen' = r' at hrest
    cases hrest with
    | error => exact .error
    | ok hbefore hbefore' hlines h₁ => exact .ok hbefore hbefore' hlines h₁

theorem discard (hx : Parallel K s s' x y) : Parallel K s s' (discard x) (discard y) :=
  bind hx fun _ => pure

theorem line {i i' : Instr} (h : ∀ gen gen', K.line gen gen' i i') :
    Parallel K s s' (genWrite i) (genWrite i') :=
  fun _ _ hstate => .ok .refl .refl (.cons (h _ _) .nil) hstate

theorem writeLine {i i' : Instr} {f g : Unit → Emit β} (h : ∀ gen gen', K.line gen gen' i i')
    (hf : Parallel K s s' (f ()) (g ())) :
    Parallel K s s' (genWrite i >>= f) (genWrite i' >>= g) := bind (line h) fun _ => hf

theorem invalidTypes {message : String} {k k' : TypeKind} :
    Parallel K s s' (invalidTypes message k k' : Emit α) (Seron.invalidTypes message k k') :=
  bind lift fun _ => bind lift fun _ => fail

section
variable (hK : K.Lawful)

include hK

theorem genWrite {i : Instr} (hi : i.isFixed = true) :
    Parallel K s s' (genWrite i) (Seron.genWrite i) := line fun _ _ => hK.fixed hi

theorem write {i : Instr} {f g : Unit → Emit β} (hi : i.isFixed = true)
    (hf : Parallel K s s' (f ()) (g ())) :
    Parallel K s s' (Seron.genWrite i >>= f) (Seron.genWrite i >>= g) :=
  bind (genWrite hK hi) fun _ => hf

theorem genWrites {is : List Instr} (h : ∀ i ∈ is, i.isFixed = true) :
    Parallel K s s' (genWrites is) (Seron.genWrites is) := by
  induction is with
  | nil => exact pure
  | cons i is ih =>
    obtain ⟨hi, his⟩ := List.forall_mem_cons.mp h
    exact write hK hi (ih his)

/-- The next number of a label, and a rest that may use it. -/
theorem nextLabel {f g : Gen → Emit β}
    (hf : ∀ gen gen', (∀ l l', Label.Renumbered gen.labelCount gen'.labelCount l l' →
      ∀ mk ∈ [Instr.jmp, .je, .jne, .label], ∀ gen₁ gen₁', K.line gen₁ gen₁' (mk l) (mk l')) →
      Parallel K s s' (f gen) (g gen')) :
    Parallel K s s'
      (getGen >>= fun gen => modifyGen (fun gen => { gen with labelCount := gen.labelCount + 1 }) >>=
        fun _ => f gen)
      (getGen >>= fun gen => modifyGen (fun gen => { gen with labelCount := gen.labelCount + 1 }) >>=
        fun _ => g gen) := by
  intro gen gen' h
  have hrest := hf gen gen' (fun _ _ hl => hK.numbered h hl) _ _ (hK.label h)
  simp only [Bind.bind, Emit.bind, getGen, modifyGen, List.nil_append]
  generalize f gen _ = r at hrest
  generalize g gen' _ = r' at hrest
  cases hrest with
  | error => exact .error
  | ok hbefore hbefore' hlines h₁ => exact .ok hbefore hbefore' hlines h₁

/-! ### The functions of the generator -/

theorem params {i : Nat} {offset : Int} {ps : List Param} :
    Parallel K s s' (procParams i offset ps) (procParams i offset ps) := by
  induction ps generalizing i offset with
  | nil => exact pure
  | cons param ps ih =>
    refine bind lift fun reg => ?_
    cases reg with
    | none => exact bind lift fun _ => write hK rfl (write hK rfl ih)
    | some reg => exact write hK rfl ih

theorem scalePointer {lhs rhs : Ty} :
    Parallel K s s' (scalePointer lhs rhs) (Seron.scalePointer lhs rhs) := by
  have scaled {r : Register} {k : TypeKind} {ty : Ty} : Parallel K s s' (do
        let reg ← subregister r k
        let size ← typePrimitiveSize (← ty.pointee).kind
        Seron.genWrite (.imulImm reg size)) (do
        let reg ← subregister r k
        let size ← typePrimitiveSize (← ty.pointee).kind
        Seron.genWrite (.imulImm reg size)) :=
    bind lift fun _ => bind lift fun _ => bind lift fun _ => genWrite hK rfl
  unfold Seron.scalePointer
  split
  · exact scaled
  · split
    · exact scaled
    · split
      · exact invalidTypes
      · exact pure

section
variable {xs ys : List (Emit Ty)} (hxs : List.Forall₂ (Parallel K s s') xs ys)

include hxs

theorem callArgs {sig : ProcSignature} {i : Nat} :
    Parallel K s s' (callArgs sig i xs) (callArgs sig i ys) := by
  induction hxs generalizing i with
  | nil => exact pure
  | cons hx _ ih =>
    unfold Seron.callArgs
    refine bind lift fun k => bind lift fun reg => bind (discard hx) fun _ => ?_
    cases reg with
    | none => exact write hK rfl ih
    | some reg => exact bind lift fun _ => write hK rfl ih

theorem call {x y : Emit Ty} (hx : Parallel K s s' x y) :
    Parallel K s s' (call x xs) (call y ys) := by
  refine bind hx fun ty => write hK rfl ?_
  cases ty
  case procedure sig =>
    exact bind (callArgs hK hxs) fun _ => write hK rfl (write hK rfl pure)
  all_goals exact fail

theorem arrayElems {type : Ty} {offset elemSize : Int} :
    Parallel K s s' (arrayElems type offset elemSize xs) (arrayElems type offset elemSize ys) := by
  induction hxs with
  | nil => exact pure
  | cons hx hrest ih =>
    refine bind (discard hx) fun _ => bind lift fun _ => ?_
    rw [List.length_cons, List.length_cons, hrest.length_eq]
    exact write hK rfl ih

theorem array {type : Ty} {offset : Int} :
    Parallel K s s' (array xs type offset) (array ys type offset) := by
  unfold Seron.array
  rw [hxs.length_eq]
  exact bind lift fun _ => bind (arrayElems hK hxs) fun _ => write hK rfl pure

omit hK in
theorem emitSeq : Parallel K s s' (emitSeq xs) (emitSeq ys) := by
  induction hxs with
  | nil => exact pure
  | cons hx _ ih => exact bind (discard hx) fun _ => ih

end

/-- The statements of a block are emitted in its scope. -/
theorem block {xs ys : List (Emit Ty)} (ht : K.scopes t t')
    (hxs : List.Forall₂ (Parallel K t t') xs ys) : Parallel K s s' (block t xs) (block t' ys) := by
  intro gen gen' h
  obtain ⟨hscopes, hs, hs'⟩ := hK.scope h
  have hseq := emitSeq hxs _ _ (hK.enter ht h)
  simp only [Seron.block, Bind.bind, Emit.bind, getGen, modifyGen, List.nil_append]
  generalize Seron.emitSeq xs _ = r at hseq
  generalize Seron.emitSeq ys _ = r' at hseq
  cases hseq with
  | error => exact .error
  | ok hbefore hbefore' hlines h₁ =>
    simp only [List.append_nil, hs, hs']
    refine .ok hbefore hbefore' (hlines.imp fun _ _ hline => ?_) (hK.enter hscopes h₁)
    refine K.later ?_ ?_ hline <;> exact List.prefix_rfl

section
variable {a b c d : Emit Ty} {ox oy : Option (Emit Ty)} (ha : Parallel K s s' a b)
  (hc : Parallel K s s' c d) (ho : Option.Rel (Parallel K s s') ox oy)

include ho in
theorem proc {ident : Token} {type : Ty} {size : Int} :
    Parallel K s s' (proc ident ox type size) (proc ident oy type size) := by
  cases ho with
  | none => exact genWrite hK rfl
  | some hx =>
    cases type
    case procedure sig =>
      refine write hK rfl (write hK rfl (write hK rfl (write hK rfl (write hK rfl ?_))))
      refine bind (params hK) fun _ => bind (discard hx) fun _ => ?_
      exact write hK rfl (write hK rfl (write hK rfl (genWrite hK rfl)))
    all_goals exact fail

include ho in
theorem return_ : Parallel K s s' (return_ ox) (return_ oy) := by
  have hjmp : Parallel K s s' (Seron.genWrite (.jmp .return_)) (Seron.genWrite (.jmp .return_)) :=
    genWrite hK rfl
  cases ho with
  | none => exact hjmp
  | some hx => exact bind (discard hx) fun _ => hjmp

include ho in
theorem vardecl {type : Ty} {offset : Int} :
    Parallel K s s' (vardecl ox type offset) (vardecl oy type offset) := by
  cases ho with
  | none => exact pure
  | some hx =>
    refine bind hx fun ty => ?_
    split
    · exact invalidTypes
    · exact bind lift fun _ => genWrite hK rfl

include ha hc in
theorem unaryop {kind : UnaryOpKind} : Parallel K s s' (unaryop a c kind) (unaryop b d kind) := by
  cases kind with
  | neg => exact bind ha fun _ => bind lift fun _ => write hK rfl (write hK rfl pure)
  | minus => exact bind ha fun _ => bind lift fun _ => write hK rfl pure
  | deref => exact bind ha fun _ => bind lift fun _ => write hK rfl lift
  | addrof => exact hc

omit hK in
include ha in
theorem unaryopAddr {kind : UnaryOpKind} :
    Parallel K s s' (unaryopAddr a kind) (unaryopAddr b kind) := by
  cases kind with
  | deref => exact ha
  | _ => exact fail

include ha hc in
theorem binop {kind : BinOpKind} : Parallel K s s' (binop a c kind) (binop b d kind) := by
  refine bind hc fun tr => bind lift fun rdi => write hK rfl ?_
  refine bind ha fun tl => bind lift fun rax => write hK rfl ?_
  refine bind lift fun al => bind (scalePointer hK) fun _ => bind (genWrites hK ?_) fun _ => pure
  cases kind <;> simp [binopInstrs, Instr.isFixed]

include ha hc in
theorem assign : Parallel K s s' (assign a c) (assign b d) := by
  refine bind ha fun ty => write hK rfl (bind hc fun ty' => ?_)
  split
  · exact invalidTypes
  · apply write hK rfl
    exact bind lift fun _ => write hK rfl pure

include ha hc ho in
theorem cond : Parallel K s s' (cond a c ox) (cond b d oy) := by
  refine nextLabel hK fun gen gen' hn => bind ha fun ty => bind lift fun _ => write hK rfl ?_
  refine writeLine (hn _ _ .else_ .je (by simp)) ?_
  refine bind (discard hc) fun _ => writeLine (hn _ _ .end_ .jmp (by simp)) ?_
  refine writeLine (hn _ _ .else_ .label (by simp)) ?_
  have hend : Parallel K s s' (Seron.genWrite (.label (.end_ gen.labelCount)))
      (Seron.genWrite (.label (.end_ gen'.labelCount))) := line (hn _ _ .end_ .label (by simp))
  cases ho with
  | none => exact hend
  | some hx => exact bind (discard hx) fun _ => hend

include ha hc in
theorem while_ : Parallel K s s' (while_ a c) (while_ b d) := by
  refine nextLabel hK fun gen gen' hn => writeLine (hn _ _ .cond .jmp (by simp)) ?_
  refine writeLine (hn _ _ .while_ .label (by simp)) (bind (discard hc) fun _ => ?_)
  refine writeLine (hn _ _ .cond .label (by simp)) (bind ha fun ty => bind lift fun _ => ?_)
  refine write hK rfl ?_
  exact line (hn _ _ .while_ .jne (by simp))

end

/-- What depends on the scope. -/
theorem inScope {F G : Option Nat → Except Failure α} (hF : F s = G s')
    (hf : ∀ a, F s = .ok a → Parallel K s s' (f a) (g a)) :
    Parallel K s s' (getGen >>= fun gen => liftM (F gen.scope) >>= f)
      (getGen >>= fun gen => liftM (G gen.scope) >>= g) := by
  intro gen gen' h
  obtain ⟨-, hs, hs'⟩ := hK.scope h
  have hrest := lifted hf gen gen' h
  change K.Results s s' gen gen' (Emit.bind getGen (fun gen => liftM (F gen.scope) >>= f) gen)
    (Emit.bind getGen (fun gen => liftM (G gen.scope) >>= g) gen')
  simp only [Emit.bind, getGen, hs, hs', ← hF, List.nil_append]
  generalize (liftM (F s) >>= f) gen = r at hrest
  generalize (liftM (F s) >>= g) gen' = r' at hrest
  cases hrest with
  | error => exact .error
  | ok hbefore hbefore' hlines h₁ => exact .ok hbefore hbefore' hlines h₁

/-- An identifier is emitted in the same way if both lookups answer the same. -/
theorem literalIdent {tables tables' : List Hashtable} {str : String} {addr : Bool}
    (hlookup : symboltableLookup tables s str = symboltableLookup tables' s' str)
    (hproc : ∀ sym, symboltableLookup tables s str = .ok (some sym) → sym.kind = .procedure →
      ∀ gen gen', K.line gen gen' (.movSym ⟨.rax, .w64⟩ str) (.movSym ⟨.rax, .w64⟩ str)) :
    Parallel K s s' (literalIdent tables str addr) (literalIdent tables' str addr) := by
  refine inScope hK (F := (symboltableLookup tables · str))
    (G := (symboltableLookup tables' · str)) hlookup fun sym hsym => ?_
  cases sym with
  | none => exact fail
  | some sym =>
    rcases hkind : sym.kind <;> simp only [hkind]
    case procedure => exact writeLine (hproc sym hsym hkind) pure
    case invalid | none | table => exact fail
    all_goals
      split
      · exact write hK rfl pure
      · exact bind lift fun _ => write hK rfl pure

theorem literal {tables tables' : List Hashtable} {op : Token} {kind : LiteralKind}
    (hident : kind = .ident → Parallel K s s' (Seron.literalIdent tables op.value false)
      (Seron.literalIdent tables' op.value false)) :
    Parallel K s s' (literal tables op kind) (literal tables' op kind) := by
  cases kind with
  | ident => exact hident rfl
  | number => exact bind lift fun _ => write hK rfl pure
  | string =>
    intro gen gen' h
    have hpush : K.state s s' (gen.push op.value) (gen'.push op.value) := hK.push h
    simp only [Gen.push] at hpush
    simp only [Seron.literal, Bind.bind, Emit.bind, getGen, genWriteData, modifyGen,
      Seron.genWrite, Pure.pure, List.append_assoc, List.cons_append, List.nil_append]
    exact .ok Gen.before_push Gen.before_push (.cons (hK.string h) .nil) hpush

omit hK in
theorem literalAddr {tables tables' : List Hashtable} {op : Token} {kind : LiteralKind}
    (hident : kind = .ident → Parallel K s s' (Seron.literalIdent tables op.value true)
      (Seron.literalIdent tables' op.value true)) :
    Parallel K s s' (literalAddr tables op kind) (literalAddr tables' op kind) := by
  cases kind with
  | ident => exact hident rfl
  | _ => exact fail

end

end Parallel

/-! ## Expressions -/

def AstNode.ident? : AstNode → Option String
  | .literal op .ident => some op.value
  | _ => none

/-- The identifiers in a tree. -/
def AstNode.idents (node : AstNode) : List String := node.subtrees.filterMap ident?

theorem AstNode.mem_idents {node : AstNode} {str : String} :
    str ∈ node.idents ↔ node.ident? = some str ∨ ∃ c ∈ node.parts, str ∈ c.idents := by
  simp only [idents, List.mem_filterMap]
  constructor
  · rintro ⟨x, hx, hstr⟩
    rcases mem_subtrees.mp hx with rfl | ⟨c, hc, hx⟩
    · exact .inl hstr
    · exact .inr ⟨c, hc, x, hx, hstr⟩
  · rintro (hstr | ⟨c, hc, x, hx, hstr⟩)
    · exact ⟨node, mem_subtrees.mpr (.inl rfl), hstr⟩
    · exact ⟨x, mem_subtrees.mpr (.inr ⟨c, hc, hx⟩), hstr⟩

/-- Expressions have no tables of their own: only their identifiers depend on the scope. -/
theorem Shape.emit_idents {node : AstNode} {tables tables' : List Hashtable} (hK : K.Lawful)
    (h : Shape .expr node)
    (hident : ∀ str ∈ node.idents, ∀ addr,
      Parallel K s s' (literalIdent tables str addr) (literalIdent tables' str addr)) :
    Parallel K s s' (emit tables node) (emit tables' node) ∧
      Parallel K s s' (emitAddr tables node) (emitAddr tables' node) := by
  have list {nodes : List AstNode}
      (ih : ∀ n ∈ nodes, Parallel K s s' (emit tables n) (emit tables' n)) :
      List.Forall₂ (Parallel K s s') (emits tables nodes) (emits tables' nodes) := by
    induction nodes with
    | nil => exact .nil
    | cons n nodes ihs =>
      obtain ⟨hn, hns⟩ := List.forall_mem_cons.mp ih
      exact .cons hn (ihs hns)
  induction node using AstNode.parts_induct with
  | step node ih =>
    have part {c : AstNode} (hc : c ∈ node.parts) := ih c hc (h.expr_part hc) fun str hstr =>
      hident str (AstNode.mem_idents.mpr (.inr ⟨c, hc, hstr⟩))
    have fails : emitAddr tables node = fail (.panic "unknown node kind") →
        emitAddr tables' node = fail (.panic "unknown node kind") →
        Parallel K s s' (emitAddr tables node) (emitAddr tables' node) := fun h h' => by
      rw [h, h']
      exact .fail
    cases h with
    | literal =>
      rw [emit, emit, emitAddr, emitAddr]
      refine ⟨.literal hK fun hkind => ?_, .literalAddr fun hkind => ?_⟩ <;>
      · subst hkind
        exact hident _ (AstNode.mem_idents.mpr (.inl rfl)) _
    | unaryop =>
      have hc := part (List.mem_singleton.mpr rfl)
      rw [emit, emit, emitAddr, emitAddr]
      exact ⟨.unaryop hK hc.1 hc.2, .unaryopAddr hc.1⟩
    | index =>
      rw [emit, emit, emitAddr, emitAddr]
      exact ⟨.fail, .fail⟩
    | grouping =>
      refine ⟨?_, fails (by simp [emitAddr]) (by simp [emitAddr])⟩
      rw [emit, emit]
      exact (part (List.mem_singleton.mpr rfl)).1
    | binop =>
      refine ⟨?_, fails (by simp [emitAddr]) (by simp [emitAddr])⟩
      rw [emit, emit]
      exact .binop hK (part (by simp [AstNode.parts, AstNode.children])).1
        (part (by simp [AstNode.parts, AstNode.children])).1
    | call =>
      refine ⟨?_, fails (by simp [emitAddr]) (by simp [emitAddr])⟩
      rw [emit, emit]
      exact .call hK (list fun c hc => (part (by simp [AstNode.parts, AstNode.children, hc])).1)
        (part (by simp [AstNode.parts, AstNode.children])).1
    | array =>
      refine ⟨?_, fails (by simp [emitAddr]) (by simp [emitAddr])⟩
      rw [emit, emit]
      exact .array hK (list fun c hc => (part hc).1)
    | assign =>
      refine ⟨?_, fails (by simp [emitAddr]) (by simp [emitAddr])⟩
      rw [emit, emit]
      exact .assign hK (part (by simp [AstNode.parts])).2 (part (by simp [AstNode.parts])).1

end Seron
