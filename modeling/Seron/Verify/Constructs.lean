import Seron.Verify.Checks
import Seron.Verify.Emission

/-! # Which construct writes which line

The text of a construct consists of lines of its own and of the texts of its operands, and each
operand is emitted in a known scope. -/

namespace Seron

open AstNode

/-! ## Operands -/

/-- What is emitted for the address of a node. -/
def AstNode.addrOperands : AstNode → List AstNode
  | .unaryop node _ .deref => [node]
  | _ => []

/-- What is emitted for a node. -/
def AstNode.operands : AstNode → List AstNode
  | .assign _ value target => target.addrOperands ++ [value]
  | .unaryop node _ .addrof => node.addrOperands
  | node => node.children

/-- The scope in which the operands of a node are emitted. -/
def AstNode.innerScope (scope : Option Nat) : AstNode → Option Nat
  | .block _ symboltable => symboltable
  | _ => scope

/-- The emission of a node comes to another one, in its scope. -/
inductive Visits : Option Nat → AstNode → Option Nat → AstNode → Prop
  | self {scope : Option Nat} {node : AstNode} : Visits scope node scope node
  | inside {scope scope' : Option Nat} {node c node' : AstNode} : c ∈ node.operands →
    Visits (node.innerScope scope) c scope' node' → Visits scope node scope' node'

/-- Induction along the operands. -/
theorem AstNode.operands_induct {Q : AstNode → Prop}
    (step : ∀ node, (∀ c ∈ node.operands, Q c) → Q node) (node : AstNode) : Q node := by
  suffices h : Q node ∧ ∀ c ∈ node.addrOperands, Q c from h.1
  induction node using AstNode.parts_induct with
  | step node ih =>
    have hparts : ∀ c ∈ node.parts, Q c := fun c hc => (ih c hc).1
    have haddr : ∀ c ∈ node.addrOperands, Q c := by
      intro c hc
      refine hparts c ?_
      unfold addrOperands at hc
      split at hc
      · exact hc
      · cases hc
    refine ⟨step node fun c hc => ?_, haddr⟩
    unfold operands at hc
    split at hc
    · rename_i op value target
      rcases List.mem_append.mp hc with hc | hc
      · exact (ih target (by simp [parts])).2 c hc
      · exact hparts c (by simp_all [parts])
    · exact (ih _ (by simp [parts, children])).2 c hc
    · exact hparts c (mem_parts_of_children hc)

variable {tables : List Hashtable} {scope scope' : Option Nat} {node node' : AstNode}
  {text : List Instr}

/-- The node is emitted in the scope, and this is its text. -/
def Emitted (tables : List Hashtable) (scope : Option Nat) (node : AstNode) (text : List Instr) :
    Prop :=
  ∃ gen ty gen', gen.scope = scope ∧ emit tables node gen = .ok (ty, text, gen')

/-! ## Lines -/

/-- The line is an instruction that exists: two registers have the same width, a condition is
set in a register of 8 bits, and no register of 8 bits is multiplied by a constant. -/
def Instr.encodable : Instr → Bool
  | .mov dst src | .alu _ dst src | .cmp dst src => dst.width = src.width
  | .setcc _ dst => dst.width = .w8
  | .imulImm dst _ => dst.width ≠ .w8
  | _ => true

/-- A register name has the width of the type. -/
theorem subregister_width {r r' : Register} {k : TypeKind} {reg reg' : SubReg}
    (h : subregister r k = .ok reg) (h' : subregister r' k = .ok reg') : reg.width = reg'.width := by
  cases k <;> cases h <;> cases h' <;> rfl

theorem abiRegisterStr_width {i : Nat} {r : Register} {k : TypeKind} {reg reg' : SubReg}
    (h : abiRegisterStr i k = .ok (some reg)) (h' : subregister r k = .ok reg') :
    reg.width = reg'.width := by
  unfold abiRegisterStr at h
  cases habi : abiRegister i with
  | none => simp [habi] at h
  | some abi =>
    rw [habi] at h
    cases hsub : subregister abi k with
    | error e => simp [hsub, Bind.bind, Except.bind] at h
    | ok sub =>
      simp only [hsub, Bind.bind, Except.bind, pure, Except.pure, Except.ok.injEq,
        Option.some.injEq] at h
      exact h ▸ subregister_width hsub h'

/-- The lines of an operator, behind those of its operands. -/
def Combined (lhs rhs : Ty) (kind : BinOpKind) (lines : List Instr) : Prop :=
  ∃ rax rdi scale gen gen', subregister .rax lhs.kind = .ok rax ∧
    subregister .rdi rhs.kind = .ok rdi ∧ scalePointer lhs rhs gen = .ok ((), scale, gen') ∧
    lines = scale ++ binopInstrs rax rdi ⟨.rax, .w8⟩ kind

/-- The lines of a node that belong to none of its operands. Where their registers go by one and
the same type they are encodable anyway. -/
inductive Writes (tables : List Hashtable) (scope : Option Nat) : AstNode → Instr → Prop
  | encodable {node : AstNode} {i : Instr} : i.encodable = true → Writes tables scope node i
  | neg {node : AstNode} {op : Token} {ty : Ty} {reg : SubReg} :
    check tables node scope = .ok ty → subregister .rax ty.kind = .ok reg →
    Writes tables scope (.unaryop node op .neg) (.setcc .e reg)
  | minus {node : AstNode} {op : Token} {ty : Ty} {reg : SubReg} :
    check tables node scope = .ok ty → subregister .rax ty.kind = .ok reg →
    Writes tables scope (.unaryop node op .minus) (.imulImm reg (-1))
  | binop {lhs rhs : AstNode} {op : Token} {kind : BinOpKind} {tl tr : Ty} {lines : List Instr}
    {i : Instr} : check tables lhs scope = .ok tl → check tables rhs scope = .ok tr →
    Combined tl tr kind lines → i ∈ lines → Writes tables scope (.binop lhs rhs op kind) i

/-! ## Texts -/

/-- In the scope, the emission consists of lines that satisfy `P` and of the emissions of some
nodes, and its value satisfies `R`. -/
def Composed (tables : List Hashtable) (scope : Option Nat) (P : Instr → Prop)
    (nodes : List AstNode) {α : Type} (R : α → Prop) (x : Emit α) : Prop :=
  ∀ gen a text gen', gen.scope = scope → x gen = .ok (a, text, gen') →
    gen'.scope = scope ∧ R a ∧
      (∀ i ∈ text, P i ∨ ∃ c ∈ nodes, ∃ t, Emitted tables scope c t ∧ t ⊆ text ∧ i ∈ t) ∧
      ∀ c ∈ nodes, ∃ t, Emitted tables scope c t ∧ t ⊆ text

namespace Composed

variable {α β : Type} {P : Instr → Prop} {R : α → Prop} {S : β → Prop}
  {nodes nodes' : List AstNode} {x : Emit α} {f : α → Emit β}

theorem bind (hx : Composed tables scope P nodes R x)
    (hf : ∀ a, R a → Composed tables scope P nodes' S (f a)) :
    Composed tables scope P (nodes ++ nodes') S (x >>= f) := by
  intro gen b text gen' hscope h
  obtain ⟨a, t₁, gen₁, t₂, hxr, hfr, rfl⟩ := Emit.bind_ok.mp h
  obtain ⟨hscope₁, hR, hlines, hparts⟩ := hx gen a t₁ gen₁ hscope hxr
  obtain ⟨hscope₂, hS, hlines', hparts'⟩ := hf a hR gen₁ b t₂ gen' hscope₁ hfr
  have hleft := List.subset_append_left t₁ t₂
  have hright := List.subset_append_right t₁ t₂
  refine ⟨hscope₂, hS, fun i hi => ?_, fun c hc => ?_⟩
  · rcases List.mem_append.mp hi with hi | hi
    · refine (hlines i hi).imp_right ?_
      rintro ⟨c, hc, t, ht, hsub, hit⟩
      exact ⟨c, List.mem_append_left _ hc, t, ht, List.Subset.trans hsub hleft, hit⟩
    · refine (hlines' i hi).imp_right ?_
      rintro ⟨c, hc, t, ht, hsub, hit⟩
      exact ⟨c, List.mem_append_right _ hc, t, ht, List.Subset.trans hsub hright, hit⟩
  · rcases List.mem_append.mp hc with hc | hc
    · obtain ⟨t, ht, hsub⟩ := hparts c hc
      exact ⟨t, ht, List.Subset.trans hsub hleft⟩
    · obtain ⟨t, ht, hsub⟩ := hparts' c hc
      exact ⟨t, ht, List.Subset.trans hsub hright⟩

/-- A step that writes lines of its own. -/
theorem own (hx : ∀ gen a text gen', x gen = .ok (a, text, gen') →
    gen'.scope = gen.scope ∧ R a ∧ ∀ i ∈ text, P i) : Composed tables scope P [] R x := by
  intro gen a text gen' hscope h
  obtain ⟨hscope', hR, hlines⟩ := hx gen a text gen' h
  exact ⟨hscope'.trans hscope, hR, fun i hi => .inl (hlines i hi), List.forall_mem_nil _⟩

theorem pure {a : α} (ha : R a) : Composed tables scope P [] R (pure a : Emit α) := by
  refine own fun gen b text gen' h => ?_
  obtain ⟨rfl, rfl, rfl⟩ := Emit.pure_ok.mp h
  exact ⟨rfl, ha, List.forall_mem_nil _⟩

theorem skip {a : α} : Composed tables scope P [] (fun _ => True) (Pure.pure a : Emit α) :=
  pure trivial

theorem fail {e : Failure} : Composed tables scope P nodes R (fail e : Emit α) :=
  fun _ _ _ _ _ h => (fail_ok.mp h).elim

theorem genWrite {i : Instr} (hi : P i) : Composed tables scope P [] (fun _ => True) (genWrite i) := by
  refine own fun gen a text gen' h => ?_
  obtain ⟨rfl, rfl⟩ := genWrite_ok.mp h
  exact ⟨rfl, trivial, List.forall_mem_singleton.mpr hi⟩

theorem lift {e : Except Failure α} : Composed tables scope P [] (e = .ok ·) (liftM e : Emit α) := by
  refine own fun gen a text gen' h => ?_
  cases e with
  | error e => cases h
  | ok b =>
    cases h
    exact ⟨rfl, rfl, List.forall_mem_nil _⟩

theorem emit {c : AstNode} :
    Composed tables scope P [c] (check tables c scope = .ok ·) (emit tables c) := by
  intro gen ty text gen' hscope h
  obtain ⟨hpassed, hkeep⟩ := emit_checked h
  have hemitted : Emitted tables scope c text := ⟨gen, ty, gen', hscope, h⟩
  refine ⟨hkeep.trans hscope, hscope ▸ hpassed, fun i hi => .inr ?_,
    List.forall_mem_singleton.mpr ⟨text, hemitted, List.Subset.refl _⟩⟩
  exact ⟨c, List.mem_singleton_self c, text, hemitted, List.Subset.refl _, hi⟩

theorem imp {R' : α → Prop} {nodes' : List AstNode} (hx : Composed tables scope P nodes R x)
    (hR : ∀ a, R a → R' a) (hnodes : ∀ c, c ∈ nodes ↔ c ∈ nodes') :
    Composed tables scope P nodes' R' x := by
  intro gen a text gen' hscope h
  obtain ⟨hscope', hRa, hlines, hparts⟩ := hx gen a text gen' hscope h
  refine ⟨hscope', hR a hRa, fun i hi => (hlines i hi).imp_right ?_,
    fun c hc => hparts c ((hnodes c).mpr hc)⟩
  rintro ⟨c, hc, t, ht⟩
  exact ⟨c, (hnodes c).mp hc, t, ht⟩

/-- The value does not matter. -/
theorem drop (hx : Composed tables scope P nodes R x) :
    Composed tables scope P nodes (fun _ => True) x := hx.imp (fun _ _ => trivial) fun _ => .rfl

theorem discard (hx : Composed tables scope P nodes R x) :
    Composed tables scope P nodes (fun _ => True) (discard x) :=
  (bind hx fun _ _ => skip).imp (fun _ _ => trivial) (by simp)

/-- A step without operands, and a rest. -/
theorem seq (hx : Composed tables scope P [] R x)
    (hf : ∀ a, R a → Composed tables scope P nodes S (f a)) :
    Composed tables scope P nodes S (x >>= f) := bind hx hf

/-- A rest without operands. -/
theorem andLast (hx : Composed tables scope P nodes R x)
    (hf : ∀ a, R a → Composed tables scope P [] S (f a)) :
    Composed tables scope P nodes S (x >>= f) := (bind hx hf).imp (fun _ h => h) (by simp)

theorem write {i : Instr} {f : Unit → Emit β} (hi : P i)
    (hf : Composed tables scope P nodes S (f ())) :
    Composed tables scope P nodes S (Seron.genWrite i >>= f) := seq (genWrite hi) fun _ _ => hf

theorem getGen : Composed tables scope P [] (fun _ => True) getGen := by
  refine own fun gen a text gen' h => ?_
  obtain ⟨rfl, rfl, rfl⟩ := getGen_ok.mp h
  exact ⟨rfl, trivial, List.forall_mem_nil _⟩

theorem modifyGen {g : Gen → Gen} (hg : ∀ gen, (g gen).scope = gen.scope) :
    Composed tables scope P [] (fun _ => True) (modifyGen g) := by
  refine own fun gen a text gen' h => ?_
  obtain ⟨rfl, rfl⟩ := modifyGen_ok.mp h
  exact ⟨hg gen, trivial, List.forall_mem_nil _⟩

theorem genWriteData {line : DataLine} :
    Composed tables scope P [] (fun _ => True) (genWriteData line) := by
  refine own fun gen a text gen' h => ?_
  cases h
  exact ⟨rfl, trivial, List.forall_mem_nil _⟩

theorem invalidTypes {message : String} {k k' : TypeKind} :
    Composed tables scope P nodes R (invalidTypes message k k' : Emit α) :=
  fun _ _ _ _ _ h => (invalidTypes_ok.mp h).elim

theorem pointee {ty : Ty} : Composed tables scope P [] (fun _ => True) (liftM ty.pointee) := by
  refine own fun gen a text gen' h => ?_
  obtain ⟨-, rfl, rfl⟩ := Emit.lift_ok.mp h
  exact ⟨rfl, trivial, List.forall_mem_nil _⟩

/-! ### The functions that take the emission of operands -/

theorem emitSeq : Composed tables scope P nodes (fun _ => True) (emitSeq (emits tables nodes)) := by
  induction nodes with
  | nil => exact skip
  | cons c nodes ih => exact bind (discard emit) fun _ _ => ih

section
variable (hP : ∀ {i : Instr}, i.encodable = true → P i)

include hP

theorem callArgs {sig : ProcSignature} {i : Nat} :
    Composed tables scope P nodes (fun _ => True) (callArgs sig i (emits tables nodes)) := by
  induction nodes generalizing i with
  | nil => exact skip
  | cons c nodes ih =>
    unfold emits Seron.callArgs
    refine seq lift fun k _ => seq lift fun reg hreg => bind (discard emit) fun _ _ => ?_
    cases reg with
    | none => exact write (hP rfl) ih
    | some reg =>
      refine seq lift fun rax hrax => write (hP ?_) ih
      simpa [Instr.encodable] using abiRegisterStr_width hreg hrax

theorem call {callee : AstNode} : Composed tables scope P (callee :: nodes) (fun _ => True)
    (call (Seron.emit tables callee) (emits tables nodes)) := by
  refine bind emit fun ty _ => write (hP rfl) ?_
  cases ty
  case procedure sig =>
    exact andLast (callArgs hP) fun _ _ => write (hP rfl) (write (hP rfl) skip)
  all_goals exact fail

theorem params {i : Nat} {offset : Int} {ps : List Param} :
    Composed tables scope P [] (fun _ => True) (procParams i offset ps) := by
  induction ps generalizing i offset with
  | nil => exact skip
  | cons param ps ih =>
    refine seq lift fun reg _ => ?_
    cases reg with
    | none => exact seq lift fun _ _ => write (hP rfl) (write (hP rfl) ih)
    | some reg => exact write (hP rfl) ih

theorem proc {ident : Token} {body : Option AstNode} {type : Ty} {size : Int} :
    Composed tables scope P body.toList (fun _ => True)
      (proc ident (emitOpt tables body) type size) := by
  cases body with
  | none => exact genWrite (hP rfl)
  | some body =>
    cases type
    case procedure sig =>
      exact write (hP rfl) (write (hP rfl) (write (hP rfl) (write (hP rfl) (write (hP rfl)
        (seq (params hP) fun _ _ => andLast (discard emit) fun _ _ => write (hP rfl)
          (write (hP rfl) (write (hP rfl) (genWrite (hP rfl)))))))))
    all_goals exact fail

theorem return_ {expr : Option AstNode} : Composed tables scope P expr.toList (fun _ => True)
    (return_ (emitOpt tables expr)) := by
  cases expr with
  | none => exact seq skip fun _ _ => genWrite (hP rfl)
  | some expr => exact andLast (discard emit) fun _ _ => genWrite (hP rfl)

theorem cond {condition thenBody : AstNode} {elseBody : Option AstNode} :
    Composed tables scope P (condition :: thenBody :: elseBody.toList) (fun _ => True)
      (cond (Seron.emit tables condition) (Seron.emit tables thenBody)
        (emitOpt tables elseBody)) := by
  refine seq getGen fun gen _ => seq (modifyGen fun _ => rfl) fun _ _ => bind emit fun ty _ =>
    seq lift fun _ _ => write (hP rfl) (write (hP rfl) (bind (discard emit) fun _ _ =>
      write (hP rfl) (write (hP rfl) ?_)))
  cases elseBody with
  | none => exact seq skip fun _ _ => genWrite (hP rfl)
  | some elseBody => exact andLast (discard emit) fun _ _ => genWrite (hP rfl)

theorem while_ {condition body : AstNode} :
    Composed tables scope P [condition, body] (fun _ => True)
      (while_ (Seron.emit tables condition) (Seron.emit tables body)) := by
  have h : Composed tables scope P [body, condition] (fun _ => True)
      (Seron.while_ (Seron.emit tables condition) (Seron.emit tables body)) :=
    seq getGen fun gen _ => seq (modifyGen fun _ => rfl) fun _ _ => write (hP rfl)
    (write (hP rfl) (bind (discard emit) fun _ _ => write (hP rfl) (andLast emit fun ty _ =>
      seq lift fun _ _ => write (hP rfl) (genWrite (hP rfl)))))
  exact h.imp (fun _ h => h) (by simp [or_comm])

theorem vardecl {init : Option AstNode} {type : Ty} {offset : Int} :
    Composed tables scope P init.toList (fun _ => True)
      (vardecl (emitOpt tables init) type offset) := by
  cases init with
  | none => exact skip
  | some init =>
    refine andLast emit fun ty _ => ?_
    split
    · exact invalidTypes
    · exact seq lift fun _ _ => genWrite (hP rfl)

theorem literalIdent {str : String} {addr : Bool} :
    Composed tables scope P [] (fun _ => True) (literalIdent tables str addr) := by
  refine own fun gen ty text gen' h => ?_
  obtain ⟨rfl, sym, -, ⟨-, -, -, rfl⟩ | ⟨-, -, -, rax, -, rfl⟩ | ⟨-, -, rfl⟩⟩ :=
    literalIdent_ok.mp h
  all_goals exact ⟨rfl, trivial, List.forall_mem_singleton.mpr (hP rfl)⟩

theorem literal {op : Token} {kind : LiteralKind} :
    Composed tables scope P [] (fun _ => True) (literal tables op kind) := by
  cases kind with
  | ident => exact literalIdent hP
  | number => exact seq lift fun _ _ => write (hP rfl) skip
  | string =>
    exact seq getGen fun _ _ => seq genWriteData fun _ _ => seq genWriteData fun _ _ =>
      write (hP rfl) (seq (modifyGen fun _ => rfl) fun _ _ => skip)

/-- The address of a node. -/
theorem emitAddr {c : AstNode} :
    Composed tables scope P c.addrOperands (fun _ => True) (emitAddr tables c) := by
  cases c
  case unaryop c op kind =>
    rw [Seron.emitAddr]
    cases kind with
    | deref => exact drop emit
    | _ => exact fail
  case literal op kind =>
    rw [Seron.emitAddr]
    cases kind with
    | ident => exact literalIdent hP
    | _ => exact fail
  all_goals
    simp only [Seron.emitAddr]
    exact fail

theorem assign {value target : AstNode} :
    Composed tables scope P (target.addrOperands ++ [value]) (fun _ => True)
      (assign (Seron.emitAddr tables target) (Seron.emit tables value)) := by
  refine bind (emitAddr hP) fun ty _ => write (hP rfl) (andLast emit fun ty' _ => ?_)
  split
  · exact invalidTypes
  · exact write (hP rfl) (seq lift fun _ _ => write (hP rfl) skip)

theorem arrayElems {type : Ty} {offset elemSize : Int} :
    Composed tables scope P nodes (fun _ => True)
      (arrayElems type offset elemSize (emits tables nodes)) := by
  induction nodes with
  | nil => exact skip
  | cons c nodes ih =>
    exact bind (discard emit) fun _ _ => seq lift fun _ _ => write (hP rfl) ih

theorem array {type : Ty} {offset : Int} : Composed tables scope P nodes (fun _ => True)
    (array (emits tables nodes) type offset) :=
  seq lift fun _ _ => andLast (arrayElems hP) fun _ _ => write (hP rfl) skip

end

theorem unaryop {c : AstNode} {op : Token} {kind : UnaryOpKind} :
    Composed tables scope (Writes tables scope (.unaryop c op kind))
      (AstNode.unaryop c op kind).operands (fun _ => True)
      (unaryop (Seron.emit tables c) (Seron.emitAddr tables c) kind) := by
  cases kind with
  | minus =>
    exact andLast emit fun _ hty => seq lift fun _ hreg => write (.minus hty hreg) skip
  | neg =>
    exact andLast emit fun _ hty => seq lift fun _ hreg =>
      write (.encodable rfl) (write (.neg hty hreg) skip)
  | deref =>
    exact andLast emit fun _ _ => seq lift fun _ _ => write (.encodable rfl) (drop pointee)
  | addrof => exact emitAddr .encodable

theorem binop {lhs rhs : AstNode} {op : Token} {kind : BinOpKind} :
    Composed tables scope (Writes tables scope (.binop lhs rhs op kind)) [lhs, rhs] (fun _ => True)
      (binop (Seron.emit tables lhs) (Seron.emit tables rhs) kind) := by
  have h : Composed tables scope (Writes tables scope (.binop lhs rhs op kind)) [rhs, lhs]
      (fun _ => True) (Seron.binop (Seron.emit tables lhs) (Seron.emit tables rhs) kind) := by
    refine bind emit fun tr htr => seq lift fun rdi hrdi => write (.encodable rfl) ?_
    refine andLast emit fun tl htl => seq lift fun rax hrax => write (.encodable rfl) ?_
    refine seq lift fun al hal => own fun gen ty text gen' h => ?_
    obtain ⟨u, scale, gen₁, t₁, hscale, h₁, rfl⟩ := Emit.bind_ok.mp h
    obtain ⟨u', t₂, gen₂, t₃, hw, h₂, rfl⟩ := Emit.bind_ok.mp h₁
    obtain ⟨rfl, rfl⟩ := genWrites_ok.mp hw
    obtain ⟨rfl, rfl, rfl⟩ := Emit.pure_ok.mp h₂
    cases hal
    refine ⟨by rw [(scalePointer_code hscale).1], trivial, fun i hi => ?_⟩
    exact .binop htl htr ⟨rax, rdi, scale, gen, _, hrax, hrdi, hscale, rfl⟩ (by simpa using hi)
  exact h.imp (fun _ h => h) (by simp [or_comm])

end Composed

/-! ## One construct -/

/-- The text of a node consists of lines of its own and of the texts of its operands. -/
theorem Emitted.composed (h : Emitted tables scope node text) :
    (∀ i ∈ text, Writes tables scope node i ∨ ∃ c ∈ node.operands, ∃ t,
      Emitted tables (node.innerScope scope) c t ∧ t ⊆ text ∧ i ∈ t) ∧
    ∀ c ∈ node.operands, ∃ t, Emitted tables (node.innerScope scope) c t ∧ t ⊆ text := by
  obtain ⟨gen, ty, gen', hscope, h⟩ := h
  by_cases hblock : ∃ stmts table, node = .block stmts table
  · obtain ⟨stmts, table, rfl⟩ := hblock
    rw [emit] at h
    obtain ⟨u, t₁, gen₁, t₂, hb, hp, rfl⟩ := Emit.bind_ok.mp h
    obtain ⟨-, rfl, rfl⟩ := Emit.pure_ok.mp hp
    have hb := modifyGen_bind_ok.mp (getGen_bind_ok.mp hb)
    obtain ⟨u', t₃, gen₂, t₄, hseq, hm, rfl⟩ := Emit.bind_ok.mp hb
    obtain ⟨rfl, rfl⟩ := modifyGen_ok.mp hm
    simp only [List.append_nil]
    exact (Composed.emitSeq _ _ _ _ rfl hseq).2.2
  · suffices hnode : Composed tables scope (Writes tables scope node) node.operands (fun _ => True)
        (emit tables node) by
      have hinner : node.innerScope scope = scope := by
        cases node <;> first | rfl | exact absurd ⟨_, _, rfl⟩ hblock
      rw [hinner]
      exact (hnode gen ty text gen' hscope h).2.2
    have stmt {x : Emit Unit} {nodes : List AstNode}
        (hx : Composed tables scope (Writes tables scope node) nodes (fun _ => True) x) :
        Composed tables scope (Writes tables scope node) nodes (fun _ => True) (do
          x
          pure Ty.void) := .andLast hx fun _ _ => .skip
    cases node <;> rw [emit]
    case block => exact absurd ⟨_, _, rfl⟩ hblock
    case unaryop => exact .unaryop
    case binop => exact .binop
    case literal => exact .literal .encodable
    case grouping => exact .drop .emit
    case call => exact .call .encodable
    case assign => exact .assign .encodable
    case array => exact .array .encodable
    case proc => exact stmt (.proc .encodable)
    case vardecl => exact stmt (.vardecl .encodable)
    case if_ => exact stmt (.cond .encodable)
    case while_ => exact stmt (.while_ .encodable)
    case return_ => exact stmt (.return_ .encodable)
    case table => exact .skip
    case for_ | index => exact .fail

/-! ## All constructs -/

/-- What is visited is emitted, as a part of the text. -/
theorem Visits.emitted (hvisits : Visits scope node scope' node')
    (h : Emitted tables scope node text) : ∃ t, Emitted tables scope' node' t ∧ t ⊆ text := by
  induction hvisits generalizing text with
  | self => exact ⟨text, h, List.Subset.refl _⟩
  | inside hc _ ih =>
    obtain ⟨t, ht, hsub⟩ := h.composed.2 _ hc
    obtain ⟨t', ht', hsub'⟩ := ih ht
    exact ⟨t', ht', List.Subset.trans hsub' hsub⟩

/-- Every line is written by a construct that is visited. -/
theorem Emitted.writes (h : Emitted tables scope node text) {i : Instr} (hi : i ∈ text) :
    ∃ scope' node', Visits scope node scope' node' ∧ Writes tables scope' node' i := by
  induction node using AstNode.operands_induct generalizing scope text with
  | step node ih =>
    rcases h.composed.1 i hi with hwrites | ⟨c, hc, t, ht, -, hit⟩
    · exact ⟨scope, node, .self, hwrites⟩
    · obtain ⟨scope', node', hvisits, hwrites⟩ := ih c hc ht hit
      exact ⟨scope', node', .inside hc hvisits, hwrites⟩

/-- An emitted node passes its check. -/
theorem Emitted.passes (h : Emitted tables scope node text) :
    ∃ ty, check tables node scope = .ok ty := by
  obtain ⟨gen, ty, gen', rfl, h⟩ := h
  exact ⟨ty, (emit_checked h).1⟩

end Seron
