import Seron.Verify.Constructs

/-! # Properties of all steps of the generator

What every single step does, and what two steps in a row do if both do, a whole emission does. -/

namespace Seron

/-- The line names no symbol of the program. -/
def Instr.isLocal : Instr → Bool
  | .label (.proc _) | .global _ | .externDecl _ => false
  | _ => true

/-- The string literals of a tree, in the order in which they are emitted. -/
def AstNode.strings : AstNode → List String
  | .literal op .string => [op.value]
  | .literal .. | .table .. | .for_ .. | .index .. => []
  | .grouping e => e.strings
  | .binop lhs rhs _ _ => rhs.strings ++ lhs.strings
  | .unaryop e _ _ => e.strings
  | .call _ callee args => callee.strings ++ list args
  | .block stmts _ => list stmts
  | .proc _ _ body _ _ _ => opt body
  | .vardecl _ _ init _ _ => opt init
  | .if_ _ condition thenBody elseBody => condition.strings ++ (thenBody.strings ++ opt elseBody)
  | .while_ _ condition body => body.strings ++ condition.strings
  | .assign _ value target => target.strings ++ value.strings
  | .return_ _ e => opt e
  | .array _ values _ _ => list values
where
  list : List AstNode → List String
    | [] => []
    | node :: nodes => node.strings ++ list nodes
  opt : Option AstNode → List String
    | none => []
    | some node => node.strings

/-- The state behind a string literal. -/
def Gen.push (gen : Gen) (contents : String) : Gen :=
  { gen with
    bufData := gen.bufData ++ [.label gen.dataCount, .db contents]
    dataCount := gen.dataCount + 1 }

/-- A relation between two states of the generator, the text written between them and the strings
put into the data section. Every step satisfies it, and two in a row do if both do. Lines that name
a symbol are written for procedures only. -/
structure Chains (P : AstNodeKind → Prop) (Q : List String → Gen → List Instr → Gen → Prop) :
    Prop where
  nil {gen : Gen} : Q [] gen [] gen
  append {ss ss' : List String} {gen gen₁ gen' : Gen} {text text' : List Instr} :
    Q ss gen text gen₁ → Q ss' gen₁ text' gen' → Q (ss ++ ss') gen (text ++ text') gen'
  line {gen : Gen} {i : Instr} : i.isLocal = true ∨ P .proc → Q [] gen [i] gen
  label {gen : Gen} : Q [] gen [] { gen with labelCount := gen.labelCount + 1 }
  scope {gen : Gen} {scope : Option Nat} : Q [] gen [] { gen with scope }
  string {gen : Gen} {s : String} : Q [s] gen [] (gen.push s)

/-- A step satisfies the relation, with these strings. -/
def Chained (Q : List String → Gen → List Instr → Gen → Prop) (ss : List String) {α : Type}
    (x : Emit α) : Prop :=
  ∀ gen a text gen', x gen = .ok (a, text, gen') → Q ss gen text gen'

namespace Chained

variable {P : AstNodeKind → Prop} {Q : List String → Gen → List Instr → Gen → Prop}
  {ss ss' : List String} {α β : Type} {x : Emit α} {f : α → Emit β} {tables : List Hashtable}
  {nodes : List AstNode}

theorem fail {e : Failure} : Chained Q ss (fail e : Emit α) :=
  fun _ _ _ _ h => (fail_ok.mp h).elim

theorem invalidTypes {message : String} {k k' : TypeKind} :
    Chained Q ss (invalidTypes message k k' : Emit α) :=
  fun _ _ _ _ h => (invalidTypes_ok.mp h).elim

section
variable (hQ : Chains P Q)

include hQ

theorem bind (hx : Chained Q ss x) (hf : ∀ a, Chained Q ss' (f a)) :
    Chained Q (ss ++ ss') (x >>= f) := by
  intro gen b text gen' h
  obtain ⟨a, t₁, gen₁, t₂, hxr, hfr, rfl⟩ := Emit.bind_ok.mp h
  exact hQ.append (hx gen a t₁ gen₁ hxr) (hf a gen₁ b t₂ gen' hfr)

/-- A step without strings, and a rest. -/
theorem seq (hx : Chained Q [] x) (hf : ∀ a, Chained Q ss (f a)) : Chained Q ss (x >>= f) :=
  bind hQ hx hf

/-- A rest without strings. -/
theorem andLast (hx : Chained Q ss x) (hf : ∀ a, Chained Q [] (f a)) :
    Chained Q ss (x >>= f) := by
  have h := bind hQ hx hf
  rwa [List.append_nil] at h

theorem pure {a : α} : Chained Q [] (pure a : Emit α) := by
  intro gen b text gen' h
  obtain ⟨-, rfl, rfl⟩ := Emit.pure_ok.mp h
  exact hQ.nil

theorem lift {e : Except Failure α} : Chained Q [] (liftM e : Emit α) := by
  intro gen a text gen' h
  cases e with
  | error e => cases h
  | ok b =>
    cases h
    exact hQ.nil

theorem discard (hx : Chained Q ss x) : Chained Q ss (discard x) := andLast hQ hx fun _ => pure hQ

theorem genWrite {i : Instr} (hi : i.isLocal = true ∨ P .proc) : Chained Q [] (genWrite i) := by
  intro gen a text gen' h
  obtain ⟨rfl, rfl⟩ := genWrite_ok.mp h
  exact hQ.line hi

theorem write {i : Instr} {f : Unit → Emit β} (hi : i.isLocal = true ∨ P .proc)
    (hf : Chained Q ss (f ())) : Chained Q ss (Seron.genWrite i >>= f) :=
  seq hQ (genWrite hQ hi) fun _ => hf

theorem getGen : Chained Q [] getGen := by
  intro gen a text gen' h
  obtain ⟨-, rfl, rfl⟩ := getGen_ok.mp h
  exact hQ.nil

theorem modifyLabel :
    Chained Q [] (modifyGen fun gen => { gen with labelCount := gen.labelCount + 1 }) := by
  intro gen a text gen' h
  obtain ⟨rfl, rfl⟩ := modifyGen_ok.mp h
  exact hQ.label

theorem modifyScope {scope : Option Nat} :
    Chained Q [] (modifyGen fun gen => { gen with scope }) := by
  intro gen a text gen' h
  obtain ⟨rfl, rfl⟩ := modifyGen_ok.mp h
  exact hQ.scope

theorem pointee {ty : Ty} : Chained Q [] (liftM ty.pointee) := by
  intro gen a text gen' h
  obtain ⟨-, rfl, rfl⟩ := Emit.lift_ok.mp h
  exact hQ.nil

theorem genWrites {is : List Instr} (h : ∀ i ∈ is, i.isLocal = true) :
    Chained Q [] (genWrites is) := by
  induction is with
  | nil => exact pure hQ
  | cons i is ih =>
    obtain ⟨hi, his⟩ := List.forall_mem_cons.mp h
    exact write hQ (.inl hi) (ih his)

/-! ### The functions of the generator -/

theorem literalIdent {str : String} {addr : Bool} : Chained Q [] (literalIdent tables str addr) := by
  intro gen ty text gen' h
  obtain ⟨rfl, sym, -, ⟨-, -, -, rfl⟩ | ⟨-, -, -, rax, -, rfl⟩ | ⟨-, -, rfl⟩⟩ :=
    literalIdent_ok.mp h
  all_goals exact hQ.line (.inl rfl)

theorem literal {op : Token} {kind : LiteralKind} :
    Chained Q (AstNode.literal op kind).strings (literal tables op kind) := by
  cases kind with
  | ident => exact literalIdent hQ
  | number => exact seq hQ (lift hQ) fun _ => write hQ (.inl rfl) (pure hQ)
  | string =>
    intro gen ty text gen' h
    obtain ⟨-, rfl, rfl⟩ := literal_string_ok.mp h
    exact hQ.append hQ.string (hQ.line (.inl rfl))

theorem scalePointer {lhs rhs : Ty} : Chained Q [] (scalePointer lhs rhs) := by
  intro gen u text gen' h
  obtain ⟨rfl, rfl | ⟨reg, w, size, -, rfl⟩⟩ := scalePointer_code h
  · exact hQ.nil
  · exact hQ.line (.inl rfl)

theorem params {i : Nat} {offset : Int} {ps : List Param} :
    Chained Q [] (procParams i offset ps) := by
  induction ps generalizing i offset with
  | nil => exact pure hQ
  | cons param ps ih =>
    refine seq hQ (lift hQ) fun reg => ?_
    cases reg with
    | none => exact seq hQ (lift hQ) fun _ => write hQ (.inl rfl) (write hQ (.inl rfl) ih)
    | some reg => exact write hQ (.inl rfl) ih

section
variable {a b : Emit Ty} (ha : Chained Q ss a) (hb : Chained Q ss' b)

include ha

theorem proc {ident : Token} {type : Ty} {size : Int} (hP : P .proc) :
    Chained Q ss (proc ident (some a) type size) := by
  cases type
  case procedure sig =>
    refine write hQ (.inr hP) (write hQ (.inr hP) (write hQ (.inl rfl) (write hQ (.inl rfl) ?_)))
    refine write hQ (.inl rfl) (seq hQ (params hQ) fun _ => andLast hQ (discard hQ ha) fun _ => ?_)
    exact write hQ (.inl rfl) (write hQ (.inl rfl) (write hQ (.inl rfl) (genWrite hQ (.inl rfl))))
  all_goals exact fail

theorem return_ : Chained Q ss (return_ (some a)) :=
  andLast hQ (discard hQ ha) fun _ => genWrite hQ (.inl rfl)

theorem vardecl {type : Ty} {offset : Int} : Chained Q ss (vardecl (some a) type offset) := by
  refine andLast hQ ha fun ty => ?_
  split
  · exact invalidTypes
  · exact seq hQ (lift hQ) fun _ => genWrite hQ (.inl rfl)

include hb

theorem while_ : Chained Q (ss' ++ ss) (while_ a b) :=
  seq hQ (getGen hQ) fun _ => seq hQ (modifyLabel hQ) fun _ => write hQ (.inl rfl)
    (write hQ (.inl rfl) (bind hQ (discard hQ hb) fun _ => write hQ (.inl rfl)
      (andLast hQ ha fun _ => seq hQ (lift hQ) fun _ => write hQ (.inl rfl)
        (genWrite hQ (.inl rfl)))))

theorem binop {kind : BinOpKind} : Chained Q (ss' ++ ss) (binop a b kind) := by
  refine bind hQ hb fun tr => seq hQ (lift hQ) fun rdi => write hQ (.inl rfl) ?_
  refine andLast hQ ha fun tl => seq hQ (lift hQ) fun rax => write hQ (.inl rfl) ?_
  refine seq hQ (lift hQ) fun al => seq hQ (scalePointer hQ) fun _ => seq hQ (genWrites hQ ?_)
    fun _ => pure hQ
  cases kind <;> simp [binopInstrs, Instr.isLocal]

theorem assign : Chained Q (ss ++ ss') (assign a b) := by
  refine bind hQ ha fun ty => write hQ (.inl rfl) (andLast hQ hb fun ty' => ?_)
  split
  · exact invalidTypes
  · exact write hQ (.inl rfl) (seq hQ (lift hQ) fun _ => write hQ (.inl rfl) (pure hQ))

theorem cond {node : Option AstNode}
    (hc : ∀ e ∈ node, Chained Q e.strings (emit tables e)) :
    Chained Q (ss ++ (ss' ++ AstNode.strings.opt node)) (cond a b (emitOpt tables node)) := by
  refine seq hQ (getGen hQ) fun _ => seq hQ (modifyLabel hQ) fun _ => bind hQ ha fun ty => ?_
  refine seq hQ (lift hQ) fun _ => write hQ (.inl rfl) (write hQ (.inl rfl) ?_)
  refine bind hQ (discard hQ hb) fun _ => write hQ (.inl rfl) (write hQ (.inl rfl) ?_)
  have hend {lbl : Nat} : Chained Q [] (Seron.genWrite (.label (.end_ lbl))) :=
    genWrite hQ (.inl rfl)
  cases node with
  | none => exact seq hQ (pure hQ) fun _ => hend
  | some e => exact andLast hQ (discard hQ (hc e rfl)) fun _ => hend

end

section
variable (ih : ∀ e ∈ nodes, Chained Q e.strings (emit tables e))

include ih

theorem emitSeq : Chained Q (AstNode.strings.list nodes) (emitSeq (emits tables nodes)) := by
  induction nodes with
  | nil => exact pure hQ
  | cons node nodes ihs =>
    obtain ⟨hnode, hnodes⟩ := List.forall_mem_cons.mp ih
    exact bind hQ (discard hQ hnode) fun _ => ihs hnodes

theorem block {table : Option Nat} :
    Chained Q (AstNode.strings.list nodes) (block table (emits tables nodes)) :=
  seq hQ (getGen hQ) fun _ => seq hQ (modifyScope hQ) fun _ =>
    andLast hQ (emitSeq hQ ih) fun _ => modifyScope hQ

theorem callArgs {sig : ProcSignature} {i : Nat} :
    Chained Q (AstNode.strings.list nodes) (callArgs sig i (emits tables nodes)) := by
  induction nodes generalizing i with
  | nil => exact pure hQ
  | cons node nodes ihs =>
    obtain ⟨hnode, hnodes⟩ := List.forall_mem_cons.mp ih
    unfold emits Seron.callArgs
    refine seq hQ (lift hQ) fun k => seq hQ (lift hQ) fun reg => bind hQ (discard hQ hnode) fun _ => ?_
    cases reg with
    | none => exact write hQ (.inl rfl) (ihs hnodes)
    | some reg => exact seq hQ (lift hQ) fun _ => write hQ (.inl rfl) (ihs hnodes)

theorem call {callee : AstNode} (hcallee : Chained Q callee.strings (emit tables callee)) :
    Chained Q (callee.strings ++ AstNode.strings.list nodes)
      (call (emit tables callee) (emits tables nodes)) := by
  refine bind hQ hcallee fun ty => write hQ (.inl rfl) ?_
  cases ty
  case procedure sig =>
    exact andLast hQ (callArgs hQ ih) fun _ => write hQ (.inl rfl) (write hQ (.inl rfl) (pure hQ))
  all_goals exact fail

theorem arrayElems {type : Ty} {offset elemSize : Int} : Chained Q (AstNode.strings.list nodes)
    (arrayElems type offset elemSize (emits tables nodes)) := by
  induction nodes with
  | nil => exact pure hQ
  | cons node nodes ihs =>
    obtain ⟨hnode, hnodes⟩ := List.forall_mem_cons.mp ih
    exact bind hQ (discard hQ hnode) fun _ => seq hQ (lift hQ) fun _ =>
      write hQ (.inl rfl) (ihs hnodes)

theorem array {type : Ty} {offset : Int} :
    Chained Q (AstNode.strings.list nodes) (array (emits tables nodes) type offset) :=
  seq hQ (lift hQ) fun _ => andLast hQ (arrayElems hQ ih) fun _ => write hQ (.inl rfl) (pure hQ)

end

theorem unaryop {node addr : Emit Ty} {kind : UnaryOpKind} (hnode : Chained Q ss node)
    (haddr : Chained Q ss addr) : Chained Q ss (unaryop node addr kind) := by
  cases kind with
  | minus => exact andLast hQ hnode fun _ => seq hQ (lift hQ) fun _ => write hQ (.inl rfl) (pure hQ)
  | neg =>
    exact andLast hQ hnode fun _ => seq hQ (lift hQ) fun _ =>
      write hQ (.inl rfl) (write hQ (.inl rfl) (pure hQ))
  | deref =>
    exact andLast hQ hnode fun _ => seq hQ (lift hQ) fun _ => write hQ (.inl rfl) (pointee hQ)
  | addrof => exact haddr

end

end Chained

/-- Each emission satisfies the relation, with the strings of its tree. -/
theorem emit_chained {P : AstNodeKind → Prop} {Q : List String → Gen → List Instr → Gen → Prop}
    {tables : List Hashtable} {node : AstNode} (hQ : Chains P Q) (hnode : node.AllKinds P) :
    Chained Q node.strings (emit tables node) ∧ Chained Q node.strings (emitAddr tables node) := by
  have stmt {ss : List String} {x : Emit Unit} (hx : Chained Q ss x) : Chained Q ss (do
      x
      pure Ty.void) := Chained.andLast hQ hx fun _ => Chained.pure hQ
  induction node using AstNode.parts_induct with
  | step node ih =>
    obtain ⟨hkind, hparts⟩ := AstNode.allKinds_iff.mp hnode
    replace ih : ∀ c ∈ node.parts, Chained Q c.strings (emit tables c) ∧
        Chained Q c.strings (emitAddr tables c) := fun c hc => ih c hc (hparts c hc)
    clear hparts hnode
    cases node
    case literal op kind =>
      refine ⟨by rw [emit]; exact Chained.literal hQ, ?_⟩
      rw [emitAddr]
      cases kind with
      | ident => exact Chained.literalIdent hQ
      | _ => exact Chained.fail
    case unaryop c op kind =>
      obtain ⟨hc, haddr⟩ := ih c (List.mem_singleton_self _)
      refine ⟨by rw [emit]; exact Chained.unaryop hQ hc haddr, ?_⟩
      rw [emitAddr]
      cases kind with
      | deref => exact hc
      | _ => exact Chained.fail
    all_goals
      refine ⟨?_, by simp only [emitAddr]; exact Chained.fail⟩
      rw [emit]
    case grouping c => exact (ih c (by simp [AstNode.parts, AstNode.children])).1
    case binop lhs rhs op kind =>
      exact Chained.binop hQ (ih lhs (by simp [AstNode.parts, AstNode.children])).1
        (ih rhs (by simp [AstNode.parts, AstNode.children])).1
    case call op callee args =>
      exact Chained.call hQ (fun c hc => (ih c (by simp [AstNode.parts, AstNode.children, hc])).1)
        (ih callee (by simp [AstNode.parts, AstNode.children])).1
    case block stmts table => exact stmt (Chained.block hQ fun c hc => (ih c hc).1)
    case array op values type offset => exact Chained.array hQ fun c hc => (ih c hc).1
    case while_ op condition body =>
      exact stmt (Chained.while_ hQ (ih condition (by simp [AstNode.parts, AstNode.children])).1
        (ih body (by simp [AstNode.parts, AstNode.children])).1)
    case assign op value target =>
      exact Chained.assign hQ (ih target (by simp [AstNode.parts])).2 (ih value (by simp [AstNode.parts])).1
    case if_ op condition thenBody elseBody =>
      refine stmt (Chained.cond hQ (ih condition (by simp [AstNode.parts, AstNode.children])).1
        (ih thenBody (by simp [AstNode.parts, AstNode.children])).1 fun c hc => ?_)
      exact (ih c (by simp [AstNode.parts, AstNode.children, Option.mem_def.mp hc])).1
    case proc op ident body type table size =>
      cases body with
      | none => exact stmt (Chained.genWrite hQ (.inr hkind))
      | some body => exact stmt (Chained.proc hQ (ih body (List.mem_singleton_self _)).1 hkind)
    case vardecl op ident init type offset =>
      cases init with
      | none => exact stmt (Chained.pure hQ)
      | some init => exact stmt (Chained.vardecl hQ (ih init (List.mem_singleton_self _)).1)
    case return_ op e =>
      cases e with
      | none => exact stmt (Chained.seq hQ (Chained.pure hQ) fun _ => Chained.genWrite hQ (.inl rfl))
      | some e => exact stmt (Chained.return_ hQ (ih e (List.mem_singleton_self _)).1)
    case table => exact Chained.pure hQ
    case for_ | index => exact Chained.fail

end Seron
