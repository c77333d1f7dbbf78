import Seron.Theory.Levels
import Seron.Verify.Expansion
import Seron.Verify.Frame
import Seron.Verify.Lowering
import Seron.Verify.StackDiscipline

/-! # The stack pointer at calls

Where no call has stack arguments, the code of each expression and of each statement leaves the stack
pointer where it was, and so the stack pointer at a line depends on the line alone. At a call it is
below the frame by the words that the enclosing expressions have pushed. -/

namespace Seron

open ControlFlow

variable {E : Env} {tables : List Hashtable} {gen gen' : Gen} {ty : Ty} {c c' : List Instr}
  {node : AstNode} {l l' l'' : Int} {J D D' : Int → Prop}

/-! ## Levels -/

/-- By how much a line moves the stack pointer, up to the epilogue. -/
def Instr.moves : Instr → Int
  | .push _ | .pushRbp => -8
  | .pop _ | .popRbp => 8
  | .subRsp imm => -imm
  | _ => 0

theorem exec_moves {i : Instr} {m m' : Machine} (hi : i ≠ .movRspRbp) (h : exec E i m = some m') :
    m'.rsp = m.rsp + i.moves := by
  cases hw : i.writes with
  | some regs =>
    have hmoves : i.moves = 0 := by cases i <;> cases hw <;> rfl
    rw [(exec_of_writes hw h).1, hmoves, add_zero]
  | none =>
    cases i <;> cases hw
    case none.movRspRbp.refl => exact (hi rfl).elim
    all_goals cases h
    all_goals simp [Instr.moves, sub_eq_add_neg]

/-- The line may stand at the level: calls at the levels in `D`, jumps and their labels at those in
`J`. -/
def Instr.Fits (J D : Int → Prop) (l : Int) : Instr → Prop
  | .call _ => D l
  | .jmp t | .je t | .jne t => J l ∧ ∀ ident, t ≠ .proc ident
  | .label t => (∀ ident, t ≠ .proc ident) → J l
  | .movRspRbp => False
  | _ => True

/-- The lines fit, one after the other, from the first level to the second one. -/
inductive Leveled (J D : Int → Prop) : Int → List Instr → Int → Prop
  | nil {l : Int} : Leveled J D l [] l
  | cons {l l' : Int} {i : Instr} {c : List Instr} : i.Fits J D l →
    Leveled J D (l + i.moves) c l' → Leveled J D l (i :: c) l'

/-- How far the lines move the stack pointer. -/
def moved (c : List Instr) : Int := (c.map Instr.moves).sum

namespace Leveled

theorem append (h : Leveled J D l c l') (h' : Leveled J D l' c' l'') :
    Leveled J D l (c ++ c') l'' := by
  induction h with
  | nil => exact h'
  | cons hi _ ih => exact .cons hi (ih h')

theorem mono {J' : Int → Prop} (h : Leveled J D l c l') (hJ : ∀ k, J k → J' k)
    (hD : ∀ k, D k → D' k) : Leveled J' D' l c l' := by
  induction h with
  | nil => exact .nil
  | @cons l l' i c hi _ ih =>
    refine .cons ?_ ih
    cases i <;> simp only [Instr.Fits] at hi ⊢
    case call => exact hD l hi
    case jmp | je | jne => exact ⟨hJ l hi.1, hi.2⟩
    case label => exact fun ht => hJ l (hi ht)

/-- A line that does not move the stack pointer. -/
theorem step {i : Instr} (hi : i.Fits J D l) (hmoves : i.moves = 0) (h : Leveled J D l c l') :
    Leveled J D l (i :: c) l' := .cons hi (by rwa [hmoves, add_zero])

theorem single {i : Instr} (hi : i.Fits J D l) (hmoves : i.moves = 0) : Leveled J D l [i] l :=
  step hi hmoves .nil

/-- Code between a push and the pop that belongs to it. -/
theorem park {src dst : Register} (h : Leveled J D (l - 8) c (l - 8)) :
    Leveled J D l (.push src :: (c ++ [.pop dst])) l := by
  have hpop : Leveled J D (l - 8) [.pop dst] l :=
    .cons trivial (by simpa [Instr.moves] using nil)
  exact .cons trivial (append h hpop)

theorem get {code : List Instr} {n : Nat} {i : Instr} (h : Leveled J D l code l')
    (hi : code[n]? = some i) : i.Fits J D (l + moved (code.take n)) := by
  induction h generalizing n with
  | nil => simp at hi
  | cons hfits _ ih =>
    cases n with
    | zero =>
      obtain rfl := Option.some.inj hi
      simpa [moved] using hfits
    | succ n =>
      have h := ih hi
      simpa [moved, add_assoc] using h

end Leveled

/-! ## Calls inside expressions -/

/-- A call in the code of the node is executed that many words below the beginning: the right operand
of an operator, the address of an assignment and the callee of a call are waiting there. -/
inductive CallAtDepth : AstNode → Nat → Prop
  | call {op : Token} {callee : AstNode} {args : List AstNode} :
    CallAtDepth (.call op callee args) 0
  | callee {op : Token} {callee : AstNode} {args : List AstNode} {d : Nat} :
    CallAtDepth callee d → CallAtDepth (.call op callee args) d
  | arg {op : Token} {callee arg : AstNode} {args : List AstNode} {d : Nat} : arg ∈ args →
    CallAtDepth arg d → CallAtDepth (.call op callee args) (d + 1)
  | rhs {lhs rhs : AstNode} {op : Token} {kind : BinOpKind} {d : Nat} :
    CallAtDepth rhs d → CallAtDepth (.binop lhs rhs op kind) d
  | lhs {lhs rhs : AstNode} {op : Token} {kind : BinOpKind} {d : Nat} :
    CallAtDepth lhs d → CallAtDepth (.binop lhs rhs op kind) (d + 1)
  | target {op : Token} {value target : AstNode} {d : Nat} :
    CallAtDepth target d → CallAtDepth (.assign op value target) d
  | value {op : Token} {value target : AstNode} {d : Nat} :
    CallAtDepth value d → CallAtDepth (.assign op value target) (d + 1)
  | part {node c : AstNode} {d : Nat} : node.kind ≠ .call → node.kind ≠ .binop →
    node.kind ≠ .assign → c ∈ node.children → CallAtDepth c d → CallAtDepth node d

/-- The levels of the calls in the code of a node that begins at some level. -/
def AstNode.callLevels (node : AstNode) (l k : Int) : Prop :=
  ∃ d : Nat, CallAtDepth node d ∧ k = l - 8 * d

/-- No call has more arguments than there are registers for them. -/
def AstNode.RegisterArgs (node : AstNode) : Prop :=
  ∀ op callee args, .call op callee args ∈ node.subtrees → args.length ≤ 6

theorem AstNode.RegisterArgs.part {node c : AstNode} (h : node.RegisterArgs) (hc : c ∈ node.parts) :
    c.RegisterArgs :=
  fun op callee args hcall => h op callee args (mem_subtrees.mpr (.inr ⟨c, hc, hcall⟩))

section
variable {k : Int} {c : AstNode}

theorem callLevels_same (h : ∀ d, CallAtDepth c d → CallAtDepth node d) (hk : c.callLevels l k) :
    node.callLevels l k := by
  obtain ⟨d, hd, rfl⟩ := hk
  exact ⟨d, h d hd, rfl⟩

/-- One word more is waiting. -/
theorem callLevels_below (h : ∀ d, CallAtDepth c d → CallAtDepth node (d + 1))
    (hk : c.callLevels (l - 8) k) : node.callLevels l k := by
  obtain ⟨d, hd, rfl⟩ := hk
  refine ⟨d + 1, h d hd, ?_⟩
  push_cast
  omega

theorem callLevels_part (hkind : node.kind ∉ [.call, .binop, .assign]) (hc : c ∈ node.children)
    (hk : c.callLevels l k) : node.callLevels l k := by
  simp only [List.mem_cons, List.not_mem_nil, or_false, not_or] at hkind
  exact callLevels_same (fun d hd => .part hkind.1 hkind.2.1 hkind.2.2 hc hd) hk

end

/-! ## The code of expressions and statements -/

theorem literalIdent_leveled {str : String} {addr : Bool}
    (h : literalIdent tables str addr gen = .ok (ty, c, gen')) : Leveled J D l c l := by
  obtain ⟨-, sym, -, ⟨-, -, -, rfl⟩ | ⟨-, -, -, rax, -, rfl⟩ | ⟨-, -, rfl⟩⟩ := literalIdent_ok.mp h
  all_goals exact .single trivial rfl

theorem literal_leveled {op : Token} {kind : LiteralKind}
    (h : literal tables op kind gen = .ok (ty, c, gen')) : Leveled J D l c l := by
  cases kind with
  | string =>
    obtain ⟨-, rfl, -⟩ := literal_string_ok.mp h
    exact .single trivial rfl
  | number =>
    obtain ⟨-, ⟨rax, -, rfl⟩, -⟩ := literal_number_ok.mp h
    exact .single trivial rfl
  | ident => exact literalIdent_leveled h

theorem binopInstrs_leveled {rax rdi al : SubReg} {kind : BinOpKind} :
    Leveled J D l (binopInstrs rax rdi al kind) l := by
  cases kind
  all_goals first
    | exact .single trivial rfl
    | exact .step trivial rfl (.single trivial rfl)
    | exact .step trivial rfl (.step trivial rfl (.single trivial rfl))

theorem scalePointer_leveled {lhs rhs : Ty} (h : scalePointer lhs rhs gen = .ok ((), c, gen')) :
    Leveled J D l c l := by
  obtain ⟨-, rfl | ⟨reg, w, size, -, rfl⟩⟩ := scalePointer_code h
  · exact .nil
  · exact .single trivial rfl

section
variable {nodes : List AstNode}
  (ih : ∀ e ∈ nodes, ∀ {ty c gen gen'}, emit tables e gen = .ok (ty, c, gen') → Leveled J D l c l)

include ih

theorem callArgs_leveled {sig : ProcSignature} {i : Nat} (hlen : i + nodes.length ≤ 6)
    (h : callArgs sig i (emits tables nodes) gen = .ok ((), c, gen')) : Leveled J D l c l := by
  induction nodes generalizing c gen i with
  | nil =>
    obtain ⟨-, rfl, -⟩ := Emit.pure_ok.mp h
    exact .nil
  | cons arg args iha =>
    obtain ⟨k, ty, ca, gen₁, place, rest, -, harg, hplace, hrest, rfl⟩ := callArgs_cons_ok h
    rw [List.length_cons] at hlen
    refine (ih arg (by simp) harg).append ?_
    have hrest := iha (fun e he => ih e (by simp [he])) (by omega) hrest
    rcases placeArg_cases hplace with ⟨hi, -⟩ | ⟨r, w, w', -, rfl⟩
    · omega
    · exact .step trivial rfl hrest

theorem arrayElems_leveled {type : Ty} {offset elemSize : Int}
    (h : arrayElems type offset elemSize (emits tables nodes) gen = .ok ((), c, gen')) :
    Leveled J D l c l := by
  induction nodes generalizing c gen with
  | nil =>
    obtain ⟨-, rfl, -⟩ := Emit.pure_ok.mp h
    exact .nil
  | cons value values ihv =>
    obtain ⟨ty, cv, gen₁, rax, rest, hv, -, hrest, rfl⟩ := arrayElems_cons_ok h
    exact (ih value (by simp) hv).append
      (.step trivial rfl (ihv (fun e he => ih e (by simp [he])) hrest))

theorem emitSeq_leveled (h : emitSeq (emits tables nodes) gen = .ok ((), c, gen')) :
    Leveled J D l c l := by
  induction nodes generalizing c gen with
  | nil =>
    obtain ⟨-, rfl, -⟩ := Emit.pure_ok.mp h
    exact .nil
  | cons stmt stmts ihs =>
    obtain ⟨ty, c₁, gen₁, c₂, hstmt, hrest, rfl⟩ := discard_bind_ok.mp h
    exact (ih stmt (by simp) hstmt).append (ihs (fun e he => ih e (by simp [he])) hrest)

end

/-- The levels of jumps and labels: only statements have any, where they begin. -/
def NodeClass.jumpLevels (k : NodeClass) (l j : Int) : Prop := k ≠ .expr ∧ j = l

theorem NodeClass.jumpLevels_stmt {k : NodeClass} {l j : Int} (h : k.jumpLevels l j) :
    NodeClass.stmt.jumpLevels l j := ⟨by simp, h.2⟩

/-- The code of a part for which nothing is waiting. -/
theorem Leveled.part {k k' : NodeClass} {child : AstNode}
    (h : Leveled (k'.jumpLevels l) (child.callLevels l) l c l) (hk : k' = .expr ∨ k ≠ .expr)
    (hkind : node.kind ∉ [.call, .binop, .assign]) (hchild : child ∈ node.children) :
    Leveled (k.jumpLevels l) (node.callLevels l) l c l :=
  h.mono (fun _ hj => hk.elim (fun hk => (hj.1 hk).elim) fun hk => ⟨hk, hj.2⟩)
    fun _ => callLevels_part hkind hchild

/-- A jump or a label between two statements. -/
theorem Leveled.jump {k : NodeClass} {i : Instr} (hk : k ≠ .expr) (hi : i.moves = 0)
    (hfits : k.jumpLevels l l → i.Fits (k.jumpLevels l) D l)
    (h : Leveled (k.jumpLevels l) D l c l) : Leveled (k.jumpLevels l) D l (i :: c) l :=
  .step (hfits ⟨hk, rfl⟩) hi h

/-- The code of the node ends on the level on which it begins, and so does that of its address. -/
structure OnLevel (tables : List Hashtable) (k : NodeClass) (node : AstNode) : Prop where
  value : ∀ {ty c gen gen' l}, emit tables node gen = .ok (ty, c, gen') →
    Leveled (k.jumpLevels l) (node.callLevels l) l c l
  addr : ∀ {ty c gen gen' l}, emitAddr tables node gen = .ok (ty, c, gen') →
    Leveled (k.jumpLevels l) (node.callLevels l) l c l

namespace OnLevel

variable {k : NodeClass}

/-- A node without an address. -/
theorem rvalue {e : Failure} (haddr : emitAddr tables node = fail e)
    (hvalue : ∀ {ty c gen gen' l}, emit tables node gen = .ok (ty, c, gen') →
      Leveled (k.jumpLevels l) (node.callLevels l) l c l) : OnLevel tables k node where
  value := hvalue
  addr h := by rw [haddr, fail_ok] at h; exact h.elim

/-- What holds a statement is a statement. -/
theorem stmt (h : OnLevel tables k node) : OnLevel tables .stmt node where
  value hemit := (h.value hemit).mono (fun _ => NodeClass.jumpLevels_stmt) fun _ hd => hd
  addr hemit := (h.addr hemit).mono (fun _ => NodeClass.jumpLevels_stmt) fun _ hd => hd

theorem literal {op : Token} {kind : LiteralKind} : OnLevel tables .expr (.literal op kind) where
  value h := by
    rw [emit] at h
    exact literal_leveled h
  addr h := by
    rw [emitAddr] at h
    cases kind <;> simp only [literalAddr, fail_ok] at h
    exact literalIdent_leveled h

theorem grouping {e : AstNode} (he : OnLevel tables .expr e) :
    OnLevel tables .expr (.grouping e) := by
  refine rvalue rfl fun h => ?_
  rw [emit] at h
  exact (he.value h).part (.inl rfl) (by simp [AstNode.kind]) (by simp [AstNode.children])

theorem unaryop {e : AstNode} {op : Token} {kind : UnaryOpKind} (he : OnLevel tables .expr e) :
    OnLevel tables .expr (.unaryop e op kind) := by
  have part {c : List Instr} {l : Int} (h : Leveled (NodeClass.expr.jumpLevels l)
      (e.callLevels l) l c l) : Leveled (NodeClass.expr.jumpLevels l)
      ((AstNode.unaryop e op kind).callLevels l) l c l :=
    h.part (.inl rfl) (by simp [AstNode.kind]) (by simp [AstNode.children])
  refine ⟨fun h => ?_, fun h => ?_⟩
  · rw [emit] at h
    cases kind with
    | minus =>
      obtain ⟨ce, rax, hnode, -, rfl⟩ := unaryop_minus_ok.mp h
      exact (part (he.value hnode)).append (.single trivial rfl)
    | neg =>
      obtain ⟨ce, rax, hnode, -, rfl⟩ := unaryop_neg_ok h
      exact (part (he.value hnode)).append (.step trivial rfl (.single trivial rfl))
    | deref =>
      obtain ⟨tp, ce, rax, hnode, -, -, rfl⟩ := unaryop_deref_ok h
      exact (part (he.value hnode)).append (.single trivial rfl)
    | addrof => exact part (he.addr h)
  · rw [emitAddr] at h
    cases kind <;> simp only [unaryopAddr, fail_ok] at h
    exact part (he.value h)

theorem array {op : Token} {values : List AstNode} {type : Ty} {offset : Int}
    (hvalues : ∀ e ∈ values, OnLevel tables .expr e) :
    OnLevel tables .expr (.array op values type offset) := by
  refine rvalue rfl fun h => ?_
  rw [emit] at h
  obtain ⟨elemSize, ce, -, hce, -, rfl⟩ := array_ok h
  refine (arrayElems_leveled (fun e he _ _ _ _ h => ?_) hce).append (.single trivial rfl)
  exact ((hvalues e he).value h).part (.inl rfl) (by simp [AstNode.kind]) he

theorem binop {lhs rhs : AstNode} {op : Token} {kind : BinOpKind} (hlhs : OnLevel tables .expr lhs)
    (hrhs : OnLevel tables .expr rhs) : OnLevel tables .expr (.binop lhs rhs op kind) := by
  refine rvalue rfl fun {_ _ _ _ l} h => ?_
  rw [emit] at h
  obtain ⟨tr, cr, gen₁, rdi, tl, cl, gen₂, rax, scale, hr, -, hl, -, hscale, -, rfl⟩ :=
    binop_ok.mp h
  have hright : Leveled (NodeClass.expr.jumpLevels l)
      ((AstNode.binop lhs rhs op kind).callLevels l) l cr l :=
    (hrhs.value hr).mono (fun _ hj => hj) fun _ => callLevels_same fun _ => .rhs
  have hleft : Leveled (NodeClass.expr.jumpLevels l)
      ((AstNode.binop lhs rhs op kind).callLevels l) (l - 8) cl (l - 8) :=
    (hlhs.value hl).mono (fun _ hj => (hj.1 rfl).elim) fun _ => callLevels_below fun _ => .lhs
  simpa using hright.append ((hleft.park).append
    ((scalePointer_leveled hscale).append binopInstrs_leveled))

theorem assign {op : Token} {value target : AstNode} (hval : OnLevel tables .expr value)
    (htgt : OnLevel tables .expr target) : OnLevel tables .expr (.assign op value target) := by
  refine rvalue rfl fun {_ _ _ _ l} h => ?_
  rw [emit] at h
  obtain ⟨ta, ca, gen₁, cv, rax, ha, hv, -, -, rfl⟩ := assign_ok h
  have htarget : Leveled (NodeClass.expr.jumpLevels l)
      ((AstNode.assign op value target).callLevels l) l ca l :=
    (htgt.addr ha).mono (fun _ hj => hj) fun _ => callLevels_same fun _ => .target
  have hvalue : Leveled (NodeClass.expr.jumpLevels l)
      ((AstNode.assign op value target).callLevels l) (l - 8) cv (l - 8) :=
    (hval.value hv).mono (fun _ hj => (hj.1 rfl).elim) fun _ => callLevels_below fun _ => .value
  have hstore : Leveled (NodeClass.expr.jumpLevels l)
      ((AstNode.assign op value target).callLevels l) l [.store (.reg .rdi) rax] l :=
    .single trivial rfl
  simpa using htarget.append (hvalue.park.append hstore)

theorem call {op : Token} {callee : AstNode} {args : List AstNode} (hlen : args.length ≤ 6)
    (hcallee : OnLevel tables .expr callee) (hargs : ∀ e ∈ args, OnLevel tables .expr e) :
    OnLevel tables .expr (.call op callee args) := by
  refine rvalue rfl fun {_ _ _ _ l} h => ?_
  rw [emit] at h
  obtain ⟨sig, cc, gen₁, ca, hc, ha, -, rfl⟩ := call_ok h
  have hcode : Leveled (NodeClass.expr.jumpLevels l)
      ((AstNode.call op callee args).callLevels l) l cc l :=
    (hcallee.value hc).mono (fun _ hj => hj) fun _ => callLevels_same fun _ => .callee
  have hplaced : Leveled (NodeClass.expr.jumpLevels l)
      ((AstNode.call op callee args).callLevels l) (l - 8) ca (l - 8) := by
    refine callArgs_leveled (fun e he _ _ _ _ h => ?_) (by simpa using hlen) ha
    exact ((hargs e he).value h).mono (fun _ hj => (hj.1 rfl).elim) fun _ =>
      callLevels_below fun _ => .arg he
  have hcall : Leveled (NodeClass.expr.jumpLevels l)
      ((AstNode.call op callee args).callLevels l) l [.call .rax] l :=
    .single ⟨0, .call, by simp⟩ rfl
  simpa using hcode.append (hplaced.park.append hcall)

theorem vardecl {op ident : Token} {init : Option AstNode} {type : Ty} {offset : Int}
    (hinit : ∀ e ∈ init, OnLevel tables .expr e) :
    OnLevel tables .stmt (.vardecl op ident init type offset) := by
  refine rvalue rfl fun h => ?_
  rw [emit] at h
  obtain ⟨-, hv⟩ := statement_ok.mp h
  cases init with
  | none =>
    obtain ⟨-, rfl, -⟩ := Emit.pure_ok.mp hv
    exact .nil
  | some e =>
    obtain ⟨ty, ce, gen₂, t₃, he, h₁, rfl⟩ := Emit.bind_ok.mp hv
    have hchild : e ∈ (AstNode.vardecl op ident (some e) type offset).children :=
      List.mem_singleton_self e
    refine (((hinit e rfl).value he).part (.inl rfl) (by simp [AstNode.kind]) hchild).append ?_
    split at h₁
    · exact (invalidTypes_ok.mp h₁).elim
    · obtain ⟨rax, -, h₂⟩ := Emit.lift_bind_ok.mp h₁
      obtain ⟨rfl, -⟩ := genWrite_ok.mp h₂
      exact .single trivial rfl

theorem block {stmts : List AstNode} {table : Option Nat}
    (hstmts : ∀ s ∈ stmts, OnLevel tables .stmt s) :
    OnLevel tables .block (.block stmts table) := by
  refine rvalue rfl fun h => ?_
  rw [emit] at h
  obtain ⟨-, hb⟩ := statement_ok.mp h
  obtain ⟨gen₂, hseq, -⟩ := block_ok hb
  refine emitSeq_leveled (fun s hs _ _ _ _ h => ?_) hseq
  exact ((hstmts s hs).value h).part (.inr (by simp)) (by simp [AstNode.kind]) hs

theorem return_ {op : Token} {value : Option AstNode} (hvalue : ∀ e ∈ value, OnLevel tables .expr e) :
    OnLevel tables .stmt (.return_ op value) := by
  refine rvalue rfl fun h => ?_
  rw [emit] at h
  obtain ⟨-, hret⟩ := statement_ok.mp h
  obtain ⟨ce, hce, rfl⟩ := return_ok hret
  rw [emits_optToList] at hce
  refine (emitSeq_leveled (fun s hs _ _ _ _ h => ?_) hce).append
    (.jump (by simp) rfl (fun hj => ⟨hj, by simp⟩) .nil)
  exact ((hvalue s (Option.mem_toList.mp hs)).value h).part (.inl rfl) (by simp [AstNode.kind]) hs

theorem while_ {op : Token} {cond body : AstNode} (hcond : OnLevel tables .expr cond)
    (hbody : OnLevel tables .block body) : OnLevel tables .stmt (.while_ op cond body) := by
  refine rvalue rfl fun {_ _ _ _ l} h => ?_
  rw [emit] at h
  obtain ⟨-, hwhile⟩ := statement_ok.mp h
  obtain ⟨tb, cb, gen₂, tc, cc, rax, hb, hc, -, rfl⟩ := while_ok hwhile
  have hbody : Leveled (NodeClass.stmt.jumpLevels l) ((AstNode.while_ op cond body).callLevels l)
      l cb l :=
    (hbody.value hb).part (.inr (by simp)) (by simp [AstNode.kind]) (by simp [AstNode.children])
  have hcond : Leveled (NodeClass.stmt.jumpLevels l) ((AstNode.while_ op cond body).callLevels l)
      l cc l := (hcond.value hc).part (.inl rfl) (by simp [AstNode.kind]) (by simp [AstNode.children])
  refine .jump (by simp) rfl (fun hj => ⟨hj, by simp⟩) (.jump (by simp) rfl (fun hj _ => hj)
    (hbody.append (.jump (by simp) rfl (fun hj _ => hj) (hcond.append ?_))))
  exact .step trivial rfl (.jump (by simp) rfl (fun hj => ⟨hj, by simp⟩) .nil)

theorem if_ {op : Token} {cond thenBody : AstNode} {elseBody : Option AstNode}
    (hcond : OnLevel tables .expr cond) (hthen : OnLevel tables .block thenBody)
    (helse : ∀ b ∈ elseBody, OnLevel tables .block b) :
    OnLevel tables .stmt (.if_ op cond thenBody elseBody) := by
  refine rvalue rfl fun {_ _ _ _ l} h => ?_
  rw [emit] at h
  obtain ⟨-, hif⟩ := statement_ok.mp h
  obtain ⟨tc, cc, gen₂, rax, tt, ct, gen₃, ce, hc, -, ht, he, rfl⟩ := cond_ok hif
  rw [emits_optToList] at he
  let node := AstNode.if_ op cond thenBody elseBody
  have hcond : Leveled (NodeClass.stmt.jumpLevels l) (node.callLevels l) l cc l :=
    (hcond.value hc).part (.inl rfl) (by simp [node, AstNode.kind])
      (by simp [node, AstNode.children])
  have hthen : Leveled (NodeClass.stmt.jumpLevels l) (node.callLevels l) l ct l :=
    (hthen.value ht).part (.inr (by simp)) (by simp [node, AstNode.kind])
      (by simp [node, AstNode.children])
  have helse : Leveled (NodeClass.stmt.jumpLevels l) (node.callLevels l) l ce l := by
    refine emitSeq_leveled (fun s hs _ _ _ _ h => ?_) he
    have hchild : s ∈ node.children := by simp_all [node, AstNode.children]
    exact ((helse s (Option.mem_toList.mp hs)).value h).part (.inr (by simp))
      (by simp [node, AstNode.kind]) hchild
  refine hcond.append (.step trivial rfl (.jump (by simp) rfl (fun hj => ⟨hj, by simp⟩)
    (hthen.append (.jump (by simp) rfl (fun hj => ⟨hj, by simp⟩) (.jump (by simp) rfl
      (fun hj _ => hj) (helse.append (.jump (by simp) rfl (fun hj _ => hj) .nil)))))))

/-- Sugar is not emitted. -/
theorem sugar {e : Failure} (hvalue : emit tables node = fail e)
    (haddr : emitAddr tables node = fail e) : OnLevel tables k node := by
  refine rvalue haddr fun h => ?_
  rw [hvalue] at h
  exact (fail_ok.mp h).elim

end OnLevel

/-- The code of an expression or a statement is on one level, but for what waits inside. -/
theorem emit_leveled {k : NodeClass} (hshape : Shape k node) (hk : k = .expr ∨ k = .stmt ∨ k = .block)
    (hargs : node.RegisterArgs) : OnLevel tables k node := by
  have expr : NodeClass.expr = .expr ∨ NodeClass.expr = .stmt ∨ NodeClass.expr = .block := .inl rfl
  have block : NodeClass.block = .expr ∨ NodeClass.block = .stmt ∨ NodeClass.block = .block :=
    .inr (.inr rfl)
  induction hshape with
  | literal => exact .literal
  | exprstmt _ ih => exact (ih expr hargs).stmt
  | blockstmt _ ih => exact (ih block hargs).stmt
  | proc | table | program => simp at hk
  | grouping _ ih => exact .grouping (ih expr (hargs.part (by simp [AstNode.parts, AstNode.children])))
  | unaryop _ ih => exact .unaryop (ih expr (hargs.part (by simp [AstNode.parts, AstNode.children])))
  | array _ ih => exact .array fun e he => ih e he expr (hargs.part he)
  | binop _ _ ihl ihr =>
    exact .binop (ihl expr (hargs.part (by simp [AstNode.parts, AstNode.children])))
      (ihr expr (hargs.part (by simp [AstNode.parts, AstNode.children])))
  | assign _ _ ihv iht =>
    exact .assign (ihv expr (hargs.part (by simp [AstNode.parts])))
      (iht expr (hargs.part (by simp [AstNode.parts])))
  | @call op callee args _ _ ihc iha =>
    refine .call (hargs op callee args (AstNode.mem_subtrees.mpr (.inl rfl)))
      (ihc expr (hargs.part (by simp [AstNode.parts, AstNode.children]))) fun e he => ?_
    exact iha e he expr (hargs.part (by simp [AstNode.parts, AstNode.children, he]))
  | index | for_ => exact .sugar rfl rfl
  | vardecl _ ih =>
    refine .vardecl fun e he => ih e he expr (hargs.part ?_)
    exact Option.mem_toList.mpr he
  | block _ ih => exact .block fun s hs => ih s hs (.inr (.inl rfl)) (hargs.part hs)
  | return_ _ ih =>
    refine .return_ fun e he => ih e he expr (hargs.part ?_)
    exact Option.mem_toList.mpr he
  | while_ _ _ ihc ihb =>
    exact .while_ (ihc expr (hargs.part (by simp [AstNode.parts, AstNode.children])))
      (ihb block (hargs.part (by simp [AstNode.parts, AstNode.children])))
  | @if_ op cond thenBody elseBody _ _ _ ihc iht ihe =>
    refine .if_ (ihc expr (hargs.part (by simp [AstNode.parts, AstNode.children])))
      (iht block (hargs.part (by simp [AstNode.parts, AstNode.children]))) fun b hb => ?_
    have hchild : b ∈ (AstNode.if_ op cond thenBody elseBody).children := by
      have := Option.mem_toList.mpr hb
      simp_all [AstNode.children]
    exact ihe b hb block (hargs.part hchild)

/-! ## Runs of a procedure -/

theorem procParams_leveled {i : Nat} {offset : Int} {params : List Param}
    (h : procParams i offset params gen = .ok ((), c, gen')) : Leveled J D l c l := by
  induction params generalizing i offset gen c with
  | nil =>
    obtain ⟨-, rfl, -⟩ := Emit.pure_ok.mp h
    exact .nil
  | cons param params ih =>
    obtain ⟨reg, -, h₁⟩ := Emit.lift_bind_ok.mp h
    cases reg with
    | none =>
      obtain ⟨rax, -, h₂⟩ := Emit.lift_bind_ok.mp h₁
      obtain ⟨t₁, h₃, rfl⟩ := genWrite_bind_ok.mp h₂
      obtain ⟨t₂, h₄, rfl⟩ := genWrite_bind_ok.mp h₃
      exact .step trivial rfl (.step trivial rfl (ih h₄))
    | some reg =>
      obtain ⟨t₁, h₂, rfl⟩ := genWrite_bind_ok.mp h₁
      exact .step trivial rfl (ih h₂)

/-- The text of a procedure in front of its epilogue, on the levels below the stack pointer at its
entry. -/
theorem proc_leveled {ident : Token} {body : Emit Ty} {type : Ty} {size : Int}
    (hbody : ∀ {ty c gen gen'}, body gen = .ok (ty, c, gen') →
      Leveled (· = -8 - size) D (-8 - size) c (-8 - size))
    (h : proc ident (some body) type size gen = .ok ((), c, gen')) :
    ∃ text, c = text ++ [.movRspRbp, .popRbp, .ret] ∧
      Leveled (· = -8 - size) D 0 text (-8 - size) := by
  cases type
  case procedure sig =>
    obtain ⟨t₁, h₁, rfl⟩ := genWrite_bind_ok.mp h
    obtain ⟨t₂, h₂, rfl⟩ := genWrite_bind_ok.mp h₁
    obtain ⟨t₃, h₃, rfl⟩ := genWrite_bind_ok.mp h₂
    obtain ⟨t₄, h₄, rfl⟩ := genWrite_bind_ok.mp h₃
    obtain ⟨t₅, h₅, rfl⟩ := genWrite_bind_ok.mp h₄
    obtain ⟨u, params, gen₁, t₆, hparams, h₆, rfl⟩ := Emit.bind_ok.mp h₅
    obtain ⟨tb, code, gen₂, t₇, hb, h₇, rfl⟩ := discard_bind_ok.mp h₆
    obtain ⟨t₈, h₈, rfl⟩ := genWrite_bind_ok.mp h₇
    obtain ⟨t₉, h₉, rfl⟩ := genWrite_bind_ok.mp h₈
    obtain ⟨t₁₀, h₁₀, rfl⟩ := genWrite_bind_ok.mp h₉
    obtain ⟨rfl, rfl⟩ := genWrite_ok.mp h₁₀
    refine ⟨.global ident.value :: .label (.proc ident.value) :: .pushRbp :: .movRbpRsp ::
      .subRsp size :: (params ++ (code ++ [.label .return_])), by simp, ?_⟩
    have hlast : Leveled (· = -8 - size) D (-8 - size) (params ++ (code ++ [.label .return_]))
        (-8 - size) :=
      (procParams_leveled hparams).append ((hbody hb).append (.single (fun _ => rfl) rfl))
    refine .step trivial rfl (.step (fun h => (h _ rfl).elim) rfl (.cons trivial ?_))
    refine .step trivial rfl (.cons trivial ?_)
    simpa [Instr.moves, sub_eq_add_neg] using hlast
  all_goals cases h

/-- The code of a procedure gets from one configuration to another one. -/
def RunsTo (E : Env) (text : List Instr) : Nat × Machine → Nat × Machine → Prop :=
  (backend E).Reaches (text.map Instr.line)

theorem moved_take_succ {text : List Instr} {n : Nat} {i : Instr} (h : text[n]? = some i) :
    moved (text.take (n + 1)) = moved (text.take n) + i.moves := by
  rw [List.take_add_one, h]
  simp [moved]

theorem line_instr {i j : Instr} (h : i.line = .instr j) : i = j := by
  cases i <;> cases h <;> rfl

/-- A line that is a jump fits only where jumps do. -/
theorem Instr.Fits.jump {i : Instr} {t : Label} (h : i.Fits J D l) (hi : i.line.JumpsTo t) :
    J l ∧ ∀ ident, t ≠ .proc ident := by
  cases i <;> simp [Instr.line, Line.JumpsTo] at hi
  all_goals
    subst hi
    exact h

theorem moves_of_line {i : Instr} (h : ∀ j, i.line ≠ .instr j) : i.moves = 0 := by
  cases i <;> first | rfl | exact (h _ rfl).elim

/-- In front of the epilogue the stack pointer is on the level of the line that is reached. -/
theorem reaches_level {text : List Instr} {base : Int} {m m' : Machine} {n : Nat}
    (htext : Leveled (· = base) D 0 text base)
    (hreach : RunsTo E (text ++ [.movRspRbp, .popRbp, .ret]) (0, m) (n, m')) (hn : n < text.length) :
    m'.rsp = m.rsp + moved (text.take n) := by
  let all := text ++ [.movRspRbp, .popRbp, .ret]
  have hget {k : Nat} {line : Line Instr Label} (hk : k < text.length)
      (hline : (all.map Instr.line)[k]? = some line) :
      ∃ i, text[k]? = some i ∧ i.line = line := by
    rw [List.getElem?_map, List.getElem?_append_left hk] at hline
    exact Option.map_eq_some_iff.mp hline
  have hlevel := @Backend.Reaches.level _ _ _ _ _ (backend E) (all.map Instr.line) 0 n m m'
    (·.rsp) (fun k => moved (text.take k)) text.length ?_ ?_ ?_ ?_ hreach hn
  · simpa [moved] using hlevel
  · intro k i s s' hk hline hexec
    obtain ⟨i', hi, heq⟩ := hget (by omega) hline
    obtain rfl := line_instr heq
    have hne : i' ≠ .movRspRbp := by
      rintro rfl
      exact htext.get hi
    have hmoves := exec_moves hne hexec
    simp only [moved_take_succ hi, hmoves]
    omega
  · intro k line hk hline hne
    obtain ⟨i, hi, rfl⟩ := hget (by omega) hline
    simp only [moved_take_succ hi, moves_of_line hne, add_zero]
  · intro k q line t hk hq hline hjump htarget
    obtain ⟨i, hi, rfl⟩ := hget hk hline
    obtain ⟨j, hj, hlabel⟩ := hget hq htarget
    have hfrom := (htext.get hi).jump hjump
    have hto := htext.get hj
    cases j <;> cases hlabel
    have hto := hto hfrom.2
    have hfrom := hfrom.1
    simp only [zero_add] at hto hfrom
    rw [hto, hfrom]
  · intro k s q s' hk hstep
    rcases Backend.step_cases hstep with ⟨i, -, -, rfl⟩ | ⟨-, rfl, -⟩ |
        ⟨-, line, t, hline, hjump, -⟩
    · omega
    · omega
    · rw [List.getElem?_map, List.getElem?_append_right hk] at hline
      obtain ⟨i, hi, rfl⟩ := Option.map_eq_some_iff.mp hline
      have hmem := List.mem_of_getElem? hi
      simp only [List.mem_cons, List.not_mem_nil, or_false] at hmem
      rcases hmem with rfl | rfl | rfl <;> simp [Instr.line, Line.JumpsTo] at hjump

/-! ## Frames -/

section
variable {st st' : Symboltable} {node' : AstNode}

/-- A variable takes 16 bytes, an array a multiple of 16. -/
theorem PreStep.stackSize (h : PreStep node st node' st') (hproc : node.kind ≠ .proc) :
    st'.stackSize % 16 = st.stackSize % 16 := by
  cases h with
  | vardecl hsize hins =>
    have := align16_typePrimitiveSize hsize
    rw [symboltableInsert_stackSize hins]
    simp only
    omega
  | array hsize =>
    have := align16_typePrimitiveSize hsize
    simp only [this]
    omega
  | table hins => rw [symboltableInsert_stackSize hins]
  | proc => exact (hproc rfl).elim
  | block | other => rfl

theorem buildTo_stackSize {depth : Nat} (h : buildTo depth node st = .ok (node', st'))
    (hfree : node.AllKinds (· ≠ .proc)) : st'.stackSize % 16 = st.stackSize % 16 := by
  induction depth generalizing node node' st st' with
  | zero => cases h
  | succ depth ih =>
    obtain ⟨d, node₁, st₁, nodes, st₂, hd, hpre, hlist, -, hpost⟩ := buildTo_ok h
    cases hd
    obtain ⟨hproc, hfree⟩ := AstNode.allKinds_iff.mp hfree
    obtain ⟨hkind, hparts⟩ := hpre.kind_parts
    have hfree : ∀ c ∈ node₁.children, c.AllKinds (· ≠ .proc) := fun c hc =>
      hfree c (hparts ▸ AstNode.mem_parts_of_children hc)
    rw [(hpost.eq (by rwa [AstNode.kind_withChildren, hkind])).2, ← hpre.stackSize hproc]
    clear hpre hpost
    generalize node₁.children = cs at hlist hfree
    induction cs generalizing nodes st₁ with
    | nil =>
      cases hlist
      rfl
    | cons c cs ihcs =>
      obtain ⟨c', st₃, rest, hc, hrest, rfl⟩ := traverseList_cons_ok hlist
      rw [ihcs _ _ hrest fun x hx => hfree x (.tail _ hx), ih hc (hfree c (by simp))]

/-- The bytes of the slots of the parameters. -/
def ProcSignature.paramBytes (sig : ProcSignature) : Int := (sig.params.map (·.type.size)).sum

theorem procPostParams_stackSize {table : Option Nat} {params params' : List Param}
    (h : procPostParams table params st = .ok (params', st')) :
    st'.stackSize = st.stackSize + (params'.map (·.type.size)).sum := by
  induction params generalizing params' st with
  | nil =>
    cases h
    simp
  | cons param params ih =>
    obtain ⟨offset, st₁, hoffset, h₁⟩ := StateT.bind_ok.mp h
    obtain ⟨size, hsize, heq⟩ := Except.bind_ok.mp hoffset
    cases heq
    obtain ⟨u, st₂, hins, h₂⟩ := StateT.bind_ok.mp h₁
    obtain ⟨rest, st₃, hrest, h₃⟩ := StateT.bind_ok.mp h₂
    cases h₃
    rw [ih hrest, symboltableInsert_stackSize hins, List.map_cons, List.sum_cons]
    simp only [Ty.size_eq hsize, add_assoc]

/-- Modulo 16 a frame is as big as the parameters. -/
theorem buildTo_proc_stackSize {depth : Nat} {op ident : Token} {body : AstNode}
    {sig : ProcSignature} {table : Option Nat} {stackSize : Int} (hshape : Shape .decl node)
    (h : buildTo depth node st =
      .ok (.proc op ident (some body) (.procedure sig) table stackSize, st')) :
    stackSize % 16 = sig.paramBytes % 16 := by
  obtain ⟨d, body₀, params₀, table₀, size₀, st₁, st₂, stmts, rfl, hbody, -, hbuild, -, hparams,
    rfl⟩ := buildTo_proc hshape h
  have hsize := buildTo_stackSize hbuild (hbody.procFree nofun nofun)
  have hparams : st'.stackSize = st₂.stackSize + sig.paramBytes := procPostParams_stackSize hparams
  simp only at hsize
  omega

end

/-! ## Procedures -/

/-- Whenever the procedure is entered as by a call, the stack pointer is a multiple of 16 at each
call it comes to. -/
def CallsAligned (text : List Instr) : Prop :=
  ∀ E m n m' r, m.rsp % 16 = 8 → RunsTo E text (0, m) (n, m') → text[n]? = some (.call r) →
    m'.rsp % 16 = 0

/-- At a call the stack pointer is below the frame by the words that are waiting: the lines in front of
the call leave it there. -/
theorem reaches_call {op ident : Token} {body : AstNode} {type : Ty} {table : Option Nat}
    {size : Int} {text : List Instr} {m m' : Machine} {n : Nat} {r : Register}
    (hshape : Shape .block body) (hargs : body.RegisterArgs)
    (hemit : emit tables (.proc op ident (some body) type table size) gen = .ok (ty, text, gen'))
    (hreach : RunsTo E text (0, m) (n, m')) (hcall : text[n]? = some (.call r)) :
    ∃ d : Nat, CallAtDepth body d ∧ moved (text.take n) = -8 - size - 8 * d ∧
      m'.rsp = m.rsp + moved (text.take n) := by
  rw [emit] at hemit
  obtain ⟨-, hproc⟩ := statement_ok.mp hemit
  obtain ⟨front, rfl, hfront⟩ := proc_leveled (D := body.callLevels (-8 - size)) (fun h =>
    ((emit_leveled hshape (.inr (.inr rfl)) hargs).value h).mono
      (fun _ hj => hj.2) fun _ hd => hd) hproc
  have hn : n < front.length := by
    by_contra hge
    rw [List.getElem?_append_right (by omega)] at hcall
    have hmem := List.mem_of_getElem? hcall
    simp at hmem
  rw [List.getElem?_append_left hn] at hcall
  obtain ⟨d, hd, hlevel⟩ := hfront.get hcall
  rw [List.take_append_of_le_length hn.le]
  exact ⟨d, hd, by omega, reaches_level hfront hreach hn⟩

/-- In a procedure without stack arguments, a call that is reached is aligned iff the words that are
waiting fill the frame up to a multiple of 16. These are the words that the lines in front of the call
push and do not pop. -/
theorem calls_aligned {fuel : Nat} {garbage : List Nat} {toks : List Token}
    {root root' root'' body : AstNode} {p : Parser} {st : Symboltable} {op ident : Token}
    {sig : ProcSignature} {table : Option Nat} {stackSize : Int} {text : List Instr}
    (hparse : parse fuel garbage toks = .ok root p) (hexpand : expandAst root = .ok root')
    (hbuild : symboltableBuild root' = .ok (root'', st))
    (hproc : .proc op ident (some body) (.procedure sig) table stackSize ∈ root''.subtrees)
    (hemit : emit st.tables (.proc op ident (some body) (.procedure sig) table stackSize) gen =
      .ok (ty, text, gen'))
    (hargs : body.RegisterArgs) :
    ((∀ d : Nat, CallAtDepth body d → (sig.paramBytes + 8 * d) % 16 = 0) → CallsAligned text) ∧
      ∀ E m n m' r, m.rsp % 16 = 8 → RunsTo E text (0, m) (n, m') →
        text[n]? = some (.call r) →
          ∃ d : Nat, CallAtDepth body d ∧ moved (text.take n) = -8 - stackSize - 8 * d ∧
            (m'.rsp % 16 = 0 ↔ (sig.paramBytes + 8 * d) % 16 = 0) := by
  have hshape := parse_shape hparse
  cases (expandAst_eq hshape).symm.trans hexpand
  obtain ⟨depth, d, st₁, st₂, hd, hvisit⟩ := symboltableBuild_proc hshape.expanded hbuild hproc
  have hsize := buildTo_proc_stackSize hd hvisit
  have hbody : Shape .block body := by
    cases hd.annotated hvisit with
    | proc hbody => exact hbody body rfl
  have hiff : ∀ E m n m' r, m.rsp % 16 = 8 → RunsTo E text (0, m) (n, m') →
      text[n]? = some (.call r) → ∃ d : Nat, CallAtDepth body d ∧
        moved (text.take n) = -8 - stackSize - 8 * d ∧
          (m'.rsp % 16 = 0 ↔ (sig.paramBytes + 8 * d) % 16 = 0) := by
    intro E m n m' r hentry hreach hcall
    obtain ⟨d, hdepth, hmoved, hrsp⟩ := reaches_call hbody hargs hemit hreach hcall
    exact ⟨d, hdepth, hmoved, by omega⟩
  refine ⟨fun hdepths E m n m' r hentry hreach hcall => ?_, hiff⟩
  obtain ⟨d, hdepth, -, haligned⟩ := hiff E m n m' r hentry hreach hcall
  exact haligned.mpr (hdepths d hdepth)

/-- `proc f(x: int) void { f(x); }` -/
def callsItself : List Token :=
  [{ kind := .kwProc }, .ident "f", { kind := .lparen }, .ident "x", { kind := .colon },
    { kind := .kwTypeInt }, { kind := .rparen }, { kind := .kwTypeVoid }, { kind := .lbrace },
    .ident "f", { kind := .lparen }, .ident "x", { kind := .rparen }, { kind := .semicolon },
    { kind := .rbrace }, .eof]

/-- The code of `f` up to the call. -/
def callsItselfCode : List Instr :=
  [.global "f", .label (.proc "f"), .pushRbp, .movRbpRsp, .subRsp 4,
    .store (.rbp (-4)) ⟨.rdi, .w32⟩, .movSym ⟨.rax, .w64⟩ "f", .push .rax,
    .load ⟨.rax, .w32⟩ (.rbp (-4)), .mov ⟨.rdi, .w32⟩ ⟨.rax, .w32⟩, .pop .rax]

/-- `proc f() void { f(); }` -/
def callsBare : List Token :=
  [{ kind := .kwProc }, .ident "f", { kind := .lparen }, { kind := .rparen }, { kind := .kwTypeVoid },
    { kind := .lbrace }, .ident "f", { kind := .lparen }, { kind := .rparen }, { kind := .semicolon },
    { kind := .rbrace }, .eof]

def callsBareCode : List Instr :=
  [.global "f", .label (.proc "f"), .pushRbp, .movRbpRsp, .subRsp 0, .movSym ⟨.rax, .w64⟩ "f",
    .push .rax, .pop .rax]

/-- Whether the text of the only procedure is this one, its body one call with at most one literal as
its argument, and its parameters take so many bytes. -/
def callsOnce (code : List Instr) (bytes : Int) (root : AstNode) (tables : List Hashtable) : Bool :=
  match root with
  | .block [.proc op ident (some (.block [.call op' callee args] table)) (.procedure sig) t size] _ =>
    callee.kind = .literal && args.length ≤ 1 && args.all (·.kind = .literal) &&
      sig.paramBytes = bytes &&
      match emit tables (.proc op ident (some (.block [.call op' callee args] table))
        (.procedure sig) t size) {} with
      | .ok (_, text, _) =>
        text = code ++ [.call .rax, .label .return_, .movRspRbp, .popRbp, .ret]
      | .error _ => false
  | _ => false

theorem literal_depth {d : Nat} (h : CallAtDepth node d) : node.kind ≠ .literal := by
  rintro hkind
  cases h with
  | part _ _ _ hc =>
    cases node <;> cases hkind
    cases hc
  | _ => cases hkind

theorem literal_subtrees (h : node.kind = .literal) : node.subtrees = [node] := by
  cases node <;> cases h
  rfl

theorem callsOnce_elim {code : List Instr} {bytes : Int} {root : AstNode}
    (h : callsOnce code bytes root tables = true) :
    ∃ op ident body sig table stackSize ty text gen',
      .proc op ident (some body) (.procedure sig) table stackSize ∈ root.subtrees ∧
      emit tables (.proc op ident (some body) (.procedure sig) table stackSize) {} =
        .ok (ty, text, gen') ∧ body.RegisterArgs ∧ (∀ d, CallAtDepth body d → d = 0) ∧
      sig.paramBytes = bytes ∧
      text = code ++ [.call .rax, .label .return_, .movRspRbp, .popRbp, .ret] := by
  unfold callsOnce at h
  split at h
  · rename_i op ident op' callee args table sig t size t'
    simp only [Bool.and_eq_true, decide_eq_true_eq, List.all_eq_true] at h
    obtain ⟨⟨⟨⟨hcallee, hlen⟩, hargs⟩, hbytes⟩, htext⟩ := h
    split at htext
    · rename_i ty text gen' hemit
      refine ⟨op, ident, _, sig, t, size, ty, text, gen', AstNode.mem_subtrees.mpr (.inr
        ⟨_, List.mem_singleton.mpr rfl, AstNode.mem_subtrees.mpr (.inl rfl)⟩), hemit, ?_, ?_, hbytes,
        by simpa using htext⟩
      · intro op'' callee' args' hmem
        rcases AstNode.mem_subtrees.mp hmem with heq | ⟨c, hc, hmem⟩
        · cases heq
        · cases List.mem_singleton.mp hc
          rcases AstNode.mem_subtrees.mp hmem with heq | ⟨c, hc, hmem⟩
          · cases heq
            omega
          · have hliteral : c.kind = .literal := by
              rcases List.mem_cons.mp hc with rfl | hc
              · exact hcallee
              · exact hargs c hc
            rw [literal_subtrees hliteral, List.mem_singleton] at hmem
            subst hmem
            cases hliteral
      · intro d hd
        cases hd with
        | part _ _ _ hc hd =>
          cases List.mem_singleton.mp hc
          cases hd with
          | call => rfl
          | callee hd => exact (literal_depth hd hcallee).elim
          | arg harg hd => exact (literal_depth hd (hargs _ harg)).elim
          | part hkind => exact (hkind rfl).elim
    · cases htext
  · cases h

theorem callsBare_annotates : ∃ root p root' root'' st, parse 100 [] callsBare = .ok root p ∧
    expandAst root = .ok root' ∧ symboltableBuild root' = .ok (root'', st) ∧
    callsOnce callsBareCode 0 root'' st.tables = true :=
  @of_annotatesTo (fun _ => callsOnce callsBareCode 0) 100 callsBare (by decide +kernel)

theorem callsItself_annotates : ∃ root p root' root'' st, parse 100 [] callsItself = .ok root p ∧
    expandAst root = .ok root' ∧ symboltableBuild root' = .ok (root'', st) ∧
    callsOnce callsItselfCode 4 root'' st.tables = true :=
  @of_annotatesTo (fun _ => callsOnce callsItselfCode 4) 100 callsItself (by decide +kernel)

/-- The machine at the entry of a procedure. -/
def Machine.entered : Machine :=
  { reg := fun _ => 0, rsp := 8, rbp := 0, mem := fun _ => 0, flags := none }

theorem reaches_of_run {before rest : List Instr} {m m' : Machine} (h : run E c m = some m') :
    RunsTo E (before ++ (c ++ rest)) (before.length, m) (before.length + c.length, m') := by
  induction c generalizing before m with
  | nil =>
    cases h
    exact .refl
  | cons i c ih =>
    obtain ⟨m₁, hexec, hrun⟩ := Option.bind_eq_some_iff.mp h
    have hrest := @ih (before ++ [i]) _ hrun
    simp only [List.append_assoc, List.singleton_append, List.length_append, List.length_singleton]
      at hrest
    rw [List.length_cons, ← add_assoc, add_right_comm]
    refine .head ?_ hrest
    have hline : ((before ++ i :: (c ++ rest)).map Instr.line)[before.length]? = some i.line := by
      simp
    cases i
    case jmp | je | jne | ret => cases hexec
    case label =>
      cases hexec
      exact Backend.step_label hline
    all_goals
      refine (Backend.step_instr hline).trans ?_
      rw [show (backend E).exec = exec E from rfl, hexec]
      rfl

theorem callsItself_reaches : ∃ m', RunsTo .returning
    (callsItselfCode ++ [.call .rax, .label .return_, .movRspRbp, .popRbp, .ret]) (0, .entered)
      (11, m') ∧ m'.rsp = -4 := by
  obtain ⟨m', hrun, hrsp⟩ : ∃ m', run .returning callsItselfCode .entered = some m' ∧ m'.rsp = -4 :=
    ⟨_, rfl, rfl⟩
  exact ⟨m', @reaches_of_run _ _ [] _ _ _ hrun, hrsp⟩

/-- A call that is aligned, and one that is not: in front of it, the lines have moved the stack pointer
by 12. -/
theorem calls_aligned_callsItself :
    (∃ root p root' root'' st op ident body sig table stackSize ty text gen',
      parse 100 [] callsBare = .ok root p ∧ expandAst root = .ok root' ∧
        symboltableBuild root' = .ok (root'', st) ∧
        .proc op ident (some body) (.procedure sig) table stackSize ∈ root''.subtrees ∧
        emit st.tables (.proc op ident (some body) (.procedure sig) table stackSize) {} =
          .ok (ty, text, gen') ∧ .call .rax ∈ text ∧ CallsAligned text) ∧
    ∃ root p root' root'' st op ident body sig table stackSize ty text gen' m,
      parse 100 [] callsItself = .ok root p ∧ expandAst root = .ok root' ∧
        symboltableBuild root' = .ok (root'', st) ∧
        .proc op ident (some body) (.procedure sig) table stackSize ∈ root''.subtrees ∧
        emit st.tables (.proc op ident (some body) (.procedure sig) table stackSize) {} =
          .ok (ty, text, gen') ∧ RunsTo .returning text (0, .entered) (11, m) ∧
        ∃ d : Nat, CallAtDepth body d ∧ -12 = -8 - stackSize - 8 * d ∧
          (m.rsp % 16 = 0 ↔ (sig.paramBytes + 8 * d) % 16 = 0) := by
  constructor
  · obtain ⟨root, p, root', root'', st, hparse, hexpand, hbuild, htest⟩ := callsBare_annotates
    obtain ⟨op, ident, body, sig, table, stackSize, ty, text, gen', hproc, hemit, hargs, hdepths,
      hbytes, rfl⟩ := callsOnce_elim htest
    refine ⟨root, p, root', root'', st, op, ident, body, sig, table, stackSize, ty, _, gen', hparse,
      hexpand, hbuild, hproc, hemit, by simp, ?_⟩
    refine (calls_aligned hparse hexpand hbuild hproc hemit hargs).1 fun d hd => ?_
    rw [hbytes, hdepths d hd]
    rfl
  · obtain ⟨root, p, root', root'', st, hparse, hexpand, hbuild, htest⟩ := callsItself_annotates
    obtain ⟨op, ident, body, sig, table, stackSize, ty, text, gen', hproc, hemit, hargs, -, -, rfl⟩ :=
      callsOnce_elim htest
    obtain ⟨m, hreach, -⟩ := callsItself_reaches
    exact ⟨root, p, root', root'', st, op, ident, body, sig, table, stackSize, ty, _, gen', m, hparse,
      hexpand, hbuild, hproc, hemit, hreach,
      (calls_aligned hparse hexpand hbuild hproc hemit hargs).2 .returning .entered 11 m .rax rfl
        hreach rfl⟩

/-- The slot of `x` leaves the stack pointer at 4 below a multiple of 16. -/
theorem call_misaligned : ∃ root p root' root'' st op ident body sig table stackSize ty text gen',
    parse 100 [] callsItself = .ok root p ∧ expandAst root = .ok root' ∧
      symboltableBuild root' = .ok (root'', st) ∧
      .proc op ident (some body) (.procedure sig) table stackSize ∈ root''.subtrees ∧
      emit st.tables (.proc op ident (some body) (.procedure sig) table stackSize) {} =
        .ok (ty, text, gen') ∧ ¬ CallsAligned text := by
  obtain ⟨root, p, root', root'', st, hparse, hexpand, hbuild, htest⟩ := callsItself_annotates
  obtain ⟨op, ident, body, sig, table, stackSize, ty, text, gen', hproc, hemit, -, -, -, rfl⟩ :=
    callsOnce_elim htest
  refine ⟨root, p, root', root'', st, op, ident, body, sig, table, stackSize, ty, _, gen', hparse,
    hexpand, hbuild, hproc, hemit, fun haligned => ?_⟩
  obtain ⟨m, hreach, hrsp⟩ := callsItself_reaches
  have := haligned .returning .entered 11 m .rax rfl hreach rfl
  omega

end Seron
