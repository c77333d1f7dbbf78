import Seron.Verify.Emission
import Seron.Machine

/-! # Arithmetic expressions

The code for an expression of the arithmetic fragment leaves its value in `rax`, restores the
stack and writes only below the stack pointer. The right operand waits on the stack while the
left one, of any depth, is evaluated; the code for the left operand does not reach it, as it
writes only below the pushed word. -/

namespace Seron

open Memory

/-- The types arithmetic is done at. -/
inductive WordTy where
  | int | long

namespace WordTy

def ty : WordTy → Ty
  | int => .int
  | long => .long

def width : WordTy → Width
  | int => .w32
  | long => .w64

theorem subregister_kind (T : WordTy) (r : Register) :
    subregister r T.ty.kind = .ok ⟨r, T.width⟩ := by
  cases T <;> rfl

theorem kind_ne_pointer (T : WordTy) : T.ty.kind ≠ .pointer := by
  cases T <;> decide

theorem width_ne (T : WordTy) : T.width ≠ .w8 := by
  cases T <;> decide

end WordTy

/-- The operators of the fragment, with the operation each stands for. -/
def BinOpKind.word? {n : Nat} : BinOpKind → Option (BitVec n → BitVec n → BitVec n)
  | .add => some (· + ·)
  | .sub => some (· - ·)
  | .mul => some (· * ·)
  | .bitwiseAnd => some (· &&& ·)
  | .bitwiseOr => some (· ||| ·)
  | _ => none

section
variable (tables : List Hashtable) (scope : Option Nat) (T : WordTy)

/-- The arithmetic fragment at type `T`, in a scope. -/
inductive Arith : AstNode → Prop
  | number {op : Token} : typeFromTokenLiteral op.numberType = T.ty → op.number.toNat < 2 ^ 31 →
    Arith (.literal op .number)
  | ident {op : Token} {sym : Symbol} : symboltableLookup tables scope op.value = .ok (some sym) →
    sym.kind = .variable ∨ sym.kind = .parameter → sym.type = T.ty → Arith (.literal op .ident)
  | grouping {e : AstNode} : Arith e → Arith (.grouping e)
  | minus {e : AstNode} {op : Token} : Arith e → Arith (.unaryop e op .minus)
  | binop {lhs rhs : AstNode} {op : Token} {kind : BinOpKind} :
    (kind.word? (n := T.width.bits)).isSome → Arith lhs → Arith rhs →
    Arith (.binop lhs rhs op kind)

/-- The slot of a name lies at or above the stack pointer and holds the value of the name. -/
def Holds (env : String → BitVec T.width.bits) (m : Machine) (x : String) : Prop :=
  ∀ sym, symboltableLookup tables scope x = .ok (some sym) →
    m.rsp ≤ m.rbp - sym.offset ∧
      readBytes m.mem (m.rbp - sym.offset) T.width.bytes = (env x).setWidth 64

end

namespace AstNode

/-- The names an arithmetic expression reads. -/
def names : AstNode → List String
  | .literal op .ident => [op.value]
  | .grouping e | .unaryop e _ _ => e.names
  | .binop lhs rhs _ _ => lhs.names ++ rhs.names
  | _ => []

/-- The value of an arithmetic expression in two's complement. -/
def value {n : Nat} (env : String → BitVec n) : AstNode → BitVec n
  | .literal op .number => op.number.setWidth n
  | .literal op .ident => env op.value
  | .grouping e => e.value env
  | .unaryop e _ .minus => -e.value env
  | .binop lhs rhs _ kind =>
    match kind.word? with
    | some f => f (lhs.value env) (rhs.value env)
    | none => 0
  | _ => 0

end AstNode

variable {tables : List Hashtable} {scope : Option Nat} {T : WordTy} {E : Env} {m m' : Machine}
  {gen : Gen}

/-- The state differs in the general registers and below the stack pointer only. -/
structure Machine.SameFrame (m m' : Machine) : Prop where
  rsp : m'.rsp = m.rsp
  rbp : m'.rbp = m.rbp
  mem : ∀ a, m.rsp ≤ a → m'.mem a = m.mem a

theorem Machine.SameFrame.trans {m₁ m₂ m₃ : Machine} (h : m₁.SameFrame m₂)
    (h' : m₂.SameFrame m₃) : m₁.SameFrame m₃ where
  rsp := h'.rsp.trans h.rsp
  rbp := h'.rbp.trans h.rbp
  mem a ha := (h'.mem a (by rw [h.rsp]; exact ha)).trans (h.mem a ha)

theorem Holds.mono {env : String → BitVec T.width.bits} {x : String}
    (h : Holds tables scope T env m x) (hrsp : m'.rsp ≤ m.rsp) (hrbp : m'.rbp = m.rbp)
    (hmem : ∀ a, m.rsp ≤ a → m'.mem a = m.mem a) : Holds tables scope T env m' x := by
  intro sym hsym
  obtain ⟨hle, hread⟩ := h sym hsym
  rw [hrbp]
  refine ⟨hrsp.trans hle, ?_⟩
  rw [← hread]
  exact readBytes_congr fun a ha _ => hmem a (hle.trans ha)

/-! ## The last instructions of each expression -/

/-- The low half of the product of two words does not depend on their signs. -/
theorem ofInt_toInt_mul {n : Nat} (a b : BitVec n) :
    BitVec.ofInt n (a.toInt * b.toInt) = a * b := by
  rw [BitVec.ofInt_mul, BitVec.ofInt_toInt, BitVec.ofInt_toInt]

theorem Machine.imul_word (m : Machine) (r : Register) :
    (m.imul ⟨r, T.width⟩).get ⟨.rax, T.width⟩ = m.get ⟨.rax, T.width⟩ * m.get ⟨r, T.width⟩ ∧
      m.SameFrame (m.imul ⟨r, T.width⟩) := by
  rw [← ofInt_toInt_mul]
  cases T <;>
    exact ⟨(Machine.get_set_of_ne (by simp)).trans Machine.get_set_self, ⟨rfl, rfl, fun _ _ => rfl⟩⟩

/-- The operator itself, with the left operand in `rax` and the right one in `rdi`. -/
theorem run_binopInstrs {kind : BinOpKind} {al : SubReg}
    {f : BitVec T.width.bits → BitVec T.width.bits → BitVec T.width.bits}
    (hf : kind.word? = some f) :
    ∃ m', run E (binopInstrs ⟨.rax, T.width⟩ ⟨.rdi, T.width⟩ al kind) m = some m' ∧
      m'.get ⟨.rax, T.width⟩ = f (m.get ⟨.rax, T.width⟩) (m.get ⟨.rdi, T.width⟩) ∧
      m.SameFrame m' := by
  have alu (op : AluOp) : ∃ m', run E [.alu op ⟨.rax, T.width⟩ ⟨.rdi, T.width⟩] m = some m' ∧
      m'.get ⟨.rax, T.width⟩ = op.eval (m.get ⟨.rax, T.width⟩) (m.get ⟨.rdi, T.width⟩) ∧
      m.SameFrame m' := by
    simp only [run_cons, exec, if_true, Option.bind_some, run_nil]
    exact ⟨_, rfl, Machine.get_set_self, ⟨rfl, rfl, fun _ _ => rfl⟩⟩
  cases kind <;> simp only [BinOpKind.word?, Option.some.injEq, reduceCtorEq] at hf <;> subst hf
  case add => exact alu .add
  case sub => exact alu .sub
  case bitwiseAnd => exact alu .and
  case bitwiseOr => exact alu .or
  case mul =>
    have ⟨hval, hframe⟩ := m.imul_word (T := T) .rdi
    exact ⟨(m.imul ⟨.rdi, T.width⟩).unflagged, rfl, hval, ⟨hframe.rsp, hframe.rbp, hframe.mem⟩⟩

theorem run_minus : ∃ m', run E [.imulImm ⟨.rax, T.width⟩ (-1)] m = some m' ∧
    m'.get ⟨.rax, T.width⟩ = -m.get ⟨.rax, T.width⟩ ∧ m.SameFrame m' := by
  simp only [run_cons, exec, if_neg T.width_ne, Option.bind_some, run_nil]
  refine ⟨_, rfl, ?_, ⟨rfl, rfl, fun _ _ => rfl⟩⟩
  rw [Machine.get_unflagged, Machine.get_set_self, BitVec.ofInt_neg, BitVec.mul_neg]
  simp

/-- A number below `2 ^ 31` is printed as it is. -/
theorem toInt_setWidth {n : BitVec 64} (h : n.toNat < 2 ^ 31) :
    (n.setWidth 32).toInt = n.toNat := by
  rw [BitVec.toInt_eq_toNat_of_lt] <;> simp <;> omega

theorem run_number {n : BitVec 64} (h : n.toNat < 2 ^ 31) :
    ∃ m', run E [.movImm ⟨.rax, T.width⟩ (n.setWidth 32).toInt] m = some m' ∧
      m'.get ⟨.rax, T.width⟩ = n.setWidth _ ∧ m.SameFrame m' := by
  refine ⟨_, rfl, ?_, ⟨rfl, rfl, fun _ _ => rfl⟩⟩
  rw [toInt_setWidth h, Machine.get_set, BitVec.setWidth_eq]
  simp

theorem run_load {env : String → BitVec T.width.bits} {x : String} {sym : Symbol}
    (hsym : symboltableLookup tables scope x = .ok (some sym))
    (hx : Holds tables scope T env m x) :
    ∃ m', run E [.load ⟨.rax, T.width⟩ (.rbp (-sym.offset))] m = some m' ∧
      m'.get ⟨.rax, T.width⟩ = env x ∧ m.SameFrame m' := by
  refine ⟨_, rfl, ?_, ⟨rfl, rfl, fun _ _ => rfl⟩⟩
  obtain ⟨-, hread⟩ := hx sym hsym
  rw [Machine.get_set, BitVec.setWidth_eq, Addr.eval, ← Int.sub_eq_add_neg, hread,
    BitVec.setWidth_setWidth_of_le _ T.width.bits_le, BitVec.setWidth_eq]

/-! ## Operands -/

/-- A word on the stack is out of reach of code that keeps the frame. -/
theorem Machine.SameFrame.top {v : BitVec 64} (h : (m.push v).SameFrame m') : m'.top = v := by
  refine .trans ?_ (Machine.top_push (m := m))
  simp only [Machine.top, h.rsp]
  exact readBytes_congr fun a ha _ => h.mem a ha

section
variable {w : Width} {cl cr : List Instr} {a b : BitVec w.bits}

/-- The code of the operands, run from a state, leaves the left one in `rax` and the right one on
top of the stack. -/
def Operands (E : Env) (w : Width) (cr cl : List Instr) (m : Machine) (a b : BitVec w.bits) :
    Prop :=
  ∃ m₂, run E (cr ++ .push .rax :: cl) m = some m₂ ∧ m₂.get ⟨.rax, w⟩ = a ∧
    m₂.top.setWidth w.bits = b

/-- Whatever is pushed on the stack before, the code leaves the value in `rax` and the frame as
it is. -/
def Steady (E : Env) (w : Width) (code : List Instr) (m : Machine) (a : BitVec w.bits) : Prop :=
  ∀ m₁ : Machine, m₁.rbp = m.rbp → m₁.rsp ≤ m.rsp → (∀ x, m.rsp ≤ x → m₁.mem x = m.mem x) →
    ∃ m₂, run E code m₁ = some m₂ ∧ m₂.get ⟨.rax, w⟩ = a ∧ m₁.SameFrame m₂

/-- Behind the operands, the right one is taken from the stack. -/
theorem run_pop {m₁ : Machine} (hrun : run E (cr ++ .push .rax :: cl) m = some m₁)
    (ha : m₁.get ⟨.rax, w⟩ = a) (hb : m₁.top.setWidth w.bits = b) :
    (m₁.drop.setReg .rdi m₁.top).get ⟨.rax, w⟩ = a ∧
      (m₁.drop.setReg .rdi m₁.top).get ⟨.rdi, w⟩ = b ∧
      ∀ is, run E (cr ++ .push .rax :: (cl ++ .pop .rdi :: is)) m =
        run E is (m₁.drop.setReg .rdi m₁.top) := by
  refine ⟨?_, ?_, fun is => ?_⟩
  · simpa [Machine.get, Machine.setReg_of_ne] using ha
  · simpa [Machine.get] using hb
  · rw [← List.cons_append, ← List.append_assoc, run_append_some hrun, run_cons, exec,
      Option.bind_some]

theorem Operands.run (h : Operands E w cr cl m a b) :
    ∃ m₂, m₂.get ⟨.rax, w⟩ = a ∧ m₂.get ⟨.rdi, w⟩ = b ∧
      ∀ is, Seron.run E (cr ++ .push .rax :: (cl ++ .pop .rdi :: is)) m = Seron.run E is m₂ := by
  obtain ⟨m₁, hrun, ha, hb⟩ := h
  exact ⟨_, run_pop hrun ha hb⟩

/-- The right operand is parked on the stack, under the frame, and the left one evaluated. -/
theorem Steady.parked (hl : Steady E w cl m a) (hr : Steady E w cr m b) :
    ∃ m₂, run E (cr ++ .push .rax :: cl) m = some m₂ ∧ m₂.get ⟨.rax, w⟩ = a ∧
      m₂.top.setWidth w.bits = b ∧ m.SameFrame m₂.drop := by
  obtain ⟨m₁, hrun₁, hb, hframe₁⟩ := hr m rfl (Int.le_refl _) fun _ _ => rfl
  have hrsp : (m₁.push (m₁.reg .rax)).rsp ≤ m.rsp := by
    simp only [Machine.push_rsp, hframe₁.rsp]
    omega
  have hmem : ∀ x, m.rsp ≤ x → (m₁.push (m₁.reg .rax)).mem x = m.mem x := fun x hx =>
    (Machine.push_mem (by rw [hframe₁.rsp]; exact hx)).trans (hframe₁.mem x hx)
  obtain ⟨m₂, hrun₂, ha, hframe₂⟩ := hl (m₁.push (m₁.reg .rax)) hframe₁.rbp hrsp hmem
  refine ⟨m₂, ?_, ha, ?_, ?_, hframe₂.rbp.trans hframe₁.rbp, fun x hx => ?_⟩
  · rw [run_append_some hrun₁, run_cons, exec, Option.bind_some, hrun₂]
  · rw [hframe₂.top]
    exact hb
  · rw [Machine.drop_rsp, hframe₂.rsp, Machine.push_rsp, hframe₁.rsp]
    omega
  · exact (hframe₂.mem x (hrsp.trans hx)).trans (hmem x hx)

theorem Steady.operands (hl : Steady E w cl m a) (hr : Steady E w cr m b) :
    Operands E w cr cl m a b := by
  obtain ⟨m₂, hrun, ha, hb, -⟩ := hl.parked hr
  exact ⟨m₂, hrun, ha, hb⟩

/-- Behind the operands the frame is as before. -/
theorem Steady.run_operands (hl : Steady E w cl m a) (hr : Steady E w cr m b) :
    ∃ m₂, m₂.get ⟨.rax, w⟩ = a ∧ m₂.get ⟨.rdi, w⟩ = b ∧ m.SameFrame m₂ ∧
      ∀ is, run E (cr ++ .push .rax :: (cl ++ .pop .rdi :: is)) m = run E is m₂ := by
  obtain ⟨m₁, hrun, ha, hb, hframe⟩ := hl.parked hr
  obtain ⟨ha, hb, hpop⟩ := run_pop hrun ha hb
  exact ⟨_, ha, hb, ⟨hframe.rsp, hframe.rbp, hframe.mem⟩, hpop⟩

end

/-! ## The code of an expression -/

/-- The code leaves the value of the expression in `rax`, and the frame as it is. -/
def Computes (tables : List Hashtable) (scope : Option Nat) (E : Env) {T : WordTy}
    (env : String → BitVec T.width.bits) (e : AstNode) (code : List Instr) : Prop :=
  ∀ m : Machine, (∀ x ∈ e.names, Holds tables scope T env m x) →
    ∃ m', run E code m = some m' ∧ m'.get ⟨.rax, T.width⟩ = e.value env ∧ m.SameFrame m'

theorem Computes.steady {env : String → BitVec T.width.bits} {e : AstNode} {code : List Instr}
    (h : Computes tables scope E env e code) (hm : ∀ x ∈ e.names, Holds tables scope T env m x) :
    Steady E T.width code m (e.value env) := by
  intro m₁ hrbp hrsp hmem
  exact h m₁ fun x hx => (hm x hx).mono hrsp hrbp hmem

/-- After the operands, the right one is taken back into `rdi`. -/
theorem run_binop {env : String → BitVec T.width.bits} {lhs rhs : AstNode} {kind : BinOpKind}
    {cl cr : List Instr} {al : SubReg}
    {f : BitVec T.width.bits → BitVec T.width.bits → BitVec T.width.bits}
    (hf : kind.word? = some f) (hl : Computes tables scope E env lhs cl)
    (hr : Computes tables scope E env rhs cr)
    (hm : ∀ x ∈ lhs.names ++ rhs.names, Holds tables scope T env m x) :
    ∃ m', run E (cr ++ .push .rax ::
        (cl ++ .pop .rdi :: binopInstrs ⟨.rax, T.width⟩ ⟨.rdi, T.width⟩ al kind)) m = some m' ∧
      m'.get ⟨.rax, T.width⟩ = f (lhs.value env) (rhs.value env) ∧ m.SameFrame m' := by
  obtain ⟨hml, hmr⟩ := List.forall_mem_append.mp hm
  obtain ⟨m₂, hrax, hrdi, hframe₂, hrun₂⟩ := (hl.steady hml).run_operands (hr.steady hmr)
  obtain ⟨m₃, hrun₃, hval₃, hframe₃⟩ := @run_binopInstrs T E m₂ kind al f hf
  refine ⟨m₃, (hrun₂ _).trans hrun₃, ?_, hframe₂.trans hframe₃⟩
  rw [hval₃, hrax, hrdi]

/-- The fragment is accepted, with code that computes its value. -/
theorem arith_computes {e : AstNode} (he : Arith tables scope T e) (hscope : gen.scope = scope) :
    ∃ code, emit tables e gen = .ok (T.ty, code, gen) ∧
      ∀ (E : Env) (env : String → BitVec T.width.bits), Computes tables scope E env e code := by
  induction he with
  | number hty hlt =>
    refine ⟨_, ?_, fun E env m _ => run_number hlt⟩
    rw [emit]
    exact literal_number_ok.mpr ⟨hty.symm, ⟨_, T.subregister_kind _, rfl⟩, rfl⟩
  | ident hsym hkind hty =>
    refine ⟨_, ?_, fun E env m hm => run_load hsym (hm _ (by simp [AstNode.names]))⟩
    rw [emit, literal]
    exact literalIdent_ok.mpr ⟨rfl, _, hscope ▸ hsym,
      .inr (.inl ⟨hkind, rfl, hty.symm, _, T.subregister_kind _, rfl⟩)⟩
  | grouping _ ih =>
    rw [emit, grouping]
    exact ih
  | minus _ ih =>
    obtain ⟨c, hemit, hrun⟩ := ih
    refine ⟨c ++ [.imulImm ⟨.rax, T.width⟩ (-1)], ?_, fun E env m hm => ?_⟩
    · rw [emit]
      exact unaryop_minus_ok.mpr ⟨c, _, hemit, T.subregister_kind _, rfl⟩
    · obtain ⟨m₁, hrun₁, hval₁, hframe₁⟩ := hrun E env m hm
      obtain ⟨m₂, hrun₂, hval₂, hframe₂⟩ := run_minus (E := E) (m := m₁) (T := T)
      refine ⟨m₂, by rw [run_append_some hrun₁, hrun₂], ?_, hframe₁.trans hframe₂⟩
      rw [hval₂, hval₁, AstNode.value]
  | @binop lhs rhs op kind hkind _ _ ihl ihr =>
    obtain ⟨cl, hl, hrunl⟩ := ihl
    obtain ⟨cr, hr, hrunr⟩ := ihr
    obtain ⟨f, hf⟩ := Option.isSome_iff_exists.mp hkind
    refine ⟨cr ++ .push .rax :: (cl ++ .pop .rdi :: binopInstrs ⟨.rax, T.width⟩ ⟨.rdi, T.width⟩
      ⟨.rax, .w8⟩ kind), ?_, fun E env m hm => ?_⟩
    · rw [emit]
      exact binop_ok.mpr ⟨T.ty, cr, gen, _, T.ty, cl, gen, _, [], hr, T.subregister_kind _, hl,
        T.subregister_kind _, scalePointer_self T.kind_ne_pointer,
        (if_neg T.kind_ne_pointer).symm, rfl⟩
    · simp only [AstNode.value, hf]
      exact run_binop hf (hrunl E env) (hrunr E env) hm

/-- Expression compilation is correct on the arithmetic fragment. -/
theorem emit_arith {e : AstNode} (he : Arith tables scope T e) (hscope : gen.scope = scope) :
    ∃ code, emit tables e gen = .ok (T.ty, code, gen) ∧
      ∀ (E : Env) (env : String → BitVec T.width.bits) (m : Machine),
        (∀ x ∈ e.names, Holds tables scope T env m x) →
        ∃ m', run E code m = some m' ∧ m'.get ⟨.rax, T.width⟩ = e.value env ∧
          m.SameFrame m' := by
  obtain ⟨code, hemit, hcode⟩ := arith_computes he hscope
  exact ⟨code, hemit, fun E env m hm => hcode E env m hm⟩

/-- `x - 5 * -x` with `x = 7` in the slot at `rbp - 16`. -/
theorem emit_arith_sub_mul :
    let tables : List Hashtable :=
      [{ buckets := [[⟨['x'], { kind := .variable, type := .int, offset := 16 }⟩]], parent := none }]
    let x : AstNode := .literal (.ident "x") .ident
    let five : AstNode := .literal (.num 5) .number
    let e : AstNode :=
      .binop x (.binop five (.unaryop x .eof .minus) .eof .mul) .eof .sub
    let m : Machine :=
      { reg := fun _ => 0, rsp := -16, rbp := 0, mem := fun a => if a = -16 then 7 else 0
        flags := none }
    ∃ code, emit tables e { scope := some 0 } = .ok (.int, code, { scope := some 0 }) ∧
      ∃ m', run .returning code m = some m' ∧ m'.get ⟨.rax, .w32⟩ = 42 ∧ m.SameFrame m' := by
  intro tables x five e m
  have hx : Arith tables (some 0) .int x := .ident (T := .int) rfl (.inl rfl) rfl
  have hfive : Arith tables (some 0) .int five := .number rfl (by decide)
  have he : Arith tables (some 0) .int e := .binop rfl hx (.binop rfl hfive (.minus hx))
  obtain ⟨code, hemit, hrun⟩ := @emit_arith _ _ _ { scope := some 0 } e he rfl
  obtain ⟨m', hm', hval, hframe⟩ := hrun .returning (fun _ => 7) m fun y hy sym hsym => by
    have hy : y = (Token.ident "x").value := by simpa [e, x, five, AstNode.names] using hy
    subst hy
    cases hsym
    exact ⟨by decide, by decide⟩
  have heq : e.value (fun _ => 7#32) = 42 := by
    simp [e, x, five, AstNode.value, BinOpKind.word?, Token.num]
  exact ⟨code, hemit, m', hm', hval.trans heq, hframe⟩

end Seron
