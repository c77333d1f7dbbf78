import Seron.Types

/-! # Instructions

The lines `codegen.c` writes into the text section, one constructor for each shape of line.
The registers `rsp` and `rbp`, which only the prologue and the epilogue of a procedure name,
have constructors of their own. -/

namespace Seron

/-- `Register`, without `REG_INVALID`. -/
inductive Register where
  | rax | rdi | rsi | rdx | rcx | r8 | r9
  deriving DecidableEq, Repr

inductive Width where
  | w8 | w32 | w64
  deriving DecidableEq, Repr

def Width.bits : Width → Nat
  | .w8 => 8
  | .w32 => 32
  | .w64 => 64

def Width.bytes : Width → Nat
  | .w8 => 1
  | .w32 => 4
  | .w64 => 8

theorem Width.bits_eq (w : Width) : w.bits = 8 * w.bytes := by
  cases w <;> rfl

theorem Width.bytes_pos (w : Width) : 0 < w.bytes := by
  cases w <;> decide

theorem Width.bytes_le (w : Width) : w.bytes ≤ 8 := by
  cases w <;> decide

theorem Width.bits_le (w : Width) : w.bits ≤ 64 := by
  rw [w.bits_eq]
  exact Nat.mul_le_mul_left 8 w.bytes_le

/-- A register under the name it has at one width, such as `eax` or `dil`. -/
structure SubReg where
  reg : Register
  width : Width
  deriving DecidableEq, Repr

/-- The part of a register that holds a value of the type. Each register of the source has
the same four cases. -/
def subregister (reg : Register) : TypeKind → Except Failure SubReg
  | .procedure | .long | .object | .pointer => .ok ⟨reg, .w64⟩
  | .int => .ok ⟨reg, .w32⟩
  | .char => .ok ⟨reg, .w8⟩
  | .invalid | .void | .table => .error (.panic "invalid type")

/-- The register of an argument, counted from 1; the arguments behind the sixth have none. -/
def abiRegister (argnum : Nat) : Option Register :=
  [Register.rdi, .rsi, .rdx, .rcx, .r8, .r9][argnum - 1]?

def abiRegisterStr (argnum : Nat) (type : TypeKind) : Except Failure (Option SubReg) :=
  match abiRegister argnum with
  | none => .ok none
  | some reg => do
    let reg ← subregister reg type
    pure (some reg)

/-- `[rbp+disp]` or `[reg]`. -/
inductive Addr where
  | rbp (disp : Int)
  | reg (reg : Register)
  deriving DecidableEq, Repr

inductive AluOp where
  | add | sub | and | or
  deriving DecidableEq, Repr

/-- The condition of a `setcc`. -/
inductive Condition where
  | e | ne | g | ge | l | le
  deriving DecidableEq, Repr

inductive Label where
  | proc (ident : String)
  | else_ (n : Nat)
  | end_ (n : Nat)
  | while_ (n : Nat)
  | cond (n : Nat)
  | return_
  deriving DecidableEq, Repr

inductive Instr where
  | push (reg : Register)
  | pop (reg : Register)
  /-- `mov reg, reg` -/
  | mov (dst src : SubReg)
  | movImm (dst : SubReg) (imm : Int)
  | movSym (dst : SubReg) (sym : String)
  | load (dst : SubReg) (src : Addr)
  | store (dst : Addr) (src : SubReg)
  | lea (dst : SubReg) (src : Addr)
  | alu (op : AluOp) (dst src : SubReg)
  | cmp (lhs rhs : SubReg)
  | cmpImm (lhs : SubReg) (imm : Int)
  /-- `imul` with one operand: the product of `rax` goes to `rdx:rax`. -/
  | imul (src : SubReg)
  | imulImm (dst : SubReg) (imm : Int)
  | idiv (src : SubReg)
  | setcc (cond : Condition) (dst : SubReg)
  | call (reg : Register)
  | jmp (label : Label)
  | je (label : Label)
  | jne (label : Label)
  | label (label : Label)
  | global (ident : String)
  | externDecl (ident : String)
  | pushRbp
  | popRbp
  | movRbpRsp
  | movRspRbp
  | subRsp (imm : Int)
  | ret
  deriving DecidableEq, Repr

/-- The lines of the data section. -/
inductive DataLine where
  | label (n : Nat)
  | db (contents : String)
  deriving DecidableEq, Repr

end Seron
