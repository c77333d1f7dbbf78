import Seron.Codegen.Instr
import Seron.Theory.Memory
import Mathlib.Logic.Function.Basic

/-! # The target machine

The part of x86-64 the compiler uses. The general registers hold 64-bit words; `rsp` and `rbp`
are ideal addresses, so that the stack has no lower end. An instruction that cannot be encoded
or that faults has no successor state, and so has a jump: it is no straight-line code. -/

namespace Seron

open Memory

structure Flags where
  zero : Bool
  sign : Bool
  overflow : Bool
  deriving DecidableEq, Repr

/-- The flags are `none` where this model does not follow what an instruction does to them. -/
structure Machine where
  reg : Register → BitVec 64
  rsp : Int
  rbp : Int
  mem : Int → BitVec 8
  flags : Option Flags

namespace Machine

def get (m : Machine) (r : SubReg) : BitVec r.width.bits := (m.reg r.reg).setWidth _

/-- A 32-bit result clears the upper half of the register, an 8-bit one leaves the rest. -/
def merge (w : Width) (old v : BitVec 64) : BitVec 64 :=
  match w with
  | .w8 => ((old >>> 8) <<< 8) ||| (v.setWidth 8).setWidth 64
  | .w32 => (v.setWidth 32).setWidth 64
  | .w64 => v

def setReg (m : Machine) (r : Register) (v : BitVec 64) : Machine :=
  { m with reg := Function.update m.reg r v }

def set {n : Nat} (m : Machine) (r : SubReg) (v : BitVec n) : Machine :=
  m.setReg r.reg (merge r.width (m.reg r.reg) (v.setWidth 64))

def push (m : Machine) (v : BitVec 64) : Machine :=
  { m with rsp := m.rsp - 8, mem := writeBytes m.mem (m.rsp - 8) 8 v }

/-- The quadword on top of the stack. -/
def top (m : Machine) : BitVec 64 := readBytes m.mem m.rsp 8

def drop (m : Machine) : Machine := { m with rsp := m.rsp + 8 }

def unflagged (m : Machine) : Machine := { m with flags := none }

end Machine

def Addr.eval (m : Machine) : Addr → Int
  | .rbp disp => m.rbp + disp
  | .reg r => (m.reg r).toNat

def AluOp.eval {n : Nat} : AluOp → BitVec n → BitVec n → BitVec n
  | .add, a, b => a + b
  | .sub, a, b => a - b
  | .and, a, b => a &&& b
  | .or, a, b => a ||| b

/-- The flags after `cmp a, b`. -/
def Flags.ofCmp {n : Nat} (a b : BitVec n) : Flags where
  zero := a - b == 0
  sign := (a - b).msb
  overflow := a.msb != b.msb && (a - b).msb != a.msb

def Condition.holds (f : Flags) : Condition → Bool
  | .e => f.zero
  | .ne => !f.zero
  | .g => !f.zero && f.sign == f.overflow
  | .ge => f.sign == f.overflow
  | .l => f.sign != f.overflow
  | .le => f.zero || f.sign != f.overflow

/-- One-operand `imul`: the 8-bit form leaves its product in `ax`. -/
def Machine.imul (m : Machine) (src : SubReg) : Machine :=
  let a := (m.get ⟨.rax, src.width⟩).toInt
  let p := a * (m.get src).toInt
  match src.width with
  | .w8 =>
    m.setReg .rax (((m.reg .rax >>> 16) <<< 16) ||| (BitVec.ofInt 16 p).setWidth 64)
  | w =>
    (m.set ⟨.rax, w⟩ (BitVec.ofInt w.bits p)).set ⟨.rdx, w⟩ (BitVec.ofInt w.bits (p >>> w.bits))

/-- `idiv` divides `rdx:rax` (`ax` for a byte) and faults if the quotient does not fit. -/
def Machine.idiv (m : Machine) (src : SubReg) : Option Machine :=
  let b := (m.get src).toInt
  let w := src.width
  let a :=
    match w with
    | .w8 => ((m.reg .rax).setWidth 16).toInt
    | _ => (m.get ⟨.rdx, w⟩ ++ m.get ⟨.rax, w⟩).toInt
  let q := Int.tdiv a b
  if b = 0 ∨ (BitVec.ofInt w.bits q).toInt ≠ q then none
  else
    match w with
    | .w8 =>
      let ax := BitVec.ofInt 8 (Int.tmod a b) ++ BitVec.ofInt 8 q
      some (m.setReg .rax (((m.reg .rax >>> 16) <<< 16) ||| ax.setWidth 64))
    | w =>
      some ((m.set ⟨.rax, w⟩ (BitVec.ofInt w.bits q)).set ⟨.rdx, w⟩
        (BitVec.ofInt w.bits (Int.tmod a b)))

/-- What lies around the code: the addresses of its symbols, and what a procedure does from its
call to its return. Whatever the procedure is, its `ret` and its epilogue restore the stack. -/
structure Env where
  symbol : String → BitVec 64
  call : BitVec 64 → Machine → Option Machine
  call_rsp : ∀ {f m m'}, call f m = some m' → m'.rsp = m.rsp
  call_rbp : ∀ {f m m'}, call f m = some m' → m'.rbp = m.rbp

/-- An environment in which each procedure returns at once. -/
def Env.returning : Env where
  symbol _ := 0
  call _ m := some m
  call_rsp h := by cases h; rfl
  call_rbp h := by cases h; rfl

/-- One instruction of straight-line code. -/
def exec (E : Env) : Instr → Machine → Option Machine
  | .push r, m => some (m.push (m.reg r))
  | .pop r, m => some (m.drop.setReg r m.top)
  | .mov dst src, m => if dst.width = src.width then some (m.set dst (m.get src)) else none
  | .movImm dst imm, m => some (m.set dst (BitVec.ofInt 64 imm))
  | .movSym dst sym, m => some (m.set dst (E.symbol sym))
  | .load dst src, m => some (m.set dst (readBytes m.mem (src.eval m) dst.width.bytes))
  | .store dst src, m =>
    some { m with mem := writeBytes m.mem (dst.eval m) src.width.bytes (m.reg src.reg) }
  | .lea dst src, m => some (m.set dst (BitVec.ofInt 64 (src.eval m)))
  | .alu op dst src, m =>
    if dst.width = src.width then
      some (m.set dst (op.eval (m.get dst) (m.get ⟨src.reg, dst.width⟩))).unflagged
    else none
  | .cmp lhs rhs, m =>
    if lhs.width = rhs.width then
      some { m with flags := some (.ofCmp (m.get lhs) (m.get ⟨rhs.reg, lhs.width⟩)) }
    else none
  | .cmpImm lhs imm, m => some { m with flags := some (.ofCmp (m.get lhs) (BitVec.ofInt _ imm)) }
  | .imul src, m => some (m.imul src).unflagged
  | .imulImm dst imm, m =>
    if dst.width = .w8 then none
    else some (m.set dst (m.get dst * BitVec.ofInt _ imm)).unflagged
  | .idiv src, m => (m.idiv src).map (·.unflagged)
  | .setcc cond dst, m =>
    if dst.width = .w8 then
      m.flags.map fun f => m.set dst (if cond.holds f then 1#8 else 0#8)
    else none
  | .call r, m => E.call (m.reg r) m
  | .label _, m | .global _, m | .externDecl _, m => some m
  | .pushRbp, m => some (m.push (BitVec.ofInt 64 m.rbp))
  | .popRbp, m => some { m.drop with rbp := m.top.toNat }
  | .movRbpRsp, m => some { m with rbp := m.rsp }
  | .movRspRbp, m => some { m with rsp := m.rbp }
  | .subRsp imm, m => some ({ m with rsp := m.rsp - imm }).unflagged
  | .jmp _, _ | .je _, _ | .jne _, _ | .ret, _ => none

/-- Runs straight-line code from its first to its last instruction. -/
def run (E : Env) : List Instr → Machine → Option Machine
  | [], m => some m
  | i :: is, m => (exec E i m).bind (run E is)

variable {E : Env} {c c' : List Instr} {m m' : Machine}

theorem run_append : run E (c ++ c') m = (run E c m).bind (run E c') := by
  induction c generalizing m with
  | nil => rfl
  | cons i c ih =>
    simp only [List.cons_append, run]
    cases exec E i m with
    | none => rfl
    | some m₁ => exact ih

theorem run_append_some (h : run E c m = some m') : run E (c ++ c') m = run E c' m' := by
  rw [run_append, h]; rfl

theorem run_append_eq_some {m'' : Machine} :
    run E (c ++ c') m = some m'' ↔ ∃ m', run E c m = some m' ∧ run E c' m' = some m'' := by
  rw [run_append, Option.bind_eq_some_iff]

@[simp] theorem run_nil : run E [] m = some m := rfl

@[simp] theorem run_cons (i : Instr) : run E (i :: c) m = (exec E i m).bind (run E c) := rfl

/-! ## Registers and memory after an update -/

namespace Machine

variable {r r' : Register} {w : Width} {v : BitVec 64}

@[simp] theorem setReg_rsp : (m.setReg r v).rsp = m.rsp := rfl
@[simp] theorem setReg_rbp : (m.setReg r v).rbp = m.rbp := rfl
@[simp] theorem setReg_mem : (m.setReg r v).mem = m.mem := rfl
@[simp] theorem setReg_self : (m.setReg r v).reg r = v := by simp [setReg]

theorem setReg_of_ne (h : r' ≠ r) : (m.setReg r v).reg r' = m.reg r' := by simp [setReg, h]

variable {n : Nat} {s : SubReg} {x : BitVec n}

@[simp] theorem set_rsp : (m.set s x).rsp = m.rsp := rfl
@[simp] theorem set_rbp : (m.set s x).rbp = m.rbp := rfl
@[simp] theorem set_mem : (m.set s x).mem = m.mem := rfl

theorem set_of_ne (h : r ≠ s.reg) : (m.set s x).reg r = m.reg r := setReg_of_ne h

@[simp] theorem push_rsp : (m.push v).rsp = m.rsp - 8 := rfl
@[simp] theorem push_rbp : (m.push v).rbp = m.rbp := rfl
@[simp] theorem push_reg : (m.push v).reg = m.reg := rfl
@[simp] theorem drop_rsp : m.drop.rsp = m.rsp + 8 := rfl
@[simp] theorem drop_rbp : m.drop.rbp = m.rbp := rfl
@[simp] theorem drop_reg : m.drop.reg = m.reg := rfl
@[simp] theorem drop_mem : m.drop.mem = m.mem := rfl
@[simp] theorem unflagged_rsp : m.unflagged.rsp = m.rsp := rfl
@[simp] theorem unflagged_rbp : m.unflagged.rbp = m.rbp := rfl
@[simp] theorem unflagged_reg : m.unflagged.reg = m.reg := rfl
@[simp] theorem unflagged_mem : m.unflagged.mem = m.mem := rfl

/-- A push leaves the cells above the stack pointer alone. -/
theorem push_mem {a : Int} (h : m.rsp ≤ a) : (m.push v).mem a = m.mem a :=
  writeBytes_outside (by omega)

@[simp] theorem top_push : (m.push v).top = v := by
  simp [top, push, readBytes_writeBytes]

/-- The low part of a merged word is the value at every width. -/
theorem setWidth_merge (old : BitVec 64) :
    (merge w old v).setWidth w.bits = v.setWidth w.bits := by
  cases w
  · apply BitVec.eq_of_getLsbD_eq
    intro i hi
    have hi : i < 8 := hi
    simp [merge, Width.bits, hi]
  · simp [merge, Width.bits]
  · simp [merge, Width.bits]

/-- Reading a register back at the width at which it was written. -/
theorem get_set : (m.set ⟨r, w⟩ x).get ⟨r, w⟩ = (x.setWidth 64).setWidth w.bits := by
  simp only [get, set, setReg_self, setWidth_merge]

theorem get_set_self {x : BitVec w.bits} : (m.set ⟨r, w⟩ x).get ⟨r, w⟩ = x := by
  rw [get_set]
  exact (BitVec.setWidth_setWidth_of_le _ w.bits_le).trans (BitVec.setWidth_eq _)

theorem get_unflagged (s : SubReg) : m.unflagged.get s = m.get s := rfl

theorem get_set_of_ne {s' : SubReg} (h : s'.reg ≠ s.reg) : (m.set s x).get s' = m.get s' := by
  simp only [get, set_of_ne h]

end Machine

end Seron
