import Seron.Verify.Checks
import Seron.Verify.StackDiscipline

/-! # Procedure calls

The address of the callee is parked on the stack while the arguments are evaluated one after the
other, each being put into its register, or onto the stack, as soon as it is known. -/

namespace Seron

open Memory

/-- What the code of an expression of the type leaves in `rax`. -/
structure Operand where
  type : Ty
  rax : BitVec 64

/-- The value, which is in the register of the type: what is in `rax` beside it does not belong to
it. It is taken for a signed number where it is needed with more bits than it has. -/
def Operand.valueAt (v : Operand) (w : Width) : Option (BitVec w.bits) :=
  match subregister .rax v.type.kind with
  | .ok s => some ((v.rax.setWidth s.width.bits).signExtend w.bits)
  | .error _ => none

section
variable (E : Env) (tables : List Hashtable)

/-- Running the code of the arguments, from argument `i` on, takes one state to the other; the
list holds the arguments. -/
inductive ArgsEval (sig : ProcSignature) :
    Nat → List AstNode → Gen → Machine → List Operand → Machine → Prop
  | nil {i : Nat} {gen : Gen} {m : Machine} : ArgsEval sig i [] gen m [] m
  | cons {i : Nat} {arg : AstNode} {args : List AstNode} {gen gen₁ : Gen} {m m₁ m₂ m' : Machine}
    {k : TypeKind} {ty : Ty} {c : List Instr} {place : Instr} {values : List Operand} :
    sig.paramKind i = .ok k → emit tables arg gen = .ok (ty, c, gen₁) →
    run E c m = some m₁ → placeArg i k = .ok place → exec E place m₁ = some m₂ →
    ArgsEval sig (i + 1) args gen₁ m₂ values m' →
    ArgsEval sig i (arg :: args) gen m (⟨ty, m₁.reg .rax⟩ :: values) m'

/-- Running the code of a call up to the call instruction: the signature and the value of the
callee, the arguments, and the state in which the call instruction is reached. -/
inductive CallEval (callee : AstNode) (args : List AstNode) (gen : Gen) (m : Machine) :
    ProcSignature → BitVec 64 → List Operand → Machine → Prop
  | mk {sig : ProcSignature} {cc : List Instr} {gen₁ : Gen} {m₁ m₂ : Machine}
    {values : List Operand} :
    emit tables callee gen = .ok (.procedure sig, cc, gen₁) → run E cc m = some m₁ →
    ArgsEval E tables sig 0 args gen₁ (m₁.push (m₁.reg .rax)) values m₂ →
    CallEval callee args gen m sig (m₁.reg .rax) values (m₂.drop.setReg .rax m₂.top)

end

variable {E : Env} {tables : List Hashtable} {gen gen' : Gen} {ty : Ty} {m m' mc : Machine}
  {sig : ProcSignature} {op : Token} {callee : AstNode} {args : List AstNode}
  {before : List Instr} {f : BitVec 64} {values : List Operand}

theorem argsEval_of_run {i : Nat} {ca : List Instr}
    (hemit : callArgs sig i (emits tables args) gen = .ok ((), ca, gen'))
    (hrun : run E ca m = some m') : ∃ values, ArgsEval E tables sig i args gen m values m' := by
  induction args generalizing i ca gen m with
  | nil =>
    obtain ⟨-, rfl, -⟩ := Emit.pure_ok.mp hemit
    cases hrun
    exact ⟨[], .nil⟩
  | cons arg args ih =>
    obtain ⟨k, ty, c, gen₁, place, rest, hk, harg, hplace, hrest, rfl⟩ := callArgs_cons_ok hemit
    obtain ⟨m₁, h₁, h₂⟩ := run_append_eq_some.mp hrun
    obtain ⟨m₂, hexec, h₃⟩ := Option.bind_eq_some_iff.mp h₂
    obtain ⟨values, hvalues⟩ := ih hrest h₃
    exact ⟨_, .cons hk harg h₁ hplace hexec hvalues⟩

/-- The text of a call, cut in front of the call instruction. -/
theorem emit_call_ok
    (hemit : emit tables (.call op callee args) gen = .ok (ty, before ++ [.call .rax], gen')) :
    ∃ sig cc gen₁ ca, emit tables callee gen = .ok (.procedure sig, cc, gen₁) ∧
      callArgs sig 0 (emits tables args) gen₁ = .ok ((), ca, gen') ∧
      before = cc ++ .push .rax :: (ca ++ [.pop .rax]) := by
  rw [emit] at hemit
  obtain ⟨sig, cc, gen₁, ca, hc, ha, -, hcode⟩ := call_ok hemit
  refine ⟨sig, cc, gen₁, ca, hc, ha, ?_⟩
  exact List.append_cancel_right (hcode.trans (by simp))

theorem ArgsEval.length {i : Nat} (h : ArgsEval E tables sig i args gen m values m') :
    values.length = args.length := by
  induction h with
  | nil => rfl
  | cons _ _ _ _ _ _ ih => simp [ih]

theorem ArgsEval.unique {i : Nat} {values' : List Operand} {m₁ m₂ : Machine}
    (h₁ : ArgsEval E tables sig i args gen m values m₁)
    (h₂ : ArgsEval E tables sig i args gen m values' m₂) : values = values' ∧ m₁ = m₂ := by
  induction h₁ generalizing values' m₂ with
  | nil => cases h₂; exact ⟨rfl, rfl⟩
  | cons hparam harg hrun hplace hexec _ ih =>
    obtain _ | ⟨hparam', harg', hrun', hplace', hexec', hrest⟩ := h₂
    cases hparam.symm.trans hparam'
    cases harg.symm.trans harg'
    cases hrun.symm.trans hrun'
    cases hplace.symm.trans hplace'
    cases hexec.symm.trans hexec'
    obtain ⟨rfl, rfl⟩ := ih hrest
    exact ⟨rfl, rfl⟩

theorem CallEval.unique {sig' : ProcSignature} {f' : BitVec 64} {values' : List Operand}
    {mc' : Machine} (h₁ : CallEval E tables callee args gen m sig f values mc)
    (h₂ : CallEval E tables callee args gen m sig' f' values' mc') :
    sig = sig' ∧ f = f' ∧ values = values' ∧ mc = mc' := by
  obtain ⟨hc, hrun, hargs⟩ := h₁
  obtain ⟨hc', hrun', hargs'⟩ := h₂
  cases hc.symm.trans hc'
  cases hrun.symm.trans hrun'
  obtain ⟨rfl, rfl⟩ := hargs.unique hargs'
  exact ⟨rfl, rfl, rfl, rfl⟩

/-! ## Register arguments -/

/-- The register of argument `i` holds its value, at the width of the parameter. -/
def Placed (sig : ProcSignature) (m : Machine) (i : Nat) (v : Operand) : Prop :=
  ∃ param s, sig.params[i]? = some param ∧ abiRegisterStr (i + 1) param.type.kind = .ok (some s) ∧
    v.valueAt s.width = some (m.get s)

section
variable (E : Env) (tables : List Hashtable) (op : Token) (callee : AstNode) (args : List AstNode)
  (gen : Gen) (m : Machine)

/-- What is expected of a call: when its code reaches the call instruction, `rax` holds the value
of the callee, and the register of each argument the value of the argument. -/
def RegisterArgsSurvive : Prop :=
  ∀ ty before gen' mc,
    emit tables (.call op callee args) gen = .ok (ty, before ++ [.call .rax], gen') →
    run E before m = some mc →
    ∃ sig f values, CallEval E tables callee args gen m sig f values mc ∧ mc.reg .rax = f ∧
      ∀ i < args.length, ∃ v, values[i]? = some v ∧ Placed sig mc i v

/-- Every argument has the kind of its parameter. -/
def SameKinds : Prop :=
  ∀ sig (i : Nat) arg (param : Param) ty, check tables callee gen.scope = .ok (.procedure sig) →
    args[i]? = some arg → sig.params[i]? = some param → check tables arg gen.scope = .ok ty →
    ty.kind = param.type.kind

/-- While the arguments are evaluated, neither a store nor a called procedure changes the eight
bytes in which the address of the callee is parked. -/
def ParkedSpared : Prop :=
  ∀ sig cc gen₁ ca gen₂ m₁, emit tables callee gen = .ok (.procedure sig, cc, gen₁) →
    callArgs sig 0 (emits tables args) gen₁ = .ok ((), ca, gen₂) → run E cc m = some m₁ →
    ∀ a, m₁.rsp - 8 ≤ a → a < m₁.rsp → Spares E a ca (m₁.push (m₁.reg .rax))

end

theorem abiRegister_inj {i j : Nat} {r : Register} (hi : abiRegister (i + 1) = some r)
    (hj : abiRegister (j + 1) = some r) : i = j := by
  have hnodup : [Register.rdi, .rsi, .rdx, .rcx, .r8, .r9].Nodup := by decide
  exact (List.getElem?_inj (by simpa using (List.getElem?_eq_some_iff.mp hi).1) hnodup).mp
    (hi.trans hj.symm)

theorem abiRegister_ne_rax {i : Nat} {r : Register} (h : abiRegister i = some r) : r ≠ .rax := by
  rintro rfl
  have := List.mem_of_getElem? h
  simp at this

theorem subregister_of_str {i : Nat} {k : TypeKind} {s : SubReg}
    (h : abiRegisterStr i k = .ok (some s)) :
    ∃ r, abiRegister i = some r ∧ subregister r k = .ok s := by
  unfold abiRegisterStr at h
  cases hreg : abiRegister i with
  | none => simp [hreg] at h
  | some r =>
    rw [hreg] at h
    cases hsub : subregister r k with
    | error e => simp [hsub, Bind.bind, Except.bind] at h
    | ok s' =>
      simp only [hsub, Bind.bind, Except.bind, pure, Except.pure, Except.ok.injEq,
        Option.some.injEq] at h
      exact ⟨r, rfl, hsub.trans (congrArg _ h)⟩

theorem abiRegister_of_str {i : Nat} {k : TypeKind} {s : SubReg}
    (h : abiRegisterStr i k = .ok (some s)) : abiRegister i = some s.reg := by
  obtain ⟨r, hr, hsub⟩ := subregister_of_str h
  rw [hr, subregister_reg hsub]

/-- Putting an argument in place changes its own register only. -/
theorem exec_placeArg {i : Nat} {k : TypeKind} {place : Instr} (hi : i < 6)
    (hplace : placeArg i k = .ok place) (hexec : exec E place m = some m') :
    ∃ s, abiRegisterStr (i + 1) k = .ok (some s) ∧
      m'.get s = (m.reg .rax).setWidth s.width.bits ∧ ∀ r, r ≠ s.reg → m'.reg r = m.reg r := by
  cases hreg : abiRegister (i + 1) with
  | none =>
    have : 6 ≤ i := by simpa [abiRegister] using hreg
    omega
  | some r =>
    have hstr : abiRegisterStr (i + 1) k = (some ·) <$> subregister r k := by
      simp only [abiRegisterStr, hreg]
      rfl
    have placed {w : Width} (hmov : exec E (.mov ⟨r, w⟩ ⟨.rax, w⟩) m = some m') :
        m'.get ⟨r, w⟩ = (m.reg .rax).setWidth w.bits ∧ ∀ r', r' ≠ r → m'.reg r' = m.reg r' := by
      simp only [exec, if_true, Option.some.injEq] at hmov
      subst hmov
      exact ⟨Machine.get_set_self, fun r' hr => Machine.set_of_ne hr⟩
    rw [hstr]
    simp only [placeArg, hreg] at hplace
    cases k <;> cases hplace <;> exact ⟨_, rfl, placed hexec⟩

/-- The value of an argument at its own width is the part of `rax` that is put in place. -/
theorem Operand.valueAt_self {v : Operand} {s : SubReg} {r : Register}
    (h : subregister r v.type.kind = .ok s) :
    v.valueAt s.width = some (v.rax.setWidth s.width.bits) := by
  have hrax : subregister .rax v.type.kind = .ok ⟨.rax, s.width⟩ := by
    generalize v.type.kind = k at h
    cases k <;> cases h <;> rfl
  unfold valueAt
  rw [hrax]
  exact congrArg some (BitVec.signExtend_eq _)

/-- The first of the remaining arguments is placed, if it has the kind of its parameter and the
others leave its register alone. -/
theorem placed_cons {i : Nat} {m₁ m₂ : Machine} {param : Param} {place : Instr} (hi : i < 6)
    (hparam : sig.params[i]? = some param) (hkind : ty.kind = param.type.kind)
    (hplace : placeArg i param.type.kind = .ok place) (hexec : exec E place m₁ = some m₂)
    (hkeep : ∀ j < i + 1, ∀ r, abiRegister (j + 1) = some r → m'.reg r = m₂.reg r)
    (hplaced : ∀ k < args.length, ∃ v, values[k]? = some v ∧ Placed sig m' (i + 1 + k) v) :
    ∀ k < args.length + 1, ∃ v, (⟨ty, m₁.reg .rax⟩ :: values)[k]? = some v ∧
      Placed sig m' (i + k) v := by
  intro k hk
  cases k with
  | zero =>
    obtain ⟨s, hs, hval, -⟩ := exec_placeArg hi hplace hexec
    obtain ⟨r, hr, hsub⟩ := subregister_of_str hs
    refine ⟨_, rfl, param, s, hparam, hs, ?_⟩
    rw [Operand.valueAt_self (v := ⟨ty, m₁.reg .rax⟩) (hkind ▸ hsub), ← hval, Machine.get, Machine.get,
      hkeep i (by omega) s.reg (abiRegister_of_str hs)]
  | succ k =>
    obtain ⟨v, hv, hp⟩ := hplaced k (by omega)
    rw [show i + (k + 1) = i + 1 + k by omega]
    exact ⟨v, hv, hp⟩

/-- In front of the stack arguments, the kind of a parameter is read only where there is one. -/
theorem paramKind_ok {i : Nat} {k : TypeKind} (hi : i < 6) (h : sig.paramKind i = .ok k) :
    ∃ param, sig.params[i]? = some param ∧ param.type.kind = k := by
  unfold ProcSignature.paramKind at h
  split at h
  · rename_i param hparam
    exact ⟨param, hparam, Except.ok.inj h⟩
  · rw [if_neg (by omega)] at h
    cases h

/-- Arguments that write `rax` only leave the registers of the earlier ones alone. -/
theorem ArgsEval.placed {i : Nat} (h : ArgsEval E tables sig i args gen m values m')
    (hlen : i + args.length ≤ 6) (hargs : ∀ e ∈ args, Tidy true true e)
    (hkinds : ∀ (j : Nat) arg (param : Param) ty, args[j]? = some arg →
      sig.params[i + j]? = some param → check tables arg gen.scope = .ok ty →
      ty.kind = param.type.kind) :
    (∀ j < i, ∀ r, abiRegister (j + 1) = some r → m'.reg r = m.reg r) ∧
      ∀ k < args.length, ∃ v, values[k]? = some v ∧ Placed sig m' (i + k) v := by
  induction h with
  | nil => exact ⟨fun _ _ _ _ => rfl, by simp⟩
  | @cons i arg args gen gen₁ m m₁ m₂ m' k ty c place values hk harg hrun hplace hexec _ ih =>
    simp only [List.length_cons] at hlen
    obtain ⟨hcheck, hscope⟩ := emit_checked harg
    obtain ⟨hkeep, hplaced⟩ := ih (by omega) (fun e he => hargs e (by simp [he]))
      fun j arg' param ty' harg' hparam hty' => hkinds (j + 1) arg' param ty' harg'
        (by rwa [show i + (j + 1) = i + 1 + j by omega]) (hscope ▸ hty')
    obtain ⟨param, hparam, rfl⟩ := paramKind_ok (by omega) hk
    have hkind := hkinds 0 arg param ty rfl hparam hcheck
    refine ⟨fun j hj r hr => ?_, placed_cons (by omega) hparam hkind hplace hexec hkeep hplaced⟩
    obtain ⟨s, hs, -, hother⟩ := exec_placeArg (by omega) hplace hexec
    have hne : r ≠ s.reg := fun heq => by
      have := abiRegister_inj hr (heq ▸ abiRegister_of_str hs)
      omega
    have hkeeps := (emit_keeps (hargs arg (by simp))).1 harg m m₁ hrun
    exact (hkeep j (by omega) r hr).trans
      ((hother r hne).trans (hkeeps.reg r ⟨rfl, abiRegister_ne_rax hr⟩))

/-- The first argument may write any register: none is in use yet. -/
theorem ArgsEval.placed_zero (h : ArgsEval E tables sig 0 args gen m values m')
    (hlen : args.length ≤ 6) (hargs : ∀ e ∈ args.tail, Tidy true true e)
    (hkinds : ∀ (j : Nat) arg (param : Param) ty, args[j]? = some arg → sig.params[j]? = some param →
      check tables arg gen.scope = .ok ty → ty.kind = param.type.kind) :
    ∀ k < args.length, ∃ v, values[k]? = some v ∧ Placed sig m' k v := by
  cases h with
  | nil => simp
  | cons hk harg _ hplace hexec hrest =>
    simp only [List.length_cons] at hlen
    obtain ⟨hcheck, hscope⟩ := emit_checked harg
    obtain ⟨param, hparam, rfl⟩ := paramKind_ok (by omega) hk
    obtain ⟨hkeep, hplaced⟩ := hrest.placed (by omega) hargs
      fun j arg' param ty' harg' hparam hty' => hkinds (j + 1) arg' param ty' harg'
        (by rwa [Nat.add_comm j]) (hscope ▸ hty')
    have hkind := hkinds 0 _ param _ rfl hparam hcheck
    simpa using placed_cons (by omega) hparam hkind hplace hexec hkeep hplaced

theorem Tidy.mono {balanced : Bool} {e : AstNode} (h : Tidy balanced true e) :
    Tidy balanced false e := by
  induction h with
  | literal => exact .literal
  | grouping _ ih => exact .grouping ih
  | unaryop _ ih => exact .unaryop ih
  | array _ ih => exact .array ih
  | binop h _ _ _ _ | assign h _ _ _ _ | call h _ _ _ _ _ => cases h

/-- The address of the callee is still where it was parked. -/
theorem top_of_spared {m₁ m₂ : Machine} {ca : List Instr} {v : BitVec 64}
    (hca : Keeps E true (kept false) ca)
    (hrun : run E ca (m₁.push v) = some m₂)
    (hspare : ∀ a, m₁.rsp - 8 ≤ a → a < m₁.rsp → Spares E a ca (m₁.push v)) :
    m₂.top = v := by
  have hk := hca _ _ hrun
  refine .trans ?_ (Machine.top_push (m := m₁))
  simp only [Machine.top, hk.rsp_eq rfl]
  exact readBytes_congr fun a ha hlt =>
    hk.mem a ha (hspare a (by simpa using ha) (by simp at hlt; omega))

/-- Register arguments survive if they have the kinds of the parameters, no argument after the first
contains a binary operator, an assignment or a call, the first contains no call with stack
arguments, and the parked address is not written over. -/
theorem register_args_survive (hlen : args.length ≤ 6)
    (hkinds : SameKinds tables callee args gen)
    (hfirst : ∀ e ∈ args.head?, Tidy true false e) (hlater : ∀ e ∈ args.tail, Tidy true true e)
    (hspare : ParkedSpared E tables callee args gen m) :
    RegisterArgsSurvive E tables op callee args gen m := by
  intro ty before gen' mc hemit hrun
  obtain ⟨sig, cc, gen₁, ca, hc, ha, rfl⟩ := emit_call_ok hemit
  obtain ⟨m₁, h₁, h₂⟩ := run_append_eq_some.mp hrun
  obtain ⟨m₂, h₃, h₄⟩ := run_append_eq_some.mp h₂
  cases h₄
  obtain ⟨values, hvalues⟩ := argsEval_of_run ha h₃
  have htidy : ∀ e ∈ args, Tidy true false e := by
    cases args with
    | nil => simp
    | cons arg args =>
      rintro e (_ | ⟨_, he⟩)
      · exact hfirst _ rfl
      · exact (hlater e he).mono
  have hca := callArgs_keeps (E := E) (fun _ => by simpa using hlen)
    (fun e he => (emit_keeps (htidy e he)).1) ha
  refine ⟨sig, _, values, .mk hc h₁ hvalues, ?_, fun i hi => ?_⟩
  · rw [Machine.setReg_self]
    exact top_of_spared hca h₃ (hspare sig cc gen₁ ca gen' m₁ hc ha h₁)
  · obtain ⟨hcheck, hscope⟩ := emit_checked hc
    obtain ⟨v, hv, param, s, hparam, hs, hget⟩ := hvalues.placed_zero hlen hlater
      (fun j arg param ty harg hparam hty => hkinds sig j arg param ty hcheck harg hparam
        (hscope ▸ hty)) i hi
    refine ⟨v, hv, param, s, hparam, hs, ?_⟩
    rw [hget, Machine.get, Machine.get,
      Machine.setReg_of_ne (abiRegister_ne_rax (abiRegister_of_str hs)), Machine.drop_reg]

/-- A procedure that takes and returns values of type `int`. -/
def intProc (params : Nat) : ProcSignature :=
  { params := List.replicate params { type := .int, ident := "x" }, returntype := .int }

/-- A scope that declares it under the name `f`. -/
def scopeOfProc (params : Nat) : List Hashtable :=
  [{ buckets := [[⟨['f'], { kind := .procedure, type := .procedure (intProc params) }⟩]]
     parent := none }]

def Machine.zero : Machine :=
  { reg := fun _ => 0, rsp := 0, rbp := 0, mem := fun _ => 0, flags := none }

def numNode (n : BitVec 64) : AstNode := .literal (.num n) .number

/-- `f(1, 2 + 3)` passes 3 as its first argument. -/
theorem register_args_lost :
    ¬RegisterArgsSurvive .returning (scopeOfProc 2) .eof (.literal (.ident "f") .ident)
      [numNode 1, .binop (numNode 2) (numNode 3) .eof .add] { scope := some 0 } .zero := by
  intro h
  let before : List Instr :=
    [.movSym ⟨.rax, .w64⟩ "f", .push .rax, .movImm ⟨.rax, .w32⟩ 1, .mov ⟨.rdi, .w32⟩ ⟨.rax, .w32⟩,
      .movImm ⟨.rax, .w32⟩ 3, .push .rax, .movImm ⟨.rax, .w32⟩ 2, .pop .rdi,
      .alu .add ⟨.rax, .w32⟩ ⟨.rdi, .w32⟩, .mov ⟨.rsi, .w32⟩ ⟨.rax, .w32⟩, .pop .rax]
  have hemit : emit (scopeOfProc 2) (.call .eof (.literal (.ident "f") .ident)
      [numNode 1, .binop (numNode 2) (numNode 3) .eof .add]) { scope := some 0 } =
      .ok (.int, before ++ [.call .rax], { scope := some 0 }) := rfl
  obtain ⟨sig, f, values, heval, -, hargs⟩ := h _ before _ _ hemit rfl
  have heval' : CallEval .returning (scopeOfProc 2) (.literal (.ident "f") .ident)
      [numNode 1, .binop (numNode 2) (numNode 3) .eof .add] { scope := some 0 } .zero _ _ _ _ :=
    .mk rfl rfl (.cons rfl rfl rfl rfl rfl (.cons rfl rfl rfl rfl rfl .nil))
  obtain ⟨rfl, rfl, rfl, -⟩ := heval.unique heval'
  obtain ⟨v, hv, param, s, hparam, hs, hget⟩ := hargs 0 (by decide)
  cases hv
  cases hparam
  cases hs
  revert hget
  decide +kernel

/-- `f(2 + 3, 7)` -/
theorem register_args_survive_first :
    RegisterArgsSurvive .returning (scopeOfProc 2) .eof (.literal (.ident "f") .ident)
      [.binop (numNode 2) (numNode 3) .eof .add, numNode 7] { scope := some 0 } .zero := by
  refine register_args_survive (by decide) ?_ ?_ ?_ ?_
  · intro sig i arg param ty hcallee harg hparam hty
    have hf : check (scopeOfProc 2) (.literal (.ident "f") .ident) (some 0) =
        .ok (.procedure (intProc 2)) := rfl
    cases hf.symm.trans hcallee
    rcases i with _ | _ | i
    · cases harg
      cases hparam
      cases hty
      rfl
    · cases harg
      cases hparam
      cases hty
      rfl
    · cases harg
  · rintro e ⟨⟩
    exact .binop rfl .literal .literal
  · rintro e (_ | ⟨_, ⟨⟩⟩)
    exact .literal
  · intro sig cc gen₁ ca gen₂ m₁ hc ha _ a _ _
    have hf : emit (scopeOfProc 2) (.literal (.ident "f") .ident) { scope := some 0 } =
        .ok (_, [.movSym ⟨.rax, .w64⟩ "f"], { scope := some 0 }) := rfl
    cases hf.symm.trans hc
    have hcode : callArgs (intProc 2) 0 (emits (scopeOfProc 2)
        [.binop (numNode 2) (numNode 3) .eof .add, numNode 7]) { scope := some 0 } =
        .ok ((), [.movImm ⟨.rax, .w32⟩ 3, .push .rax, .movImm ⟨.rax, .w32⟩ 2, .pop .rdi,
          .alu .add ⟨.rax, .w32⟩ ⟨.rdi, .w32⟩, .mov ⟨.rdi, .w32⟩ ⟨.rax, .w32⟩,
          .movImm ⟨.rax, .w32⟩ 7, .mov ⟨.rsi, .w32⟩ ⟨.rax, .w32⟩], { scope := some 0 }) := rfl
    cases hcode.symm.trans ha
    simp [Spares]

/-! ## Stack arguments -/

section
variable (E : Env) (tables : List Hashtable) (op : Token) (callee : AstNode) (args : List AstNode)
  (gen : Gen) (m : Machine)

/-- What is expected of a call with stack arguments, reached in `mc` and back in `m'`: the callee
is called, the prologue finds each argument where it looks for it (its frame pointer is 16 below the
stack pointer at the call instruction), and the stack pointer is restored. -/
def StackArgsAgree (sig : ProcSignature) (f : BitVec 64) (values : List Operand)
    (m mc m' : Machine) : Prop :=
  mc.reg .rax = f ∧
    (∀ (k : Nat) param s v, sig.params[6 + k]? = some param →
      subregister .rax param.type.kind = .ok s → values[6 + k]? = some v →
      (v.valueAt s.width).map (·.setWidth 64) =
        some (readBytes mc.mem (mc.rsp - 16 + (16 + 8 * k)) s.width.bytes)) ∧
    m'.rsp = m.rsp

/-- The same, of every run of the code of a call. -/
def StackArgsDelivered : Prop :=
  ∀ ty before gen' mc m',
    emit tables (.call op callee args) gen = .ok (ty, before ++ [.call .rax], gen') →
    run E before m = some mc → exec E (.call .rax) mc = some m' →
    ∃ sig f values, CallEval E tables callee args gen m sig f values mc ∧
      StackArgsAgree sig f values m mc m'

end

/-- The arguments from the seventh on are pushed; the last one ends up on top. -/
theorem ArgsEval.stack {i : Nat} (h : ArgsEval E tables sig i args gen m values m')
    (hargs : ∀ e ∈ args, Tidy true true e) :
    m'.rsp = m.rsp - 8 * ((i + args.length - max 6 i : Nat) : Int) ∧
      ∀ v, values.getLast? = some v → 6 < i + args.length → m'.top = v.rax := by
  induction h with
  | nil => simp
  | @cons i arg args gen gen₁ m m₁ m₂ m' k ty c place values _ harg hrun hplace hexec hrest ih =>
    obtain ⟨hrsp, htop⟩ := ih fun e he => hargs e (by simp [he])
    have hk := ((emit_keeps (hargs arg (by simp))).1 harg m m₁ hrun).rsp_eq rfl
    simp only [List.length_cons]
    rcases placeArg_cases hplace with ⟨hi, rfl⟩ | ⟨r, w, w', hreg, rfl⟩
    · cases hexec
      refine ⟨?_, fun v hv hlt => ?_⟩
      · rw [hrsp, Machine.push_rsp, hk]
        omega
      · cases hrest with
        | nil =>
          cases hv
          exact Machine.top_push
        | cons => exact htop v (by simpa using hv) (by omega)
    · have hi : i < 6 := by simpa using (List.getElem?_eq_some_iff.mp hreg).1
      obtain ⟨hrsp', -⟩ := exec_of_writes rfl hexec
      refine ⟨?_, fun v hv hlt => ?_⟩
      · rw [hrsp, hrsp', hk]
        omega
      · cases hrest with
        | nil => simp at hlt; omega
        | cons => exact htop v (by simpa using hv) (by omega)

/-- With stack arguments, the last one is called instead of the callee, and the stack pointer ends
up lower than it was: caller and callee never agree. -/
theorem stack_args_disagree {before : List Instr} (hcallee : Tidy false false callee)
    (hargs : ∀ e ∈ args, ∃ op kind, e = .literal op kind) (hlen : 6 < args.length)
    (hemit : emit tables (.call op callee args) gen = .ok (ty, before ++ [.call .rax], gen'))
    (hrun : run E before m = some mc) (hret : exec E (.call .rax) mc = some m') :
    ∃ sig f values, CallEval E tables callee args gen m sig f values mc ∧
      values.getLast?.map Operand.rax = some (mc.reg .rax) ∧
        m'.rsp ≤ m.rsp - 8 * (args.length - 6 : Nat) ∧
      ¬StackArgsAgree sig f values m mc m' := by
  obtain ⟨sig, cc, gen₁, ca, hc, ha, rfl⟩ := emit_call_ok hemit
  obtain ⟨m₁, h₁, h₂⟩ := run_append_eq_some.mp hrun
  obtain ⟨m₂, h₃, h₄⟩ := run_append_eq_some.mp h₂
  cases h₄
  obtain ⟨values, hvalues⟩ := argsEval_of_run ha h₃
  have htidy : ∀ e ∈ args, Tidy true true e := fun e he => by
    obtain ⟨op, kind, rfl⟩ := hargs e he
    exact .literal
  obtain ⟨hrsp, htop⟩ := hvalues.stack htidy
  have hle := ((emit_keeps hcallee).1 hc m m₁ h₁).rsp_le
  have hcall := E.call_rsp hret
  have hlow : m'.rsp ≤ m.rsp - 8 * (args.length - 6 : Nat) := by
    simp at hrsp hcall
    omega
  refine ⟨sig, _, values, .mk hc h₁ hvalues, ?_, hlow, fun hagree => ?_⟩
  · cases hlast : values.getLast? with
    | none =>
      have hnil := List.getLast?_eq_none_iff.mp hlast
      have hlength := hvalues.length
      simp only [hnil, List.length_nil] at hlength
      omega
    | some v => rw [Machine.setReg_self, htop v hlast (by omega), Option.map_some]
  · have := hagree.2.2
    omega

/-- The code of `f(1, 2, 3, 4, 5, 6, 7)` up to the call instruction. -/
def callOfSeven : List Instr :=
  [.movSym ⟨.rax, .w64⟩ "f", .push .rax,
    .movImm ⟨.rax, .w32⟩ 1, .mov ⟨.rdi, .w32⟩ ⟨.rax, .w32⟩,
    .movImm ⟨.rax, .w32⟩ 2, .mov ⟨.rsi, .w32⟩ ⟨.rax, .w32⟩,
    .movImm ⟨.rax, .w32⟩ 3, .mov ⟨.rdx, .w32⟩ ⟨.rax, .w32⟩,
    .movImm ⟨.rax, .w32⟩ 4, .mov ⟨.rcx, .w32⟩ ⟨.rax, .w32⟩,
    .movImm ⟨.rax, .w32⟩ 5, .mov ⟨.r8, .w32⟩ ⟨.rax, .w32⟩,
    .movImm ⟨.rax, .w32⟩ 6, .mov ⟨.r9, .w32⟩ ⟨.rax, .w32⟩,
    .movImm ⟨.rax, .w32⟩ 7, .push .rax, .pop .rax]

theorem emit_callOfSeven :
    emit (scopeOfProc 7) (.call .eof (.literal (.ident "f") .ident)
      ([1, 2, 3, 4, 5, 6, 7].map numNode)) { scope := some 0 } =
    .ok (.int, callOfSeven ++ [.call .rax], { scope := some 0 }) := rfl

/-- The stack pointer ends up at -8, where it was 0. -/
theorem stack_args_lost :
    ¬StackArgsDelivered .returning (scopeOfProc 7) .eof (.literal (.ident "f") .ident)
      ([1, 2, 3, 4, 5, 6, 7].map numNode) { scope := some 0 } .zero := by
  intro h
  obtain ⟨sig, f, values, -, -, -, hrsp⟩ := h _ _ _ _ _ emit_callOfSeven rfl rfl
  revert hrsp
  decide +kernel

/-- The call of `f` with seven arguments calls address 7. -/
theorem stack_args_disagree_seven :
    ∃ mc m' : Machine, mc.reg .rax = 7 ∧ ∃ sig f values,
      CallEval .returning (scopeOfProc 7) (.literal (.ident "f") .ident)
        ([1, 2, 3, 4, 5, 6, 7].map numNode) { scope := some 0 } .zero sig f values mc ∧
      values.getLast?.map Operand.rax = some (mc.reg .rax) ∧ m'.rsp ≤ (0 : Int) - 8 * (7 - 6 : Nat) ∧
      ¬StackArgsAgree sig f values .zero mc m' :=
  ⟨_, _, by decide +kernel, stack_args_disagree .literal (by simp [numNode]) (by decide)
    emit_callOfSeven rfl rfl⟩

end Seron
