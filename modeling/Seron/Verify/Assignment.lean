import Seron.Verify.AccessWidth
import Seron.Verify.Calls

/-! # Types at assignments

`emit_addr` returns a pointer for every target, and `assign` compares it with the value as if it
were the type of the object. The address is parked on the stack while the value is evaluated. -/

namespace Seron

open Memory

variable {E : Env} {tables : List Hashtable} {scope : Option Nat} {node value target : AstNode}
  {op : Token} {object tv ty : Ty} {gen gen' gen₁ : Gen} {m m' m₁ m₂ : Machine} {addr v : BitVec 64}

/-- The target of an assignment is an object of this type: a variable, a parameter, or what a
pointer points to. -/
inductive Designates (tables : List Hashtable) (scope : Option Nat) : AstNode → Ty → Prop
  | ident {op : Token} {sym : Symbol} :
    symboltableLookup tables scope op.value = .ok (some sym) →
    sym.kind = .variable ∨ sym.kind = .parameter →
      Designates tables scope (.literal op .ident) sym.type
  | deref {node : AstNode} {op : Token} {ty : Ty} :
    check tables node scope = .ok (.pointer (some ty)) →
    Designates tables scope (.unaryop node op .deref) ty

section
variable (E : Env) (tables : List Hashtable)

/-- Finding out the address of a target takes one state to the other: a variable or a parameter has
its place in the frame, and what a pointer points to is where the value of the pointer says. -/
inductive AddressEval : AstNode → Gen → Machine → BitVec 64 → Gen → Machine → Prop
  | ident {op : Token} {sym : Symbol} {gen : Gen} {m : Machine} :
    symboltableLookup tables gen.scope op.value = .ok (some sym) →
    sym.kind = .variable ∨ sym.kind = .parameter →
    AddressEval (.literal op .ident) gen m (.ofInt 64 (m.rbp - sym.offset)) gen
      (m.setReg .rax (.ofInt 64 (m.rbp - sym.offset)))
  | deref {node : AstNode} {op : Token} {ty : Ty} {c : List Instr} {gen gen₁ : Gen}
    {m m₁ : Machine} : emit tables node gen = .ok (ty, c, gen₁) → run E c m = some m₁ →
    AddressEval (.unaryop node op .deref) gen m (m₁.reg .rax) gen₁ m₁

/-- Running the code of an assignment up to where the value is known: the address of the target, the
value, and the state. The address was pushed in between. -/
inductive AssignEval (value target : AstNode) (gen : Gen) (m : Machine) :
    BitVec 64 → BitVec 64 → Machine → Prop
  | mk {addr : BitVec 64} {gen₁ gen₂ : Gen} {m₁ m₂ : Machine} {ty : Ty} {cv : List Instr} :
    AddressEval E tables target gen m addr gen₁ m₁ → emit tables value gen₁ = .ok (ty, cv, gen₂) →
    run E cv (m₁.push addr) = some m₂ → AssignEval value target gen m addr (m₂.reg .rax) m₂

variable (value target : AstNode) (gen : Gen) (m : Machine)

/-- When the value is known, the address of the target is on top of the stack. -/
def AddressKept : Prop :=
  ∀ addr v m₂, AssignEval E tables value target gen m addr v m₂ → m₂.top = addr

/-- While the value is evaluated, neither a store nor a called procedure changes the eight bytes in
which the address is parked. -/
def AddressSpared : Prop :=
  ∀ addr gen₁ m₁ ty cv gen₂, AddressEval E tables target gen m addr gen₁ m₁ →
    emit tables value gen₁ = .ok (ty, cv, gen₂) →
    ∀ a, m₁.rsp - 8 ≤ a → a < m₁.rsp → Spares E a cv (m₁.push addr)

/-- An assignment is accepted iff value and object are of one kind. Then the value's type is that of
the assignment, and when its code runs, the value is stored at the address of the target, as many
bytes of it as the object has. -/
structure AssignChecked (op : Token) (object tv : Ty) : Prop where
  accepted_iff :
    (∃ r, emit tables (.assign op value target) gen = .ok r) ↔ tv.kind = object.kind
  yields {ty : Ty} {text : List Instr} {gen' : Gen} :
    emit tables (.assign op value target) gen = .ok (ty, text, gen') → ty = tv
  stores {ty : Ty} {text : List Instr} {gen' : Gen} {m' : Machine} :
    emit tables (.assign op value target) gen = .ok (ty, text, gen') → run E text m = some m' →
    ∃ before dst src mₛ addr v m₂, text = before ++ [.store dst src] ∧ run E before m = some mₛ ∧
      AssignEval E tables value target gen m addr v m₂ ∧ dst.eval mₛ = (addr.toNat : Int) ∧
      mₛ.reg src.reg = v ∧ typePrimitiveSize object.kind = .ok src.width.bytes ∧
      m'.mem = writeBytes m₂.mem addr.toNat src.width.bytes v

end

/-- A node is emitted iff it passes its check. -/
theorem emit_ok_iff {gen : Gen} :
    (∃ r, emit tables node gen = .ok r) ↔ ∃ ty, check tables node gen.scope = .ok ty := by
  have hagrees := (@check_agrees _ tables node).1 gen
  cases hemit : emit tables node gen with
  | error e =>
    rw [hemit] at hagrees
    rw [hagrees]
    exact iff_of_false nofun nofun
  | ok r =>
    rw [hemit] at hagrees
    exact iff_of_true ⟨r, rfl⟩ ⟨_, hagrees.1⟩

theorem emit_type {gen gen' : Gen} {ty : Ty} {text : List Instr}
    (h : emit tables node gen = .ok (ty, text, gen')) (hcheck : check tables node gen.scope = .ok tv) :
    ty = tv :=
  Except.ok.inj ((emit_checked h).1.symm.trans hcheck)

/-- The address of an object is a pointer to it. -/
theorem Designates.checkAddr_ok (h : Designates tables scope target object) :
    checkAddr tables target scope = .ok (.pointer (some object)) := by
  cases h with
  | ident hlookup hkind =>
    rename_i op sym
    rw [checkAddr, Check.literalAddr, Check.literalIdent]
    refine Check.bind_ok.mpr ⟨scope, rfl, Check.bind_ok.mpr ⟨some sym, hlookup, ?_⟩⟩
    rcases hkind with hkind | hkind <;> simp only [hkind] <;> rfl
  | deref hnode => exact hnode

/-- The value of an assignment is compared with the address of the object. -/
theorem check_assign_ok (htarget : Designates tables scope target object)
    (hvalue : check tables value scope = .ok tv) :
    (∃ ty, check tables (.assign op value target) scope = .ok ty) ↔ tv.kind = .pointer := by
  rw [check, Check.assign]
  constructor
  · intro h
    obtain ⟨ty, h⟩ := h
    obtain ⟨ta, htarget', h⟩ := Check.bind_ok.mp h
    obtain ⟨tv', hvalue', h⟩ := Check.bind_ok.mp h
    rw [htarget.checkAddr_ok] at htarget'
    rw [hvalue] at hvalue'
    cases htarget'
    cases hvalue'
    split at h
    · exact (Check.mismatch_ok.mp h).elim
    · rename_i hkind
      exact (not_not.mp hkind).symm
  · intro hkind
    refine ⟨tv, Check.bind_ok.mpr ⟨_, htarget.checkAddr_ok, Check.bind_ok.mpr ⟨tv, hvalue, ?_⟩⟩⟩
    have hequal : ¬ (Ty.pointer (some object)).kind ≠ tv.kind := not_not.mpr hkind.symm
    rw [if_neg hequal]
    exact Check.bind_ok.mpr ⟨(), Check.sized_ok.mpr ⟨8, by rw [hkind]; rfl⟩, rfl⟩

/-! ## The run -/

/-- The code for the address leaves it in `rax`. -/
theorem addressEval_iff {ta : Ty} {ca : List Instr}
    (htarget : Designates tables gen.scope target object)
    (h : emitAddr tables target gen = .ok (ta, ca, gen₁)) :
    AddressEval E tables target gen m addr gen' m₁ ↔
      gen' = gen₁ ∧ run E ca m = some m₁ ∧ addr = m₁.reg .rax := by
  cases htarget with
  | @ident op sym hlookup hkind =>
    rw [emitAddr, literalAddr] at h
    obtain ⟨rfl, sym', hlookup', hcases⟩ := literalIdent_ok.mp h
    cases hlookup'.symm.trans hlookup
    rcases hcases with ⟨-, -, -, rfl⟩ | ⟨-, hfalse, -⟩ | ⟨hproc, -⟩
    · have hlea : run E [.lea ⟨.rax, .w64⟩ (.rbp (-sym.offset))] m =
          some (m.setReg .rax (.ofInt 64 (m.rbp - sym.offset))) := by
        simp [exec, Addr.eval, Machine.set, Machine.merge, sub_eq_add_neg]
      rw [hlea, Option.some.injEq]
      constructor
      · intro h
        cases h with
        | ident hlookup' _ =>
          cases hlookup.symm.trans hlookup'
          exact ⟨rfl, rfl, by simp⟩
      · rintro ⟨rfl, rfl, rfl⟩
        rw [Machine.setReg_self]
        exact .ident hlookup hkind
    · cases hfalse
    · simp [hproc] at hkind
  | deref =>
    rw [emitAddr] at h
    constructor
    · intro heval
      cases heval with
      | deref hnode hrun =>
        cases hnode.symm.trans h
        exact ⟨rfl, hrun, rfl⟩
    · rintro ⟨rfl, hrun, rfl⟩
      exact .deref h hrun

theorem AddressEval.unique {addr' : BitVec 64} {m₁' : Machine}
    (h : AddressEval E tables target gen m addr gen₁ m₁)
    (h' : AddressEval E tables target gen m addr' gen' m₁') :
    addr = addr' ∧ gen₁ = gen' ∧ m₁ = m₁' := by
  cases h with
  | ident hlookup =>
    cases h' with
    | ident hlookup' =>
      cases hlookup.symm.trans hlookup'
      exact ⟨rfl, rfl, rfl⟩
  | deref hnode hrun =>
    cases h' with
    | deref hnode' hrun' =>
      cases hnode.symm.trans hnode'
      cases hrun.symm.trans hrun'
      exact ⟨rfl, rfl, rfl⟩

theorem AssignEval.unique {v' addr' : BitVec 64} {m₂' : Machine}
    (h : AssignEval E tables value target gen m addr v m₂)
    (h' : AssignEval E tables value target gen m addr' v' m₂') : addr = addr' ∧ v = v' ∧ m₂ = m₂' := by
  obtain ⟨haddr, hvalue, hrun⟩ := h
  obtain ⟨haddr', hvalue', hrun'⟩ := h'
  obtain ⟨rfl, rfl, rfl⟩ := haddr.unique haddr'
  cases hvalue.symm.trans hvalue'
  cases hrun.symm.trans hrun'
  exact ⟨rfl, rfl, rfl⟩

/-- The text of an assignment, and what its run comes to: the value is stored where the top of the
stack says. -/
theorem assign_run {text : List Instr} (htarget : Designates tables gen.scope target object)
    (hemit : emit tables (.assign op value target) gen = .ok (ty, text, gen')) :
    ∃ before rax, text = before ++ [.store (.reg .rdi) rax] ∧ subregister .rax ty.kind = .ok rax ∧
      ∀ mₛ, run E before m = some mₛ ↔ ∃ addr v m₂, AssignEval E tables value target gen m addr v m₂ ∧
        mₛ = m₂.drop.setReg .rdi m₂.top := by
  rw [emit] at hemit
  obtain ⟨ta, ca, gen₁, cv, rax, haddr, hval, -, hrax, rfl⟩ := assign_ok hemit
  refine ⟨ca ++ .push .rax :: (cv ++ [.pop .rdi]), rax, by simp, hrax, fun mₛ => ?_⟩
  rw [run_append_eq_some]
  constructor
  · rintro ⟨m₁, h₁, h₂⟩
    obtain ⟨m₂, h₃, h₄⟩ := run_append_eq_some.mp h₂
    cases h₄
    exact ⟨_, _, m₂, .mk ((addressEval_iff htarget haddr).mpr ⟨rfl, h₁, rfl⟩) hval h₃, rfl⟩
  · rintro ⟨addr, v, m₂, h, rfl⟩
    cases h with
    | mk heval hvalue hrun =>
      obtain ⟨rfl, h₁, rfl⟩ := (addressEval_iff htarget haddr).mp heval
      cases hval.symm.trans hvalue
      exact ⟨_, h₁, run_append_eq_some.mpr ⟨m₂, hrun, rfl⟩⟩

/-- What is accepted stores a pointer, whose code has the type of the value. -/
theorem assign_accepted {text : List Instr} (htarget : Designates tables gen.scope target object)
    (hvalue : check tables value gen.scope = .ok tv)
    (hemit : emit tables (.assign op value target) gen = .ok (ty, text, gen')) :
    ty = tv ∧ tv.kind = .pointer := by
  refine ⟨?_, (check_assign_ok htarget hvalue).mp (emit_ok_iff.mp ⟨_, hemit⟩)⟩
  rw [emit] at hemit
  obtain ⟨ta, ca, gen₁, cv, rax, haddr, hval, -⟩ := assign_ok hemit
  have hvalue₁ : check tables value gen₁.scope = .ok tv := by
    rw [(emitAddr_checked haddr).2, hvalue]
  exact emit_type hval hvalue₁

/-- The address survives if each call in the value has its arguments in registers, and nothing is
written over the parked address. -/
theorem addressKept_of_tidy (hvalue : Tidy true false value)
    (hspare : AddressSpared E tables value target gen m) :
    AddressKept E tables value target gen m := by
  intro addr v m₂ h
  cases h with
  | mk haddr hval hrun =>
    exact top_of_spared ((emit_keeps hvalue).1 hval) hrun (hspare _ _ _ _ _ _ haddr hval)

/-- An assignment is checked against its object and stored in it iff value and object are both
pointers, or are of different kinds and the value is no pointer, and the value of a pointer leaves
the address on top of the stack. The latter holds unless there is a call with stack arguments in the
value, or the parked address is written over. -/
theorem assignChecked_iff (htarget : Designates tables gen.scope target object)
    (hvalue : check tables value gen.scope = .ok tv) :
    (AssignChecked E tables value target gen m op object tv ↔
      (tv.kind = .pointer ↔ tv.kind = object.kind) ∧
        (tv.kind = .pointer → AddressKept E tables value target gen m)) ∧
    (Tidy true false value → AddressSpared E tables value target gen m →
      AddressKept E tables value target gen m) := by
  refine ⟨⟨fun h => ?_, ?_⟩, addressKept_of_tidy⟩
  · have haccepted := h.accepted_iff
    rw [emit_ok_iff, check_assign_ok htarget hvalue] at haccepted
    refine ⟨haccepted, fun hpointer addr v m₂ heval => ?_⟩
    obtain ⟨⟨ty, text, gen'⟩, hemit⟩ := h.accepted_iff.mpr (haccepted.mp hpointer)
    obtain ⟨before, rax, rfl, -, hruns⟩ := assign_run htarget hemit
    have hrun := (hruns _).mpr ⟨addr, v, m₂, heval, rfl⟩
    obtain ⟨before', dst, src, mₛ, addr', v', m₂', htext, hrun', heval', hdst, -⟩ :=
      h.stores hemit (run_append_eq_some.mpr ⟨_, hrun, rfl⟩)
    obtain ⟨rfl, hstore⟩ := List.append_inj' htext rfl
    cases hstore
    cases hrun.symm.trans hrun'
    obtain ⟨rfl, -, rfl⟩ := heval.unique heval'
    exact BitVec.eq_of_toNat_eq (by simpa [Addr.eval] using hdst)
  · rintro ⟨hkinds, hkept⟩
    refine ⟨?_, fun hemit => (assign_accepted htarget hvalue hemit).1, fun hemit hrun => ?_⟩
    · rw [emit_ok_iff, check_assign_ok htarget hvalue]
      exact hkinds
    · obtain ⟨rfl, hpointer⟩ := assign_accepted htarget hvalue hemit
      obtain ⟨before, rax, rfl, hrax, hruns⟩ := assign_run htarget hemit
      obtain ⟨mₛ, hbefore, hstore⟩ := run_append_eq_some.mp hrun
      obtain ⟨addr, v, m₂, heval, rfl⟩ := (hruns mₛ).mp hbefore
      have htop := hkept hpointer addr v m₂ heval
      have hv : m₂.reg .rax = v := by
        cases heval
        rfl
      have hrdi : (m₂.drop.setReg .rdi m₂.top).reg rax.reg = v := by
        rw [subregister_reg hrax, Machine.setReg_of_ne (by decide), Machine.drop_reg, hv]
      refine ⟨before, _, rax, _, addr, v, m₂, rfl, hbefore, heval, ?_, hrdi, ?_, ?_⟩
      · rw [Addr.eval, Machine.setReg_self, htop]
      · rw [← hkinds.mp hpointer]
        exact subregister_bytes hrax
      · cases hstore
        rw [hrdi, Addr.eval, Machine.setReg_self, htop]
        rfl

/-! ### An `int` and a pointer -/

/-- `proc f(a: int) void { a = 1; }` -/
def assignInt : List Token :=
  [{ kind := .kwProc }, .ident "f", { kind := .lparen }, .ident "a", { kind := .colon },
    { kind := .kwTypeInt }, { kind := .rparen }, { kind := .kwTypeVoid }, { kind := .lbrace },
    .ident "a", { kind := .assign }, .num 1, { kind := .semicolon }, { kind := .rbrace }, .eof]

/-- `proc f(p: *int, q: *int) void { p = q; }` -/
def assignPointer : List Token :=
  [{ kind := .kwProc }, .ident "f", { kind := .lparen }, .ident "p", { kind := .colon },
    { kind := .asterisk }, { kind := .kwTypeInt }, { kind := .comma }, .ident "q", { kind := .colon },
    { kind := .asterisk }, { kind := .kwTypeInt }, { kind := .rparen }, { kind := .kwTypeVoid },
    { kind := .lbrace }, .ident "p", { kind := .assign }, .ident "q", { kind := .semicolon },
    { kind := .rbrace }, .eof]

/-- Whether the only procedure assigns an `int` to a parameter that is one. -/
def assignsInt (root : AstNode) (tables : List Hashtable) : Bool :=
  match root with
  | .block [.proc _ _ (some (.block [.assign _ value (.literal op .ident)] table)) _ _ _] _ =>
    match symboltableLookup tables table op.value, check tables value table with
    | .ok (some { kind := .parameter, type := .int, .. }), .ok .int => true
    | _, _ => false
  | _ => false

/-- Whether the only procedure assigns one parameter to another one, both of them pointers to an
`int`, and the code of the assignment runs to its end. -/
def assignsPointer (root : AstNode) (tables : List Hashtable) : Bool :=
  match root with
  | .block [.proc _ _ (some (.block [.assign op (.literal q .ident) (.literal p .ident)] table))
      _ _ _] _ =>
    match symboltableLookup tables table p.value, check tables (.literal q .ident) table,
        emit tables (.assign op (.literal q .ident) (.literal p .ident)) { scope := table } with
    | .ok (some { kind := .parameter, type := .pointer (some .int), .. }),
      .ok (.pointer (some .int)), .ok (_, text, _) => (run .returning text .zero).isSome
    | _, _, _ => false
  | _ => false

/-- Reading a name stores nothing. -/
theorem addressSpared_ident : AddressSpared E tables (.literal op .ident) target gen m := by
  intro addr gen₁ m₁ ty cv gen₂ _ hval a _ _
  rw [emit] at hval
  obtain ⟨-, sym, -, ⟨-, -, -, rfl⟩ | ⟨-, -, -, rax, -, rfl⟩ | ⟨-, -, rfl⟩⟩ :=
    literalIdent_ok.mp hval
  all_goals simp [Spares]

/-- A pointer is assigned to a pointer. -/
theorem assignChecked_iff_assignPointer : ∃ root p root' root'' st,
    parse 100 [] assignPointer = .ok root p ∧ expandAst root = .ok root' ∧
      symboltableBuild root' = .ok (root'', st) ∧
      ∃ scope op value target, Visits none root'' scope (.assign op value target) ∧
        (∃ ty text gen' m', emit st.tables (.assign op value target) { scope } = .ok (ty, text, gen') ∧
          run .returning text .zero = some m') ∧
        AssignChecked .returning st.tables value target { scope } .zero op (.pointer (some .int))
          (.pointer (some .int)) := by
  obtain ⟨root, p, root', root'', st, hparse, hexpand, hbuild, htest⟩ :=
    @of_annotatesTo (fun _ root tables => assignsPointer root tables) 100 assignPointer
      (by decide +kernel)
  refine ⟨root, p, root', root'', st, hparse, hexpand, hbuild, ?_⟩
  unfold assignsPointer at htest
  split at htest
  · rename_i op q p table _ _ _ _
    split at htest
    · rename_i hlookup hcheck hemit
      obtain ⟨m', hrun⟩ := Option.isSome_iff_exists.mp htest
      refine ⟨_, _, _, _, .inside (List.mem_singleton_self _) (.inside (List.mem_singleton_self _)
        (.inside (List.mem_singleton_self _) .self)), ⟨_, _, _, m', hemit, hrun⟩, ?_⟩
      obtain ⟨hiff, hkept⟩ := @assignChecked_iff .returning _ _ _ op _ _ { scope := table } .zero
        (.ident hlookup (.inr rfl)) hcheck
      exact hiff.mpr ⟨iff_of_true rfl rfl, fun _ => hkept .literal addressSpared_ident⟩
    · cases htest
  · cases htest

/-- An `int` is not assigned to an `int`. -/
theorem assign_rejected : ∃ root p root' root'' st, parse 100 [] assignInt = .ok root p ∧
    expandAst root = .ok root' ∧ symboltableBuild root' = .ok (root'', st) ∧
    ∃ scope op value target, Visits none root'' scope (.assign op value target) ∧
      Designates st.tables scope target .int ∧ check st.tables value scope = .ok .int ∧
      ∀ E m, ¬ AssignChecked E st.tables value target { scope } m op .int .int := by
  obtain ⟨root, p, root', root'', st, hparse, hexpand, hbuild, htest⟩ :=
    @of_annotatesTo (fun _ root tables => assignsInt root tables) 100 assignInt (by decide +kernel)
  refine ⟨root, p, root', root'', st, hparse, hexpand, hbuild, ?_⟩
  unfold assignsInt at htest
  split at htest
  · split at htest
    · rename_i hlookup hcheck
      have htarget := Designates.ident hlookup (.inr rfl)
      refine ⟨_, _, _, _, .inside (List.mem_singleton_self _) (.inside (List.mem_singleton_self _)
        (.inside (List.mem_singleton_self _) .self)), htarget, hcheck, fun E m h => ?_⟩
      have hpointer := (check_assign_ok htarget hcheck).mp (emit_ok_iff.mp (h.accepted_iff.mpr rfl))
      cases hpointer
    · cases htest
  · cases htest

end Seron
