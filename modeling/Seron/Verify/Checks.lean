import Seron.Verify.Contracts
import Seron.Verify.Emission

/-! # Static checks

What the code generator finds out about a program, without the text: the static types of the
expressions, and the failures in the order in which they stop it. -/

namespace Seron

open AstNode

/-- A check in the scope with the given table. -/
abbrev Check (α : Type) : Type := ReaderT (Option Nat) (Except Failure) α

namespace Check

/-- Only values that fit into a register have a size. -/
def sized (k : TypeKind) : Check Unit := discard (liftM (typePrimitiveSize k) : Check Int)

def mismatch {α : Type} (message : String) (a b : TypeKind) : Check α := do
  let a ← stringifyTypekind a
  let b ← stringifyTypekind b
  throw (.exit s!"{message} ({a}, {b})")

/-- Only what goes into a register has to fit there. -/
def placed (i : Nat) (k : TypeKind) : Check Unit :=
  if (abiRegister (i + 1)).isSome then sized k else pure ()

/-- The kinds of the arguments are not looked at. -/
def callArgs [Sanitizer] (sig : ProcSignature) (i : Nat) : List (Check Ty) → Check Unit
  | [] => pure ()
  | arg :: args => do
    let type ← sig.paramKind i
    placed i type
    discard arg
    callArgs sig (i + 1) args

def call [Sanitizer] (callee : Check Ty) (args : List (Check Ty)) : Check Ty := do
  match ← callee with
  | .procedure sig =>
    callArgs sig 0 args
    pure sig.returntype
  | _ => throw (.undefined "ty.signature of a type without one")

def params : List Param → Check Unit
  | [] => pure ()
  | param :: ps => do
    sized param.type.kind
    params ps

def seq : List (Check Ty) → Check Unit
  | [] => pure ()
  | stmt :: stmts => do
    discard stmt
    seq stmts

def opt : Option (Check Ty) → Check Unit
  | none => pure ()
  | some x => discard x

def proc (body : Option (Check Ty)) (type : Ty) : Check Unit := do
  match body with
  | none => pure ()
  | some body =>
    match type with
    | .procedure sig =>
      params sig.params
      discard body
    | _ => throw (.undefined "proc->type.signature")

def unaryop [Sanitizer] (node addr : Check Ty) : UnaryOpKind → Check Ty
  | .neg | .minus => do
    let ty ← node
    sized ty.kind
    pure ty
  | .deref => do
    let ty ← node
    sized ty.kind
    ty.pointee
  | .addrof => addr

def unaryopAddr (node : Check Ty) : UnaryOpKind → Check Ty
  | .deref => node
  | _ => throw (.panic "unknown operation")

/-- A pointer is combined with whatever fits into a register. -/
def operands [Sanitizer] (lhs rhs : Ty) : Check Unit := do
  if lhs.kind = .pointer ∧ rhs.kind ≠ .pointer then sized (← lhs.pointee).kind
  else if lhs.kind ≠ .pointer ∧ rhs.kind = .pointer then sized (← rhs.pointee).kind
  else if rhs.kind ≠ lhs.kind then mismatch "Invalid types" rhs.kind lhs.kind
  else pure ()

def binop [Sanitizer] (lhs rhs : Check Ty) : Check Ty := do
  let rhs ← rhs
  sized rhs.kind
  let lhs ← lhs
  sized lhs.kind
  operands lhs rhs
  pure (if rhs.kind = .pointer then rhs else lhs)

def cond (condition thenBody : Check Ty) (elseBody : Option (Check Ty)) : Check Unit := do
  let ty ← condition
  sized ty.kind
  discard thenBody
  opt elseBody

def while_ (condition body : Check Ty) : Check Unit := do
  discard body
  let ty ← condition
  sized ty.kind

def vardecl (init : Option (Check Ty)) (type : Ty) : Check Unit := do
  match init with
  | none => pure ()
  | some init =>
    let init ← init
    if type.kind ≠ init.kind then mismatch "Invalid type" type.kind init.kind
    else sized init.kind

def assign (addr value : Check Ty) : Check Ty := do
  let target ← addr
  let ty ← value
  if target.kind ≠ ty.kind then mismatch "Invalid type" target.kind ty.kind
  else
    sized ty.kind
    pure ty

def arrayElems (type : Ty) : List (Check Ty) → Check Unit
  | [] => pure ()
  | value :: values => do
    discard value
    arrayElems type values

def array (values : List (Check Ty)) (type : Ty) : Check Ty := do
  sized type.kind
  arrayElems type values
  pure (.pointer (some type))

section
variable (tables : List Hashtable)

def literalIdent (str : String) (addr : Bool) : Check Ty := do
  match ← symboltableLookup tables (← read) str with
  | none => throw (.exit s!"Symbol `{str}` does not exist in the current scope")
  | some sym =>
    match sym.kind with
    | .table => throw (.exit s!"Symbol `{str}` is a type, not a variable")
    | .parameter | .variable =>
      if addr then pure (.pointer (some sym.type))
      else
        sized sym.type.kind
        pure sym.type
    | .procedure => pure sym.type
    | .invalid | .none => throw (.panic "invalid symbol")

def literal (op : Token) : LiteralKind → Check Ty
  | .string => pure (.pointer none)
  | .number => pure (typeFromTokenLiteral op.numberType)
  | .ident => literalIdent tables op.value false

def literalAddr (op : Token) : LiteralKind → Check Ty
  | .ident => literalIdent tables op.value true
  | .string | .number => throw (.panic "unknown operation")

end

/-! ## Successful checks -/

section
variable {α β : Type} {x : Check α} {f : α → Check β} {scope : Option Nat}

theorem bind_ok {b : β} :
    (x >>= f) scope = .ok b ↔ ∃ a, x scope = .ok a ∧ f a scope = .ok b := Except.bind_ok

theorem discard_ok {u : Unit} : discard x scope = .ok u ↔ ∃ a, x scope = .ok a := by
  have hdiscard : discard x = x >>= fun _ => pure () := rfl
  rw [hdiscard, bind_ok]
  constructor
  · rintro ⟨a, hx, -⟩
    exact ⟨a, hx⟩
  · rintro ⟨a, hx⟩
    exact ⟨a, hx, rfl⟩

theorem sized_ok {k : TypeKind} {u : Unit} :
    sized k scope = .ok u ↔ ∃ n, typePrimitiveSize k = .ok n := by
  rw [sized, discard_ok]
  exact Iff.rfl

@[simp] theorem mismatch_ok {message : String} {a b : TypeKind} {r : α} :
    mismatch message a b scope = .ok r ↔ False := by
  refine iff_of_false (fun h => ?_) id
  obtain ⟨sa, -, h⟩ := bind_ok.mp h
  obtain ⟨sb, -, h⟩ := bind_ok.mp h
  cases h

end

/-! ## Failing checks -/

/-- The check ends with a failure of this sort. -/
def FailsBy {α : Type} (F : Failure → Prop) (x : Check α) (scope : Option Nat) : Prop :=
  ∃ e, x scope = .error e ∧ F e

section
variable {α β : Type} {F : Failure → Prop} {x : Check α} {f : α → Check β} {scope : Option Nat}

theorem failsBy_bind : (x >>= f).FailsBy F scope ↔
    x.FailsBy F scope ∨ ∃ a, x scope = .ok a ∧ (f a).FailsBy F scope := by
  have hbind : (x >>= f) scope = x scope >>= fun a => f a scope := rfl
  unfold FailsBy
  rw [hbind]
  cases x scope with
  | error e => simp [bind, Except.bind]
  | ok a => simp [bind, Except.bind]

@[simp] theorem failsBy_pure {a : α} : ¬ (pure a : Check α).FailsBy F scope := by
  intro h
  obtain ⟨e, h, -⟩ := h
  cases h

@[simp] theorem failsBy_throw {e : Failure} : (throw e : Check α).FailsBy F scope ↔ F e := by
  constructor
  · intro h
    obtain ⟨e', h, hfails⟩ := h
    cases h
    exact hfails
  · intro h
    exact ⟨e, rfl, h⟩

@[simp] theorem failsBy_discard : (discard x).FailsBy F scope ↔ x.FailsBy F scope := by
  have hdiscard : discard x = x >>= fun _ => pure () := rfl
  rw [hdiscard, failsBy_bind]
  simp

/-- A step in another pass does not fail so. -/
theorem not_failsBy_lift {e : Except Failure α} (h : ∀ err, e = .error err → ¬ F err) :
    ¬ (liftM e : Check α).FailsBy F scope := by
  intro hfails
  obtain ⟨err, herr, hfails⟩ := hfails
  exact h err herr hfails

end

end Check

section
variable (tables : List Hashtable) [Sanitizer]

mutual

/-- The static type of an expression; `void` for a statement. -/
def check : AstNode → Check Ty
  | .block stmts symboltable => do
    fun _ => Check.seq (checks stmts) symboltable
    pure .void
  | .while_ _ condition body => do
    Check.while_ (check condition) (check body)
    pure .void
  | .proc _ _ body type _ _ => do
    Check.proc (checkOpt body) type
    pure .void
  | .return_ _ expr => do
    Check.opt (checkOpt expr)
    pure .void
  | .vardecl _ _ init type _ => do
    Check.vardecl (checkOpt init) type
    pure .void
  | .if_ _ condition thenBody elseBody => do
    Check.cond (check condition) (check thenBody) (checkOpt elseBody)
    pure .void
  | .grouping expr => check expr
  | .assign _ value target => Check.assign (checkAddr target) (check value)
  | .binop lhs rhs _ _ => Check.binop (check lhs) (check rhs)
  | .call _ callee args => Check.call (check callee) (checks args)
  | .unaryop node _ kind => Check.unaryop (check node) (checkAddr node) kind
  | .literal op kind => Check.literal tables op kind
  | .array _ values type _ => Check.array (checks values) type
  | .index .. | .for_ .. => throw sugarPanic
  | .table .. => pure .void

/-- The type of the address of an lvalue. -/
def checkAddr : AstNode → Check Ty
  | .unaryop node _ kind => Check.unaryopAddr (check node) kind
  | .literal op kind => Check.literalAddr tables op kind
  | .for_ .. | .index .. => throw sugarPanic
  | _ => throw (.panic "unknown node kind")

def checks : List AstNode → List (Check Ty)
  | [] => []
  | node :: nodes => check node :: checks nodes

def checkOpt : Option AstNode → Option (Check Ty)
  | none => none
  | some node => some (check node)

end

end

/-! ## Lists of nodes -/

namespace Check

variable [Sanitizer] {tables : List Hashtable} {scope : Option Nat} {F : Failure → Prop}

theorem failsBy_seq {nodes : List AstNode} : (seq (checks tables nodes)).FailsBy F scope ↔
    ∃ front s rest, nodes = front ++ s :: rest ∧ (∀ v ∈ front, ∃ ty, check tables v scope = .ok ty) ∧
      (check tables s).FailsBy F scope := by
  induction nodes with
  | nil => simp [checks, seq]
  | cons node nodes ih =>
    rw [checks, seq, failsBy_bind, failsBy_discard]
    simp only [discard_ok, ih]
    constructor
    · rintro (h | ⟨u, hnode, front, s, rest, rfl, hfront, h⟩)
      · exact ⟨[], node, nodes, rfl, List.forall_mem_nil _, h⟩
      · exact ⟨node :: front, s, rest, rfl, List.forall_mem_cons.mpr ⟨hnode, hfront⟩, h⟩
    · rintro ⟨front, s, rest, heq, hfront, h⟩
      cases front with
      | nil =>
        obtain ⟨rfl, rfl⟩ := List.cons.inj heq
        exact .inl h
      | cons v front =>
        obtain ⟨rfl, rfl⟩ := List.cons.inj heq
        obtain ⟨hv, hfront⟩ := List.forall_mem_cons.mp hfront
        exact .inr ⟨(), hv, front, s, rest, rfl, hfront, h⟩

theorem failsBy_arrayElems {type : Ty} {nodes : List AstNode} :
    (arrayElems type (checks tables nodes)).FailsBy F scope ↔
      (seq (checks tables nodes)).FailsBy F scope := by
  induction nodes with
  | nil => exact Iff.rfl
  | cons node nodes ih =>
    rw [checks, arrayElems, seq, failsBy_bind, failsBy_bind]
    simp only [ih]

theorem failsBy_opt {node : Option AstNode} : (opt (checkOpt tables node)).FailsBy F scope ↔
    ∃ n, node = some n ∧ (check tables n).FailsBy F scope := by
  cases node with
  | none => simp [checkOpt, opt]
  | some n => simp [checkOpt, opt]

end Check

/-! ## Agreement -/

/-- The emission fails as the check does, else it stays in its scope and has the same value. -/
def Agrees {α : Type} (x : Emit α) (c : Check α) : Prop := ∀ gen,
  match x gen with
  | .error e => c gen.scope = .error e
  | .ok (a, _, gen') => c gen.scope = .ok a ∧ gen'.scope = gen.scope

namespace Agrees

variable {α β γ : Type} {x : Emit α} {c : Check α}

theorem pure {a : α} : Agrees (pure a) (pure a) := fun _ => ⟨rfl, rfl⟩

theorem fail {e : Failure} : Agrees (fail e : Emit α) (throw e) := fun _ => rfl

theorem bind {f : α → Emit β} {d : α → Check β} (hx : Agrees x c) (hf : ∀ a, Agrees (f a) (d a)) :
    Agrees (x >>= f) (c >>= d) := by
  intro gen
  have hx := hx gen
  change match Emit.bind x f gen with
    | .error e => (c gen.scope >>= fun a => d a gen.scope) = .error e
    | .ok (b, _, gen') => (c gen.scope >>= fun a => d a gen.scope) = .ok b ∧ gen'.scope = gen.scope
  rw [Emit.bind]
  rcases hxr : x gen with e | ⟨a, text, gen₁⟩ <;> rw [hxr] at hx
  · rw [hx]
    rfl
  · have hf := hf a gen₁
    dsimp only at hx ⊢
    rw [hx.1]
    rw [hx.2] at hf
    rcases hfr : f a gen₁ with e | ⟨b, text', gen₂⟩ <;> rw [hfr] at hf
    · exact hf
    · exact ⟨hf.1, hf.2.trans rfl⟩

/-- A step that checks nothing. -/
theorem skip {f : α → Emit β} {d : Check β} (hx : ∀ gen, ∃ a text gen', x gen = .ok (a, text, gen') ∧
    gen'.scope = gen.scope) (hf : ∀ a, Agrees (f a) d) : Agrees (x >>= f) d := by
  intro gen
  obtain ⟨a, text, gen₁, hxr, hscope⟩ := hx gen
  have hf := hf a gen₁
  change match Emit.bind x f gen with
    | .error e => d gen.scope = .error e
    | .ok (b, _, gen') => d gen.scope = .ok b ∧ gen'.scope = gen.scope
  rw [hscope] at hf
  rw [Emit.bind, hxr]
  rcases hfr : f a gen₁ with e | ⟨b, text', gen₂⟩ <;> rw [hfr] at hf
  · simpa [hfr] using hf
  · simpa [hfr] using hf

theorem write {i : Instr} {f : Unit → Emit β} {d : Check β} (hf : ∀ u, Agrees (f u) d) :
    Agrees (genWrite i >>= f) d := skip (fun gen => ⟨(), [i], gen, rfl, rfl⟩) hf

theorem move {g : Gen → Gen} {f : Unit → Emit β} {d : Check β} (hg : ∀ gen, (g gen).scope = gen.scope)
    (hf : ∀ u, Agrees (f u) d) : Agrees (modifyGen g >>= f) d :=
  skip (fun gen => ⟨(), [], g gen, rfl, hg gen⟩) hf

theorem data {line : DataLine} {f : Unit → Emit β} {d : Check β} (hf : ∀ u, Agrees (f u) d) :
    Agrees (genWriteData line >>= f) d := skip (fun _ => ⟨(), [], _, rfl, rfl⟩) hf

theorem read {f : Gen → Emit β} {d : Check β} (hf : ∀ gen, Agrees (f gen) d) :
    Agrees (getGen >>= f) d := skip (fun gen => ⟨gen, [], gen, rfl, rfl⟩) hf

/-- The last line. -/
theorem last {i : Instr} : Agrees (genWrite i) (Pure.pure ()) := fun _ => ⟨rfl, rfl⟩

theorem lift {e : Except Failure α} : Agrees (liftM e : Emit α) (liftM e : Check α) := by
  intro gen
  cases e <;> simp [liftM, monadLift, MonadLift.monadLift, Except.map]

theorem discard (hx : Agrees x c) : Agrees (discard x) (discard c) := bind hx fun _ => pure

theorem lift_ok {a : α} {e : Except Failure α} {f : α → Emit β} {d : Check β} (h : e = .ok a)
    (hf : Agrees (f a) d) : Agrees (liftM e >>= f) d := by
  subst h
  intro gen
  have hf := hf gen
  change match Emit.bind (liftM (Except.ok a)) f gen with
    | .error e => d gen.scope = .error e
    | .ok (b, _, gen') => d gen.scope = .ok b ∧ gen'.scope = gen.scope
  simp only [Emit.bind, liftM, monadLift, MonadLift.monadLift, Except.map]
  rcases hfr : f a gen with e | ⟨b, text, gen₁⟩ <;> rw [hfr] at hf
  · exact hf
  · exact hf

theorem lift_error {err : Failure} {e : Except Failure α} {f : α → Emit β} {c : Check γ}
    {d : γ → Check β} (h : e = .error err) (hc : ∀ scope, c scope = .error err) :
    Agrees (liftM e >>= f) (c >>= d) := by
  subst h
  intro gen
  change (c gen.scope >>= fun a => d a gen.scope) = .error err
  rw [hc]
  rfl

theorem sized_error {k : TypeKind} {e : Failure} (h : typePrimitiveSize k = .error e)
    (scope : Option Nat) : Check.sized k scope = .error e := by
  unfold Check.sized
  rw [h]
  rfl

theorem sized_ok {k : TypeKind} {n : Int} {d : Check β} (h : typePrimitiveSize k = .ok n) :
    (Check.sized k >>= fun _ => d) = d := by
  unfold Check.sized
  rw [h]
  rfl

theorem subregister {r : Register} {k : TypeKind} {f : SubReg → Emit β} {d : Check β}
    (hf : ∀ reg, subregister r k = .ok reg → Agrees (f reg) d) :
    Agrees (liftM (subregister r k) >>= f) (Check.sized k >>= fun _ => d) := by
  cases hk : typePrimitiveSize k with
  | error e =>
    have hsub : Seron.subregister r k = .error e := by cases k <;> cases hk <;> rfl
    exact lift_error hsub (sized_error hk)
  | ok n =>
    obtain ⟨reg, hsub⟩ : ∃ reg, Seron.subregister r k = .ok reg := by
      cases k <;> cases hk <;> exact ⟨_, rfl⟩
    rw [sized_ok hk]
    exact lift_ok hsub (hf reg hsub)

theorem size {k : TypeKind} {f : Int → Emit β} {d : Check β} (hf : ∀ n, Agrees (f n) d) :
    Agrees (liftM (typePrimitiveSize k) >>= f) (Check.sized k >>= fun _ => d) := by
  cases hk : typePrimitiveSize k with
  | error e => exact lift_error rfl (sized_error hk)
  | ok n =>
    rw [sized_ok hk]
    exact lift_ok rfl (hf n)

/-- What fits into one register fits into any. -/
theorem fits {r r' : Register} {k : TypeKind} {reg : SubReg} {f : SubReg → Emit β} {d : Check β}
    (h : Seron.subregister r k = .ok reg) (hf : ∀ reg, Agrees (f reg) d) :
    Agrees (liftM (Seron.subregister r' k) >>= f) d := by
  obtain ⟨reg', hreg'⟩ : ∃ reg', Seron.subregister r' k = .ok reg' := by
    cases k <;> cases h <;> exact ⟨_, rfl⟩
  exact lift_ok hreg' (hf reg')

theorem invalidTypes {message : String} {k k' : TypeKind} :
    Agrees (invalidTypes message k k' : Emit α) (Check.mismatch message k k') :=
  bind lift fun _ => bind lift fun _ => fail

/-- An argument that goes into a register has to fit there. -/
theorem register {i : Nat} {k : TypeKind} {reg : Register} {f : Option SubReg → Emit β} {d : Check β}
    (habi : abiRegister i = some reg)
    (hf : ∀ sub, Seron.subregister reg k = .ok sub → Agrees (f (some sub)) d) :
    Agrees (liftM (abiRegisterStr i k) >>= f) (Check.sized k >>= fun _ => d) := by
  unfold abiRegisterStr
  rw [habi]
  cases hsub : Seron.subregister reg k with
  | error e =>
    have hsize : typePrimitiveSize k = .error e := by cases k <;> cases hsub <;> rfl
    exact lift_error (by simp only [hsub]; rfl) (sized_error hsize)
  | ok sub =>
    obtain ⟨n, hsize⟩ : ∃ n, typePrimitiveSize k = .ok n := by
      cases k <;> cases hsub <;> exact ⟨_, rfl⟩
    rw [sized_ok hsize]
    exact lift_ok (by simp only [hsub]; rfl) (hf sub hsub)

theorem stack {i : Nat} {k : TypeKind} {f : Option SubReg → Emit β} {d : Check β}
    (habi : abiRegister i = none) (hf : Agrees (f none) d) :
    Agrees (liftM (abiRegisterStr i k) >>= f) d := by
  unfold abiRegisterStr
  rw [habi]
  exact lift_ok rfl hf

theorem placed {i : Nat} {k : TypeKind} {f : Option SubReg → Emit β} {d : Check β}
    (hf : Agrees (f none) d) (hf' : ∀ reg sub, Seron.subregister reg k = .ok sub →
      Agrees (f (some sub)) d) :
    Agrees (liftM (abiRegisterStr (i + 1) k) >>= f) (Check.placed i k >>= fun _ => d) := by
  unfold Check.placed
  cases habi : abiRegister (i + 1) with
  | none => exact stack habi hf
  | some reg => exact register habi (hf' reg)

/-- What is checked last, and a rest that checks nothing. -/
theorem andLast {x : Emit Unit} {f : Unit → Emit Unit} {c : Check Unit} (hx : Agrees x c)
    (hf : ∀ u, Agrees (f u) (Pure.pure ())) : Agrees (x >>= f) c := by
  have h := bind hx hf
  rwa [bind_pure_unit] at h

theorem subregister_last {r : Register} {k : TypeKind} {f : SubReg → Emit Unit}
    (hf : ∀ reg, Agrees (f reg) (Pure.pure ())) :
    Agrees (liftM (Seron.subregister r k) >>= f) (Check.sized k) := by
  have h := subregister (r := r) (k := k) fun reg _ => hf reg
  rwa [bind_pure_unit] at h

theorem size_last {k : TypeKind} {f : Int → Emit Unit} (hf : ∀ n, Agrees (f n) (Pure.pure ())) :
    Agrees (liftM (typePrimitiveSize k) >>= f) (Check.sized k) := by
  have h := size (k := k) hf
  rwa [bind_pure_unit] at h

/-- What depends on the scope. -/
theorem inScope {F : Option Nat → Except Failure α} {f : α → Emit β} {d : α → Check β}
    (hf : ∀ a, Agrees (f a) (d a)) : Agrees (getGen >>= fun gen => liftM (F gen.scope) >>= f)
      (MonadReader.read >>= fun scope => liftM (F scope) >>= d) := by
  intro gen
  have h := bind (lift (e := F gen.scope)) hf gen
  change match Emit.bind getGen (fun gen => liftM (F gen.scope) >>= f) gen with
    | .error e => _
    | .ok (_, _, gen') => _
  simp only [Emit.bind, getGen]
  rcases hx : (liftM (F gen.scope) >>= f) gen with e | ⟨b, text, gen₁⟩ <;> rw [hx] at h
  · exact h
  · exact h

/-! ### The functions that take the emission of children -/

variable [Sanitizer] {tables : List Hashtable} {nodes : List AstNode} {node : Option AstNode}
  {a b : Emit Ty}
  {ca cb : Check Ty}

section
variable (hnodes : ∀ n ∈ nodes, Agrees (emit tables n) (check tables n))

include hnodes

theorem callArgs {sig : ProcSignature} {i : Nat} :
    Agrees (callArgs sig i (emits tables nodes)) (Check.callArgs sig i (checks tables nodes)) := by
  induction nodes generalizing i with
  | nil => exact pure
  | cons n nodes ih =>
    have ih {i : Nat} := @ih (fun n hn => hnodes n (.tail _ hn)) i
    simp only [emits, checks, Seron.callArgs, Check.callArgs]
    refine bind lift fun k =>
      placed (bind (discard (hnodes n List.mem_cons_self)) fun _ => write fun _ => ih) ?_
    intro reg sub hsub
    exact bind (discard (hnodes n List.mem_cons_self)) fun _ => fits hsub fun _ =>
      write fun _ => ih

theorem call (ha : Agrees a ca) :
    Agrees (call a (emits tables nodes)) (Check.call ca (checks tables nodes)) := by
  refine bind ha fun ty => write fun _ => ?_
  cases ty
  case procedure sig =>
    exact bind (callArgs hnodes) fun _ => write fun _ => write fun _ => pure
  all_goals exact fail

theorem seq : Agrees (emitSeq (emits tables nodes)) (Check.seq (checks tables nodes)) := by
  induction nodes with
  | nil => exact pure
  | cons n nodes ih =>
    exact bind (discard (hnodes n List.mem_cons_self)) fun _ => ih fun m hm => hnodes m (.tail _ hm)

theorem block {table : Option Nat} : Agrees (block table (emits tables nodes))
    (fun _ => Check.seq (checks tables nodes) table) := by
  intro gen
  have h := seq hnodes { gen with scope := table }
  simp only [Seron.block, Bind.bind, Emit.bind, getGen, modifyGen]
  rcases hx : emitSeq (emits tables nodes) { gen with scope := table } with e | ⟨u, text, gen₁⟩
  · rw [hx] at h
    exact h
  · rw [hx] at h
    exact ⟨h.1, rfl⟩

theorem arrayElems {type : Ty} {offset elemSize : Int} {reg : SubReg}
    (htype : Seron.subregister .rax type.kind = .ok reg) :
    Agrees (arrayElems type offset elemSize (emits tables nodes))
      (Check.arrayElems type (checks tables nodes)) := by
  induction nodes with
  | nil => exact pure
  | cons n nodes ih =>
    exact bind (discard (hnodes n List.mem_cons_self)) fun _ => fits htype fun _ => write fun _ =>
      ih fun m hm => hnodes m (.tail _ hm)

theorem array {type : Ty} {offset : Int} : Agrees (array (emits tables nodes) type offset)
    (Check.array (checks tables nodes) type) := by
  unfold Seron.array Check.array
  cases htype : typePrimitiveSize type.kind with
  | error e => exact lift_error rfl (sized_error htype)
  | ok n =>
    obtain ⟨reg, hreg⟩ : ∃ reg, Seron.subregister .rax type.kind = .ok reg := by
      generalize type.kind = k at htype
      cases k <;> cases htype <;> exact ⟨_, rfl⟩
    rw [sized_ok htype]
    exact lift_ok rfl (bind (arrayElems hnodes hreg) fun _ => write fun _ => pure)

end

omit [Sanitizer] in
theorem params {i : Nat} {offset : Int} {ps : List Param} :
    Agrees (procParams i offset ps) (Check.params ps) := by
  induction ps generalizing i offset with
  | nil => exact pure
  | cons param ps ih =>
    unfold procParams Check.params
    cases habi : abiRegister (i + 1) with
    | none => exact stack habi (subregister fun _ _ => write fun _ => write fun _ => ih)
    | some reg => exact register habi fun _ _ => write fun _ => ih

section
variable (hnode : ∀ n ∈ node, Agrees (emit tables n) (check tables n))

include hnode

theorem proc {ident : Token} {type : Ty} {size : Int} :
    Agrees (proc ident (emitOpt tables node) type size) (Check.proc (checkOpt tables node) type) := by
  cases node with
  | none => exact last
  | some n =>
    cases type
    case procedure sig =>
      exact write fun _ => write fun _ => write fun _ => write fun _ => write fun _ =>
        bind params fun _ => andLast (discard (hnode n rfl)) fun _ => write fun _ =>
          write fun _ => write fun _ => last
    all_goals exact fail

theorem vardecl {type : Ty} {offset : Int} :
    Agrees (vardecl (emitOpt tables node) type offset)
      (Check.vardecl (checkOpt tables node) type) := by
  cases node with
  | none => exact pure
  | some n =>
    refine bind (hnode n rfl) fun ty => ?_
    split
    · exact invalidTypes
    · exact subregister_last fun _ => last

theorem cond (ha : Agrees a ca) (hb : Agrees b cb) : Agrees (cond a b (emitOpt tables node))
    (Check.cond ca cb (checkOpt tables node)) := by
  refine read fun _ => move (fun _ => rfl) fun _ => bind ha fun ty => subregister fun _ _ =>
    write fun _ => write fun _ => bind (discard hb) fun _ => write fun _ => write fun _ => ?_
  cases node with
  | none => exact andLast pure fun _ => last
  | some n => exact andLast (discard (hnode n rfl)) fun _ => last

theorem return_ : Agrees (return_ (emitOpt tables node)) (Check.opt (checkOpt tables node)) := by
  cases node with
  | none => exact andLast pure fun _ => last
  | some n => exact andLast (discard (hnode n rfl)) fun _ => last

end

omit [Sanitizer] in
theorem while_ (ha : Agrees a ca) (hb : Agrees b cb) : Agrees (while_ a b) (Check.while_ ca cb) := by
  refine read fun _ => move (fun _ => rfl) fun _ => write fun _ => write fun _ =>
    bind (discard hb) fun _ => write fun _ => bind ha fun ty => ?_
  exact subregister_last fun _ => write fun _ => last

omit [Sanitizer] in
theorem assign (ha : Agrees a ca) (hb : Agrees b cb) : Agrees (assign a b) (Check.assign ca cb) := by
  refine bind ha fun target => write fun _ => bind hb fun ty => ?_
  split
  · exact invalidTypes
  · exact write fun _ => subregister fun _ _ => write fun _ => pure

theorem unaryop {kind : UnaryOpKind} (ha : Agrees a ca) (hb : Agrees b cb) :
    Agrees (unaryop a b kind) (Check.unaryop ca cb kind) := by
  cases kind with
  | minus => exact bind ha fun _ => subregister fun _ _ => write fun _ => pure
  | neg => exact bind ha fun _ => subregister fun _ _ => write fun _ => write fun _ => pure
  | addrof => exact hb
  | deref => exact bind ha fun _ => subregister fun _ _ => write fun _ => lift

omit [Sanitizer] in
theorem unaryopAddr {kind : UnaryOpKind} (ha : Agrees a ca) :
    Agrees (unaryopAddr a kind) (Check.unaryopAddr ca kind) := by
  cases kind with
  | deref => exact ha
  | _ => exact fail

theorem operands {lhs rhs : Ty} {rax rdi : SubReg} (hl : Seron.subregister .rax lhs.kind = .ok rax)
    (hr : Seron.subregister .rdi rhs.kind = .ok rdi) :
    Agrees (scalePointer lhs rhs) (Check.operands lhs rhs) := by
  have scaled {r r' : Register} {k : TypeKind} {reg : SubReg} {ty : Ty}
      (hreg : Seron.subregister r k = .ok reg) :
      Agrees (do
        let reg ← Seron.subregister r' k
        let size ← typePrimitiveSize (← ty.pointee).kind
        genWrite (.imulImm reg size)) (do Check.sized (← ty.pointee).kind) := by
    refine fits hreg fun _ => bind lift fun ty' => ?_
    exact size_last fun n => last
  unfold scalePointer Check.operands
  split
  · exact scaled hr
  · split
    · exact scaled hl
    · split
      · exact invalidTypes
      · exact pure

theorem binop {kind : BinOpKind} (ha : Agrees a ca) (hb : Agrees b cb) :
    Agrees (binop a b kind) (Check.binop ca cb) := by
  refine bind hb fun rhs => subregister fun _ hr => write fun _ => bind ha fun lhs =>
    subregister fun _ hl => write fun _ => lift_ok rfl (bind (operands hl hr) fun _ => ?_)
  exact skip (fun gen => ⟨(), _, gen, genWrites_ok.mpr ⟨rfl, rfl⟩, rfl⟩) fun _ => pure

omit [Sanitizer] in
theorem literalIdent {str : String} {addr : Bool} :
    Agrees (literalIdent tables str addr) (Check.literalIdent tables str addr) := by
  refine inScope (F := (symboltableLookup tables · str)) fun sym => ?_
  cases sym with
  | none => exact fail
  | some sym =>
    rcases hkind : sym.kind <;> simp only [hkind]
    case procedure => exact write fun _ => pure
    case invalid | none | table => exact fail
    all_goals
      split
      · exact write fun _ => pure
      · exact subregister fun _ _ => write fun _ => pure

omit [Sanitizer] in
theorem literal {op : Token} {kind : LiteralKind} :
    Agrees (literal tables op kind) (Check.literal tables op kind) := by
  cases kind with
  | ident => exact literalIdent
  | number =>
    obtain ⟨reg, hreg⟩ : ∃ reg, Seron.subregister .rax (typeFromTokenLiteral op.numberType).kind =
        .ok reg := by
      cases op.numberType <;> exact ⟨_, rfl⟩
    exact lift_ok hreg (write fun _ => pure)
  | string =>
    exact read fun _ => data fun _ => data fun _ => write fun _ => move (fun _ => rfl) fun _ => pure

omit [Sanitizer] in
theorem literalAddr {op : Token} {kind : LiteralKind} :
    Agrees (literalAddr tables op kind) (Check.literalAddr tables op kind) := by
  cases kind with
  | ident => exact literalIdent
  | _ => exact fail

end Agrees

/-- The emission of a tree fails as its check does, or has the static type as its value. -/
theorem check_agrees [Sanitizer] {tables : List Hashtable} {node : AstNode} :
    Agrees (emit tables node) (check tables node) ∧
      Agrees (emitAddr tables node) (checkAddr tables node) := by
  induction node using AstNode.parts_induct with
  | step node ih =>
    have list {nodes : List AstNode} (hnodes : ∀ c ∈ nodes, c ∈ node.parts) :
        ∀ n ∈ nodes, Agrees (emit tables n) (check tables n) := fun n hn => (ih n (hnodes n hn)).1
    have opt {o : Option AstNode} (ho : ∀ c ∈ o, c ∈ node.parts) :
        ∀ n ∈ o, Agrees (emit tables n) (check tables n) := fun n hn => (ih n (ho n hn)).1
    cases node
    case literal =>
      rw [emit, emitAddr, check, checkAddr]
      exact ⟨.literal, .literalAddr⟩
    case unaryop =>
      have h := ih _ (List.mem_singleton.mpr rfl)
      rw [emit, emitAddr, check, checkAddr]
      exact ⟨.unaryop h.1 h.2, .unaryopAddr h.1⟩
    case for_ | index =>
      rw [emit, emitAddr, check, checkAddr]
      exact ⟨.fail, .fail⟩
    all_goals
      rw [emit, check]
      refine ⟨?_, by rw [emitAddr, checkAddr] <;> first | exact .fail | simp⟩
    case grouping => exact (ih _ (by simp [parts, children])).1
    case binop =>
      exact .binop (ih _ (by simp [parts, children])).1 (ih _ (by simp [parts, children])).1
    case call =>
      exact .call (list fun c hc => by simp [parts, children, hc])
        (ih _ (by simp [parts, children])).1
    case block => exact .bind (.block (list fun c hc => hc)) fun _ => .pure
    case proc => exact .bind (.proc (opt fun c hc => Option.mem_toList.mpr hc)) fun _ => .pure
    case vardecl => exact .bind (.vardecl (opt fun c hc => Option.mem_toList.mpr hc)) fun _ => .pure
    case if_ =>
      exact .bind (.cond (opt fun c hc => by simp_all [parts, children])
        (ih _ (by simp [parts, children])).1 (ih _ (by simp [parts, children])).1) fun _ => .pure
    case while_ =>
      exact .bind (.while_ (ih _ (by simp [parts, children])).1
        (ih _ (by simp [parts, children])).1) fun _ => .pure
    case assign => exact .assign (ih _ (by simp [parts])).2 (ih _ (by simp [parts])).1
    case return_ => exact .bind (.return_ (opt fun c hc => Option.mem_toList.mpr hc)) fun _ => .pure
    case table => exact .pure
    case array => exact .array (list fun c hc => hc)

theorem Agrees.of_ok {α : Type} {x : Emit α} {c : Check α} {gen gen' : Gen} {a : α}
    {text : List Instr} (h : Agrees x c) (hx : x gen = .ok (a, text, gen')) :
    c gen.scope = .ok a ∧ gen'.scope = gen.scope := by
  have hagrees := h gen
  rwa [hx] at hagrees

section
variable {tables : List Hashtable} {node : AstNode} {gen gen' : Gen} {ty : Ty} {text : List Instr}

/-- What is emitted passes its check, and the emission stays in its scope. -/
theorem emit_checked (h : emit tables node gen = .ok (ty, text, gen')) :
    check tables node gen.scope = .ok ty ∧ gen'.scope = gen.scope :=
  check_agrees.1.of_ok h

theorem emitAddr_checked (h : emitAddr tables node gen = .ok (ty, text, gen')) :
    checkAddr tables node gen.scope = .ok ty ∧ gen'.scope = gen.scope :=
  check_agrees.2.of_ok h

end

/-- The emission of a program fails as its check does. -/
theorem codegen_error_iff [Sanitizer] {tables : List Hashtable} {root : AstNode} {e : Failure} :
    codegen tables root = .error e ↔ check tables root none = .error e := by
  have hagrees := (@check_agrees _ tables root).1 {}
  unfold codegen
  rcases hemit : emit tables root {} with e' | ⟨ty, text, gen⟩ <;> rw [hemit] at hagrees
  · simp [hagrees, Bind.bind, Except.bind]
  · simp [hagrees.1, Bind.bind, Except.bind, pure, Except.pure]

end Seron
