import Seron.Verify.Encoding

/-! # Absent type components

A dereference and the scaling of an operand read what a pointer points to, and a call reads the
signature of what is called. The code generator does not ask first whether they are there. The
results of this file are about runs under a sanitizer, which stops at every such read. -/

namespace Seron

open AstNode

attribute [local instance] Sanitizer.enabled

/-- A pointee, a signature or a parameter is read that the type does not have. -/
def Failure.absentComponent : Failure → Bool
  | .undefined what => ["ty.pointee is NULL", "ty.pointee of a type without one",
      "ty.signature of a type without one", "sig->params[i]"].contains what
  | _ => false

/-- A check stops because a type component is absent. -/
abbrev Absence (e : Failure) : Prop := e.absentComponent = true

namespace Ty

def pointee? : Ty → Option Ty
  | .pointer pointee => pointee
  | _ => none

def signature? : Ty → Option ProcSignature
  | .procedure sig => some sig
  | _ => none

/-- A value of the type fits into a register. -/
def Fits (ty : Ty) : Prop := ∃ n, typePrimitiveSize ty.kind = .ok n

end Ty

/-- The pointer that stands next to an integer points to nothing known. -/
def ScalesAbsent (tl tr : Ty) : Prop :=
  tl.kind = .pointer ∧ tr.kind ≠ .pointer ∧ tl.pointee? = none ∨
    tl.kind ≠ .pointer ∧ tr.kind = .pointer ∧ tr.pointee? = none

section
variable (tables : List Hashtable) (scope : Option Nat)

/-- The static type of an expression that is accepted. -/
def HasType (node : AstNode) (ty : Ty) : Prop := check tables node scope = .ok ty

def Accepted (node : AstNode) : Prop := ∃ ty, HasType tables scope node ty

/-- The arguments are accepted, from argument `i` on. -/
def Passes (sig : ProcSignature) (i : Nat) (args : List AstNode) : Prop :=
  ∃ u, Check.callArgs sig i (checks tables args) scope = .ok u

end

/-- The first construct that is not accepted, in the order in which they are emitted, reads a type
component that is absent. -/
inductive Faults (tables : List Hashtable) : Option Nat → AstNode → Prop
  | deref {scope : Option Nat} {e : AstNode} {op : Token} {ty : Ty} : HasType tables scope e ty →
    ty.Fits → ty.pointee? = none → Faults tables scope (.unaryop e op .deref)
  | scale {scope : Option Nat} {lhs rhs : AstNode} {op : Token} {kind : BinOpKind} {tl tr : Ty} :
    HasType tables scope rhs tr → tr.Fits → HasType tables scope lhs tl → tl.Fits →
    ScalesAbsent tl tr → Faults tables scope (.binop lhs rhs op kind)
  | callee {scope : Option Nat} {op : Token} {callee : AstNode} {args : List AstNode} {ty : Ty} :
    HasType tables scope callee ty → ty.signature? = none →
    Faults tables scope (.call op callee args)
  | extra {scope : Option Nat} {op : Token} {callee arg : AstNode} {front rest : List AstNode}
    {sig : ProcSignature} : HasType tables scope callee (.procedure sig) →
    Passes tables scope sig 0 front → sig.params[front.length]? = none →
    Faults tables scope (.call op callee (front ++ arg :: rest))
  | inGrouping {scope : Option Nat} {e : AstNode} : Faults tables scope e →
    Faults tables scope (.grouping e)
  | inUnaryop {scope : Option Nat} {e : AstNode} {op : Token} {kind : UnaryOpKind} :
    kind ≠ .addrof → Faults tables scope e → Faults tables scope (.unaryop e op kind)
  | inAddrof {scope : Option Nat} {e c : AstNode} {op : Token} : c ∈ e.addrOperands →
    Faults tables scope c → Faults tables scope (.unaryop e op .addrof)
  | inRhs {scope : Option Nat} {lhs rhs : AstNode} {op : Token} {kind : BinOpKind} :
    Faults tables scope rhs → Faults tables scope (.binop lhs rhs op kind)
  | inLhs {scope : Option Nat} {lhs rhs : AstNode} {op : Token} {kind : BinOpKind} {tr : Ty} :
    HasType tables scope rhs tr → tr.Fits → Faults tables scope lhs →
    Faults tables scope (.binop lhs rhs op kind)
  | inTarget {scope : Option Nat} {op : Token} {value target c : AstNode} :
    c ∈ target.addrOperands → Faults tables scope c →
    Faults tables scope (.assign op value target)
  | inValue {scope : Option Nat} {op : Token} {value target : AstNode} {ty : Ty} :
    checkAddr tables target scope = .ok ty → Faults tables scope value →
    Faults tables scope (.assign op value target)
  | inCallee {scope : Option Nat} {op : Token} {callee : AstNode} {args : List AstNode} :
    Faults tables scope callee → Faults tables scope (.call op callee args)
  | inArg {scope : Option Nat} {op : Token} {callee arg : AstNode} {front rest : List AstNode}
    {sig : ProcSignature} {param : Param} : HasType tables scope callee (.procedure sig) →
    Passes tables scope sig 0 front → sig.params[front.length]? = some param →
    (∃ u, Check.placed front.length param.type.kind scope = .ok u) → Faults tables scope arg →
    Faults tables scope (.call op callee (front ++ arg :: rest))
  | inArray {scope : Option Nat} {op : Token} {e : AstNode} {front rest : List AstNode} {type : Ty}
    {offset : Int} : type.Fits → (∀ v ∈ front, Accepted tables scope v) →
    Faults tables scope e → Faults tables scope (.array op (front ++ e :: rest) type offset)
  | inBlock {scope table : Option Nat} {s : AstNode} {front rest : List AstNode} :
    (∀ v ∈ front, Accepted tables table v) → Faults tables table s →
    Faults tables scope (.block (front ++ s :: rest) table)
  | inWhileBody {scope : Option Nat} {op : Token} {cond body : AstNode} :
    Faults tables scope body → Faults tables scope (.while_ op cond body)
  | inWhileCond {scope : Option Nat} {op : Token} {cond body : AstNode} :
    Accepted tables scope body → Faults tables scope cond →
    Faults tables scope (.while_ op cond body)
  | inCond {scope : Option Nat} {op : Token} {cond thenBody : AstNode} {elseBody : Option AstNode} :
    Faults tables scope cond → Faults tables scope (.if_ op cond thenBody elseBody)
  | inThen {scope : Option Nat} {op : Token} {cond thenBody : AstNode} {elseBody : Option AstNode}
    {ty : Ty} : HasType tables scope cond ty → ty.Fits → Faults tables scope thenBody →
    Faults tables scope (.if_ op cond thenBody elseBody)
  | inElse {scope : Option Nat} {op : Token} {cond thenBody elseBody : AstNode} {ty : Ty} :
    HasType tables scope cond ty → ty.Fits → Accepted tables scope thenBody →
    Faults tables scope elseBody → Faults tables scope (.if_ op cond thenBody (some elseBody))
  | inReturn {scope : Option Nat} {op : Token} {e : AstNode} : Faults tables scope e →
    Faults tables scope (.return_ op (some e))
  | inVardecl {scope : Option Nat} {op ident : Token} {e : AstNode} {type : Ty} {offset : Int} :
    Faults tables scope e → Faults tables scope (.vardecl op ident (some e) type offset)
  | inProc {scope table : Option Nat} {op ident : Token} {body : AstNode} {sig : ProcSignature}
    {stackSize : Int} : (∀ p ∈ sig.params, p.type.Fits) → Faults tables scope body →
    Faults tables scope (.proc op ident (some body) (.procedure sig) table stackSize)

/-! ## Checks that stop at such a read -/

namespace Check

variable {α β : Type} {x : Check α} {f : α → Check β} {scope : Option Nat} {ty : Ty}

@[simp] theorem not_absent_sized {k : TypeKind} : ¬ (sized k).FailsBy Absence scope := by
  rw [sized, failsBy_discard]
  apply not_failsBy_lift
  intro err herr
  cases k <;> cases herr <;> decide

theorem not_absent_stringify {k : TypeKind} :
    ¬ (liftM (stringifyTypekind k) : Check String).FailsBy Absence scope := by
  apply not_failsBy_lift
  intro err herr
  cases k <;> cases herr <;> decide

@[simp] theorem not_absent_mismatch {message : String} {a b : TypeKind} :
    ¬ (mismatch message a b : Check α).FailsBy Absence scope := by
  intro h
  rcases failsBy_bind.mp h with h | ⟨sa, -, h⟩
  · exact not_absent_stringify h
  · rcases failsBy_bind.mp h with h | ⟨sb, -, h⟩
    · exact not_absent_stringify h
    · cases failsBy_throw.mp h

theorem absent_pointee : (liftM ty.pointee : Check Ty).FailsBy Absence scope ↔ ty.pointee? = none := by
  cases ty
  case pointer p =>
    cases p with
    | none => exact iff_of_true ⟨_, rfl, rfl⟩ rfl
    | some ty => exact iff_of_false failsBy_pure (by simp [Ty.pointee?])
  case procedure sig =>
    obtain ⟨_ | ⟨param, params⟩, returntype⟩ := sig <;> exact iff_of_true ⟨_, rfl, rfl⟩ rfl
  all_goals exact iff_of_true ⟨_, rfl, rfl⟩ rfl

theorem paramKind_none {sig : ProcSignature} {i : Nat} (h : sig.params[i]? = none) :
    sig.paramKind i = .error (.undefined "sig->params[i]") := by
  rw [ProcSignature.paramKind, h]
  exact if_neg fun hon => by cases hon.1

@[simp] theorem not_absent_placed {i : Nat} {k : TypeKind} : ¬ (placed i k).FailsBy Absence scope := by
  unfold placed
  split <;> simp

theorem sized_ok_fits {u : Unit} : sized ty.kind scope = .ok u ↔ ty.Fits := sized_ok

theorem not_absent_operands {lhs rhs : Ty} :
    (operands lhs rhs).FailsBy Absence scope ↔ ScalesAbsent lhs rhs := by
  unfold operands ScalesAbsent
  split
  · rename_i h
    simp [failsBy_bind, absent_pointee, h]
  · split
    · rename_i h
      simp [failsBy_bind, absent_pointee, h]
    · split <;> simp_all

theorem absent_binop {l r : Check Ty} : (binop l r).FailsBy Absence scope ↔ r.FailsBy Absence scope ∨
    ∃ tr, r scope = .ok tr ∧ tr.Fits ∧ (l.FailsBy Absence scope ∨
      ∃ tl, l scope = .ok tl ∧ tl.Fits ∧ ScalesAbsent tl tr) := by
  unfold binop
  simp only [failsBy_bind, not_absent_sized, sized_ok_fits, not_absent_operands, failsBy_pure,
    and_false, exists_false, or_false, false_or, exists_const]

end Check

/-! ### Lookups -/

/-- How a lookup fails. -/
inductive LookupFailure : Failure → Prop
  | key : LookupFailure (.undefined "read behind a key")
  | table : LookupFailure (.undefined "dangling table")
  | scope : LookupFailure (.panic "scope is NULL")
  | fuel : LookupFailure .fuel

theorem getChain_error {key : List Char} {chain : List HashtableEntry} {e : Failure}
    (h : getChain key chain = .error e) : LookupFailure e := by
  induction chain with
  | nil => cases h
  | cons current chain ih =>
    rw [getChain] at h
    cases hcmp : strcmpKey current key with
    | error e' =>
      rw [hcmp] at h
      cases h
      unfold strcmpKey at hcmp
      split at hcmp
      · cases hcmp
      · split at hcmp <;> cases hcmp
        exact .key
    | ok found =>
      rw [hcmp] at h
      cases found with
      | true => cases h
      | false => exact ih h

theorem lookupChain_error {tables : List Hashtable} {key : String} {fuel : Nat} {scope : Option Nat}
    {e : Failure} (h : lookupChain tables key fuel scope = .error e) : LookupFailure e := by
  induction fuel generalizing scope with
  | zero =>
    cases scope <;> cases h
    exact .fuel
  | succ fuel ih =>
    cases scope with
    | none => cases h
    | some scope =>
      rw [lookupChain] at h
      split at h
      · cases h
        exact .table
      · rename_i ht hht
        cases hget : hashtableGet ht key with
        | error e' =>
          rw [hget] at h
          cases h
          exact getChain_error hget
        | ok sym =>
          rw [hget] at h
          cases sym with
          | none => exact ih h
          | some sym => cases h

theorem symboltableLookup_error {tables : List Hashtable} {scope : Option Nat} {key : String}
    {e : Failure} (h : symboltableLookup tables scope key = .error e) : LookupFailure e := by
  cases scope with
  | none =>
    cases h
    exact .scope
  | some scope => exact lookupChain_error h

namespace Check

variable {tables : List Hashtable} {scope : Option Nat}

@[simp] theorem not_absent_literalIdent {str : String} {addr : Bool} :
    ¬ (literalIdent tables str addr).FailsBy Absence scope := by
  intro h
  rcases failsBy_bind.mp h with h | ⟨scope', -, h⟩
  · obtain ⟨e, h, -⟩ := h
    cases h
  · rcases failsBy_bind.mp h with h | ⟨sym, -, h⟩
    · exact not_failsBy_lift (fun err herr => by cases symboltableLookup_error herr <;> decide) h
    · cases sym with
      | none => cases failsBy_throw.mp h
      | some sym =>
        rcases hkind : sym.kind <;> simp only [hkind] at h
        case procedure => exact failsBy_pure h
        case invalid | none | table => cases failsBy_throw.mp h
        all_goals
          split at h
          · exact failsBy_pure h
          · rcases failsBy_bind.mp h with h | ⟨u, -, h⟩
            · exact not_absent_sized h
            · exact failsBy_pure h

@[simp] theorem not_absent_literal {op : Token} {kind : LiteralKind} :
    ¬ (literal tables op kind).FailsBy Absence scope := by
  cases kind with
  | ident => exact not_absent_literalIdent
  | number => exact failsBy_pure
  | string => exact failsBy_pure

@[simp] theorem not_absent_literalAddr {op : Token} {kind : LiteralKind} :
    ¬ (literalAddr tables op kind).FailsBy Absence scope := by
  cases kind with
  | ident => exact not_absent_literalIdent
  | number | string =>
    intro h
    cases failsBy_throw.mp h

/-! ### Lists of nodes -/

/-- One argument more. -/
theorem passes_cons {sig : ProcSignature} {i : Nat} {arg : AstNode} {args : List AstNode} :
    Passes tables scope sig i (arg :: args) ↔ ∃ param, sig.params[i]? = some param ∧
      (∃ u, placed i param.type.kind scope = .ok u) ∧ Accepted tables scope arg ∧
      Passes tables scope sig (i + 1) args := by
  unfold Passes
  rw [checks, callArgs]
  simp only [bind_ok, discard_ok]
  cases hparam : sig.params[i]? with
  | none =>
    rw [paramKind_none hparam]
    refine iff_of_false ?_ (by simp)
    rintro ⟨u, k, hk, -⟩
    cases hk
  | some param =>
    rw [ProcSignature.paramKind_of_some hparam]
    simp only [Option.some.injEq, exists_eq_left']
    constructor
    · rintro ⟨u, k, hk, u₁, hplaced, u₂, harg, hargs⟩
      cases hk
      exact ⟨⟨u₁, hplaced⟩, harg, u, hargs⟩
    · rintro ⟨⟨u₁, hplaced⟩, harg, u, hargs⟩
      exact ⟨u, _, rfl, u₁, hplaced, (), harg, hargs⟩

theorem absent_callArgs {sig : ProcSignature} {i : Nat} {args : List AstNode} :
    (callArgs sig i (checks tables args)).FailsBy Absence scope ↔
      ∃ front arg rest, args = front ++ arg :: rest ∧ Passes tables scope sig i front ∧
        (sig.params[i + front.length]? = none ∨
          ∃ param, sig.params[i + front.length]? = some param ∧
            (∃ u, placed (i + front.length) param.type.kind scope = .ok u) ∧
            (check tables arg).FailsBy Absence scope) := by
  induction args generalizing i with
  | nil => simp [checks, callArgs]
  | cons arg args ih =>
    constructor
    · intro h
      rw [checks, callArgs] at h
      cases hparam : sig.params[i]? with
      | none => exact ⟨[], arg, args, rfl, ⟨(), rfl⟩, .inl hparam⟩
      | some param =>
        rw [ProcSignature.paramKind_of_some hparam] at h
        simp only [failsBy_bind, not_absent_placed, false_or, failsBy_discard, discard_ok] at h
        rcases h with h | ⟨k, hk, u, hplaced, h⟩
        · exact absurd h failsBy_pure
        cases hk
        obtain harg | ⟨u', harg, hargs⟩ := h
        · exact ⟨[], arg, args, rfl, ⟨(), rfl⟩, .inr ⟨param, hparam, ⟨u, hplaced⟩, harg⟩⟩
        · obtain ⟨front, arg', rest, rfl, hfront, hrest⟩ := ih.mp hargs
          refine ⟨arg :: front, arg', rest, rfl, passes_cons.mpr ⟨param, hparam, ⟨u, hplaced⟩,
            harg, hfront⟩, ?_⟩
          rwa [List.length_cons, ← Nat.add_assoc, Nat.add_right_comm]
    · rintro ⟨front, arg', rest, heq, hfront, hrest⟩
      rw [checks, callArgs]
      cases front with
      | nil =>
        obtain ⟨rfl, rfl⟩ := List.cons.inj heq
        rcases hrest with hparam | ⟨param, hparam, ⟨u, hplaced⟩, harg⟩
        · rw [List.length_nil, Nat.add_zero] at hparam
          rw [paramKind_none hparam]
          exact ⟨_, rfl, rfl⟩
        · rw [List.length_nil, Nat.add_zero] at hparam hplaced
          rw [ProcSignature.paramKind_of_some hparam]
          refine failsBy_bind.mpr (.inr ⟨_, rfl, ?_⟩)
          exact failsBy_bind.mpr (.inr ⟨u, hplaced, failsBy_bind.mpr (.inl (failsBy_discard.mpr harg))⟩)
      | cons first front =>
        obtain ⟨rfl, rfl⟩ := List.cons.inj heq
        obtain ⟨param, hparam, ⟨u, hplaced⟩, harg, hfront⟩ := passes_cons.mp hfront
        rw [ProcSignature.paramKind_of_some hparam]
        refine failsBy_bind.mpr (.inr ⟨_, rfl, ?_⟩)
        refine failsBy_bind.mpr (.inr ⟨u, hplaced, ?_⟩)
        refine failsBy_bind.mpr (.inr ⟨(), discard_ok.mpr harg, ?_⟩)
        refine ih.mpr ⟨front, arg', rest, rfl, hfront, ?_⟩
        rwa [List.length_cons, ← Nat.add_assoc, Nat.add_right_comm] at hrest

@[simp] theorem not_absent_params {ps : List Param} : ¬ (params ps).FailsBy Absence scope := by
  induction ps with
  | nil => exact failsBy_pure
  | cons param ps ih => simp [params, failsBy_bind, ih]

theorem params_ok {ps : List Param} :
    (∃ u, params ps scope = .ok u) ↔ ∀ p ∈ ps, p.type.Fits := by
  induction ps with
  | nil => exact iff_of_true ⟨(), rfl⟩ (List.forall_mem_nil _)
  | cons param ps ih =>
    rw [List.forall_mem_cons, ← ih, params]
    simp only [bind_ok, sized_ok_fits]
    constructor
    · rintro ⟨u, u', hparam, hps⟩
      exact ⟨hparam, u, hps⟩
    · rintro ⟨hparam, u, hps⟩
      exact ⟨u, (), hparam, hps⟩

end Check

/-! ## The constructs -/

section
variable {tables : List Hashtable} {scope : Option Nat} {node : AstNode}

/-- The check of the node stops at an absent component iff the node faults. -/
def FaultsExactly (tables : List Hashtable) (node : AstNode) : Prop :=
  ∀ scope, (check tables node).FailsBy Absence scope ↔ Faults tables scope node

theorem unaryop_faults {e : AstNode} {op : Token} {kind : UnaryOpKind} (ih : FaultsExactly tables e)
    (haddr : (checkAddr tables e).FailsBy Absence scope ↔ ∃ c ∈ e.addrOperands, Faults tables scope c) :
    (check tables (.unaryop e op kind)).FailsBy Absence scope ↔
      Faults tables scope (.unaryop e op kind) := by
  rw [check]
  have ih := ih scope
  have hsized {k : UnaryOpKind} (hk : k ≠ .addrof) (hd : k ≠ .deref) :
      (do let ty ← check tables e; Check.sized ty.kind; pure ty : Check Ty).FailsBy Absence scope ↔
        Faults tables scope (.unaryop e op k) := by
    simp only [Check.failsBy_bind, Check.not_absent_sized, Check.failsBy_pure, and_false, exists_false,
      or_false, ih]
    constructor
    · exact .inUnaryop hk
    · intro h
      cases h with
      | deref => exact (hd rfl).elim
      | inUnaryop _ h => exact h
      | inAddrof => exact (hk rfl).elim
  cases kind with
  | neg => exact hsized (by simp) (by simp)
  | minus => exact hsized (by simp) (by simp)
  | deref =>
    rw [Check.unaryop]
    simp only [Check.failsBy_bind, Check.not_absent_sized, Check.sized_ok_fits, Check.absent_pointee,
      false_or, exists_const, ih]
    constructor
    · rintro (h | ⟨ty, hty, hfits, hpointee⟩)
      · exact .inUnaryop (by simp) h
      · exact .deref hty hfits hpointee
    · intro h
      cases h with
      | deref hty hfits hpointee => exact .inr ⟨_, hty, hfits, hpointee⟩
      | inUnaryop _ h => exact .inl h
  | addrof =>
    rw [Check.unaryop, haddr]
    constructor
    · rintro ⟨c, hc, h⟩
      exact .inAddrof hc h
    · intro h
      cases h with
      | inUnaryop hk => exact (hk rfl).elim
      | inAddrof hc h => exact ⟨_, hc, h⟩

theorem binop_faults {lhs rhs : AstNode} {op : Token} {kind : BinOpKind}
    (hl : FaultsExactly tables lhs) (hr : FaultsExactly tables rhs) :
    FaultsExactly tables (.binop lhs rhs op kind) := by
  intro scope
  rw [check, Check.absent_binop, hl scope, hr scope]
  constructor
  · rintro (h | ⟨tr, htr, hfits, h | ⟨tl, htl, hfits', h⟩⟩)
    · exact .inRhs h
    · exact .inLhs htr hfits h
    · exact .scale htr hfits htl hfits' h
  · intro h
    cases h with
    | scale htr hfits htl hfits' h => exact .inr ⟨_, htr, hfits, .inr ⟨_, htl, hfits', h⟩⟩
    | inRhs h => exact .inl h
    | inLhs htr hfits h => exact .inr ⟨_, htr, hfits, .inl h⟩

theorem assign_faults {op : Token} {value target : AstNode} (hv : FaultsExactly tables value)
    (ht : ∀ scope, (checkAddr tables target).FailsBy Absence scope ↔
      ∃ c ∈ target.addrOperands, Faults tables scope c) :
    FaultsExactly tables (.assign op value target) := by
  intro scope
  have hrest {a b : Ty} : ¬ (if a.kind ≠ b.kind then Check.mismatch "Invalid type" a.kind b.kind
      else do Check.sized b.kind; pure b : Check Ty).FailsBy Absence scope := by
    split
    · simp
    · rw [Check.failsBy_bind]
      simp
  rw [check, Check.assign]
  simp only [Check.failsBy_bind, hrest, and_false, exists_false, or_false, ht scope, hv scope]
  constructor
  · rintro (⟨c, hc, h⟩ | ⟨ty, hty, h⟩)
    · exact .inTarget hc h
    · exact .inValue hty h
  · intro h
    cases h with
    | inTarget hc h => exact .inl ⟨_, hc, h⟩
    | inValue hty h => exact .inr ⟨_, hty, h⟩

theorem call_faults {op : Token} {callee : AstNode} {args : List AstNode}
    (hc : FaultsExactly tables callee) (ha : ∀ e ∈ args, FaultsExactly tables e) :
    FaultsExactly tables (.call op callee args) := by
  intro scope
  rw [check, Check.call, Check.failsBy_bind, hc scope]
  constructor
  · rintro (h | ⟨ty, hty, h⟩)
    · exact .inCallee h
    · split at h
      · rename_i sig
        rcases Check.failsBy_bind.mp h with h | ⟨u, -, h⟩
        · obtain ⟨front, arg, rest, rfl, hfront, h⟩ := Check.absent_callArgs.mp h
          rw [Nat.zero_add] at h
          rcases h with hnone | ⟨param, hparam, hplaced, harg⟩
          · exact .extra hty hfront hnone
          · exact .inArg hty hfront hparam hplaced ((ha arg (by simp) scope).mp harg)
        · exact absurd h Check.failsBy_pure
      · rename_i hsig
        refine .callee hty ?_
        cases ty <;> simp_all [Ty.signature?]
  · intro h
    cases h with
    | callee hty hsig =>
      refine .inr ⟨_, hty, ?_⟩
      split
      · cases hsig
      · exact Check.failsBy_throw.mpr rfl
    | extra hty hfront hnone =>
      refine .inr ⟨_, hty, Check.failsBy_bind.mpr (.inl (Check.absent_callArgs.mpr ?_))⟩
      exact ⟨_, _, _, rfl, hfront, .inl (by rwa [Nat.zero_add])⟩
    | inCallee h => exact .inl h
    | inArg hty hfront hparam hplaced harg =>
      refine .inr ⟨_, hty, Check.failsBy_bind.mpr (.inl (Check.absent_callArgs.mpr ?_))⟩
      refine ⟨_, _, _, rfl, hfront, .inr ?_⟩
      rw [Nat.zero_add]
      exact ⟨_, hparam, hplaced, (ha _ (by simp) scope).mpr harg⟩

theorem array_faults {op : Token} {values : List AstNode} {type : Ty} {offset : Int}
    (hv : ∀ e ∈ values, FaultsExactly tables e) :
    FaultsExactly tables (.array op values type offset) := by
  intro scope
  rw [check, Check.array]
  simp only [Check.failsBy_bind, Check.not_absent_sized, Check.sized_ok_fits, Check.failsBy_pure,
    Check.failsBy_arrayElems, Check.failsBy_seq, false_or, exists_const, and_false, or_false]
  constructor
  · rintro ⟨hfits, front, e, rest, rfl, hfront, h⟩
    exact .inArray hfits hfront ((hv e (by simp) scope).mp h)
  · intro h
    cases h with
    | inArray hfits hfront h =>
      exact ⟨hfits, _, _, _, rfl, hfront, (hv _ (by simp) scope).mpr h⟩

theorem block_faults {stmts : List AstNode} {table : Option Nat}
    (hs : ∀ s ∈ stmts, FaultsExactly tables s) : FaultsExactly tables (.block stmts table) := by
  intro scope
  have hblock : (check tables (.block stmts table)).FailsBy Absence scope ↔
      (Check.seq (checks tables stmts)).FailsBy Absence table := by
    rw [check, Check.failsBy_bind]
    simp only [Check.failsBy_pure, and_false, exists_false, or_false]
    exact Iff.rfl
  rw [hblock, Check.failsBy_seq]
  constructor
  · rintro ⟨front, s, rest, rfl, hfront, h⟩
    exact .inBlock hfront ((hs s (by simp) table).mp h)
  · intro h
    cases h with
    | inBlock hfront h => exact ⟨_, _, _, rfl, hfront, (hs _ (by simp) table).mpr h⟩

theorem while_faults {op : Token} {cond body : AstNode} (hc : FaultsExactly tables cond)
    (hb : FaultsExactly tables body) : FaultsExactly tables (.while_ op cond body) := by
  intro scope
  rw [check, Check.while_]
  simp only [Check.failsBy_bind, Check.failsBy_discard, Check.discard_ok, Check.not_absent_sized,
    Check.failsBy_pure, and_false, exists_false, or_false, exists_const, hc scope, hb scope]
  constructor
  · rintro (h | ⟨hbody, h⟩)
    · exact .inWhileBody h
    · exact .inWhileCond hbody h
  · intro h
    cases h with
    | inWhileBody h => exact .inl h
    | inWhileCond hbody h => exact .inr ⟨hbody, h⟩

theorem if_faults {op : Token} {cond thenBody : AstNode} {elseBody : Option AstNode}
    (hc : FaultsExactly tables cond) (ht : FaultsExactly tables thenBody)
    (he : ∀ b ∈ elseBody, FaultsExactly tables b) :
    FaultsExactly tables (.if_ op cond thenBody elseBody) := by
  intro scope
  rw [check, Check.cond]
  simp only [Check.failsBy_bind, Check.failsBy_discard, Check.discard_ok, Check.not_absent_sized,
    Check.sized_ok_fits, Check.failsBy_pure, Check.failsBy_opt, and_false, exists_false, or_false,
    false_or, exists_const, hc scope, ht scope]
  constructor
  · rintro (h | ⟨ty, hty, hfits, h | ⟨hthen, b, rfl, h⟩⟩)
    · exact .inCond h
    · exact .inThen hty hfits h
    · exact .inElse hty hfits hthen ((he b rfl scope).mp h)
  · intro h
    cases h with
    | inCond h => exact .inl h
    | inThen hty hfits h => exact .inr ⟨_, hty, hfits, .inl h⟩
    | inElse hty hfits hthen h =>
      exact .inr ⟨_, hty, hfits, .inr ⟨hthen, _, rfl, (he _ rfl scope).mpr h⟩⟩

theorem return_faults {op : Token} {value : Option AstNode}
    (hv : ∀ e ∈ value, FaultsExactly tables e) : FaultsExactly tables (.return_ op value) := by
  intro scope
  rw [check]
  simp only [Check.failsBy_bind, Check.failsBy_opt, Check.failsBy_pure, and_false, exists_false,
    or_false]
  constructor
  · rintro ⟨e, rfl, h⟩
    exact .inReturn ((hv e rfl scope).mp h)
  · intro h
    cases h with
    | inReturn h => exact ⟨_, rfl, (hv _ rfl scope).mpr h⟩

theorem vardecl_faults {op ident : Token} {init : Option AstNode} {type : Ty} {offset : Int}
    (hi : ∀ e ∈ init, FaultsExactly tables e) :
    FaultsExactly tables (.vardecl op ident init type offset) := by
  intro scope
  have hrest {a b : Ty} : ¬ (if a.kind ≠ b.kind then Check.mismatch "Invalid type" a.kind b.kind
      else Check.sized b.kind : Check Unit).FailsBy Absence scope := by
    split <;> simp
  rw [check]
  cases init with
  | none =>
    refine iff_of_false ?_ fun h => by cases h
    simp [checkOpt, Check.vardecl]
  | some e =>
    simp only [checkOpt, Check.vardecl, Check.failsBy_bind, hrest, Check.failsBy_pure, and_false,
      exists_false, or_false, hi e rfl scope]
    constructor
    · exact .inVardecl
    · intro h
      cases h with
      | inVardecl h => exact h

theorem proc_faults {op ident : Token} {body : Option AstNode} {type : Ty} {table : Option Nat}
    {stackSize : Int} (hb : ∀ b ∈ body, FaultsExactly tables b) :
    FaultsExactly tables (.proc op ident body type table stackSize) := by
  intro scope
  rw [check]
  cases body with
  | none =>
    refine iff_of_false ?_ fun h => by cases h
    simp [checkOpt, Check.proc]
  | some b =>
    cases type
    case procedure sig =>
      simp only [checkOpt, Check.proc, Check.failsBy_bind, Check.failsBy_discard,
        Check.not_absent_params, Check.failsBy_pure, and_false, exists_false, or_false, false_or,
        hb b rfl scope, exists_and_right, Check.params_ok]
      constructor
      · rintro ⟨hparams, h⟩
        exact .inProc hparams h
      · intro h
        cases h with
        | inProc hparams h => exact ⟨hparams, h⟩
    all_goals
      refine iff_of_false ?_ fun h => by cases h
      intro h
      rcases Check.failsBy_bind.mp h with h | ⟨u, -, h⟩
      · cases Check.failsBy_throw.mp h
      · exact Check.failsBy_pure h

theorem check_faults : FaultsExactly tables node ∧ ∀ scope,
    (checkAddr tables node).FailsBy Absence scope ↔ ∃ c ∈ node.addrOperands, Faults tables scope c := by
  induction node using AstNode.parts_induct with
  | step node ih =>
    have ih' : ∀ c ∈ node.parts, FaultsExactly tables c := fun c hc => (ih c hc).1
    have noAddr {x : Check Ty} {e : Failure} (hx : x = throw e) (he : e.absentComponent = false)
        (hnode : node.addrOperands = []) (scope : Option Nat) :
        x.FailsBy Absence scope ↔ ∃ c ∈ node.addrOperands, Faults tables scope c := by
      rw [hx, Check.failsBy_throw, Absence, he, hnode]
      simp
    cases node
    case literal op kind =>
      refine ⟨fun scope => ?_, fun scope => ?_⟩
      · rw [check]
        exact iff_of_false Check.not_absent_literal fun h => by cases h
      · rw [checkAddr]
        simp [addrOperands]
    case unaryop e op kind =>
      obtain ⟨he, haddr⟩ := ih e (by simp [parts, children])
      refine ⟨fun scope => unaryop_faults he (haddr scope), fun scope => ?_⟩
      rw [checkAddr]
      cases kind with
      | deref => simpa [Check.unaryopAddr, addrOperands] using he scope
      | neg | minus | addrof =>
        refine iff_of_false (fun h => ?_) (by simp [addrOperands])
        cases Check.failsBy_throw.mp h
    case index | for_ =>
      refine ⟨fun scope => ?_, noAddr (by rw [checkAddr]) rfl rfl⟩
      rw [check]
      refine iff_of_false (fun h => ?_) fun h => by cases h
      cases Check.failsBy_throw.mp h
    all_goals refine ⟨?_, noAddr (by rw [checkAddr] <;> simp) rfl rfl⟩
    case grouping e =>
      intro scope
      rw [check, ih' e (by simp [parts, children]) scope]
      refine ⟨.inGrouping, fun h => ?_⟩
      cases h with
      | inGrouping h => exact h
    case binop =>
      exact binop_faults (ih' _ (by simp [parts, children])) (ih' _ (by simp [parts, children]))
    case call =>
      exact call_faults (ih' _ (by simp [parts, children])) fun e he =>
        ih' e (by simp [parts, children, he])
    case block => exact block_faults fun s hs => ih' s hs
    case proc => exact proc_faults fun b hb => ih' b (Option.mem_toList.mpr hb)
    case vardecl => exact vardecl_faults fun e he => ih' e (Option.mem_toList.mpr he)
    case if_ =>
      refine if_faults (ih' _ (by simp [parts, children])) (ih' _ (by simp [parts, children])) ?_
      intro b hb
      exact ih' b (by simp_all [parts, children])
    case while_ =>
      exact while_faults (ih' _ (by simp [parts, children])) (ih' _ (by simp [parts, children]))
    case assign => exact assign_faults (ih' _ (by simp [parts])) (ih _ (by simp [parts])).2
    case return_ => exact return_faults fun e he => ih' e (Option.mem_toList.mpr he)
    case table =>
      intro scope
      rw [check]
      exact iff_of_false Check.failsBy_pure fun h => by cases h
    case array => exact array_faults fun e he => ih' e he

end

/-! ## Programs -/

/-- Whatever stops the code generator, it is no read of an absent type component. -/
def NeverReadsAbsent (tables : List Hashtable) (root : AstNode) : Prop :=
  ∀ e, codegen tables root = .error e → e.absentComponent = false

/-- The compiler reads an absent type component iff the first construct that it cannot accept is a
dereference of what is no pointer or points to nothing known, a pointer of the latter kind next to an
integer, a call of what is no procedure, or an argument without a parameter. -/
theorem neverReadsAbsent_iff {tables : List Hashtable} {root : AstNode} :
    NeverReadsAbsent tables root ↔ ¬ Faults tables none root := by
  rw [← (@check_faults tables root).1 none]
  constructor
  · intro hnever habsent
    obtain ⟨e, he, habsent⟩ := habsent
    rw [Absence, hnever e (codegen_error_iff.mpr he)] at habsent
    cases habsent
  · intro hnot e he
    rw [Bool.eq_false_iff]
    intro habsent
    exact hnot ⟨e, codegen_error_iff.mp he, habsent⟩

/-- `proc f(x: int) int { return *x; }` -/
def derefInt : List Token :=
  [{ kind := .kwProc }, .ident "f", { kind := .lparen }, .ident "x", { kind := .colon },
    { kind := .kwTypeInt }, { kind := .rparen }, { kind := .kwTypeInt }, { kind := .lbrace },
    { kind := .kwReturn }, { kind := .asterisk }, .ident "x", { kind := .semicolon },
    { kind := .rbrace }, .eof]

/-- What an `int` points to is read. -/
theorem derefInt_reads : ∃ root p root' root'' st, parse 100 [] derefInt = .ok root p ∧
    expandAst root = .ok root' ∧ symboltableBuild root' = .ok (root'', st) ∧
    ¬ NeverReadsAbsent st.tables root'' := by
  obtain ⟨root, p, root', root'', st, hparse, hexpand, hbuild, htest⟩ :=
    @of_annotatesTo (fun _ root tables =>
      match codegen tables root with
      | .error e => e.absentComponent
      | .ok _ => false) 100 derefInt (by decide +kernel)
  refine ⟨root, p, root', root'', st, hparse, hexpand, hbuild, fun hnever => ?_⟩
  split at htest
  · rename_i e he
    rw [hnever e he] at htest
    cases htest
  · cases htest

end Seron
