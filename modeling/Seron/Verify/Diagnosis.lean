import Seron.Verify.Validity

/-! # Diagnosed programs

The code generator stops at the first construct that is not valid, in the order in which it emits
them. Some of these get a diagnostic: a name that is not declared or that is a type, and two types
that are compared and differ. -/

namespace Seron

open AstNode

/-! ## The rules -/

/-- The kinds differ, and a diagnostic has names for both. -/
def Clash (a b : Ty) : Prop :=
  a.kind ≠ b.kind ∧ (∃ s, stringifyTypekind a.kind = .ok s) ∧ ∃ s, stringifyTypekind b.kind = .ok s

/-- Neither a variable nor a procedure has the name. -/
def Unusable (tables : List Hashtable) (scope : Option Nat) (name : String) : Prop :=
  symboltableLookup tables scope name = .ok none ∨
    ∃ ty, sight tables scope name = some (.table, ty)

mutual

/-- The first construct that is not valid, in the order in which they are emitted, gets a
diagnostic. -/
inductive Diagnosed (tables : List Hashtable) : Option Nat → AstNode → Prop
  | name {scope : Option Nat} {op : Token} : Unusable tables scope op.value →
    Diagnosed tables scope (.literal op .ident)
  | operands {scope : Option Nat} {lhs rhs : AstNode} {op : Token} {kind : BinOpKind} {tl tr : Ty} :
    Typed (sight tables scope) rhs tr → tr.Fits → Typed (sight tables scope) lhs tl → tl.Fits →
    tl.kind ≠ .pointer → tr.kind ≠ .pointer → Clash tr tl →
      Diagnosed tables scope (.binop lhs rhs op kind)
  | assigned {scope : Option Nat} {op : Token} {value target : AstNode} {tt tv : Ty} :
    Located (sight tables scope) target tt → Typed (sight tables scope) value tv → Clash tt tv →
    Diagnosed tables scope (.assign op value target)
  | initialised {scope : Option Nat} {op ident : Token} {e : AstNode} {type ty : Ty} {offset : Int} :
    Typed (sight tables scope) e ty → Clash type ty →
    Diagnosed tables scope (.vardecl op ident (some e) type offset)
  | inGrouping {scope : Option Nat} {e : AstNode} : Diagnosed tables scope e →
    Diagnosed tables scope (.grouping e)
  | inUnaryop {scope : Option Nat} {e : AstNode} {op : Token} {kind : UnaryOpKind} : kind ≠ .addrof →
    Diagnosed tables scope e → Diagnosed tables scope (.unaryop e op kind)
  | inAddrof {scope : Option Nat} {e : AstNode} {op : Token} : AddrDiagnosed tables scope e →
    Diagnosed tables scope (.unaryop e op .addrof)
  | inRhs {scope : Option Nat} {lhs rhs : AstNode} {op : Token} {kind : BinOpKind} :
    Diagnosed tables scope rhs → Diagnosed tables scope (.binop lhs rhs op kind)
  | inLhs {scope : Option Nat} {lhs rhs : AstNode} {op : Token} {kind : BinOpKind} {tr : Ty} :
    Typed (sight tables scope) rhs tr → tr.Fits → Diagnosed tables scope lhs →
    Diagnosed tables scope (.binop lhs rhs op kind)
  | inTarget {scope : Option Nat} {op : Token} {value target : AstNode} :
    AddrDiagnosed tables scope target → Diagnosed tables scope (.assign op value target)
  | inValue {scope : Option Nat} {op : Token} {value target : AstNode} {tt : Ty} :
    Located (sight tables scope) target tt → Diagnosed tables scope value →
    Diagnosed tables scope (.assign op value target)
  | inCallee {scope : Option Nat} {op : Token} {callee : AstNode} {args : List AstNode} :
    Diagnosed tables scope callee → Diagnosed tables scope (.call op callee args)
  | inArg {scope : Option Nat} {op : Token} {callee arg : AstNode} {front rest : List AstNode}
    {sig : ProcSignature} : Typed (sight tables scope) callee (.procedure sig) →
    (∀ v ∈ front, ∃ ty, Typed (sight tables scope) v ty) → (∀ i ≤ front.length, sig.Takes i) →
    Diagnosed tables scope arg → Diagnosed tables scope (.call op callee (front ++ arg :: rest))
  | inArray {scope : Option Nat} {op : Token} {e : AstNode} {front rest : List AstNode} {type : Ty}
    {offset : Int} : type.Fits → (∀ v ∈ front, ∃ ty, Typed (sight tables scope) v ty) →
    Diagnosed tables scope e → Diagnosed tables scope (.array op (front ++ e :: rest) type offset)
  | inBlock {scope table : Option Nat} {s : AstNode} {front rest : List AstNode} :
    (∀ v ∈ front, Valid tables table v) → Diagnosed tables table s →
    Diagnosed tables scope (.block (front ++ s :: rest) table)
  | inWhileBody {scope : Option Nat} {op : Token} {cond body : AstNode} :
    Diagnosed tables scope body → Diagnosed tables scope (.while_ op cond body)
  | inWhileCond {scope : Option Nat} {op : Token} {cond body : AstNode} : Valid tables scope body →
    Diagnosed tables scope cond → Diagnosed tables scope (.while_ op cond body)
  | inCond {scope : Option Nat} {op : Token} {cond thenBody : AstNode} {elseBody : Option AstNode} :
    Diagnosed tables scope cond → Diagnosed tables scope (.if_ op cond thenBody elseBody)
  | inThen {scope : Option Nat} {op : Token} {cond thenBody : AstNode} {elseBody : Option AstNode}
    {ty : Ty} : Typed (sight tables scope) cond ty → ty.Fits → Diagnosed tables scope thenBody →
    Diagnosed tables scope (.if_ op cond thenBody elseBody)
  | inElse {scope : Option Nat} {op : Token} {cond thenBody elseBody : AstNode} {ty : Ty} :
    Typed (sight tables scope) cond ty → ty.Fits → Valid tables scope thenBody →
    Diagnosed tables scope elseBody → Diagnosed tables scope (.if_ op cond thenBody (some elseBody))
  | inReturn {scope : Option Nat} {op : Token} {e : AstNode} : Diagnosed tables scope e →
    Diagnosed tables scope (.return_ op (some e))
  | inVardecl {scope : Option Nat} {op ident : Token} {e : AstNode} {type : Ty} {offset : Int} :
    Diagnosed tables scope e → Diagnosed tables scope (.vardecl op ident (some e) type offset)
  | inProc {scope table : Option Nat} {op ident : Token} {body : AstNode} {sig : ProcSignature}
    {stackSize : Int} : (∀ param ∈ sig.params, param.type.Fits) → Diagnosed tables scope body →
    Diagnosed tables scope (.proc op ident (some body) (.procedure sig) table stackSize)

/-- So does the address of the expression. -/
inductive AddrDiagnosed (tables : List Hashtable) : Option Nat → AstNode → Prop
  | name {scope : Option Nat} {op : Token} : Unusable tables scope op.value →
    AddrDiagnosed tables scope (.literal op .ident)
  | inDeref {scope : Option Nat} {e : AstNode} {op : Token} : Diagnosed tables scope e →
    AddrDiagnosed tables scope (.unaryop e op .deref)

end

/-! ## Checks that end in a diagnostic -/

/-- A diagnostic is given. -/
abbrev Exit (e : Failure) : Prop := ∃ message, e = .exit message

variable {tables : List Hashtable} {scope table : Option Nat} {node : AstNode} {nodes : List AstNode}
  {op ident : Token} {ty : Ty}

namespace Check

theorem not_exit_sized {k : TypeKind} : ¬ (sized k).FailsBy Exit scope := by
  rw [sized, failsBy_discard]
  apply not_failsBy_lift
  intro err herr
  cases k <;> cases herr <;> simp

theorem exit_mismatch {α : Type} {message : String} {a b : TypeKind} :
    (mismatch message a b : Check α).FailsBy Exit scope ↔
      (∃ s, stringifyTypekind a = .ok s) ∧ ∃ s, stringifyTypekind b = .ok s := by
  have hname {k : TypeKind} : ¬ (liftM (stringifyTypekind k) : Check String).FailsBy Exit scope := by
    apply not_failsBy_lift
    intro err herr
    cases k <;> cases herr <;> simp
  unfold mismatch
  rw [failsBy_bind, or_iff_right hname]
  constructor
  · rintro ⟨sa, ha, h⟩
    obtain ⟨sb, hb, -⟩ := (failsBy_bind.trans (or_iff_right hname)).mp h
    exact ⟨⟨sa, ha⟩, sb, hb⟩
  · rintro ⟨⟨sa, ha⟩, sb, hb⟩
    exact ⟨sa, ha, failsBy_bind.mpr (.inr ⟨sb, hb, failsBy_throw.mpr ⟨_, rfl⟩⟩)⟩

theorem not_exit_pointee : ¬ (liftM ty.pointee : Check Ty).FailsBy Exit scope := by
  apply not_failsBy_lift
  intro err herr
  unfold Ty.pointee at herr
  split at herr
  case h_3 =>
    split at herr <;> cases herr
    simp
  all_goals cases herr <;> simp

theorem not_exit_paramKind {sig : ProcSignature} {i : Nat} :
    ¬ (liftM (sig.paramKind i) : Check TypeKind).FailsBy Exit scope := by
  apply not_failsBy_lift
  intro err herr
  unfold ProcSignature.paramKind at herr
  split at herr
  · cases herr
  · split at herr <;> cases herr
    simp

theorem not_exit_placed {i : Nat} {k : TypeKind} : ¬ (placed i k).FailsBy Exit scope := by
  unfold placed
  split
  · exact not_exit_sized
  · exact failsBy_pure

theorem not_exit_params {ps : List Param} : ¬ (params ps).FailsBy Exit scope := by
  induction ps with
  | nil => exact failsBy_pure
  | cons param ps ih => simp [params, failsBy_bind, ih, not_exit_sized]

theorem exit_literalIdent {str : String} {addr : Bool} :
    (literalIdent tables str addr).FailsBy Exit scope ↔ Unusable tables scope str := by
  have hread : (literalIdent tables str addr).FailsBy Exit scope ↔
      ((liftM (symboltableLookup tables scope str) : Check (Option Symbol)) >>= _).FailsBy
        Exit scope :=
    Iff.rfl
  rw [hread, failsBy_bind, or_iff_right (not_failsBy_lift fun err herr => by
    cases symboltableLookup_error herr <;> simp)]
  unfold Unusable
  constructor
  · rintro ⟨sym, hlookup, h⟩
    change symboltableLookup tables scope str = .ok sym at hlookup
    rcases sym with _ | ⟨kind, type, offset⟩
    · exact .inl hlookup
    · cases kind
      case table => exact .inr ⟨type, by rw [sight_of_lookup hlookup]; rfl⟩
      case procedure => exact (failsBy_pure h).elim
      case invalid | none => obtain ⟨message, heq⟩ := failsBy_throw.mp h; cases heq
      all_goals
        dsimp only at h
        split at h
        · exact (failsBy_pure h).elim
        · rcases failsBy_bind.mp h with h | ⟨u, -, h⟩
          · exact (not_exit_sized h).elim
          · exact (failsBy_pure h).elim
  · rintro (hlookup | ⟨ty, hsight⟩)
    · exact ⟨none, hlookup, failsBy_throw.mpr ⟨_, rfl⟩⟩
    · unfold sight at hsight
      split at hsight
      · rename_i sym hlookup
        obtain ⟨kind, type, offset⟩ := sym
        cases hsight
        exact ⟨_, hlookup, failsBy_throw.mpr ⟨_, rfl⟩⟩
      · cases hsight

theorem exit_operands {tl tr : Ty} : (operands tl tr).FailsBy Exit scope ↔
    tl.kind ≠ .pointer ∧ tr.kind ≠ .pointer ∧ Clash tr tl := by
  have scaled {ty : Ty} :
      ¬ ((liftM ty.pointee : Check Ty) >>= fun ty' => sized ty'.kind).FailsBy Exit scope := by
    rw [failsBy_bind]
    rintro (h | ⟨ty', -, h⟩)
    · exact not_exit_pointee h
    · exact not_exit_sized h
  unfold operands Clash
  split
  · rename_i hkinds
    exact iff_of_false scaled fun h => h.1 hkinds.1
  · rename_i hleft
    split
    · rename_i hkinds
      exact iff_of_false scaled fun h => h.2.1 hkinds.2
    · rename_i hright
      split
      · rename_i hne
        rw [exit_mismatch]
        have hl : tl.kind ≠ .pointer := fun hl => hleft ⟨hl, fun hr => hne (hr.trans hl.symm)⟩
        have hr : tr.kind ≠ .pointer := fun hr => hright ⟨hl, hr⟩
        exact ⟨fun h => ⟨hl, hr, hne, h⟩, fun h => h.2.2.2⟩
      · rename_i heq
        exact iff_of_false failsBy_pure fun h => heq h.2.2.1

theorem exit_callArgs {sig : ProcSignature} {i : Nat} :
    (callArgs sig i (checks tables nodes)).FailsBy Exit scope ↔
      ∃ front arg rest, nodes = front ++ arg :: rest ∧
        (∀ v ∈ front, ∃ ty, check tables v scope = .ok ty) ∧
        (∀ j ≤ front.length, sig.Takes (i + j)) ∧ (check tables arg).FailsBy Exit scope := by
  induction nodes generalizing i with
  | nil => simp [checks, callArgs]
  | cons arg args ih =>
    have hstep : (callArgs sig i (checks tables (arg :: args))).FailsBy Exit scope ↔
        sig.Takes i ∧ ((check tables arg).FailsBy Exit scope ∨
          (∃ ty, check tables arg scope = .ok ty) ∧
            (callArgs sig (i + 1) (checks tables args)).FailsBy Exit scope) := by
      rw [checks, callArgs, ← @takes_iff scope]
      simp only [failsBy_bind, not_exit_paramKind, not_exit_placed, failsBy_discard,
        discard_ok, false_or]
      constructor
      · rintro ⟨k, hk, u, hplaced, h | ⟨u', harg, hargs⟩⟩
        · exact ⟨⟨k, hk, hplaced⟩, .inl h⟩
        · exact ⟨⟨k, hk, hplaced⟩, .inr ⟨harg, hargs⟩⟩
      · rintro ⟨⟨k, hk, hplaced⟩, h | ⟨harg, hargs⟩⟩
        · exact ⟨k, hk, (), hplaced, .inl h⟩
        · exact ⟨k, hk, (), hplaced, .inr ⟨(), harg, hargs⟩⟩
    rw [hstep]
    constructor
    · rintro ⟨htakes, h | ⟨harg, h⟩⟩
      · refine ⟨[], arg, args, rfl, List.forall_mem_nil _, fun j hj => ?_, h⟩
        obtain rfl := Nat.le_zero.mp hj
        exact htakes
      · obtain ⟨front, arg', rest, rfl, hfront, hplaces, h⟩ := ih.mp h
        refine ⟨arg :: front, arg', rest, rfl, List.forall_mem_cons.mpr ⟨harg, hfront⟩,
          fun j hj => ?_, h⟩
        cases j with
        | zero => exact htakes
        | succ j =>
          rw [Nat.add_comm j, ← Nat.add_assoc]
          exact hplaces j (Nat.le_of_succ_le_succ hj)
    · rintro ⟨front, arg', rest, heq, hfront, hplaces, h⟩
      refine ⟨hplaces 0 (Nat.zero_le _), ?_⟩
      cases front with
      | nil =>
        obtain ⟨rfl, rfl⟩ := List.cons.inj heq
        exact .inl h
      | cons first front =>
        obtain ⟨rfl, rfl⟩ := List.cons.inj heq
        obtain ⟨hfirst, hfront⟩ := List.forall_mem_cons.mp hfront
        refine .inr ⟨hfirst, ih.mpr ⟨front, arg', rest, rfl, hfront, fun j hj => ?_, h⟩⟩
        rw [Nat.add_assoc, Nat.add_comm 1]
        exact hplaces (j + 1) (Nat.succ_le_succ hj)

end Check

/-! ## One construct -/

section
variable (tables : List Hashtable) (scope : Option Nat) (node : AstNode)

/-- The check of the node ends in a diagnostic iff the rules say so. -/
def DiagnosedExactly : Prop := (check tables node).FailsBy Exit scope ↔ Diagnosed tables scope node

/-- The same for the check of its address. -/
def AddrDiagnosedExactly : Prop :=
  (checkAddr tables node).FailsBy Exit scope ↔ AddrDiagnosed tables scope node

end

theorem literal_diagnosed {kind : LiteralKind} : DiagnosedExactly tables scope (.literal op kind) := by
  rw [DiagnosedExactly, check]
  cases kind with
  | ident =>
    refine Check.exit_literalIdent.trans ⟨.name, fun h => ?_⟩
    cases h with
    | name h => exact h
  | string | number => exact iff_of_false Check.failsBy_pure fun h => by cases h

theorem literal_addrDiagnosed {kind : LiteralKind} :
    AddrDiagnosedExactly tables scope (.literal op kind) := by
  rw [AddrDiagnosedExactly, checkAddr]
  cases kind with
  | ident =>
    refine Check.exit_literalIdent.trans ⟨.name, fun h => ?_⟩
    cases h with
    | name h => exact h
  | string | number =>
    refine iff_of_false (fun h => ?_) fun h => by cases h
    obtain ⟨message, heq⟩ := Check.failsBy_throw.mp h
    cases heq

theorem grouping_diagnosed {e : AstNode} (he : DiagnosedExactly tables scope e) :
    DiagnosedExactly tables scope (.grouping e) := by
  rw [DiagnosedExactly, check]
  refine he.trans ⟨.inGrouping, fun h => ?_⟩
  cases h with
  | inGrouping h => exact h

theorem unaryop_diagnosed {e : AstNode} {kind : UnaryOpKind} (he : DiagnosedExactly tables scope e)
    (haddr : AddrDiagnosedExactly tables scope e) :
    DiagnosedExactly tables scope (.unaryop e op kind) := by
  rw [DiagnosedExactly, check]
  have inner (hkind : kind ≠ .addrof) :
      (check tables e).FailsBy Exit scope ↔ Diagnosed tables scope (.unaryop e op kind) := by
    refine he.trans ⟨.inUnaryop hkind, fun h => ?_⟩
    cases h with
    | inUnaryop _ h => exact h
    | inAddrof => exact (hkind rfl).elim
  cases kind with
  | addrof =>
    refine haddr.trans ⟨.inAddrof, fun h => ?_⟩
    cases h with
    | inUnaryop hkind => exact (hkind rfl).elim
    | inAddrof h => exact h
  | neg | minus =>
    rw [← inner (by simp), Check.unaryop]
    simp only [Check.failsBy_bind, Check.not_exit_sized, Check.failsBy_pure, and_false, exists_false,
      or_false]
  | deref =>
    rw [← inner (by simp), Check.unaryop]
    simp only [Check.failsBy_bind, Check.not_exit_sized, Check.not_exit_pointee, and_false,
      exists_false,
      or_false]

theorem unaryop_addrDiagnosed {e : AstNode} {kind : UnaryOpKind}
    (he : DiagnosedExactly tables scope e) :
    AddrDiagnosedExactly tables scope (.unaryop e op kind) := by
  rw [AddrDiagnosedExactly, checkAddr]
  cases kind with
  | deref =>
    refine he.trans ⟨.inDeref, fun h => ?_⟩
    cases h with
    | inDeref h => exact h
  | neg | minus | addrof =>
    refine iff_of_false (fun h => ?_) fun h => by cases h
    obtain ⟨message, heq⟩ := Check.failsBy_throw.mp h
    cases heq

theorem binop_diagnosed {lhs rhs : AstNode} {kind : BinOpKind} (hl : DiagnosedExactly tables scope lhs)
    (hr : DiagnosedExactly tables scope rhs) (htl : TypesExactly tables scope lhs)
    (htr : TypesExactly tables scope rhs) :
    DiagnosedExactly tables scope (.binop lhs rhs op kind) := by
  unfold DiagnosedExactly at hl hr ⊢
  rw [check, Check.binop]
  simp only [Check.failsBy_bind, Check.not_exit_sized, Check.failsBy_pure, Check.exit_operands, hl, hr,
    htl _, htr _, Check.sized_ok_fits, and_false, exists_false, or_false, false_or]
  constructor
  · rintro (h | ⟨tr, htyped, u, hfits, h | ⟨tl, htyped', u', hfits', hkind, hkind', hclash⟩⟩)
    · exact .inRhs h
    · exact .inLhs htyped hfits h
    · exact .operands htyped hfits htyped' hfits' hkind hkind' hclash
  · intro h
    cases h with
    | operands htyped hfits htyped' hfits' hkind hkind' hclash =>
      exact .inr ⟨_, htyped, (), hfits, .inr ⟨_, htyped', (), hfits', hkind, hkind', hclash⟩⟩
    | inRhs h => exact .inl h
    | inLhs htyped hfits h => exact .inr ⟨_, htyped, (), hfits, .inl h⟩

theorem call_diagnosed {callee : AstNode} (hc : DiagnosedExactly tables scope callee)
    (hargs : ∀ arg ∈ nodes, DiagnosedExactly tables scope arg) (htc : TypesExactly tables scope callee)
    (htargs : ∀ arg ∈ nodes, TypesExactly tables scope arg) :
    DiagnosedExactly tables scope (.call op callee nodes) := by
  unfold DiagnosedExactly at hc ⊢
  rw [check, Check.call, Check.failsBy_bind, hc]
  constructor
  · rintro (h | ⟨tc, htyped, h⟩)
    · exact .inCallee h
    · cases tc
      case procedure sig =>
        rcases Check.failsBy_bind.mp h with h | ⟨u, -, h⟩
        · obtain ⟨front, arg, rest, rfl, hfront, htakes, h⟩ := Check.exit_callArgs.mp h
          simp only [Nat.zero_add] at htakes
          refine .inArg ((htc _).mp htyped) (fun v hv => ?_) htakes ((hargs arg (by simp)).mp h)
          obtain ⟨ty, hty⟩ := hfront v hv
          exact ⟨ty, (htargs v (by simp [hv]) ty).mp hty⟩
        · exact (Check.failsBy_pure h).elim
      all_goals
        obtain ⟨message, heq⟩ := Check.failsBy_throw.mp h
        cases heq
  · intro h
    cases h with
    | inCallee h => exact .inl h
    | @inArg _ _ _ arg front rest sig htyped hfront htakes h =>
      refine .inr ⟨_, (htc _).mpr htyped, Check.failsBy_bind.mpr (.inl ?_)⟩
      refine Check.exit_callArgs.mpr ⟨front, arg, rest, rfl, fun v hv => ?_, ?_,
        (hargs arg (by simp)).mpr h⟩
      · obtain ⟨ty, hty⟩ := hfront v hv
        exact ⟨ty, (htargs v (by simp [hv]) ty).mpr hty⟩
      · simpa only [Nat.zero_add] using htakes

theorem assign_diagnosed {value target : AstNode} (hv : DiagnosedExactly tables scope value)
    (ht : AddrDiagnosedExactly tables scope target) (htv : TypesExactly tables scope value)
    (htt : LocatesExactly tables scope target) :
    DiagnosedExactly tables scope (.assign op value target) := by
  have hrest {a b : Ty} : (if a.kind ≠ b.kind then Check.mismatch "Invalid type" a.kind b.kind
      else do Check.sized b.kind; pure b : Check Ty).FailsBy Exit scope ↔ Clash a b := by
    unfold Clash
    split
    · rename_i hne
      rw [Check.exit_mismatch]
      exact (and_iff_right hne).symm
    · rename_i heq
      refine iff_of_false (fun h => ?_) fun h => heq h.1
      rcases Check.failsBy_bind.mp h with h | ⟨u, -, h⟩
      · exact Check.not_exit_sized h
      · exact Check.failsBy_pure h
  unfold DiagnosedExactly AddrDiagnosedExactly at *
  rw [check, Check.assign]
  simp only [Check.failsBy_bind, hrest, hv, ht, htv _, htt _]
  constructor
  · rintro (h | ⟨tt, hlocated, h | ⟨tv, htyped, hclash⟩⟩)
    · exact .inTarget h
    · exact .inValue hlocated h
    · exact .assigned hlocated htyped hclash
  · intro h
    cases h with
    | assigned hlocated htyped hclash => exact .inr ⟨_, hlocated, .inr ⟨_, htyped, hclash⟩⟩
    | inTarget h => exact .inl h
    | inValue hlocated h => exact .inr ⟨_, hlocated, .inl h⟩

theorem array_diagnosed {type : Ty} {offset : Int} (h : ∀ v ∈ nodes, DiagnosedExactly tables scope v)
    (ht : ∀ v ∈ nodes, TypesExactly tables scope v) :
    DiagnosedExactly tables scope (.array op nodes type offset) := by
  rw [DiagnosedExactly, check, Check.array]
  simp only [Check.failsBy_bind, Check.not_exit_sized, Check.sized_ok_fits, Check.failsBy_pure,
    Check.failsBy_arrayElems, Check.failsBy_seq, false_or, exists_const, and_false, or_false]
  constructor
  · rintro ⟨hfits, front, e, rest, rfl, hfront, he⟩
    refine .inArray hfits (fun v hv => ?_) ((h e (by simp)).mp he)
    obtain ⟨ty, hty⟩ := hfront v hv
    exact ⟨ty, (ht v (by simp [hv]) ty).mp hty⟩
  · intro hdiag
    cases hdiag with
    | @inArray _ _ e front rest _ _ hfits hfront he =>
      refine ⟨hfits, front, e, rest, rfl, fun v hv => ?_, (h e (by simp)).mpr he⟩
      obtain ⟨ty, hty⟩ := hfront v hv
      exact ⟨ty, (ht v (by simp [hv]) ty).mpr hty⟩

/-- Only a name and a dereference have an address. -/
theorem other_addrDiagnosed (hliteral : ∀ op kind, node ≠ .literal op kind)
    (hunaryop : ∀ e op kind, node ≠ .unaryop e op kind) : AddrDiagnosedExactly tables scope node := by
  refine iff_of_false (fun hfails => ?_) fun hdiag => ?_
  · obtain ⟨e, he, message, rfl⟩ := hfails
    cases node
    case literal => exact hliteral _ _ rfl
    case unaryop => exact hunaryop _ _ _ rfl
    all_goals
      rw [checkAddr] at he
      · cases he
      all_goals simp
  · cases hdiag
    case name => exact hliteral _ _ rfl
    case inDeref => exact hunaryop _ _ _ rfl

theorem expr_diagnosed (hshape : Shape .expr node) :
    DiagnosedExactly tables scope node ∧ AddrDiagnosedExactly tables scope node := by
  induction node using AstNode.parts_induct with
  | step node ih =>
    have part {c : AstNode} (hc : c ∈ node.parts) := ih c hc (hshape.expr_part hc)
    have types {c : AstNode} (hc : c ∈ node.parts) :=
      @check_typed tables scope c (hshape.expr_part hc)
    cases node
    case literal => exact ⟨literal_diagnosed, literal_addrDiagnosed⟩
    case unaryop =>
      obtain ⟨he, haddr⟩ := part (List.mem_singleton.mpr rfl)
      exact ⟨unaryop_diagnosed he haddr, unaryop_addrDiagnosed he⟩
    all_goals refine ⟨?_, other_addrDiagnosed (by simp) (by simp)⟩
    case grouping => exact grouping_diagnosed (part (List.mem_singleton.mpr rfl)).1
    case binop lhs rhs op kind =>
      have hl : lhs ∈ (AstNode.binop lhs rhs op kind).parts := by simp [parts, children]
      have hr : rhs ∈ (AstNode.binop lhs rhs op kind).parts := by simp [parts, children]
      exact binop_diagnosed (part hl).1 (part hr).1 (types hl).1 (types hr).1
    case call op callee args =>
      have hc : callee ∈ (AstNode.call op callee args).parts := by simp [parts, children]
      have hargs : ∀ arg ∈ args, arg ∈ (AstNode.call op callee args).parts := by
        simp +contextual [parts, children]
      exact call_diagnosed (part hc).1 (fun arg harg => (part (hargs arg harg)).1) (types hc).1
        fun arg harg => (types (hargs arg harg)).1
    case assign op value target =>
      have hv : value ∈ (AstNode.assign op value target).parts := by simp [parts]
      have ht : target ∈ (AstNode.assign op value target).parts := by simp [parts]
      exact assign_diagnosed (part hv).1 (part ht).2 (types hv).1 (types ht).2
    case array => exact array_diagnosed (fun v hv => (part hv).1) fun v hv => (types hv).1
    case index =>
      rw [DiagnosedExactly, check]
      refine iff_of_false (fun h => ?_) fun h => by cases h
      obtain ⟨message, heq⟩ := Check.failsBy_throw.mp h
      cases heq
    all_goals cases hshape

/-! ### Statements -/

theorem block_diagnosed (hs : ∀ s ∈ nodes, DiagnosedExactly tables table s)
    (hvalid : ∀ s ∈ nodes, ValidExactly tables table s) :
    DiagnosedExactly tables scope (.block nodes table) := by
  have hblock : (check tables (.block nodes table)).FailsBy Exit scope ↔
      (Check.seq (checks tables nodes)).FailsBy Exit table := by
    rw [check, Check.failsBy_bind]
    simp only [Check.failsBy_pure, and_false, exists_false, or_false]
    exact Iff.rfl
  rw [DiagnosedExactly, hblock, Check.failsBy_seq]
  constructor
  · rintro ⟨front, s, rest, rfl, hfront, h⟩
    refine .inBlock (fun v hv => ?_) ((hs s (by simp)).mp h)
    exact (hvalid v (by simp [hv])).mp (hfront v hv)
  · intro h
    cases h with
    | @inBlock _ _ s front rest hfront h =>
      refine ⟨front, s, rest, rfl, fun v hv => ?_, (hs s (by simp)).mpr h⟩
      exact (hvalid v (by simp [hv])).mpr (hfront v hv)

theorem while_diagnosed {cond body : AstNode} (hc : DiagnosedExactly tables scope cond)
    (hb : DiagnosedExactly tables scope body) (hvalid : ValidExactly tables scope body) :
    DiagnosedExactly tables scope (.while_ op cond body) := by
  unfold DiagnosedExactly ValidExactly at *
  rw [check, Check.while_]
  simp only [Check.failsBy_bind, Check.failsBy_discard, Check.discard_ok, Check.not_exit_sized,
    Check.failsBy_pure, and_false, exists_false, or_false, exists_const, hc, hb, hvalid]
  constructor
  · rintro (h | ⟨hbody, h⟩)
    · exact .inWhileBody h
    · exact .inWhileCond hbody h
  · intro h
    cases h with
    | inWhileBody h => exact .inl h
    | inWhileCond hbody h => exact .inr ⟨hbody, h⟩

theorem if_diagnosed {cond thenBody : AstNode} {elseBody : Option AstNode}
    (hc : DiagnosedExactly tables scope cond) (htc : TypesExactly tables scope cond)
    (ht : DiagnosedExactly tables scope thenBody) (hvalid : ValidExactly tables scope thenBody)
    (he : ∀ b ∈ elseBody, DiagnosedExactly tables scope b) :
    DiagnosedExactly tables scope (.if_ op cond thenBody elseBody) := by
  unfold DiagnosedExactly ValidExactly at *
  rw [check, Check.cond]
  simp only [Check.failsBy_bind, Check.failsBy_discard, Check.discard_ok, Check.not_exit_sized,
    Check.sized_ok_fits, Check.failsBy_pure, Check.failsBy_opt, and_false, exists_false, or_false,
    false_or, exists_const, hc, htc _, ht, hvalid]
  constructor
  · rintro (h | ⟨ty, htyped, hfits, h | ⟨hthen, b, rfl, h⟩⟩)
    · exact .inCond h
    · exact .inThen htyped hfits h
    · exact .inElse htyped hfits hthen ((he b rfl).mp h)
  · intro h
    cases h with
    | inCond h => exact .inl h
    | inThen htyped hfits h => exact .inr ⟨_, htyped, hfits, .inl h⟩
    | inElse htyped hfits hthen h =>
      exact .inr ⟨_, htyped, hfits, .inr ⟨hthen, _, rfl, (he _ rfl).mpr h⟩⟩

theorem return_diagnosed {value : Option AstNode} (hv : ∀ e ∈ value, DiagnosedExactly tables scope e) :
    DiagnosedExactly tables scope (.return_ op value) := by
  rw [DiagnosedExactly, check]
  simp only [Check.failsBy_bind, Check.failsBy_opt, Check.failsBy_pure, and_false, exists_false,
    or_false]
  constructor
  · rintro ⟨e, rfl, h⟩
    exact .inReturn ((hv e rfl).mp h)
  · intro h
    cases h with
    | inReturn h => exact ⟨_, rfl, (hv _ rfl).mpr h⟩

theorem vardecl_diagnosed {init : Option AstNode} {type : Ty} {offset : Int}
    (hi : ∀ e ∈ init, DiagnosedExactly tables scope e)
    (hti : ∀ e ∈ init, TypesExactly tables scope e) :
    DiagnosedExactly tables scope (.vardecl op ident init type offset) := by
  have hrest {a b : Ty} : (if a.kind ≠ b.kind then Check.mismatch "Invalid type" a.kind b.kind
      else Check.sized b.kind : Check Unit).FailsBy Exit scope ↔ Clash a b := by
    unfold Clash
    split
    · rename_i hne
      rw [Check.exit_mismatch]
      exact (and_iff_right hne).symm
    · rename_i heq
      exact iff_of_false Check.not_exit_sized fun h => heq h.1
  rw [DiagnosedExactly, check]
  cases init with
  | none =>
    refine iff_of_false ?_ fun h => by cases h
    simp [checkOpt, Check.vardecl]
  | some e =>
    have hi := hi e rfl
    unfold DiagnosedExactly at hi
    simp only [checkOpt, Check.vardecl, Check.failsBy_bind, hrest, Check.failsBy_pure, and_false,
      exists_false, or_false, hi, hti e rfl _]
    constructor
    · rintro (h | ⟨ty, htyped, hclash⟩)
      · exact .inVardecl h
      · exact .initialised htyped hclash
    · intro h
      cases h with
      | initialised htyped hclash => exact .inr ⟨_, htyped, hclash⟩
      | inVardecl h => exact .inl h

theorem proc_diagnosed {body : Option AstNode} {sig : ProcSignature} {stackSize : Int}
    (hb : ∀ b ∈ body, DiagnosedExactly tables scope b) :
    DiagnosedExactly tables scope (.proc op ident body (.procedure sig) table stackSize) := by
  rw [DiagnosedExactly, check]
  cases body with
  | none =>
    refine iff_of_false ?_ fun h => by cases h
    simp [checkOpt, Check.proc]
  | some b =>
    have hb := hb b rfl
    unfold DiagnosedExactly at hb
    simp only [checkOpt, Check.proc, Check.failsBy_bind, Check.failsBy_discard, Check.not_exit_params,
      Check.failsBy_pure, and_false, exists_false, or_false, false_or, hb, exists_and_right,
      Check.params_ok]
    constructor
    · rintro ⟨hparams, h⟩
      exact .inProc hparams h
    · intro h
      cases h with
      | inProc hparams h => exact ⟨hparams, h⟩

/-- The check of a tree ends in a diagnostic iff the first construct that is not valid gets one. -/
theorem check_diagnosed {k : NodeClass} (hshape : Shape k node) :
    DiagnosedExactly tables scope node := by
  induction hshape generalizing scope with
  | literal => exact (expr_diagnosed .literal).1
  | grouping h => exact (expr_diagnosed (.grouping h)).1
  | binop hl hr => exact (expr_diagnosed (.binop hl hr)).1
  | unaryop h => exact (expr_diagnosed (.unaryop h)).1
  | call hc hargs => exact (expr_diagnosed (.call hc hargs)).1
  | array h => exact (expr_diagnosed (.array h)).1
  | assign hv ht => exact (expr_diagnosed (.assign hv ht)).1
  | index he hi => exact (expr_diagnosed (.index he hi)).1
  | exprstmt _ ih | blockstmt _ ih => exact ih
  | vardecl h =>
    exact vardecl_diagnosed (fun e he => (expr_diagnosed (h e he)).1) fun e he =>
      (check_typed (h e he)).1
  | if_ hc ht _ _ ihthen ihelse =>
    exact if_diagnosed (expr_diagnosed hc).1 (check_typed hc).1 ihthen (check_valid ht)
      fun b hb => ihelse b hb
  | while_ hc hb _ ihbody => exact while_diagnosed (expr_diagnosed hc).1 ihbody (check_valid hb)
  | for_ =>
    rw [DiagnosedExactly, check]
    refine iff_of_false (fun h => ?_) fun h => by cases h
    obtain ⟨message, heq⟩ := Check.failsBy_throw.mp h
    cases heq
  | return_ h => exact return_diagnosed fun e he => (expr_diagnosed (h e he)).1
  | block hs ih | program hs ih =>
    exact block_diagnosed (fun s hmem => ih s hmem) fun s hmem => check_valid (hs s hmem)
  | proc _ ih => exact proc_diagnosed fun b hb => ih b hb
  | table =>
    rw [DiagnosedExactly, check]
    exact iff_of_false Check.failsBy_pure fun h => by cases h

end Seron
