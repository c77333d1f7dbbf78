import Seron.Verify.AbsentTypes
import Seron.Verify.Scoping

/-! # Static types

The rules by which expressions have static types, over what the names in sight stand for, and that
the checks of the code generator follow them. -/

namespace Seron

/-- What the names in sight stand for. -/
abbrev Sight : Type := String → Option (SymbolKind × Ty)

/-! ## The rules -/

/-- What an operator can have at its sides: a pointer next to something that is counted in what it
points to, or two values of one kind. -/
inductive Combines : Ty → Ty → Prop
  | left {ty tr : Ty} : ty.Fits → tr.kind ≠ .pointer → Combines (.pointer (some ty)) tr
  | right {tl ty : Ty} : ty.Fits → tl.kind ≠ .pointer → Combines tl (.pointer (some ty))
  | same {tl tr : Ty} : tr.kind = tl.kind → Combines tl tr

/-- There is a place for the argument with this number: a parameter that fits into its register, or
any entry in the array of the parameters where the argument goes onto the stack. -/
def ProcSignature.Takes (sig : ProcSignature) (i : Nat) : Prop :=
  (∃ param, sig.params[i]? = some param ∧ (i < 6 → param.type.Fits)) ∨ 6 ≤ i ∧ i < maxParamCount

mutual

/-- The expression has a value of the type. -/
inductive Typed (Γ : Sight) : AstNode → Ty → Prop
  | string {op : Token} : Typed Γ (.literal op .string) (.pointer none)
  | number {op : Token} : Typed Γ (.literal op .number) (typeFromTokenLiteral op.numberType)
  | stored {op : Token} {kind : SymbolKind} {ty : Ty} : Γ op.value = some (kind, ty) →
    kind = .variable ∨ kind = .parameter → ty.Fits → Typed Γ (.literal op .ident) ty
  | procedure {op : Token} {ty : Ty} : Γ op.value = some (.procedure, ty) →
    Typed Γ (.literal op .ident) ty
  | grouping {e : AstNode} {ty : Ty} : Typed Γ e ty → Typed Γ (.grouping e) ty
  | unaryop {e : AstNode} {op : Token} {kind : UnaryOpKind} {ty : Ty} : kind = .neg ∨ kind = .minus →
    Typed Γ e ty → ty.Fits → Typed Γ (.unaryop e op kind) ty
  | deref {e : AstNode} {op : Token} {ty : Ty} : Typed Γ e (.pointer (some ty)) →
    Typed Γ (.unaryop e op .deref) ty
  /-- In the place of a pointee, a procedure has the type of its first parameter. -/
  | derefProc {e : AstNode} {op : Token} {param : Param} {params : List Param} {returntype : Ty} :
    Typed Γ e (.procedure ⟨param :: params, returntype⟩) → Typed Γ (.unaryop e op .deref) param.type
  | addrof {e : AstNode} {op : Token} {ty : Ty} : Located Γ e ty → Typed Γ (.unaryop e op .addrof) ty
  | binop {lhs rhs : AstNode} {op : Token} {kind : BinOpKind} {tl tr : Ty} : Typed Γ lhs tl → tl.Fits →
    Typed Γ rhs tr → tr.Fits → Combines tl tr →
    Typed Γ (.binop lhs rhs op kind) (if tr.kind = .pointer then tr else tl)
  /-- An argument need not have the type of its parameter. -/
  | call {op : Token} {callee : AstNode} {args : List AstNode} {sig : ProcSignature} {tys : List Ty} :
    Typed Γ callee (.procedure sig) → List.Forall₂ (Typed Γ) args tys →
    (∀ i < args.length, sig.Takes i) → Typed Γ (.call op callee args) sig.returntype
  /-- The kind of the address is compared, not of what is there. -/
  | assign {op : Token} {value target : AstNode} {tt tv : Ty} : Located Γ target tt →
    Typed Γ value tv → tt.kind = tv.kind → tv.Fits → Typed Γ (.assign op value target) tv
  | array {op : Token} {values : List AstNode} {type : Ty} {offset : Int} {tys : List Ty} : type.Fits →
    List.Forall₂ (Typed Γ) values tys → Typed Γ (.array op values type offset) (.pointer (some type))

/-- The expression has an address of the type. -/
inductive Located (Γ : Sight) : AstNode → Ty → Prop
  | stored {op : Token} {kind : SymbolKind} {ty : Ty} : Γ op.value = some (kind, ty) →
    kind = .variable ∨ kind = .parameter → Located Γ (.literal op .ident) (.pointer (some ty))
  | procedure {op : Token} {ty : Ty} : Γ op.value = some (.procedure, ty) →
    Located Γ (.literal op .ident) ty
  | deref {e : AstNode} {op : Token} {ty : Ty} : Typed Γ e ty → Located Γ (.unaryop e op .deref) ty

end

/-! ## The checks -/

/-- What the tables know about the names. -/
def sight (tables : List Hashtable) (scope : Option Nat) : Sight := fun name =>
  match symboltableLookup tables scope name with
  | .ok (some sym) => some (sym.kind, sym.type)
  | _ => none

variable {tables : List Hashtable} {scope : Option Nat} {node : AstNode} {nodes : List AstNode}
  {op : Token} {ty : Ty}

theorem sight_of_lookup {name : String} {sym : Option Symbol}
    (h : symboltableLookup tables scope name = .ok sym) :
    sight tables scope name = sym.map fun sym => (sym.kind, sym.type) := by
  unfold sight
  rw [h]
  cases sym <;> rfl

theorem sight_of_error {name : String} {e : Failure}
    (h : symboltableLookup tables scope name = .error e) : sight tables scope name = none := by
  unfold sight
  rw [h]

namespace Check

theorem then_ok {α : Type} {x : Check Unit} {y : Check α} {a : α} :
    (do x; y) scope = .ok a ↔ x scope = .ok () ∧ y scope = .ok a := by
  rw [bind_ok]
  constructor
  · rintro ⟨u, hx, hy⟩
    exact ⟨hx, hy⟩
  · rintro ⟨hx, hy⟩
    exact ⟨(), hx, hy⟩

theorem literalIdent_ok {str : String} {addr : Bool} :
    literalIdent tables str addr scope = .ok ty ↔
      (∃ kind ty', sight tables scope str = some (kind, ty') ∧ (kind = .variable ∨ kind = .parameter) ∧
        if addr then .pointer (some ty') = ty else ty'.Fits ∧ ty' = ty) ∨
      sight tables scope str = some (.procedure, ty) := by
  change (symboltableLookup tables scope str >>= _) = _ ↔ _
  cases hlookup : symboltableLookup tables scope str with
  | error e => exact iff_of_false (fun h => by cases h) (by simp [sight_of_error hlookup])
  | ok sym =>
    rw [sight_of_lookup hlookup]
    rcases sym with _ | ⟨kind, type, offset⟩
    · exact iff_of_false (fun h => by cases h) (by simp)
    · cases kind
      case procedure =>
        change Except.ok type = _ ↔ _
        simp
      case invalid | none | table => exact iff_of_false (fun h => by cases h) (by simp)
      all_goals
        cases addr with
        | true =>
          change Except.ok (Ty.pointer (some type)) = _ ↔ _
          simp
        | false =>
          change (sized type.kind >>= fun _ => Pure.pure type) scope = _ ↔ _
          rw [bind_ok]
          constructor
          · rintro ⟨u, hsized, heq⟩
            cases heq
            exact .inl ⟨_, _, rfl, by simp, sized_ok_fits.mp hsized, rfl⟩
          · rintro (⟨kind, ty', heq, -, hfits, rfl⟩ | heq)
            · cases heq
              exact ⟨(), sized_ok_fits.mpr hfits, rfl⟩
            · cases heq

theorem pointee_ok {ty' : Ty} : (liftM ty.pointee : Check Ty) scope = .ok ty' ↔
    ty = .pointer (some ty') ∨
      ∃ param params returntype, ty = .procedure ⟨param :: params, returntype⟩ ∧ param.type = ty' := by
  change ty.pointee = .ok ty' ↔ _
  cases ty
  case pointer o =>
    cases o with
    | none => exact iff_of_false (fun h => by cases h) (by simp)
    | some ty => simp [Ty.pointee]
  case procedure sig =>
    obtain ⟨_ | ⟨param, params⟩, returntype⟩ := sig
    · exact iff_of_false (fun h => by cases h) (by simp)
    · simp [Ty.pointee, Sanitizer.on]
  all_goals exact iff_of_false (fun h => by cases h) (by simp)

theorem operands_ok {tl tr : Ty} {u : Unit} : operands tl tr scope = .ok u ↔ Combines tl tr := by
  unfold operands
  have scaled {ty : Ty} (hkind : ty.kind = .pointer) :
      ((liftM ty.pointee : Check Ty) >>= fun ty' => sized ty'.kind) scope = .ok u ↔
        ∃ ty', ty = .pointer (some ty') ∧ ty'.Fits := by
    rw [bind_ok]
    refine exists_congr fun ty' => and_congr (pointee_ok.trans (or_iff_left ?_)) sized_ok_fits
    rintro ⟨param, params, returntype, rfl, -⟩
    cases hkind
  split
  · rename_i hkinds
    rw [scaled hkinds.1]
    constructor
    · rintro ⟨ty, rfl, hfits⟩
      exact .left hfits hkinds.2
    · intro h
      cases h with
      | left hfits => exact ⟨_, rfl, hfits⟩
      | right => exact (hkinds.2 rfl).elim
      | same heq => exact (hkinds.2 (heq.trans hkinds.1)).elim
  · rename_i hleft
    split
    · rename_i hkinds
      rw [scaled hkinds.2]
      constructor
      · rintro ⟨ty, rfl, hfits⟩
        exact .right hfits hkinds.1
      · intro h
        cases h with
        | left => exact (hkinds.1 rfl).elim
        | right hfits => exact ⟨_, rfl, hfits⟩
        | same heq => exact (hkinds.1 (heq.symm.trans hkinds.2)).elim
    · rename_i hright
      split
      · rename_i hne
        rw [mismatch_ok, false_iff]
        intro h
        cases h with
        | left _ hkind => exact hleft ⟨rfl, hkind⟩
        | right _ hkind => exact hright ⟨hkind, rfl⟩
        | same heq => exact hne heq
      · rename_i heq
        exact iff_of_true rfl (.same (not_not.mp heq))

theorem placed_ok {i : Nat} {k : TypeKind} {u : Unit} :
    placed i k scope = .ok u ↔ (i < 6 → ∃ n, typePrimitiveSize k = .ok n) := by
  have habi : (abiRegister (i + 1)).isSome = true ↔ i < 6 := by
    simp [abiRegister]
  unfold placed
  split
  · rename_i hi
    rw [sized_ok]
    exact ⟨fun h _ => h, fun h => h (habi.mp hi)⟩
  · rename_i hi
    exact iff_of_true rfl fun h => (hi (habi.mpr h)).elim

/-- The kind that decides where an argument goes is read, and the argument fits there. -/
theorem takes_iff {sig : ProcSignature} {i : Nat} :
    (∃ k, sig.paramKind i = .ok k ∧ placed i k scope = .ok ()) ↔ sig.Takes i := by
  simp only [placed_ok]
  unfold ProcSignature.Takes
  cases hparam : sig.params[i]? with
  | some param =>
    rw [ProcSignature.paramKind_of_some hparam]
    constructor
    · rintro ⟨k, hk, hfits⟩
      cases hk
      exact .inl ⟨param, rfl, hfits⟩
    · rintro (⟨param', heq, hfits⟩ | ⟨hi, -⟩)
      · cases heq
        exact ⟨_, rfl, hfits⟩
      · exact ⟨_, rfl, fun h => (Nat.not_lt.mpr hi h).elim⟩
  | none =>
    simp only [ProcSignature.paramKind, hparam, reduceCtorEq, false_and, exists_false, false_or]
    split
    · rename_i h
      exact iff_of_true ⟨_, rfl, fun hi => (Nat.not_lt.mpr h.2.1 hi).elim⟩ h.2
    · rename_i h
      refine iff_of_false ?_ fun hi => h ⟨rfl, hi⟩
      rintro ⟨k, hk, -⟩
      cases hk

theorem callArgs_ok_iff {sig : ProcSignature} {i : Nat} {u : Unit} :
    callArgs sig i (checks tables nodes) scope = .ok u ↔
      (∀ arg ∈ nodes, ∃ ty, check tables arg scope = .ok ty) ∧
        ∀ j < nodes.length, sig.Takes (i + j) := by
  induction nodes generalizing i with
  | nil => exact iff_of_true rfl ⟨List.forall_mem_nil _, by simp⟩
  | cons arg args ih =>
    have hhead : (∀ j < (arg :: args).length, sig.Takes (i + j)) ↔
        sig.Takes i ∧ ∀ j < args.length, sig.Takes (i + 1 + j) := by
      rw [List.length_cons, Nat.forall_lt_succ_left]
      simp only [Nat.add_zero, Nat.add_assoc, Nat.add_comm 1]
    rw [checks, callArgs, List.forall_mem_cons, hhead, ← @takes_iff scope]
    simp only [bind_ok, discard_ok, ih]
    constructor
    · rintro ⟨k, hk, u₁, hplaced, u₂, harg, hargs, htakes⟩
      exact ⟨⟨harg, hargs⟩, ⟨k, hk, hplaced⟩, htakes⟩
    · rintro ⟨⟨harg, hargs⟩, ⟨k, hk, hplaced⟩, htakes⟩
      exact ⟨k, hk, (), hplaced, (), harg, hargs, htakes⟩

theorem arrayElems_ok {type : Ty} {u : Unit} :
    arrayElems type (checks tables nodes) scope = .ok u ↔
      ∀ value ∈ nodes, ∃ ty, check tables value scope = .ok ty := by
  induction nodes with
  | nil => exact iff_of_true rfl (List.forall_mem_nil _)
  | cons value values ih =>
    rw [checks, arrayElems, List.forall_mem_cons, then_ok, discard_ok, ih]

theorem seq_ok {u : Unit} : seq (checks tables nodes) scope = .ok u ↔
    ∀ stmt ∈ nodes, ∃ ty, check tables stmt scope = .ok ty := by
  induction nodes with
  | nil => exact iff_of_true rfl (List.forall_mem_nil _)
  | cons stmt stmts ih =>
    rw [checks, seq, List.forall_mem_cons, then_ok, discard_ok, ih]

end Check

theorem forall₂_exists {α β : Type} {R : α → β → Prop} {as : List α} :
    (∃ bs, List.Forall₂ R as bs) ↔ ∀ a ∈ as, ∃ b, R a b := by
  induction as with
  | nil => exact iff_of_true ⟨[], .nil⟩ (List.forall_mem_nil _)
  | cons a as ih =>
    rw [List.forall_mem_cons, ← ih]
    constructor
    · rintro ⟨bs, h⟩
      cases h with
      | cons hb hbs => exact ⟨⟨_, hb⟩, _, hbs⟩
    · rintro ⟨⟨b, hb⟩, bs, hbs⟩
      exact ⟨b :: bs, .cons hb hbs⟩

/-! ### One construct -/

section
variable (tables : List Hashtable) (scope : Option Nat) (node : AstNode)

/-- The check of the expression succeeds with the types that the rules give to it. -/
def TypesExactly : Prop :=
  ∀ ty, check tables node scope = .ok ty ↔ Typed (sight tables scope) node ty

/-- So does the check of its address. -/
def LocatesExactly : Prop :=
  ∀ ty, checkAddr tables node scope = .ok ty ↔ Located (sight tables scope) node ty

end

theorem typed_list (h : ∀ c ∈ nodes, TypesExactly tables scope c) :
    (∀ c ∈ nodes, ∃ ty, check tables c scope = .ok ty) ↔
      ∃ tys, List.Forall₂ (Typed (sight tables scope)) nodes tys := by
  rw [forall₂_exists]
  exact forall₂_congr fun c hc => exists_congr (h c hc)

theorem literal_typed {kind : LiteralKind} : TypesExactly tables scope (.literal op kind) := by
  intro ty
  rw [check]
  cases kind with
  | string =>
    refine ⟨fun hcheck => ?_, fun htyped => ?_⟩
    · cases hcheck
      exact .string
    · cases htyped
      rfl
  | number =>
    refine ⟨fun hcheck => ?_, fun htyped => ?_⟩
    · cases hcheck
      exact .number
    · cases htyped
      rfl
  | ident =>
    rw [Check.literal, Check.literalIdent_ok]
    constructor
    · rintro (⟨kind, ty', hlookup, hkind, hfits, rfl⟩ | hlookup)
      · exact .stored hlookup hkind hfits
      · exact .procedure hlookup
    · intro htyped
      cases htyped with
      | stored hlookup hkind hfits => exact .inl ⟨_, _, hlookup, hkind, hfits, rfl⟩
      | procedure hlookup => exact .inr hlookup

theorem literal_located {kind : LiteralKind} : LocatesExactly tables scope (.literal op kind) := by
  intro ty
  rw [checkAddr]
  cases kind with
  | string | number =>
    refine iff_of_false (fun hcheck => ?_) fun hlocated => ?_
    · cases hcheck
    · cases hlocated
  | ident =>
    rw [Check.literalAddr, Check.literalIdent_ok]
    constructor
    · rintro (⟨kind, ty', hlookup, hkind, rfl⟩ | hlookup)
      · exact .stored hlookup hkind
      · exact .procedure hlookup
    · intro hlocated
      cases hlocated with
      | stored hlookup hkind => exact .inl ⟨_, _, hlookup, hkind, rfl⟩
      | procedure hlookup => exact .inr hlookup

theorem unaryop_typed {e : AstNode} {kind : UnaryOpKind} (he : TypesExactly tables scope e)
    (hloc : LocatesExactly tables scope e) : TypesExactly tables scope (.unaryop e op kind) := by
  intro ty
  rw [check]
  cases kind with
  | addrof =>
    rw [Check.unaryop, hloc]
    refine ⟨.addrof, fun htyped => ?_⟩
    cases htyped with
    | unaryop hkind => rcases hkind with hkind | hkind <;> cases hkind
    | addrof hlocated => exact hlocated
  | deref =>
    rw [Check.unaryop, Check.bind_ok]
    simp only [he _, Check.then_ok, Check.sized_ok_fits, Check.pointee_ok]
    constructor
    · rintro ⟨tp, htyped, -, rfl | ⟨param, params, returntype, rfl, rfl⟩⟩
      · exact .deref htyped
      · exact .derefProc htyped
    · intro htyped
      cases htyped with
      | unaryop hkind => rcases hkind with hkind | hkind <;> cases hkind
      | deref htyped => exact ⟨_, htyped, ⟨8, rfl⟩, .inl rfl⟩
      | derefProc htyped => exact ⟨_, htyped, ⟨8, rfl⟩, .inr ⟨_, _, _, rfl, rfl⟩⟩
  | neg | minus =>
    rw [Check.unaryop, Check.bind_ok]
    simp only [he _, Check.then_ok, Check.sized_ok_fits]
    constructor
    · rintro ⟨te, htyped, hfits, heq⟩
      cases heq
      exact .unaryop (by simp) htyped hfits
    · intro htyped
      cases htyped with
      | unaryop _ htyped hfits => exact ⟨_, htyped, hfits, rfl⟩

theorem unaryop_located {e : AstNode} {kind : UnaryOpKind} (he : TypesExactly tables scope e) :
    LocatesExactly tables scope (.unaryop e op kind) := by
  intro ty
  rw [checkAddr]
  cases kind with
  | deref =>
    rw [Check.unaryopAddr, he]
    refine ⟨.deref, fun hlocated => ?_⟩
    cases hlocated with
    | deref htyped => exact htyped
  | neg | minus | addrof =>
    refine iff_of_false (fun hcheck => ?_) fun hlocated => ?_
    · cases hcheck
    · cases hlocated

theorem grouping_typed {e : AstNode} (he : TypesExactly tables scope e) :
    TypesExactly tables scope (.grouping e) := by
  intro ty
  rw [check, he]
  refine ⟨.grouping, fun htyped => ?_⟩
  cases htyped with
  | grouping htyped => exact htyped

theorem binop_typed {lhs rhs : AstNode} {kind : BinOpKind} (hl : TypesExactly tables scope lhs)
    (hr : TypesExactly tables scope rhs) : TypesExactly tables scope (.binop lhs rhs op kind) := by
  intro ty
  rw [check, Check.binop, Check.bind_ok]
  simp only [hl _, hr _, Check.bind_ok, Check.sized_ok_fits, Check.operands_ok]
  constructor
  · rintro ⟨tr, hr, u, hrfits, tl, hl, u', hlfits, u'', hcombines, heq⟩
    cases heq
    exact .binop hl hlfits hr hrfits hcombines
  · intro htyped
    cases htyped with
    | binop hl hlfits hr hrfits hcombines =>
      exact ⟨_, hr, (), hrfits, _, hl, (), hlfits, (), hcombines, rfl⟩

theorem call_typed {callee : AstNode} (hc : TypesExactly tables scope callee)
    (hargs : ∀ arg ∈ nodes, TypesExactly tables scope arg) :
    TypesExactly tables scope (.call op callee nodes) := by
  intro ty
  rw [check]
  constructor
  · intro hcall
    obtain ⟨tc, htc, hcall⟩ := Check.bind_ok.mp hcall
    cases tc
    case procedure sig =>
      obtain ⟨hpassed, heq⟩ := Check.then_ok.mp hcall
      cases heq
      obtain ⟨htypes, htakes⟩ := Check.callArgs_ok_iff.mp hpassed
      obtain ⟨tys, htys⟩ := (typed_list hargs).mp htypes
      refine .call ((hc _).mp htc) htys fun i hi => ?_
      simpa only [Nat.zero_add] using htakes i hi
    all_goals cases hcall
  · intro htyped
    cases htyped with
    | @call _ _ _ sig tys htc htys htakes =>
      refine Check.bind_ok.mpr ⟨_, (hc _).mpr htc, Check.then_ok.mpr ⟨?_, rfl⟩⟩
      refine Check.callArgs_ok_iff.mpr ⟨(typed_list hargs).mpr ⟨tys, htys⟩, fun i hi => ?_⟩
      simpa only [Nat.zero_add] using htakes i hi

theorem assign_typed {value target : AstNode} (hv : TypesExactly tables scope value)
    (ht : LocatesExactly tables scope target) :
    TypesExactly tables scope (.assign op value target) := by
  intro ty
  rw [check, Check.assign, Check.bind_ok]
  simp only [ht _, Check.bind_ok, hv _]
  constructor
  · rintro ⟨tt, ht, tv, hv, hassign⟩
    split at hassign
    · exact (Check.mismatch_ok.mp hassign).elim
    · rename_i hkinds
      obtain ⟨hsized, heq⟩ := Check.then_ok.mp hassign
      cases heq
      exact .assign ht hv (not_not.mp hkinds) (Check.sized_ok_fits.mp hsized)
  · intro htyped
    cases htyped with
    | assign ht hv hkinds hfits =>
      refine ⟨_, ht, _, hv, ?_⟩
      rw [if_neg (not_not.mpr hkinds)]
      exact Check.then_ok.mpr ⟨Check.sized_ok_fits.mpr hfits, rfl⟩

theorem array_typed {type : Ty} {offset : Int} (h : ∀ v ∈ nodes, TypesExactly tables scope v) :
    TypesExactly tables scope (.array op nodes type offset) := by
  intro ty
  rw [check, Check.array, Check.then_ok, Check.sized_ok_fits, Check.then_ok, Check.arrayElems_ok,
    typed_list h]
  constructor
  · rintro ⟨hfits, ⟨tys, htys⟩, heq⟩
    cases heq
    exact .array hfits htys
  · intro htyped
    cases htyped with
    | array hfits htys => exact ⟨hfits, ⟨_, htys⟩, rfl⟩

/-- Only a name and a dereference have an address. -/
theorem other_located (hliteral : ∀ op kind, node ≠ .literal op kind)
    (hunaryop : ∀ e op kind, node ≠ .unaryop e op kind) : LocatesExactly tables scope node := by
  intro ty
  refine iff_of_false (fun hcheck => ?_) fun hlocated => ?_
  · cases node
    case literal => exact hliteral _ _ rfl
    case unaryop => exact hunaryop _ _ _ rfl
    all_goals
      rw [checkAddr] at hcheck
      · cases hcheck
      all_goals simp
  · cases hlocated
    case deref => exact hunaryop _ _ _ rfl
    all_goals exact hliteral _ _ rfl

/-! ### Expressions -/

theorem check_typed (hshape : Shape .expr node) :
    TypesExactly tables scope node ∧ LocatesExactly tables scope node := by
  induction node using AstNode.parts_induct with
  | step node ih =>
    have part {c : AstNode} (hc : c ∈ node.parts) := ih c hc (hshape.expr_part hc)
    cases node
    case literal => exact ⟨literal_typed, literal_located⟩
    case unaryop =>
      obtain ⟨he, hloc⟩ := part (List.mem_singleton.mpr rfl)
      exact ⟨unaryop_typed he hloc, unaryop_located he⟩
    all_goals refine ⟨?_, other_located (by simp) (by simp)⟩
    case grouping => exact grouping_typed (part (List.mem_singleton.mpr rfl)).1
    case binop =>
      exact binop_typed (part (by simp [AstNode.parts, AstNode.children])).1
        (part (by simp [AstNode.parts, AstNode.children])).1
    case call =>
      refine call_typed (part (by simp [AstNode.parts, AstNode.children])).1 fun arg harg => ?_
      exact (part (by simp [AstNode.parts, AstNode.children, harg])).1
    case assign =>
      exact assign_typed (part (by simp [AstNode.parts])).1 (part (by simp [AstNode.parts])).2
    case array => exact array_typed fun v hv => (part hv).1
    case index =>
      intro ty
      rw [check]
      refine iff_of_false (fun hcheck => ?_) fun htyped => ?_
      · cases hcheck
      · cases htyped
    all_goals cases hshape

end Seron
