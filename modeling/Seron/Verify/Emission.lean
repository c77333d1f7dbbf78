import Seron.Codegen.Emit

/-! # What each function of the code generator writes

One lemma for each kind of expression: when its emission succeeds, and which text it is then. The
texts of the children stay opaque. -/

namespace Seron

variable {tables : List Hashtable} {gen gen' : Gen} {ty : Ty} {code : List Instr}

theorem invalidTypes_ok {α : Type} {message : String} {k k' : TypeKind} {r : α × List Instr × Gen} :
    (invalidTypes message k k' : Emit α) gen = .ok r ↔ False := by
  simp only [invalidTypes, Emit.lift_bind_ok, fail, reduceCtorEq, and_false, exists_false]

/-- A block is emitted in its own scope, which it leaves at its end. -/
theorem block_ok {t : Option Nat} {stmts : List (Emit Ty)}
    (h : block t stmts gen = .ok ((), code, gen')) :
    ∃ gen₁, emitSeq stmts { gen with scope := t } = .ok ((), code, gen₁) ∧
      gen' = { gen₁ with scope := gen.scope } := by
  rw [block, getGen_bind_ok, modifyGen_bind_ok] at h
  obtain ⟨u, t₁, gen₁, t₂, hs, h₁, rfl⟩ := Emit.bind_ok.mp h
  obtain ⟨rfl, rfl⟩ := modifyGen_ok.mp h₁
  exact ⟨gen₁, by rwa [List.append_nil], rfl⟩

theorem literal_number_ok {op : Token} :
    literal tables op .number gen = .ok (ty, code, gen') ↔
      ty = typeFromTokenLiteral op.numberType ∧
        (∃ rax, subregister .rax ty.kind = .ok rax ∧
          code = [.movImm rax (op.number.setWidth 32).toInt]) ∧ gen' = gen := by
  rw [literal, Emit.lift_bind_ok]
  simp only [genWrite_bind_ok, Emit.pure_ok]
  constructor
  · rintro ⟨rax, hrax, text, ⟨rfl, rfl, rfl⟩, rfl⟩
    exact ⟨rfl, ⟨rax, hrax, rfl⟩, rfl⟩
  · rintro ⟨rfl, ⟨rax, hrax, rfl⟩, rfl⟩
    exact ⟨rax, hrax, [], ⟨rfl, rfl, rfl⟩, rfl⟩

theorem literal_string_ok {op : Token} :
    literal tables op .string gen = .ok (ty, code, gen') ↔
      ty = .pointer none ∧ code = [.movSym ⟨.rax, .w64⟩ s!"string_{gen.dataCount}"] ∧
        gen' = { gen with
          bufData := gen.bufData ++ [.label gen.dataCount, .db op.value]
          dataCount := gen.dataCount + 1 } := by
  rw [literal, getGen_bind_ok]
  simp only [genWriteData, Bind.bind, Emit.bind, genWrite, modifyGen, pure]
  simp [eq_comm]

/-- A variable is read or its address taken, a procedure is named by its label. -/
theorem literalIdent_ok {str : String} {addr : Bool} :
    literalIdent tables str addr gen = .ok (ty, code, gen') ↔ gen' = gen ∧
      ∃ sym, symboltableLookup tables gen.scope str = .ok (some sym) ∧
        ((sym.kind = .variable ∨ sym.kind = .parameter) ∧ addr = true ∧
            ty = .pointer (some sym.type) ∧ code = [.lea ⟨.rax, .w64⟩ (.rbp (-sym.offset))] ∨
          (sym.kind = .variable ∨ sym.kind = .parameter) ∧ addr = false ∧ ty = sym.type ∧
            (∃ rax, subregister .rax ty.kind = .ok rax ∧
              code = [.load rax (.rbp (-sym.offset))]) ∨
          sym.kind = .procedure ∧ ty = sym.type ∧ code = [.movSym ⟨.rax, .w64⟩ str]) := by
  rw [literalIdent, getGen_bind_ok, Emit.lift_bind_ok]
  constructor
  · rintro ⟨sym, hsym, h⟩
    cases sym with
    | none => simp at h
    | some sym =>
      rcases hkind : sym.kind <;> simp only [hkind, fail_ok] at h
      case procedure =>
        obtain ⟨rfl, rfl, rfl⟩ := genWrite_pure_ok.mp h
        exact ⟨rfl, sym, hsym, .inr (.inr ⟨hkind, rfl, rfl⟩)⟩
      -- a variable and a parameter alike
      all_goals
        cases addr with
        | true =>
          obtain ⟨rfl, rfl, rfl⟩ := genWrite_pure_ok.mp h
          exact ⟨rfl, sym, hsym, .inl ⟨by simp [hkind], rfl, rfl, rfl⟩⟩
        | false =>
          obtain ⟨rax, hrax, hw⟩ := Emit.lift_bind_ok.mp h
          obtain ⟨rfl, rfl, rfl⟩ := genWrite_pure_ok.mp hw
          exact ⟨rfl, sym, hsym, .inr (.inl ⟨by simp [hkind], rfl, rfl, rax, hrax, rfl⟩)⟩
  · rintro ⟨rfl, sym, hsym, ⟨hkind, rfl, rfl, rfl⟩ | ⟨hkind, rfl, rfl, rax, hrax, rfl⟩ |
      ⟨hkind, rfl, rfl⟩⟩ <;> refine ⟨some sym, hsym, ?_⟩
    · rcases hkind with hkind | hkind <;> simp only [hkind] <;>
        exact genWrite_pure_ok.mpr ⟨rfl, rfl, rfl⟩
    · rcases hkind with hkind | hkind <;> simp only [hkind] <;>
        exact Emit.lift_bind_ok.mpr
          ⟨rax, hrax, genWrite_pure_ok.mpr ⟨rfl, rfl, rfl⟩⟩
    · simp only [hkind]
      exact genWrite_pure_ok.mpr ⟨rfl, rfl, rfl⟩

/-- The right operand waits on the stack for the left one; `scale` is for pointer arithmetic. -/
theorem binop_ok {lhs rhs : Emit Ty} {kind : BinOpKind} :
    binop lhs rhs kind gen = .ok (ty, code, gen') ↔
      ∃ tr cr gen₁ rdi tl cl gen₂ rax scale, rhs gen = .ok (tr, cr, gen₁) ∧
        subregister .rdi tr.kind = .ok rdi ∧ lhs gen₁ = .ok (tl, cl, gen₂) ∧
        subregister .rax tl.kind = .ok rax ∧ scalePointer tl tr gen₂ = .ok ((), scale, gen') ∧
        ty = (if tr.kind = .pointer then tr else tl) ∧
        code = cr ++ .push .rax ::
          (cl ++ .pop .rdi :: (scale ++ binopInstrs rax rdi ⟨.rax, .w8⟩ kind)) := by
  rw [binop, Emit.bind_ok]
  constructor
  · rintro ⟨tr, cr, gen₁, t₁, hr, h, rfl⟩
    obtain ⟨rdi, hrdi, h⟩ := Emit.lift_bind_ok.mp h
    obtain ⟨t₂, h₂, rfl⟩ := genWrite_bind_ok.mp h
    obtain ⟨tl, cl, gen₂, t₃, hl, h₃, rfl⟩ := Emit.bind_ok.mp h₂
    obtain ⟨rax, hrax, h₃⟩ := Emit.lift_bind_ok.mp h₃
    obtain ⟨t₄, h₄, rfl⟩ := genWrite_bind_ok.mp h₃
    obtain ⟨al, hal, h₄⟩ := Emit.lift_bind_ok.mp h₄
    obtain ⟨u, scale, gen₃, t₅, hscale, h₅, rfl⟩ := Emit.bind_ok.mp h₄
    obtain ⟨u', t₆, gen₄, t₇, hw, h₆, rfl⟩ := Emit.bind_ok.mp h₅
    obtain ⟨rfl, rfl⟩ := genWrites_ok.mp hw
    obtain ⟨rfl, rfl, rfl⟩ := Emit.pure_ok.mp h₆
    cases hal
    exact ⟨tr, cr, gen₁, rdi, tl, cl, gen₂, rax, scale, hr, hrdi, hl, hrax, hscale, rfl, by simp⟩
  · rintro ⟨tr, cr, gen₁, rdi, tl, cl, gen₂, rax, scale, hr, hrdi, hl, hrax, hscale, rfl, rfl⟩
    refine ⟨tr, cr, gen₁, _, hr, Emit.lift_bind_ok.mpr ⟨rdi, hrdi, ?_⟩, rfl⟩
    refine genWrite_bind_ok.mpr ⟨_, Emit.bind_ok.mpr ⟨tl, cl, gen₂, _, hl, ?_, rfl⟩, rfl⟩
    refine Emit.lift_bind_ok.mpr ⟨rax, hrax, genWrite_bind_ok.mpr ⟨_, ?_, rfl⟩⟩
    refine Emit.lift_bind_ok.mpr ⟨_, rfl, Emit.bind_ok.mpr ⟨(), scale, gen', _, hscale, ?_, rfl⟩⟩
    exact Emit.bind_ok.mpr ⟨(), _, gen', [], genWrites_ok.mpr ⟨rfl, rfl⟩,
      Emit.pure_ok.mpr ⟨rfl, rfl, rfl⟩, by simp⟩

/-- At equal types that are no pointers there is nothing to scale. -/
theorem scalePointer_self {gen : Gen} (h : ty.kind ≠ .pointer) :
    scalePointer ty ty gen = .ok ((), [], gen) := by
  simp [scalePointer, h, pure]

/-- What is dereferenced has the size of a pointer. -/
theorem Ty.pointee_kind {ty' : Ty} {r : Register} (h : ty.pointee = .ok ty') :
    subregister r ty.kind = subregister r .pointer := by
  cases ty
  case pointer | procedure => rfl
  all_goals cases h

/-- Scaling multiplies `rdi` or `rax` by the size of what is pointed to. -/
theorem scalePointer_code {lhs rhs : Ty} (h : scalePointer lhs rhs gen = .ok ((), code, gen')) :
    gen' = gen ∧ (code = [] ∨
      ∃ reg w size, (reg = .rdi ∨ reg = .rax) ∧ code = [.imulImm ⟨reg, w⟩ size]) := by
  have scaled {reg : Register} {k : TypeKind} {ty : Ty}
      (h : (do
        let reg ← subregister reg k
        let size ← typePrimitiveSize (← ty.pointee).kind
        genWrite (.imulImm reg size) : Emit Unit) gen = .ok ((), code, gen')) :
      gen' = gen ∧ ∃ w size, code = [.imulImm ⟨reg, w⟩ size] := by
    obtain ⟨sub, hsub, h₁⟩ := Emit.lift_bind_ok.mp h
    obtain ⟨ty', -, h₂⟩ := Emit.lift_bind_ok.mp h₁
    obtain ⟨size, -, h₃⟩ := Emit.lift_bind_ok.mp h₂
    obtain ⟨rfl, rfl⟩ := genWrite_ok.mp h₃
    have hreg : sub.reg = reg := by cases k <;> cases hsub <;> rfl
    exact ⟨rfl, sub.width, size, by rw [← hreg]⟩
  unfold scalePointer at h
  split at h
  · obtain ⟨hg, w, size, hc⟩ := scaled h
    exact ⟨hg, .inr ⟨_, w, size, .inl rfl, hc⟩⟩
  · split at h
    · obtain ⟨hg, w, size, hc⟩ := scaled h
      exact ⟨hg, .inr ⟨_, w, size, .inr rfl, hc⟩⟩
    · split at h
      · exact (invalidTypes_ok.mp h).elim
      · obtain ⟨-, rfl, rfl⟩ := Emit.pure_ok.mp h
        exact ⟨rfl, .inl rfl⟩

theorem unaryop_minus_ok {node addr : Emit Ty} :
    unaryop node addr .minus gen = .ok (ty, code, gen') ↔ ∃ c rax, node gen = .ok (ty, c, gen') ∧
      subregister .rax ty.kind = .ok rax ∧ code = c ++ [.imulImm rax (-1)] := by
  rw [unaryop, Emit.bind_ok]
  constructor
  · rintro ⟨ty', c, gen₁, t₁, hnode, h, rfl⟩
    obtain ⟨rax, hrax, h⟩ := Emit.lift_bind_ok.mp h
    obtain ⟨rfl, rfl, rfl⟩ := genWrite_pure_ok.mp h
    exact ⟨c, rax, hnode, hrax, rfl⟩
  · rintro ⟨c, rax, hnode, hrax, rfl⟩
    exact ⟨ty, c, gen', _, hnode, Emit.lift_bind_ok.mpr ⟨rax, hrax,
      genWrite_pure_ok.mpr ⟨rfl, rfl, rfl⟩⟩, rfl⟩

theorem unaryop_neg_ok {node addr : Emit Ty}
    (h : unaryop node addr .neg gen = .ok (ty, code, gen')) :
    ∃ c rax, node gen = .ok (ty, c, gen') ∧ subregister .rax ty.kind = .ok rax ∧
      code = c ++ [.cmpImm rax 0, .setcc .e rax] := by
  obtain ⟨ty', c, gen₁, t₁, hnode, h₁, rfl⟩ := Emit.bind_ok.mp h
  obtain ⟨rax, hrax, h₁⟩ := Emit.lift_bind_ok.mp h₁
  obtain ⟨t₂, h₂, rfl⟩ := genWrite_bind_ok.mp h₁
  obtain ⟨rfl, rfl, rfl⟩ := genWrite_pure_ok.mp h₂
  exact ⟨c, rax, hnode, hrax, rfl⟩

theorem unaryop_deref_ok {node addr : Emit Ty}
    (h : unaryop node addr .deref gen = .ok (ty, code, gen')) :
    ∃ tp c rax, node gen = .ok (tp, c, gen') ∧ tp.pointee = .ok ty ∧
      subregister .rax .pointer = .ok rax ∧ code = c ++ [.load rax (.reg .rax)] := by
  obtain ⟨tp, c, gen₁, t₁, hnode, h₁, rfl⟩ := Emit.bind_ok.mp h
  obtain ⟨rax, hrax, h₁⟩ := Emit.lift_bind_ok.mp h₁
  obtain ⟨t₂, h₂, rfl⟩ := genWrite_bind_ok.mp h₁
  obtain ⟨hpointee, rfl, rfl⟩ := Emit.lift_ok.mp h₂
  exact ⟨tp, c, rax, hnode, hpointee, tp.pointee_kind hpointee ▸ hrax, rfl⟩

theorem assign_ok {addr value : Emit Ty} (h : assign addr value gen = .ok (ty, code, gen')) :
    ∃ ta ca gen₁ cv rax, addr gen = .ok (ta, ca, gen₁) ∧ value gen₁ = .ok (ty, cv, gen') ∧
      ta.kind = ty.kind ∧ subregister .rax ty.kind = .ok rax ∧
      code = ca ++ .push .rax :: (cv ++ [.pop .rdi, .store (.reg .rdi) rax]) := by
  obtain ⟨ta, ca, gen₁, t₁, ha, h₁, rfl⟩ := Emit.bind_ok.mp h
  obtain ⟨t₂, h₂, rfl⟩ := genWrite_bind_ok.mp h₁
  obtain ⟨tv, cv, gen₂, t₃, hv, h₃, rfl⟩ := Emit.bind_ok.mp h₂
  split at h₃
  · exact (invalidTypes_ok.mp h₃).elim
  · rename_i hkinds
    obtain ⟨t₄, h₄, rfl⟩ := genWrite_bind_ok.mp h₃
    obtain ⟨rax, hrax, h₄⟩ := Emit.lift_bind_ok.mp h₄
    obtain ⟨rfl, rfl, rfl⟩ := genWrite_pure_ok.mp h₄
    exact ⟨ta, ca, gen₁, cv, rax, ha, hv, not_not.mp hkinds, hrax, rfl⟩

/-- Where an argument goes: to its register, or onto the stack. -/
def placeArg (i : Nat) (k : TypeKind) : Except Failure Instr :=
  match abiRegister (i + 1) with
  | none => .ok (.push .rax)
  | some reg => do
    let dst ← subregister reg k
    let src ← subregister .rax k
    pure (.mov dst src)

theorem placeArg_none {i : Nat} {k : TypeKind} (h : abiRegisterStr (i + 1) k = .ok none) :
    placeArg i k = .ok (.push .rax) := by
  unfold abiRegisterStr at h
  unfold placeArg
  cases hreg : abiRegister (i + 1) with
  | none => rfl
  | some reg =>
    rw [hreg] at h
    cases hsub : subregister reg k <;> simp [hsub, Bind.bind, Except.bind, pure, Except.pure] at h

theorem placeArg_some {i : Nat} {k : TypeKind} {dst src : SubReg}
    (h : abiRegisterStr (i + 1) k = .ok (some dst)) (hsrc : subregister .rax k = .ok src) :
    placeArg i k = .ok (.mov dst src) := by
  unfold abiRegisterStr at h
  unfold placeArg
  cases hreg : abiRegister (i + 1) with
  | none => simp [hreg] at h
  | some reg =>
    rw [hreg] at h
    cases hsub : subregister reg k <;> simp [hsub, Bind.bind, Except.bind, pure, Except.pure] at h
    subst h
    simp only [hsrc, hsub]
    rfl

theorem callArgs_cons_ok {sig : ProcSignature} {i : Nat} {arg : Emit Ty} {args : List (Emit Ty)}
    (h : callArgs sig i (arg :: args) gen = .ok ((), code, gen')) :
    ∃ k ty c gen₁ place rest, sig.paramKind i = .ok k ∧ arg gen = .ok (ty, c, gen₁) ∧
      placeArg i k = .ok place ∧
      callArgs sig (i + 1) args gen₁ = .ok ((), rest, gen') ∧ code = c ++ place :: rest := by
  rw [callArgs] at h
  obtain ⟨k, hk, h₀⟩ := Emit.lift_bind_ok.mp h
  obtain ⟨reg, hreg, h₁⟩ := Emit.lift_bind_ok.mp h₀
  obtain ⟨ty, c, gen₁, t₁, harg, h₂, rfl⟩ := discard_bind_ok.mp h₁
  cases reg with
  | none =>
    obtain ⟨rest, h₃, rfl⟩ := genWrite_bind_ok.mp h₂
    exact ⟨k, ty, c, gen₁, _, rest, hk, harg, placeArg_none hreg, h₃, rfl⟩
  | some reg =>
    obtain ⟨src, hsrc, h₃⟩ := Emit.lift_bind_ok.mp h₂
    obtain ⟨rest, h₄, rfl⟩ := genWrite_bind_ok.mp h₃
    exact ⟨k, ty, c, gen₁, _, rest, hk, harg, placeArg_some hreg hsrc, h₄, rfl⟩

theorem call_ok {callee : Emit Ty} {args : List (Emit Ty)}
    (h : call callee args gen = .ok (ty, code, gen')) :
    ∃ sig cc gen₁ ca, callee gen = .ok (.procedure sig, cc, gen₁) ∧
      callArgs sig 0 args gen₁ = .ok ((), ca, gen') ∧ ty = sig.returntype ∧
      code = cc ++ .push .rax :: (ca ++ [.pop .rax, .call .rax]) := by
  obtain ⟨tc, cc, gen₁, t₁, hc, h₁, rfl⟩ := Emit.bind_ok.mp h
  obtain ⟨t₂, h₂, rfl⟩ := genWrite_bind_ok.mp h₁
  split at h₂
  · rename_i sig
    obtain ⟨u, ca, gen₂, t₃, ha, h₃, rfl⟩ := Emit.bind_ok.mp h₂
    obtain ⟨t₄, h₄, rfl⟩ := genWrite_bind_ok.mp h₃
    obtain ⟨rfl, rfl, rfl⟩ := genWrite_pure_ok.mp h₄
    exact ⟨sig, cc, gen₁, ca, hc, ha, rfl, rfl⟩
  · simp at h₂

theorem arrayElems_cons_ok {type : Ty} {offset elemSize : Int} {value : Emit Ty}
    {values : List (Emit Ty)}
    (h : arrayElems type offset elemSize (value :: values) gen = .ok ((), code, gen')) :
    ∃ ty c gen₁ rax rest, value gen = .ok (ty, c, gen₁) ∧ subregister .rax type.kind = .ok rax ∧
      arrayElems type offset elemSize values gen₁ = .ok ((), rest, gen') ∧
      code = c ++ .store (.rbp (-(offset + (values.length + 1) * elemSize))) rax :: rest := by
  rw [arrayElems] at h
  obtain ⟨ty, c, gen₁, t₁, hv, h₁, rfl⟩ := discard_bind_ok.mp h
  obtain ⟨rax, hrax, h₁⟩ := Emit.lift_bind_ok.mp h₁
  obtain ⟨rest, h₂, rfl⟩ := genWrite_bind_ok.mp h₁
  exact ⟨ty, c, gen₁, rax, rest, hv, hrax, h₂, by simp⟩

theorem array_ok {values : List (Emit Ty)} {type : Ty} {offset : Int}
    (h : array values type offset gen = .ok (ty, code, gen')) :
    ∃ elemSize c, typePrimitiveSize type.kind = .ok elemSize ∧
      arrayElems type offset elemSize values gen = .ok ((), c, gen') ∧
      ty = .pointer (some type) ∧
      code = c ++ [.lea ⟨.rax, .w64⟩ (.rbp (-(offset + values.length * elemSize)))] := by
  obtain ⟨elemSize, hsize, h₁⟩ := Emit.lift_bind_ok.mp h
  obtain ⟨u, c, gen₁, t₁, hc, h₂, rfl⟩ := Emit.bind_ok.mp h₁
  obtain ⟨rfl, rfl, rfl⟩ := genWrite_pure_ok.mp h₂
  exact ⟨elemSize, c, hsize, hc, rfl, rfl⟩

end Seron
