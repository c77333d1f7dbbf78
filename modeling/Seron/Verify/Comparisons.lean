import Seron.Verify.Arith

/-! # Comparisons

A comparison sets the low byte of `rax` only. What else is in the register stays there: bits of the
left operand, or for `||` of both. -/

namespace Seron

/-- The types that are compared. -/
inductive OperandTy where
  | char | int | long

namespace OperandTy

def ty : OperandTy → Ty
  | char => .char
  | int => .int
  | long => .long

def width : OperandTy → Width
  | char => .w8
  | int => .w32
  | long => .w64

theorem subregister_kind (T : OperandTy) (r : Register) :
    subregister r T.ty.kind = .ok ⟨r, T.width⟩ := by
  cases T <;> rfl

theorem kind_ne_pointer (T : OperandTy) : T.ty.kind ≠ .pointer := by
  cases T <;> decide

end OperandTy

/-- The truth value that an operator stands for. Numbers are signed. -/
def BinOpKind.truth? {n : Nat} : BinOpKind → Option (BitVec n → BitVec n → Bool)
  | .eq => some fun a b => a = b
  | .neq => some fun a b => a ≠ b
  | .lt => some fun a b => a.toInt < b.toInt
  | .ltEq => some fun a b => a.toInt ≤ b.toInt
  | .gt => some fun a b => b.toInt < a.toInt
  | .gtEq => some fun a b => b.toInt ≤ a.toInt
  | .logOr => some fun a b => a ≠ 0 ∨ b ≠ 0
  | _ => none

/-- What is in `rax` when its low byte is set. -/
def BinOpKind.leftover {n : Nat} (kind : BinOpKind) (a b : BitVec n) : BitVec n :=
  if kind = .logOr then a ||| b else a

/-! ## Flags -/

theorem ofCmp_zero {n : Nat} (a b : BitVec n) : (Flags.ofCmp a b).zero = decide (a = b) := by
  have hzero : a - b = 0 ↔ a = b := sub_eq_zero
  rw [Flags.ofCmp]
  simp only [beq_eq_decide, hzero]

/-- The sign of a difference is wrong iff the subtraction overflows. -/
theorem ofCmp_overflow {n : Nat} (a b : BitVec n) :
    (Flags.ofCmp a b).overflow = BitVec.ssubOverflow a b := by
  rw [BitVec.ssubOverflow_eq, Flags.ofCmp]
  cases a.msb <;> cases b.msb <;> cases (a - b).msb <;> rfl

theorem ofCmp_less {n : Nat} (a b : BitVec n) :
    ((Flags.ofCmp a b).sign != (Flags.ofCmp a b).overflow) = decide (a.toInt < b.toInt) := by
  have hsign : (Flags.ofCmp a b).sign = (a - b).msb := rfl
  rw [ofCmp_overflow, hsign]
  cases h : BitVec.ssubOverflow a b with
  | false =>
    have hsub : (a - b).toInt = a.toInt - b.toInt := BitVec.toInt_sub_of_not_ssubOverflow (by simp [h])
    rw [Bool.bne_false, BitVec.msb_eq_toInt, hsub]
    exact decide_eq_decide.mpr sub_neg
  | true =>
    -- the operands have different signs, and the difference that of the right one
    have ha : a.msb = true ↔ a.toInt < 0 := by rw [BitVec.msb_eq_toInt, decide_eq_true_eq]
    have hb : b.msb = true ↔ b.toInt < 0 := by rw [BitVec.msb_eq_toInt, decide_eq_true_eq]
    rw [BitVec.ssubOverflow_eq] at h
    have hcases : a.msb = false ∧ b.msb = true ∧ (a - b).msb = true ∨
        a.msb = true ∧ b.msb = false ∧ (a - b).msb = false := by
      revert h
      cases a.msb <;> cases b.msb <;> cases (a - b).msb <;> decide
    rcases hcases with ⟨hma, hmb, hs⟩ | ⟨hma, hmb, hs⟩ <;> rw [hma] at ha <;> rw [hmb] at hb <;>
      rw [hs]
    · simp only [Bool.false_eq_true, false_iff, true_iff] at ha hb
      exact (decide_eq_false (by omega)).symm
    · simp only [Bool.false_eq_true, false_iff, true_iff] at ha hb
      exact (decide_eq_true (by omega)).symm

/-- The condition that is set for an operator. -/
def BinOpKind.condition? : BinOpKind → Option Condition
  | .eq => some .e
  | .neq => some .ne
  | .lt => some .l
  | .ltEq => some .le
  | .gt => some .g
  | .gtEq => some .ge
  | _ => none

/-- The conditions are those of signed numbers. -/
theorem condition_holds {n : Nat} {kind : BinOpKind} {c : Condition}
    {f : BitVec n → BitVec n → Bool} (hc : kind.condition? = some c) (hf : kind.truth? = some f)
    (a b : BitVec n) : c.holds (.ofCmp a b) = f a b := by
  have hless : ((Flags.ofCmp a b).sign == (Flags.ofCmp a b).overflow) =
      !decide (a.toInt < b.toInt) := by
    rw [← ofCmp_less, bne, Bool.not_not]
  have hint : a = b ↔ a.toInt = b.toInt := BitVec.toInt_inj.symm
  cases kind <;> simp only [BinOpKind.condition?, reduceCtorEq, Option.some.injEq] at hc <;>
    subst hc <;> simp only [BinOpKind.truth?, Option.some.injEq] at hf <;> subst hf <;>
    simp only [Condition.holds, ofCmp_zero, ofCmp_less, hless, hint, ne_eq, ← decide_not,
      ← Bool.decide_and, ← Bool.decide_or, decide_eq_decide] <;>
    omega

/-- Two words joined are zero iff both are. -/
theorem or_holds {n : Nat} (a b : BitVec n) :
    Condition.ne.holds (.ofCmp (a ||| b) (BitVec.ofInt n 0)) = decide (a ≠ 0 ∨ b ≠ 0) := by
  have hzero : a ||| b = BitVec.ofInt n 0 ↔ a = 0 ∧ b = 0 := BitVec.or_eq_zero_iff
  rw [Condition.holds, ofCmp_zero, ← decide_not, decide_eq_decide, hzero]
  tauto

/-! ## The low byte -/

namespace Machine

/-- Setting the low byte leaves the others. -/
theorem toNat_merge (old v : BitVec 64) :
    (merge .w8 old v).toNat = old.toNat / 2 ^ 8 * 2 ^ 8 + v.toNat % 2 ^ 8 := by
  have hlow : v.toNat % 2 ^ 8 < 2 ^ 8 := Nat.mod_lt _ (by decide)
  have hhigh : ((old >>> 8) <<< 8).toNat = (old.toNat / 2 ^ 8) <<< 8 := by
    have := old.isLt
    rw [BitVec.toNat_shiftLeft, BitVec.toNat_ushiftRight, Nat.shiftRight_eq_div_pow,
      Nat.mod_eq_of_lt (by rw [Nat.shiftLeft_eq]; omega)]
  have hv : ((v.setWidth 8).setWidth 64).toNat = v.toNat % 2 ^ 8 := by
    rw [BitVec.toNat_setWidth, BitVec.toNat_setWidth, Nat.mod_eq_of_lt (by omega)]
  rw [merge, BitVec.toNat_or, hhigh, hv, ← Nat.shiftLeft_add_eq_or_of_lt hlow, Nat.shiftLeft_eq]

theorem toNat_get_set_al (m : Machine) (v : BitVec 8) (T : OperandTy) :
    ((m.set ⟨.rax, .w8⟩ v).get ⟨.rax, T.width⟩).toNat =
      (m.get ⟨.rax, T.width⟩).toNat / 2 ^ 8 * 2 ^ 8 + v.toNat := by
  have hv : (v.setWidth 64).toNat % 2 ^ 8 = v.toNat := by
    have := v.isLt
    rw [BitVec.toNat_setWidth]
    omega
  have hmerge := toNat_merge (m.reg .rax) (v.setWidth 64)
  rw [hv] at hmerge
  have hlt := v.isLt
  simp only [get, set, setReg_self, BitVec.toNat_setWidth, hmerge]
  cases T <;> simp only [OperandTy.width, Width.bits] <;> omega

end Machine

variable {T : OperandTy} {E : Env} {m : Machine}

/-- `setcc`, on flags that were set for its operands. -/
theorem run_setcc {flags : Flags} {c : Condition} {v : Bool} (hflags : m.flags = some flags)
    (hv : c.holds flags = v) :
    ∃ m', run E [.setcc c ⟨.rax, .w8⟩] m = some m' ∧ (m'.get ⟨.rax, T.width⟩).toNat =
      (m.get ⟨.rax, T.width⟩).toNat / 2 ^ 8 * 2 ^ 8 + v.toNat := by
  refine ⟨m.set ⟨.rax, .w8⟩ (if c.holds flags then 1#8 else 0#8), ?_, ?_⟩
  · simp only [run_cons, exec, if_true, hflags, Option.map_some, Option.bind_some, run_nil]
  · have hbyte : (if c.holds flags then 1#8 else 0#8).toNat = v.toNat := by
      rw [hv]
      cases v <;> rfl
    rw [Machine.toNat_get_set_al, hbyte]

/-- `cmp` and `setcc`, with the left operand in `rax` and the right one in `rdi`. -/
theorem run_compare (kind : BinOpKind) {c : Condition} {a b : BitVec T.width.bits}
    {f : BitVec T.width.bits → BitVec T.width.bits → Bool} (hc : kind.condition? = some c)
    (hf : kind.truth? = some f) (ha : m.get ⟨.rax, T.width⟩ = a)
    (hb : m.get ⟨.rdi, T.width⟩ = b) :
    ∃ m', run E [.cmp ⟨.rax, T.width⟩ ⟨.rdi, T.width⟩, .setcc c ⟨.rax, .w8⟩] m = some m' ∧
      (m'.get ⟨.rax, T.width⟩).toNat = a.toNat / 2 ^ 8 * 2 ^ 8 + (f a b).toNat := by
  subst ha hb
  rw [run_cons, exec, if_pos rfl, Option.bind_some]
  exact run_setcc (m := { m with flags := some (.ofCmp _ _) }) rfl (condition_holds hc hf _ _)

/-- The operands are combined in `rax`. -/
theorem run_alu (op : AluOp) {w : Width} {a b : BitVec w.bits} (ha : m.get ⟨.rax, w⟩ = a)
    (hb : m.get ⟨.rdi, w⟩ = b) :
    ∃ m₁, m₁.get ⟨.rax, w⟩ = op.eval a b ∧
      ∀ is, run E (.alu op ⟨.rax, w⟩ ⟨.rdi, w⟩ :: is) m = run E is m₁ := by
  subst ha hb
  let m₁ : Machine := (m.set ⟨.rax, w⟩ (op.eval (m.get ⟨.rax, w⟩) (m.get ⟨.rdi, w⟩))).unflagged
  refine ⟨m₁, Machine.get_set_self, fun is => ?_⟩
  rw [run_cons, exec, if_pos rfl, Option.bind_some]

/-- `||` joins the operands and compares the result with zero. -/
theorem run_logOr {a b : BitVec T.width.bits} (ha : m.get ⟨.rax, T.width⟩ = a)
    (hb : m.get ⟨.rdi, T.width⟩ = b) :
    ∃ m', run E [.alu .or ⟨.rax, T.width⟩ ⟨.rdi, T.width⟩, .cmpImm ⟨.rax, T.width⟩ 0,
        .setcc .ne ⟨.rax, .w8⟩] m = some m' ∧
      (m'.get ⟨.rax, T.width⟩).toNat =
        (a ||| b).toNat / 2 ^ 8 * 2 ^ 8 + (decide (a ≠ 0 ∨ b ≠ 0)).toNat := by
  obtain ⟨m₁, hjoined, hrun₁⟩ := run_alu (E := E) .or ha hb
  replace hjoined : m₁.get ⟨.rax, T.width⟩ = a ||| b := hjoined
  obtain ⟨m', hrun, hget⟩ := run_setcc (E := E) (T := T) (c := .ne)
    (m := { m₁ with flags := some (.ofCmp (m₁.get ⟨.rax, T.width⟩) (BitVec.ofInt _ 0)) })
    rfl (hjoined ▸ or_holds _ _)
  refine ⟨m', ?_, ?_⟩
  · rw [hrun₁, run_cons, exec, Option.bind_some]
    exact hrun
  · rw [hget, ← hjoined]
    rfl

theorem run_comparison {kind : BinOpKind} {a b : BitVec T.width.bits}
    {f : BitVec T.width.bits → BitVec T.width.bits → Bool} (hf : kind.truth? = some f)
    (ha : m.get ⟨.rax, T.width⟩ = a) (hb : m.get ⟨.rdi, T.width⟩ = b) :
    ∃ m', run E (binopInstrs ⟨.rax, T.width⟩ ⟨.rdi, T.width⟩ ⟨.rax, .w8⟩ kind) m = some m' ∧
      (m'.get ⟨.rax, T.width⟩).toNat =
        (kind.leftover a b).toNat / 2 ^ 8 * 2 ^ 8 + (f a b).toNat := by
  cases kind <;> simp only [BinOpKind.truth?, reduceCtorEq] at hf
  case eq => exact run_compare .eq rfl hf ha hb
  case neq => exact run_compare .neq rfl hf ha hb
  case gt => exact run_compare .gt rfl hf ha hb
  case gtEq => exact run_compare .gtEq rfl hf ha hb
  case lt => exact run_compare .lt rfl hf ha hb
  case ltEq => exact run_compare .ltEq rfl hf ha hb
  case logOr =>
    cases hf
    exact run_logOr ha hb

/-! ## The code of a comparison -/

/-- Operands of the arithmetic fragment have the values they stand for. -/
theorem arith_operands {tables : List Hashtable} {scope : Option Nat} {T : WordTy} {gen : Gen}
    {lhs rhs : AstNode} (hl : Arith tables scope T lhs) (hr : Arith tables scope T rhs)
    (hscope : gen.scope = scope) :
    ∃ cr cl, emit tables rhs gen = .ok (T.ty, cr, gen) ∧ emit tables lhs gen = .ok (T.ty, cl, gen) ∧
      ∀ (E : Env) (env : String → BitVec T.width.bits) (m : Machine),
        (∀ x ∈ lhs.names ++ rhs.names, Holds tables scope T env m x) →
        Operands E T.width cr cl m (lhs.value env) (rhs.value env) := by
  obtain ⟨cr, hr, hrunr⟩ := arith_computes hr hscope
  obtain ⟨cl, hl, hrunl⟩ := arith_computes hl hscope
  refine ⟨cr, cl, hr, hl, fun E env m hm => ?_⟩
  obtain ⟨hml, hmr⟩ := List.forall_mem_append.mp hm
  exact ((hrunl E env).steady hml).operands ((hrunr E env).steady hmr)

/-- The value of a comparison is its truth value iff nothing is left above the low byte. -/
theorem run_comparison_clean {kind : BinOpKind} {cl cr : List Instr} {a b : BitVec T.width.bits}
    {f : BitVec T.width.bits → BitVec T.width.bits → Bool} (hf : kind.truth? = some f)
    (hab : Operands E T.width cr cl m a b) :
    ∃ m', run E (cr ++ .push .rax :: (cl ++ .pop .rdi ::
        binopInstrs ⟨.rax, T.width⟩ ⟨.rdi, T.width⟩ ⟨.rax, .w8⟩ kind)) m = some m' ∧
      (m'.get ⟨.rax, T.width⟩ = (if f a b then 1 else 0) ↔ (kind.leftover a b).toNat < 2 ^ 8) := by
  obtain ⟨m₂, ha, hb, hrun⟩ := hab.run
  obtain ⟨m', hrun', hget⟩ := run_comparison (E := E) hf ha hb
  refine ⟨m', (hrun _).trans hrun', ?_⟩
  have hone : (if f a b then (1 : BitVec T.width.bits) else 0).toNat = (f a b).toNat := by
    cases f a b <;> cases T <;> rfl
  rw [← BitVec.toNat_inj, hget, hone]
  have := (f a b).toNat_lt
  omega

/-- The code of a comparison of two operands of one type. -/
theorem emit_comparison {tables : List Hashtable} {lhs rhs : AstNode} {op : Token}
    {kind : BinOpKind} {cl cr : List Instr} {gen gen₁ gen' : Gen}
    (hr : emit tables rhs gen = .ok (T.ty, cr, gen₁))
    (hl : emit tables lhs gen₁ = .ok (T.ty, cl, gen')) :
    emit tables (.binop lhs rhs op kind) gen = .ok (T.ty, cr ++ .push .rax :: (cl ++ .pop .rdi ::
      binopInstrs ⟨.rax, T.width⟩ ⟨.rdi, T.width⟩ ⟨.rax, .w8⟩ kind), gen') := by
  rw [emit]
  exact binop_ok.mpr ⟨T.ty, cr, gen₁, _, T.ty, cl, gen', _, [], hr, T.subregister_kind _, hl,
    T.subregister_kind _, scalePointer_self T.kind_ne_pointer,
    (if_neg T.kind_ne_pointer).symm, rfl⟩

/-- A comparison leaves exactly its truth value in the register of its type iff the register of
the left operand, or for `||` of both operands joined, has nothing above its low byte. -/
theorem comparison_clean_iff {tables : List Hashtable} {lhs rhs : AstNode} {op : Token}
    {kind : BinOpKind} {cl cr : List Instr} {gen gen₁ gen' : Gen} {a b : BitVec T.width.bits}
    {f : BitVec T.width.bits → BitVec T.width.bits → Bool} (hf : kind.truth? = some f)
    (hr : emit tables rhs gen = .ok (T.ty, cr, gen₁))
    (hl : emit tables lhs gen₁ = .ok (T.ty, cl, gen'))
    (hab : Operands E T.width cr cl m a b) :
    ∃ code, emit tables (.binop lhs rhs op kind) gen = .ok (T.ty, code, gen') ∧
      ∃ m', run E code m = some m' ∧
        (m'.get ⟨.rax, T.width⟩ = (if f a b then 1 else 0) ↔
          (kind.leftover a b).toNat < 2 ^ 8) :=
  ⟨_, emit_comparison hr hl, run_comparison_clean hf hab⟩

/-! ## A number with an empty low byte -/

/-- The variable `x` in the slot at `rbp - 16`. -/
def slotTables : List Hashtable :=
  [{ buckets := [[⟨['x'], { kind := .variable, type := .int, offset := 16 }⟩]], parent := none }]

/-- The slot holds 256. -/
def slotMachine : Machine :=
  { reg := fun _ => 0, rsp := -16, rbp := 0, mem := fun a => if a = -15 then 1 else 0
    flags := none }

/-- `x` as an operand of both sides. -/
theorem operands_slot : ∃ code, emit slotTables (.literal (.ident "x") .ident) { scope := some 0 } =
    .ok (.int, code, { scope := some 0 }) ∧
      Operands .returning (OperandTy.width .int) code code slotMachine 256 256 := by
  have hx : Arith slotTables (some 0) .int (.literal (.ident "x") .ident) :=
    .ident (T := .int) rfl (.inl rfl) rfl
  have hscope : ({ scope := some 0 } : Gen).scope = some 0 := rfl
  obtain ⟨cr, cl, hr, hl, hcode⟩ := arith_operands hx hx hscope
  obtain rfl : cr = cl := by
    rw [hr] at hl
    cases hl
    rfl
  refine ⟨cr, hr, hcode .returning (fun _ => 256) slotMachine fun y hy sym hsym => ?_⟩
  have hy : y = (Token.ident "x").value := by simpa [AstNode.names] using hy
  subst hy
  cases hsym
  exact ⟨by decide, by decide⟩

/-- `x == x` is not 1. -/
theorem comparison_clean_iff_slot :
    let e : AstNode := .binop (.literal (.ident "x") .ident) (.literal (.ident "x") .ident) .eof .eq
    ∃ code, emit slotTables e { scope := some 0 } = .ok (.int, code, { scope := some 0 }) ∧
      ∃ m', run .returning code slotMachine = some m' ∧
        (m'.get ⟨.rax, .w32⟩ = (if decide (256#32 = 256#32) then 1 else 0) ↔
          (256#32).toNat < 2 ^ 8) := by
  intro e
  obtain ⟨code, hemit, hoperands⟩ := operands_slot
  have htruth : BinOpKind.eq.truth? = some fun a b : BitVec (OperandTy.width .int).bits =>
    decide (a = b) := rfl
  exact comparison_clean_iff htruth hemit hemit hoperands

theorem comparison_unclean :
    ¬ ∀ (T : OperandTy) (E : Env) (tables : List Hashtable) (m m' : Machine) (lhs rhs : AstNode)
        (op : Token) (kind : BinOpKind) (cr cl code : List Instr) (gen gen₁ gen' : Gen)
        (a b : BitVec T.width.bits) (f : BitVec T.width.bits → BitVec T.width.bits → Bool),
      kind.truth? = some f → emit tables rhs gen = .ok (T.ty, cr, gen₁) →
      emit tables lhs gen₁ = .ok (T.ty, cl, gen') → Operands E T.width cr cl m a b →
      emit tables (.binop lhs rhs op kind) gen = .ok (T.ty, code, gen') →
      run E code m = some m' → m'.get ⟨.rax, T.width⟩ = if f a b then 1 else 0 := by
  intro h
  obtain ⟨code, hemit, hoperands⟩ := operands_slot
  have htruth : BinOpKind.eq.truth? = some fun a b : BitVec (OperandTy.width .int).bits =>
    decide (a = b) := rfl
  obtain ⟨m', hrun, hclean⟩ := run_comparison_clean htruth hoperands
  have hone := h .int .returning slotTables slotMachine m' _ _ .eof .eq code code _ _ _ _ 256 256 _
    htruth hemit hemit hoperands (emit_comparison hemit hemit) hrun
  exact absurd (hclean.mp hone) (by decide)

end Seron
