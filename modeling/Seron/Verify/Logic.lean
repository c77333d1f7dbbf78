import Seron.Verify.Comparisons

/-! # Logical operators

`&&` joins the bits of its operands and compares the result with zero. That is the conjunction of
the operands unless both have bits, but none in common. -/

namespace Seron

variable {T : OperandTy} {E : Env} {m : Machine}

/-- A truth value in a byte. -/
def truthByte (p : Prop) [Decidable p] : BitVec Width.w8.bits := if p then 1 else 0

/-! ## Instructions -/

theorem ne_holds {n : Nat} (v : BitVec n) :
    Condition.ne.holds (.ofCmp v (BitVec.ofInt n 0)) = decide (v ≠ 0) := by
  have hzero : v = BitVec.ofInt n 0 ↔ v = 0 := Iff.rfl
  rw [Condition.holds, ofCmp_zero, ← decide_not, decide_eq_decide, hzero]

theorem e_holds {n : Nat} (v : BitVec n) :
    Condition.e.holds (.ofCmp v (BitVec.ofInt n 0)) = decide (v = 0) :=
  ofCmp_zero v _

/-- A register is compared with zero, and the low byte of `rax` set. -/
theorem run_test {c : Condition} {w : Width} {v : BitVec w.bits} {p : Prop} [Decidable p]
    (hv : m.get ⟨.rax, w⟩ = v) (hc : c.holds (.ofCmp v (BitVec.ofInt w.bits 0)) = decide p) :
    ∃ m', run E [.cmpImm ⟨.rax, w⟩ 0, .setcc c ⟨.rax, .w8⟩] m = some m' ∧
      m'.get ⟨.rax, .w8⟩ = truthByte p ∧ m.SameFrame m' := by
  subst hv
  let flags := Flags.ofCmp (m.get ⟨.rax, w⟩) (BitVec.ofInt w.bits 0)
  refine ⟨({ m with flags := some flags } : Machine).set ⟨.rax, .w8⟩
    (if c.holds flags then 1#8 else 0#8), ?_, ?_, ⟨rfl, rfl, fun _ _ => rfl⟩⟩
  · simp only [run_cons, exec, if_true, Option.bind_some, Option.map_some, run_nil, flags]
  · have hbyte : (if c.holds flags then 1#8 else 0#8) = truthByte p := by
      rw [hc, truthByte]
      simp only [decide_eq_true_eq]
      rfl
    rw [hbyte]
    exact Machine.get_set_self

/-- The operands are joined, and the result compared with zero. -/
theorem run_join {kind : BinOpKind} {op : AluOp} {a b : BitVec T.width.bits} {p : Prop} [Decidable p]
    (hkind : binopInstrs ⟨.rax, T.width⟩ ⟨.rdi, T.width⟩ ⟨.rax, .w8⟩ kind =
      [.alu op ⟨.rax, T.width⟩ ⟨.rdi, T.width⟩, .cmpImm ⟨.rax, T.width⟩ 0, .setcc .ne ⟨.rax, .w8⟩])
    (ha : m.get ⟨.rax, T.width⟩ = a) (hb : m.get ⟨.rdi, T.width⟩ = b)
    (hp : Condition.ne.holds (.ofCmp (op.eval a b) (BitVec.ofInt _ 0)) = decide p) :
    ∃ m', run E (binopInstrs ⟨.rax, T.width⟩ ⟨.rdi, T.width⟩ ⟨.rax, .w8⟩ kind) m = some m' ∧
      m'.get ⟨.rax, .w8⟩ = truthByte p := by
  obtain ⟨m₁, hjoined, hrun₁⟩ := run_alu (E := E) op ha hb
  obtain ⟨m', hrun, hal, -⟩ := run_test (E := E) hjoined hp
  exact ⟨m', by rw [hkind, hrun₁, hrun], hal⟩

/-- `&&` sets the low byte iff the operands have a bit in common. -/
theorem run_logAnd {a b : BitVec T.width.bits} (ha : m.get ⟨.rax, T.width⟩ = a)
    (hb : m.get ⟨.rdi, T.width⟩ = b) :
    ∃ m', run E (binopInstrs ⟨.rax, T.width⟩ ⟨.rdi, T.width⟩ ⟨.rax, .w8⟩ .logAnd) m = some m' ∧
      m'.get ⟨.rax, .w8⟩ = truthByte (a &&& b ≠ 0) :=
  run_join rfl ha hb (ne_holds _)

/-- `||` sets the low byte iff one of the operands has a bit. -/
theorem run_logOr_byte {a b : BitVec T.width.bits} (ha : m.get ⟨.rax, T.width⟩ = a)
    (hb : m.get ⟨.rdi, T.width⟩ = b) :
    ∃ m', run E (binopInstrs ⟨.rax, T.width⟩ ⟨.rdi, T.width⟩ ⟨.rax, .w8⟩ .logOr) m = some m' ∧
      m'.get ⟨.rax, .w8⟩ = truthByte (a ≠ 0 ∨ b ≠ 0) :=
  run_join rfl ha hb (or_holds _ _)

/-! ## Conjunction and disjunction -/

section
variable {w : Width} {cl cr code : List Instr} {tables : List Hashtable} {lhs rhs : AstNode}
  {op op₁ op₂ op₃ : Token} {gen gen₁ gen' : Gen}

/-- `!` of a byte. -/
theorem Steady.neg {a : BitVec Width.w8.bits} (h : Steady E .w8 code m a) :
    Steady E .w8 (code ++ [.cmpImm ⟨.rax, .w8⟩ 0, .setcc .e ⟨.rax, .w8⟩]) m (truthByte (a = 0)) := by
  intro m₁ hrbp hrsp hmem
  obtain ⟨m₂, hrun₂, ha, hframe₂⟩ := h m₁ hrbp hrsp hmem
  obtain ⟨m₃, hrun₃, hal, hframe₃⟩ := run_test (E := E) ha (e_holds a)
  exact ⟨m₃, by rw [run_append_some hrun₂, hrun₃], hal, hframe₂.trans hframe₃⟩

/-- The code of `!` for a byte. -/
def negInstrs : List Instr := [.cmpImm ⟨.rax, .w8⟩ 0, .setcc .e ⟨.rax, .w8⟩]

theorem emit_neg (op : Token) (h : emit tables lhs gen = .ok (.char, code, gen')) :
    emit tables (.unaryop lhs op .neg) gen = .ok (.char, code ++ negInstrs, gen') := by
  rw [emit]
  exact Emit.bind_ok.mpr ⟨.char, code, gen', negInstrs, h, Emit.lift_bind_ok.mpr
    ⟨⟨.rax, .w8⟩, rfl, genWrite_bind_ok.mpr ⟨_, genWrite_pure_ok.mpr ⟨rfl, rfl, rfl⟩, rfl⟩⟩, rfl⟩

/-- `!(!lhs || !rhs)` -/
def deMorgan (lhs rhs : AstNode) (op op₁ op₂ op₃ : Token) : AstNode :=
  .unaryop (.grouping (.binop (.unaryop lhs op₁ .neg) (.unaryop rhs op₂ .neg) op₃ .logOr)) op .neg

theorem truthByte_eq_zero {p : Prop} {_ : Decidable p} : truthByte p = 0 ↔ ¬ p := by
  by_cases h : p <;> simp [truthByte, h, Width.bits]

theorem truthByte_ne_zero {p : Prop} {_ : Decidable p} : truthByte p ≠ 0 ↔ p :=
  truthByte_eq_zero.not_left

theorem truthByte_congr {p q : Prop} {_ : Decidable p} {_ : Decidable q} :
    truthByte p = truthByte q ↔ (p ↔ q) := by
  by_cases hp : p <;> by_cases hq : q <;> simp [truthByte, hp, hq, Width.bits]

theorem emit_grouping {e : AstNode} : emit tables (.grouping e) gen = emit tables e gen := by
  rw [emit, grouping]

/-- De Morgan's form is the conjunction of its operands. -/
theorem run_deMorgan (op op₁ op₂ op₃ : Token) {a b : BitVec Width.w8.bits}
    (hr : emit tables rhs gen = .ok (.char, cr, gen₁))
    (hl : emit tables lhs gen₁ = .ok (.char, cl, gen')) (ha : Steady E .w8 cl m a)
    (hb : Steady E .w8 cr m b) :
    ∃ code, emit tables (deMorgan lhs rhs op op₁ op₂ op₃) gen = .ok (.char, code, gen') ∧
      ∃ m', run E code m = some m' ∧ m'.get ⟨.rax, .w8⟩ = truthByte (a ≠ 0 ∧ b ≠ 0) := by
  have hor := @emit_comparison .char _ _ _ op₃ .logOr _ _ _ _ _ (emit_neg op₂ hr) (emit_neg op₁ hl)
  refine ⟨_, emit_neg op (emit_grouping.trans hor), ?_⟩
  have hab : Operands E (OperandTy.width .char) (cr ++ negInstrs) (cl ++ negInstrs) m
      (truthByte (a = 0)) (truthByte (b = 0)) := Steady.operands ha.neg hb.neg
  obtain ⟨m₂, hrax, hrdi, hrun⟩ := hab.run
  obtain ⟨m₃, hrun₃, hal⟩ := run_logOr_byte (E := E) hrax hrdi
  obtain ⟨m₄, hrun₄, hal₄, -⟩ := run_test (E := E) hal (e_holds _)
  refine ⟨m₄, ?_, ?_⟩
  · rw [run_append_some ((hrun _).trans hrun₃)]
    exact hrun₄
  · rw [hal₄]
    refine truthByte_congr.mpr (truthByte_eq_zero.trans ?_)
    rw [not_or]
    exact and_congr (not_congr truthByte_ne_zero) (not_congr truthByte_ne_zero)

/-- The code of `&&` for two operands of one type. -/
theorem run_conjunction (op : Token) {a b : BitVec T.width.bits}
    (hr : emit tables rhs gen = .ok (T.ty, cr, gen₁))
    (hl : emit tables lhs gen₁ = .ok (T.ty, cl, gen')) (hab : Operands E T.width cr cl m a b) :
    ∃ code, emit tables (.binop lhs rhs op .logAnd) gen = .ok (T.ty, code, gen') ∧
      ∃ m', run E code m = some m' ∧ m'.get ⟨.rax, .w8⟩ = truthByte (a &&& b ≠ 0) := by
  refine ⟨_, emit_comparison hr hl, ?_⟩
  obtain ⟨m₂, hrax, hrdi, hrun⟩ := hab.run
  obtain ⟨m₃, hrun₃, hal⟩ := run_logAnd (E := E) hrax hrdi
  exact ⟨m₃, (hrun _).trans hrun₃, hal⟩

theorem and_ne_zero_iff {n : Nat} {a b : BitVec n} :
    (a &&& b ≠ 0 ↔ a ≠ 0 ∧ b ≠ 0) ↔ (a ≠ 0 → b ≠ 0 → a &&& b ≠ 0) := by
  constructor
  · intro h ha hb
    exact h.mpr ⟨ha, hb⟩
  · intro h
    refine ⟨fun hab => ⟨?_, ?_⟩, fun hab => h hab.1 hab.2⟩
    · rintro rfl
      exact hab BitVec.zero_and
    · rintro rfl
      exact hab BitVec.and_zero

/-- The low byte of `&&` is the conjunction of its operands, and for bytes that of De Morgan's form,
iff the operands have a bit in common or one of them is zero. -/
theorem logAnd_iff {a b : BitVec T.width.bits} (hr : emit tables rhs gen = .ok (T.ty, cr, gen₁))
    (hl : emit tables lhs gen₁ = .ok (T.ty, cl, gen')) (hab : Operands E T.width cr cl m a b) :
    ∃ code, emit tables (.binop lhs rhs op .logAnd) gen = .ok (T.ty, code, gen') ∧
      ∃ m', run E code m = some m' ∧
        (m'.get ⟨.rax, .w8⟩ = truthByte (a ≠ 0 ∧ b ≠ 0) ↔ (a ≠ 0 → b ≠ 0 → a &&& b ≠ 0)) ∧
        (T = .char → Steady E T.width cl m a → Steady E T.width cr m b →
          ∃ code', emit tables (deMorgan lhs rhs op op₁ op₂ op₃) gen = .ok (T.ty, code', gen') ∧
            ∃ m'', run E code' m = some m'' ∧
              ((m''.get ⟨.rax, .w8⟩ ≠ 0 ↔ m'.get ⟨.rax, .w8⟩ ≠ 0) ↔
                (a ≠ 0 → b ≠ 0 → a &&& b ≠ 0))) := by
  obtain ⟨code, hemit, m', hrun, hal⟩ := run_conjunction op hr hl hab
  refine ⟨code, hemit, m', hrun, ?_, ?_⟩
  · rw [hal]
    exact (iff_congr truthByte_congr Iff.rfl).mpr and_ne_zero_iff
  · rintro rfl ha hb
    obtain ⟨code', hemit', m'', hrun', hal'⟩ :=
      run_deMorgan op op₁ op₂ op₃ hr hl ha hb
    refine ⟨code', hemit', m'', hrun', ?_⟩
    rw [hal, hal']
    exact ((iff_congr truthByte_ne_zero truthByte_ne_zero).trans iff_comm).trans
      and_ne_zero_iff

end

/-- `x && x` with 256 in the slot of `x`. -/
theorem logAnd_iff_slot :
    let x : AstNode := .literal (.ident "x") .ident
    ∃ code, emit slotTables (.binop x x .eof .logAnd) { scope := some 0 } =
        .ok (.int, code, { scope := some 0 }) ∧
      ∃ m', run .returning code slotMachine = some m' ∧
        m'.get ⟨.rax, .w8⟩ = truthByte (256#32 ≠ 0 ∧ 256#32 ≠ 0) := by
  intro x
  obtain ⟨code, hemit, hoperands⟩ := operands_slot
  obtain ⟨code', hemit', m', hrun, hiff, -⟩ :=
    @logAnd_iff .int .returning slotMachine _ _ slotTables x x .eof .eof .eof .eof _ _ _ _ _
      hemit hemit hoperands
  exact ⟨code', hemit', m', hrun, hiff.mpr (by decide)⟩

/-- `1 && 2` is 0. -/
theorem one_and_two :
    let e : AstNode := .binop (.literal (.num 1) .number) (.literal (.num 2) .number) .eof .logAnd
    ∃ code, emit [] e {} = .ok (.int, code, {}) ∧
      ∃ m', run .returning code slotMachine = some m' ∧ m'.get ⟨.rax, .w8⟩ = 0 ∧
        m'.get ⟨.rax, .w8⟩ ≠ truthByte (1#32 ≠ 0 ∧ 2#32 ≠ 0) := by
  intro e
  have hone : Arith [] none .int (.literal (.num 1) .number) := .number rfl (by decide)
  have htwo : Arith [] none .int (.literal (.num 2) .number) := .number rfl (by decide)
  obtain ⟨cr, cl, hr, hl, hcode⟩ := arith_operands hone htwo (rfl : ({} : Gen).scope = none)
  have hoperands := hcode .returning (fun _ => 0) slotMachine (by simp [AstNode.names])
  obtain ⟨code, hemit, m', hrun, hal⟩ :=
    @run_conjunction .int _ _ _ _ _ _ _ _ _ _ .eof _ _ hr hl hoperands
  have hzero : m'.get ⟨.rax, .w8⟩ = 0 := hal.trans (by decide)
  exact ⟨code, hemit, m', hrun, hzero, by rw [hzero]; decide⟩

end Seron
