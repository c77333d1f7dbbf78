import Seron.Verify.Comparisons
import Mathlib.Tactic.Linarith
import Mathlib.Tactic.Ring

/-! # Division

`idiv` divides the double word in `rdx` and `rax`, but the code sets `rax` only. The quotient is
that of the operands iff `rdx` happens to hold the sign of the left one. -/

namespace Seron

/-! ## Double words -/

/-- All bits are the sign of a word. -/
def signWord {n : Nat} (a : BitVec n) : BitVec n := if a.toInt < 0 then -1 else 0

section
variable {n : Nat} {a b d : BitVec n}

/-- How many ranges of a word a double word is off its lower half. -/
def excess (d a : BitVec n) : Int := d.toInt + if a.toInt < 0 then 1 else 0

theorem toInt_double (hn : n ≠ 0) (d a : BitVec n) :
    (d ++ a).toInt = a.toInt + excess d a * 2 ^ n := by
  have hlow := BitVec.toInt_eq_msb_cond a
  rw [BitVec.msb_eq_toInt] at hlow
  have hne : (n == 0) = false := by simpa using hn
  have happend : (d ++ a).toInt = 2 ^ n * d.toInt + a.toNat := by
    rw [BitVec.toInt_append, hne, if_neg (by simp)]
  rw [happend, excess, add_mul, mul_comm (2 ^ n)]
  by_cases hneg : a.toInt < 0
  · rw [if_pos (decide_eq_true hneg)] at hlow
    rw [if_pos hneg, one_mul]
    push_cast at hlow
    omega
  · rw [if_neg (by simpa using hneg)] at hlow
    rw [if_neg hneg, zero_mul]
    omega

theorem excess_eq_zero (hn : 0 < n) : excess d a = 0 ↔ d = signWord a := by
  unfold excess signWord
  by_cases hneg : a.toInt < 0
  · have hone : (-1 : BitVec n).toInt = -1 := by
      have hall : (-1 : BitVec n) = BitVec.allOnes n := BitVec.neg_one_eq_allOnes
      rw [hall, BitVec.toInt_allOnes, if_pos hn]
    rw [if_pos hneg, if_pos hneg, ← BitVec.toInt_inj, hone]
    omega
  · have hzero : (0 : BitVec n).toInt = 0 := BitVec.toInt_zero
    rw [if_neg hneg, if_neg hneg, ← BitVec.toInt_inj, hzero]
    omega

/-- Dividends that are far apart have different quotients. -/
theorem tdiv_ne {x y c : Int} (hc : c ≠ 0) (hfar : 2 * c.natAbs ≤ (x - y).natAbs) :
    Int.tdiv x c ≠ Int.tdiv y c := by
  intro heq
  have hx := Int.tmod_add_tdiv_mul x c
  have hy := Int.tmod_add_tdiv_mul y c
  have hrx : (Int.tmod x c).natAbs < c.natAbs := by
    rw [Int.natAbs_tmod]
    exact Nat.mod_lt _ (Int.natAbs_pos.mpr hc)
  have hry : (Int.tmod y c).natAbs < c.natAbs := by
    rw [Int.natAbs_tmod]
    exact Nat.mod_lt _ (Int.natAbs_pos.mpr hc)
  have hdiff : x - y = Int.tmod x c - Int.tmod y c := by
    rw [← heq] at hy
    linarith
  omega

/-- The quotient is that of the lower half iff the upper half is its sign. -/
theorem tdiv_double_iff (hn : 0 < n) (hb : b ≠ 0) :
    Int.tdiv (d ++ a).toInt b.toInt = Int.tdiv a.toInt b.toInt ↔ d = signWord a := by
  rw [toInt_double (Nat.ne_of_gt hn), ← excess_eq_zero hn]
  constructor
  · intro heq
    by_contra hk
    have hb' : b.toInt ≠ 0 := by
      intro h
      exact hb (BitVec.toInt_inj.mp (h.trans BitVec.toInt_zero.symm))
    refine tdiv_ne hb' ?_ heq
    have hlo : -2 ^ n ≤ 2 * b.toInt := BitVec.le_two_mul_toInt
    have hhi : 2 * b.toInt < 2 ^ n := BitVec.two_mul_toInt_lt
    have hpow : (0 : Int) < 2 ^ n := Int.pow_pos (by decide)
    have habs : ((2 : Int) ^ n).natAbs ≤ (excess d a * 2 ^ n).natAbs := by
      rw [Int.natAbs_mul]
      exact Nat.le_mul_of_pos_left _ (Int.natAbs_pos.mpr hk)
    have hsub : a.toInt + excess d a * 2 ^ n - a.toInt = excess d a * 2 ^ n := by ring
    rw [hsub]
    omega
  · intro hk
    rw [hk, zero_mul, add_zero]

end

variable {T : WordTy} {E : Env} {m m₂ : Machine}

/-! ## The instruction -/

theorem idiv_word : m.idiv ⟨.rdi, T.width⟩ =
    let b := (m.get ⟨.rdi, T.width⟩).toInt
    let a := (m.get ⟨.rdx, T.width⟩ ++ m.get ⟨.rax, T.width⟩).toInt
    if b = 0 ∨ (BitVec.ofInt T.width.bits (Int.tdiv a b)).toInt ≠ Int.tdiv a b then none
    else some ((m.set ⟨.rax, T.width⟩ (BitVec.ofInt T.width.bits (Int.tdiv a b))).set
      ⟨.rdx, T.width⟩ (BitVec.ofInt T.width.bits (Int.tmod a b))) := by
  cases T <;> rfl

/-- The quotient in `rax` is that of the double word. -/
theorem run_idiv_iff {q : Int} (hb : m.get ⟨.rdi, T.width⟩ ≠ 0)
    (hq : (BitVec.ofInt T.width.bits q).toInt = q) :
    (∃ m', run E [.idiv ⟨.rdi, T.width⟩] m = some m' ∧ (m'.get ⟨.rax, T.width⟩).toInt = q) ↔
      Int.tdiv (m.get ⟨.rdx, T.width⟩ ++ m.get ⟨.rax, T.width⟩).toInt
        (m.get ⟨.rdi, T.width⟩).toInt = q := by
  have hb' : (m.get ⟨.rdi, T.width⟩).toInt ≠ 0 := by
    intro h
    exact hb (BitVec.toInt_inj.mp (h.trans BitVec.toInt_zero.symm))
  generalize hd : Int.tdiv (m.get ⟨.rdx, T.width⟩ ++ m.get ⟨.rax, T.width⟩).toInt
    (m.get ⟨.rdi, T.width⟩).toInt = d
  have hstep : run E [.idiv ⟨.rdi, T.width⟩] m = (m.idiv ⟨.rdi, T.width⟩).map (·.unflagged) := by
    rw [run_cons, exec]
    cases m.idiv ⟨.rdi, T.width⟩ <;> rfl
  rw [hstep, idiv_word]
  simp only [hd, hb', false_or]
  by_cases hfit : (BitVec.ofInt T.width.bits d).toInt = d
  · rw [if_neg (not_not.mpr hfit)]
    simp only [Option.map_some, Option.some.injEq, exists_eq_left', Machine.get_unflagged]
    rw [Machine.get_set_of_ne (by simp), Machine.get_set_self, hfit]
  · rw [if_pos hfit]
    simp only [Option.map_none, reduceCtorEq, false_and, exists_false, false_iff]
    intro heq
    subst heq
    exact hfit hq

/-! ## The code of a division -/

section
variable {tables : List Hashtable} {lhs rhs : AstNode} {op : Token} {cl cr : List Instr}
  {gen gen₁ gen' : Gen}

theorem emit_division (hr : emit tables rhs gen = .ok (T.ty, cr, gen₁))
    (hl : emit tables lhs gen₁ = .ok (T.ty, cl, gen')) :
    emit tables (.binop lhs rhs op .div) gen = .ok (T.ty, cr ++ .push .rax :: (cl ++ .pop .rdi ::
      [.idiv ⟨.rdi, T.width⟩]), gen') := by
  cases T with
  | int => exact @emit_comparison .int _ _ _ _ .div _ _ _ _ _ hr hl
  | long => exact @emit_comparison .long _ _ _ _ .div _ _ _ _ _ hr hl

/-- The code of `/` leaves the quotient of its operands iff `rdx` holds the sign of the left one
when they have been evaluated. -/
theorem division_iff {a b : BitVec T.width.bits} (hr : emit tables rhs gen = .ok (T.ty, cr, gen₁))
    (hl : emit tables lhs gen₁ = .ok (T.ty, cl, gen'))
    (hrun : run E (cr ++ .push .rax :: cl) m = some m₂) (ha : m₂.get ⟨.rax, T.width⟩ = a)
    (hb : m₂.top.setWidth T.width.bits = b) (hne : b ≠ 0)
    (hover : ¬ (a = BitVec.intMin T.width.bits ∧ b = -1)) :
    ∃ code, emit tables (.binop lhs rhs op .div) gen = .ok (T.ty, code, gen') ∧
      ((∃ m', run E code m = some m' ∧
          (m'.get ⟨.rax, T.width⟩).toInt = Int.tdiv a.toInt b.toInt) ↔
        m₂.get ⟨.rdx, T.width⟩ = signWord a) := by
  refine ⟨_, emit_division hr hl, ?_⟩
  have hstart : run E (cr ++ .push .rax :: (cl ++ .pop .rdi :: [.idiv ⟨.rdi, T.width⟩])) m =
      run E [.idiv ⟨.rdi, T.width⟩] (m₂.drop.setReg .rdi m₂.top) := by
    rw [← List.cons_append, ← List.append_assoc, run_append_some hrun, run_cons, exec,
      Option.bind_some]
  have hrdi : (m₂.drop.setReg .rdi m₂.top).get ⟨.rdi, T.width⟩ = b := by
    simpa [Machine.get] using hb
  have hrax : (m₂.drop.setReg .rdi m₂.top).get ⟨.rax, T.width⟩ = a := by
    simpa [Machine.get, Machine.setReg_of_ne] using ha
  have hrdx : (m₂.drop.setReg .rdi m₂.top).get ⟨.rdx, T.width⟩ = m₂.get ⟨.rdx, T.width⟩ := by
    simp [Machine.get, Machine.setReg_of_ne]
  have hquot : (a.sdiv b).toInt = Int.tdiv a.toInt b.toInt := by
    apply BitVec.toInt_sdiv_of_ne_or_ne
    rw [← not_and_or]
    exact hover
  have hfit : (BitVec.ofInt T.width.bits (Int.tdiv a.toInt b.toInt)).toInt =
      Int.tdiv a.toInt b.toInt := by
    rw [← hquot, BitVec.ofInt_toInt]
  have hpos : 0 < T.width.bits := by cases T <;> decide
  rw [hstart, run_idiv_iff (hrdi ▸ hne) hfit, hrdx, hrax, hrdi]
  exact tdiv_double_iff hpos hne

end

/-- `10 / 2` with 0 in `rdx` is 5. -/
theorem division_iff_ten :
    let e : AstNode := .binop (.literal (.num 10) .number) (.literal (.num 2) .number) .eof .div
    ∃ code, emit [] e {} = .ok (.int, code, {}) ∧
      ∃ m', run .returning code slotMachine = some m' ∧ (m'.get ⟨.rax, .w32⟩).toInt = 5 := by
  intro e
  have hr : emit [] (.literal (.num 2) .number) {} =
      .ok (WordTy.int.ty, [.movImm ⟨.rax, .w32⟩ 2], {}) := rfl
  have hl : emit [] (.literal (.num 10) .number) {} =
      .ok (WordTy.int.ty, [.movImm ⟨.rax, .w32⟩ 10], {}) := rfl
  obtain ⟨code, hemit, hiff⟩ :=
    @division_iff .int .returning slotMachine _ [] (.literal (.num 10) .number)
      (.literal (.num 2) .number) .eof _ _ _ _ _ 10 2 hr hl rfl (by decide) (by decide +kernel)
      (by decide) (by decide)
  exact ⟨code, hemit, hiff.mpr (by decide)⟩

/-- `-10 / 2` with 0 in `rdx` is 2147483643, and `10 / 2` with 1 there faults. -/
theorem minus_ten_halved :
    let e : AstNode := .binop (.unaryop (.literal (.num 10) .number) .eof .minus)
      (.literal (.num 2) .number) .eof .div
    let e' : AstNode := .binop (.literal (.num 10) .number) (.literal (.num 2) .number) .eof .div
    (∃ code, emit [] e {} = .ok (.int, code, {}) ∧
      ∃ m', run .returning code slotMachine = some m' ∧
        (m'.get ⟨.rax, .w32⟩).toInt = 2147483643 ∧
        (m'.get ⟨.rax, .w32⟩).toInt ≠ Int.tdiv (-10) 2) ∧
      ∃ code, emit [] e' {} = .ok (.int, code, {}) ∧
        run .returning code (slotMachine.setReg .rdx 1) = none := by
  refine ⟨⟨_, rfl, _, rfl, ?_, ?_⟩, _, rfl, ?_⟩
  · decide +kernel
  · decide +kernel
  · rfl

end Seron
