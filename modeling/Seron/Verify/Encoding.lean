import Seron.Verify.Building
import Seron.Verify.Constructs

/-! # Encodable instructions

A register is named after the static type of the operand it holds. Two registers in one line have
the same width if the two types are of one kind; an operator between a pointer and an integer, a
negation and a unary minus may pick registers for which there is no instruction. -/

namespace Seron

variable {tables : List Hashtable} {scope : Option Nat} {root node : AstNode} {tl tr : Ty}
  {kind : BinOpKind} {text lines : List Instr} {data : List DataLine}

/-- Next to a pointer, an operand of this kind can be scaled and combined with the pointer. -/
def BinOpKind.scales (kind : BinOpKind) : TypeKind → Bool
  | .char => false
  | .int => kind = .mul || kind = .div
  | _ => true

/-- The registers of two operands of these kinds are suitable for the operator. -/
def BinOpKind.suits (kind : BinOpKind) (lhs rhs : TypeKind) : Bool :=
  if lhs = .pointer ∧ rhs ≠ .pointer then kind.scales rhs
  else if lhs ≠ .pointer ∧ rhs = .pointer then kind.scales lhs
  else true

/-- The registers of the operands are suitable for the node. -/
def Suits (tables : List Hashtable) (scope : Option Nat) : AstNode → Prop
  | .unaryop node _ .neg => ∀ ty, check tables node scope = .ok ty → ty.kind = .char
  | .unaryop node _ .minus => ∀ ty, check tables node scope = .ok ty → ty.kind ≠ .char
  | .binop lhs rhs _ kind => ∀ tl tr, check tables lhs scope = .ok tl →
      check tables rhs scope = .ok tr → kind.suits tl.kind tr.kind = true
  | _ => True

/-! ## The lines of an operator -/

/-- A scaled operand has a register of its kind; operands that are not scaled have one kind. -/
theorem scalePointer_ok {gen gen' : Gen} {lhs rhs : Ty} {scale : List Instr}
    (h : scalePointer lhs rhs gen = .ok ((), scale, gen')) :
    lhs.kind = .pointer ∧ rhs.kind ≠ .pointer ∧
        (∃ reg size, subregister .rdi rhs.kind = .ok reg ∧ scale = [.imulImm reg size]) ∨
      lhs.kind ≠ .pointer ∧ rhs.kind = .pointer ∧
        (∃ reg size, subregister .rax lhs.kind = .ok reg ∧ scale = [.imulImm reg size]) ∨
      lhs.kind = rhs.kind ∧ scale = [] := by
  have scaled {r : Register} {k : TypeKind} {ty : Ty}
      (h : (do
        let reg ← subregister r k
        let size ← typePrimitiveSize (← ty.pointee).kind
        genWrite (.imulImm reg size) : Emit Unit) gen = .ok ((), scale, gen')) :
      ∃ reg size, subregister r k = .ok reg ∧ scale = [.imulImm reg size] := by
    obtain ⟨reg, hreg, h₁⟩ := Emit.lift_bind_ok.mp h
    obtain ⟨ty', -, h₂⟩ := Emit.lift_bind_ok.mp h₁
    obtain ⟨size, -, h₃⟩ := Emit.lift_bind_ok.mp h₂
    obtain ⟨rfl, rfl⟩ := genWrite_ok.mp h₃
    exact ⟨reg, size, hreg, rfl⟩
  unfold scalePointer at h
  split at h
  · rename_i hkinds
    exact .inl ⟨hkinds.1, hkinds.2, scaled h⟩
  · split at h
    · rename_i hkinds
      exact .inr (.inl ⟨hkinds.1, hkinds.2, scaled h⟩)
    · split at h
      · exact (invalidTypes_ok.mp h).elim
      · rename_i hkinds
        obtain ⟨-, rfl, rfl⟩ := Emit.pure_ok.mp h
        exact .inr (.inr ⟨(not_not.mp hkinds).symm, rfl⟩)

/-- On registers of one width every operator is encodable. -/
theorem binopInstrs_encodable {rax rdi : SubReg} (h : rax.width = rdi.width) :
    ∀ i ∈ binopInstrs rax rdi ⟨.rax, .w8⟩ kind, i.encodable = true := by
  cases kind <;> simp [binopInstrs, Instr.encodable, h]

/-- On registers of different widths only those operators are that have one register operand. -/
theorem binopInstrs_encodable_iff {rax rdi : SubReg} (h : rax.width ≠ rdi.width) :
    (∀ i ∈ binopInstrs rax rdi ⟨.rax, .w8⟩ kind, i.encodable = true) ↔
      kind = .mul ∨ kind = .div := by
  cases kind <;> simp [binopInstrs, Instr.encodable, h]

/-- The lines of an operator are encodable iff the registers of its operands are suitable. -/
theorem Combined.encodable_iff (h : Combined tl tr kind lines) :
    (∀ i ∈ lines, i.encodable = true) ↔ kind.suits tl.kind tr.kind = true := by
  obtain ⟨rax, rdi, scale, gen, gen', hrax, hrdi, hscale, rfl⟩ := h
  have scaled {k : TypeKind} {r : Register} {reg : SubReg} {size : Int}
      (hreg : subregister r k = .ok reg) (hk : k ≠ .pointer)
      (hlines : (∀ i ∈ binopInstrs rax rdi ⟨.rax, .w8⟩ kind, i.encodable = true) ↔
        (reg.width ≠ .w64 → kind = .mul ∨ kind = .div)) :
      (∀ i ∈ [.imulImm reg size] ++ binopInstrs rax rdi ⟨.rax, .w8⟩ kind, i.encodable = true) ↔
        kind.scales k = true := by
    rw [List.forall_mem_append, List.forall_mem_singleton, hlines]
    cases k <;> cases hreg <;> simp [Instr.encodable, BinOpKind.scales] at hk ⊢
  rcases scalePointer_ok hscale with ⟨hl, hr, reg, size, hreg, rfl⟩ | ⟨hl, hr, reg, size, hreg, rfl⟩ |
      ⟨hkinds, rfl⟩
  · rw [scaled hreg hr, BinOpKind.suits, if_pos ⟨hl, hr⟩]
    rw [hl] at hrax
    cases hrax
    obtain rfl : reg = rdi := Except.ok.inj (hreg.symm.trans hrdi)
    by_cases hw : reg.width = .w64
    · simpa [hw] using binopInstrs_encodable hw.symm
    · simpa [hw] using binopInstrs_encodable_iff (Ne.symm hw)
  · rw [scaled hreg hl, BinOpKind.suits, if_neg fun h => h.2 hr, if_pos ⟨hl, hr⟩]
    rw [hr] at hrdi
    cases hrdi
    obtain rfl : reg = rax := Except.ok.inj (hreg.symm.trans hrax)
    by_cases hw : reg.width = .w64
    · simpa [hw] using binopInstrs_encodable hw
    · simpa [hw] using binopInstrs_encodable_iff hw
  · rw [BinOpKind.suits, if_neg fun h => h.2 (hkinds ▸ h.1), if_neg fun h => h.1 (hkinds ▸ h.2)]
    rw [hkinds] at hrax
    simpa using binopInstrs_encodable (subregister_width hrax hrdi)

/-! ## Programs -/

/-- A line of a construct is encodable if the registers of the construct are suitable. -/
theorem Writes.encodable_of_suits {i : Instr} (h : Writes tables scope node i)
    (hsuits : Suits tables scope node) : i.encodable = true := by
  cases h with
  | encodable h => exact h
  | neg hty hreg =>
    have hchar := hsuits _ hty
    rw [hchar] at hreg
    cases hreg
    rfl
  | @minus node op ty reg hty hreg =>
    have hchar := hsuits _ hty
    generalize ty.kind = k at hreg hchar
    cases k <;> cases hreg <;> simp [Instr.encodable] at hchar ⊢
  | binop htl htr hlines hi => exact hlines.encodable_iff.mpr (hsuits _ _ htl htr) i hi

/-- A construct in a text of encodable lines has suitable registers. -/
theorem Emitted.suits (h : Emitted tables scope node text)
    (htext : ∀ i ∈ text, i.encodable = true) : Suits tables scope node := by
  obtain ⟨gen, ty, gen', rfl, h⟩ := h
  have checked {c : AstNode} {gen gen₁ : Gen} {tc tc' : Ty} {t : List Instr}
      (hc : emit tables c gen = .ok (tc, t, gen₁)) (hcheck : check tables c gen.scope = .ok tc') :
      tc' = tc ∧ gen₁.scope = gen.scope := by
    obtain ⟨hpassed, hkeep⟩ := emit_checked hc
    exact ⟨Except.ok.inj (hcheck.symm.trans hpassed), hkeep⟩
  unfold Suits
  split
  · intro tc htc
    rw [emit] at h
    obtain ⟨c, rax, hc, hrax, rfl⟩ := unaryop_neg_ok h
    obtain ⟨rfl, -⟩ := checked hc htc
    have hline := htext (.setcc .e rax) (by simp)
    generalize tc.kind = k at hrax
    cases k <;> cases hrax <;> simp [Instr.encodable] at hline ⊢
  · intro tc htc
    rw [emit] at h
    obtain ⟨c, rax, hc, hrax, rfl⟩ := unaryop_minus_ok.mp h
    obtain ⟨rfl, -⟩ := checked hc htc
    have hline := htext (.imulImm rax (-1)) (by simp)
    generalize tc.kind = k at hrax
    cases k <;> cases hrax <;> simp [Instr.encodable] at hline ⊢
  · rename_i lhs rhs op kind
    intro tl tr htl htr
    rw [emit] at h
    obtain ⟨tr', cr, gen₁, rdi, tl', cl, gen₂, rax, scale, hr, hrdi, hl, hrax, hscale, -, rfl⟩ :=
      binop_ok.mp h
    obtain ⟨rfl, hscope⟩ := checked hr htr
    rw [← hscope] at htl
    obtain ⟨rfl, -⟩ := checked hl htl
    have hlines : Combined tl tr kind _ := ⟨rax, rdi, scale, gen₂, gen', hrax, hrdi, hscale, rfl⟩
    exact hlines.encodable_iff.mp fun i hi => htext i (by simp_all)
  · trivial

/-- The lines of an accepted program are encodable iff the registers of all constructs are
suitable. -/
theorem text_encodable_iff (h : codegen tables root = .ok (text, data)) :
    (∀ i ∈ text, i.encodable = true) ↔
      ∀ scope node, Visits none root scope node → Suits tables scope node := by
  obtain ⟨⟨ty, text', gen⟩, hemit, hp⟩ := Except.bind_ok.mp h
  cases hp
  have hroot : Emitted tables none root text := ⟨{}, ty, gen, rfl, hemit⟩
  constructor
  · intro htext scope node hvisits
    obtain ⟨t, ht, hsub⟩ := hvisits.emitted hroot
    exact ht.suits fun i hi => htext i (hsub hi)
  · intro hsuits i hi
    obtain ⟨scope, node, hvisits, hwrites⟩ := hroot.writes hi
    exact hwrites.encodable_of_suits (hsuits scope node hvisits)

/-- Whether a program is accepted and this test holds of its text. -/
def emitsText (test : List Instr → Bool) (root : AstNode) (tables : List Hashtable) : Bool :=
  match codegen tables root with
  | .ok (text, _) => test text
  | .error _ => false

theorem of_emitsText {test : List Instr → Bool} (h : emitsText test root tables = true) :
    ∃ text data, codegen tables root = .ok (text, data) ∧ test text = true := by
  unfold emitsText at h
  split at h
  · rename_i text data hcodegen
    exact ⟨text, data, hcodegen, h⟩
  · cases h

/-- `proc f(x: int) int { return !x; }` -/
def notInt : List Token :=
  [{ kind := .kwProc }, .ident "f", { kind := .lparen }, .ident "x", { kind := .colon },
    { kind := .kwTypeInt }, { kind := .rparen }, { kind := .kwTypeInt }, { kind := .lbrace },
    { kind := .kwReturn }, { kind := .bang }, .ident "x", { kind := .semicolon },
    { kind := .rbrace }, .eof]

theorem notInt_emits : ∃ root p root' root'' st text data, parse 100 [] notInt = .ok root p ∧
    expandAst root = .ok root' ∧ symboltableBuild root' = .ok (root'', st) ∧
    codegen st.tables root'' = .ok (text, data) ∧
    text.all (·.encodable) = false := by
  obtain ⟨root, p, root', root'', st, hparse, hexpand, hbuild, htest⟩ :=
    @of_annotatesTo (fun _ root tables => emitsText (!·.all (·.encodable)) root tables) 100 notInt
      (by decide +kernel)
  obtain ⟨text, data, hcodegen, htext⟩ := of_emitsText htest
  exact ⟨root, p, root', root'', st, text, data, hparse, hexpand, hbuild, hcodegen,
    by simpa using htext⟩

theorem text_encodable_iff_notInt : ∃ root tables text data,
    codegen tables root = .ok (text, data) ∧ ((∀ i ∈ text, i.encodable = true) ↔
      ∀ scope node, Visits none root scope node → Suits tables scope node) := by
  obtain ⟨-, -, -, root, st, text, data, -, -, -, hcodegen, -⟩ := notInt_emits
  exact ⟨root, st.tables, text, data, hcodegen, text_encodable_iff hcodegen⟩

/-- The result of `!x` is set in `eax`. -/
theorem not_encodable : ∃ root p root' root'' st text data, parse 100 [] notInt = .ok root p ∧
    expandAst root = .ok root' ∧ symboltableBuild root' = .ok (root'', st) ∧
    codegen st.tables root'' = .ok (text, data) ∧ ¬ ∀ i ∈ text, i.encodable = true := by
  obtain ⟨root, p, root', root'', st, text, data, hparse, hexpand, hbuild, hcodegen, htext⟩ :=
    notInt_emits
  refine ⟨root, p, root', root'', st, text, data, hparse, hexpand, hbuild, hcodegen, fun h => ?_⟩
  simp [List.all_eq_true.mpr h] at htext

end Seron
