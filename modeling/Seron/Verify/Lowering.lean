import Seron.Verify.Contracts
import Seron.Verify.Emission
import Seron.Theory.Simulation
import Seron.Machine

/-! # Control flow

The text of a procedure body is the lowering of a structured program over the code of its leaf
statements and conditions, and so does what this program does. -/

namespace Seron

open ControlFlow

/-! ## Lines -/

/-- A line as the machine with labels and jumps sees it. -/
def Instr.line : Instr → Line Instr Label
  | .jmp l => .jmp l
  | .je l => .jz l
  | .jne l => .jnz l
  | .label l => .label l
  | i => .instr i

theorem Instr.line_eq {i : Instr} (h : i.straight = true) : i.line = .instr i := by
  cases i <;> first | rfl | cases h

theorem map_line {code : List Instr} (h : ∀ i ∈ code, i.straight = true) :
    code.map Instr.line = code.map .instr :=
  List.map_congr_left fun i hi => Instr.line_eq (h i hi)

def Label.marked : Mark → Nat → Label
  | .else_, n => .else_ n
  | .end_, n => .end_ n
  | .while_, n => .while_ n
  | .cond, n => .cond n

/-! ## Leaf statements and conditions -/

/-- A node and its code; for a condition also the part of `rax` that its type selects. -/
inductive Atom where
  | leaf (node : AstNode) (code : List Instr)
  | cond (node : AstNode) (code : List Instr) (rax : SubReg)

/-- The code of a condition is followed by a comparison with zero. -/
def Atom.code : Atom → List Instr
  | .leaf _ code => code
  | .cond _ code rax => code ++ [.cmpImm rax 0]

/-- A condition holds iff its code leaves a value other than zero. Leaf statements are not asked. -/
def Atom.test (E : Env) : Atom → Machine → Option (Bool × Machine)
  | .leaf _ code, m => (run E code m).bind fun m => m.flags.map fun f => (!f.zero, m)
  | .cond _ code rax, m =>
    (run E code m).map fun m => (m.get rax != 0, { m with flags := some (.ofCmp (m.get rax) 0) })

theorem run_eq_foldlM {E : Env} {code : List Instr} {m : Machine} :
    code.foldlM (fun m i => exec E i m) m = run E code m := by
  induction code generalizing m with
  | nil => rfl
  | cons i code ih =>
    rw [List.foldlM_cons, run]
    exact congrArg _ (funext fun m => ih)

theorem Atom.test_eq {E : Env} {a : Atom} {m m' : Machine} {b : Bool} :
    a.test E m = some (b, m') ↔ a.code.foldlM (fun m i => exec E i m) m = some m' ∧
      m'.flags.map (·.zero) = some !b := by
  rw [run_eq_foldlM]
  cases a with
  | leaf node code =>
    simp only [Atom.test, Atom.code, Option.bind_eq_some_iff, Option.map_eq_some_iff, Prod.mk.injEq]
    constructor
    · rintro ⟨m₁, hrun, f, hf, rfl, rfl⟩
      exact ⟨hrun, f, hf, by simp⟩
    · rintro ⟨hrun, f, hf, hz⟩
      exact ⟨m', hrun, f, hf, by simp [hz], rfl⟩
  | cond node code rax =>
    simp only [Atom.test, Atom.code, run_append_eq_some, Option.map_eq_some_iff, Prod.mk.injEq]
    constructor
    · rintro ⟨m₁, hrun, rfl, rfl⟩
      exact ⟨⟨m₁, hrun, rfl⟩, _, rfl, by simp [Flags.ofCmp, bne]⟩
    · rintro ⟨⟨m₁, hrun, hcmp⟩, f, hf, hz⟩
      cases hcmp
      cases hf
      exact ⟨m₁, hrun, by simpa [Flags.ofCmp, bne] using congrArg (!·) hz, rfl⟩

/-- The machine of the target, with the labels of `cond` and `while_`. -/
def backend (E : Env) : Backend Atom Instr Label Machine where
  exec := exec E
  zero m := m.flags.map (·.zero)
  name := Label.marked
  exit := .return_
  code := Atom.code
  test := Atom.test E
  name_inj {k k' n n'} h := by cases k <;> cases k' <;> cases h <;> exact ⟨rfl, rfl⟩
  exit_ne {k n} h := by cases k <;> cases h
  test_eq := Atom.test_eq

/-! ## Structured programs -/

/-- Blocks, `if`, `while` and `return` over straight-line leaf statements and conditions. -/
inductive AstNode.Nested : AstNode → Prop
  | leaf {node : AstNode} : node.Straight → Nested node
  | block {stmts : List AstNode} {t : Option Nat} : (∀ s ∈ stmts, Nested s) →
    Nested (.block stmts t)
  | if_ {op : Token} {condition thenBody : AstNode} {elseBody : Option AstNode} :
    condition.Straight → Nested thenBody → (∀ s ∈ elseBody, Nested s) →
    Nested (.if_ op condition thenBody elseBody)
  | while_ {op : Token} {condition body : AstNode} : condition.Straight → Nested body →
    Nested (.while_ op condition body)
  | return_ {op : Token} {expr : Option AstNode} : (∀ e ∈ expr, e.Straight) →
    Nested (.return_ op expr)

section
variable (tables : List Hashtable)

/-- A condition, its code and the part of `rax` with its value. -/
def Tested (gen : Gen) (node : AstNode) (a : Atom) (gen' : Gen) : Prop :=
  ∃ ty code rax, emit tables node gen = .ok (ty, code, gen') ∧
    subregister .rax ty.kind = .ok rax ∧ a = .cond node code rax

mutual

/-- The structured program of a statement; the code of the leaves is what is emitted for them. -/
inductive Structured : Gen → AstNode → Stmt Atom → Gen → Prop
  | leaf {gen gen' : Gen} {node : AstNode} {ty : Ty} {code : List Instr} :
    node.Straight → emit tables node gen = .ok (ty, code, gen') →
    Structured gen node (.leaf (.leaf node code)) gen'
  | block {gen gen' : Gen} {stmts : List AstNode} {t : Option Nat} {s : Stmt Atom} :
    StructuredSeq { gen with scope := t } stmts s gen' →
    Structured gen (.block stmts t) s { gen' with scope := gen.scope }
  | if_ {gen gen₁ gen₂ gen' : Gen} {op : Token} {condition thenBody : AstNode}
      {elseBody : Option AstNode} {a : Atom} {s s' : Stmt Atom} :
    Tested tables { gen with labelCount := gen.labelCount + 1 } condition a gen₁ →
    Structured gen₁ thenBody s gen₂ → StructuredSeq gen₂ elseBody.toList s' gen' →
    Structured gen (.if_ op condition thenBody elseBody) (.ite a s s') gen'
  | while_ {gen gen₁ gen' : Gen} {op : Token} {condition body : AstNode} {a : Atom}
      {s : Stmt Atom} :
    Structured { gen with labelCount := gen.labelCount + 1 } body s gen₁ →
    Tested tables gen₁ condition a gen' →
    Structured gen (.while_ op condition body) (.loop a s) gen'
  | return_ {gen gen' : Gen} {op : Token} {expr : Option AstNode} {s : Stmt Atom} :
    StructuredSeq gen expr.toList s gen' →
    Structured gen (.return_ op expr) (.seq s .ret) gen'

inductive StructuredSeq : Gen → List AstNode → Stmt Atom → Gen → Prop
  | nil {gen : Gen} : StructuredSeq gen [] .skip gen
  | cons {gen gen₁ gen' : Gen} {node : AstNode} {nodes : List AstNode} {s s' : Stmt Atom} :
    Structured gen node s gen₁ → StructuredSeq gen₁ nodes s' gen' →
    StructuredSeq gen (node :: nodes) (.seq s s') gen'

end

end

/-! ## What the statements write -/

section
variable {tables : List Hashtable} {gen gen' : Gen} {ty : Ty} {text : List Instr}

theorem cond_ok {condition thenBody : Emit Ty} {elseBody : Option (Emit Ty)}
    (h : cond condition thenBody elseBody gen = .ok ((), text, gen')) :
    ∃ tc cc gen₁ rax tt ct gen₂ ce,
      condition { gen with labelCount := gen.labelCount + 1 } = .ok (tc, cc, gen₁) ∧
      subregister .rax tc.kind = .ok rax ∧ thenBody gen₁ = .ok (tt, ct, gen₂) ∧
      emitSeq elseBody.toList gen₂ = .ok ((), ce, gen') ∧
      text = cc ++ .cmpImm rax 0 :: .je (.else_ gen.labelCount) :: (ct ++
        .jmp (.end_ gen.labelCount) :: .label (.else_ gen.labelCount) :: (ce ++
          [.label (.end_ gen.labelCount)])) := by
  rw [cond, getGen_bind_ok, modifyGen_bind_ok] at h
  obtain ⟨tc, cc, gen₁, t₁, hc, h₁, rfl⟩ := Emit.bind_ok.mp h
  obtain ⟨rax, hrax, h₂⟩ := Emit.lift_bind_ok.mp h₁
  obtain ⟨t₂, h₃, rfl⟩ := genWrite_bind_ok.mp h₂
  obtain ⟨t₃, h₄, rfl⟩ := genWrite_bind_ok.mp h₃
  obtain ⟨tt, ct, gen₂, t₄, ht, h₅, rfl⟩ := discard_bind_ok.mp h₄
  obtain ⟨t₅, h₆, rfl⟩ := genWrite_bind_ok.mp h₅
  obtain ⟨t₆, h₇, rfl⟩ := genWrite_bind_ok.mp h₆
  cases elseBody with
  | none =>
    obtain ⟨rfl, rfl⟩ := genWrite_ok.mp h₇
    exact ⟨tc, cc, gen₁, rax, tt, ct, _, [], hc, hrax, ht, rfl, rfl⟩
  | some elseBody =>
    obtain ⟨te, ce, gen₃, t₈, he, h₈, rfl⟩ := discard_bind_ok.mp h₇
    obtain ⟨rfl, rfl⟩ := genWrite_ok.mp h₈
    refine ⟨tc, cc, gen₁, rax, tt, ct, gen₂, ce, hc, hrax, ht, ?_, rfl⟩
    exact discard_bind_ok.mpr ⟨te, ce, _, [], he, rfl, by simp⟩

theorem while_ok {condition body : Emit Ty}
    (h : while_ condition body gen = .ok ((), text, gen')) :
    ∃ tb cb gen₁ tc cc rax,
      body { gen with labelCount := gen.labelCount + 1 } = .ok (tb, cb, gen₁) ∧
      condition gen₁ = .ok (tc, cc, gen') ∧ subregister .rax tc.kind = .ok rax ∧
      text = .jmp (.cond gen.labelCount) :: .label (.while_ gen.labelCount) :: (cb ++
        .label (.cond gen.labelCount) :: (cc ++
          [.cmpImm rax 0, .jne (.while_ gen.labelCount)])) := by
  rw [while_, getGen_bind_ok, modifyGen_bind_ok] at h
  obtain ⟨t₁, h₁, rfl⟩ := genWrite_bind_ok.mp h
  obtain ⟨t₂, h₂, rfl⟩ := genWrite_bind_ok.mp h₁
  obtain ⟨tb, cb, gen₁, t₃, hb, h₃, rfl⟩ := discard_bind_ok.mp h₂
  obtain ⟨t₄, h₄, rfl⟩ := genWrite_bind_ok.mp h₃
  obtain ⟨tc, cc, gen₂, t₅, hc, h₅, rfl⟩ := Emit.bind_ok.mp h₄
  obtain ⟨rax, hrax, h₆⟩ := Emit.lift_bind_ok.mp h₅
  obtain ⟨t₆, h₇, rfl⟩ := genWrite_bind_ok.mp h₆
  obtain ⟨rfl, rfl⟩ := genWrite_ok.mp h₇
  exact ⟨tb, cb, gen₁, tc, cc, rax, hb, hc, hrax, rfl⟩

theorem return_ok {expr : Option (Emit Ty)} (h : return_ expr gen = .ok ((), text, gen')) :
    ∃ c, emitSeq expr.toList gen = .ok ((), c, gen') ∧ text = c ++ [.jmp .return_] := by
  cases expr with
  | none =>
    obtain ⟨rfl, rfl⟩ := genWrite_ok.mp h
    exact ⟨[], rfl, rfl⟩
  | some expr =>
    obtain ⟨te, c, gen₁, t₂, he, h₁, rfl⟩ := discard_bind_ok.mp h
    obtain ⟨rfl, rfl⟩ := genWrite_ok.mp h₁
    exact ⟨c, discard_bind_ok.mpr ⟨te, c, _, [], he, rfl, by simp⟩, rfl⟩

/-- The code of a condition and the comparison behind it, without new labels. -/
theorem tested_of_emit {node : AstNode} {code : List Instr} {rax : SubReg} (h : node.Straight)
    (hemit : emit tables node gen = .ok (ty, code, gen')) (hrax : subregister .rax ty.kind = .ok rax) :
    ∃ a, Tested tables gen node a gen' ∧ gen'.labelCount = gen.labelCount ∧
      (code ++ [Instr.cmpImm rax 0]).map Instr.line = a.code.map .instr := by
  obtain ⟨hcode, hlabels, -⟩ := h.emit hemit
  refine ⟨.cond node code rax, ⟨ty, code, rax, hemit, hrax, rfl⟩, hlabels, map_line ?_⟩
  intro i hi
  rcases List.mem_append.mp hi with hi | hi
  · exact hcode i hi
  · rw [List.mem_singleton.mp hi]
    rfl

/-- The lines of a `while`, given those of its condition and of its body. -/
theorem map_line_loop {E : Env} {a : Atom} {s : Stmt Atom} {n : Nat} {cc cb : List Instr}
    {rax : SubReg} (hcond : (cc ++ [Instr.cmpImm rax 0]).map Instr.line = a.code.map .instr)
    (hbody : cb.map Instr.line = (backend E).lower s (n + 1)) :
    (.jmp (.cond n) :: .label (.while_ n) :: (cb ++ .label (.cond n) ::
      (cc ++ [.cmpImm rax 0, .jne (.while_ n)]))).map Instr.line = (backend E).lower (.loop a s) n := by
  rw [Backend.lower, show (backend E).code a = a.code from rfl, ← hcond, ← hbody]
  simp [Instr.line, backend, Label.marked]

theorem emits_optToList {node : Option AstNode} :
    (emitOpt tables node).toList = emits tables node.toList := by
  cases node <;> rfl

/-- The statements of a list are lowered one behind the other, if each is. -/
theorem emitSeq_structured {E : Env} {nodes : List AstNode}
    (hnodes : ∀ node ∈ nodes, ∀ gen ty text gen', emit tables node gen = .ok (ty, text, gen') →
      ∃ s, Structured tables gen node s gen' ∧
        text.map Instr.line = (backend E).lower s gen.labelCount ∧
        gen'.labelCount = gen.labelCount + Backend.labelCount s)
    (h : emitSeq (emits tables nodes) gen = .ok ((), text, gen')) :
    ∃ s, StructuredSeq tables gen nodes s gen' ∧
      text.map Instr.line = (backend E).lower s gen.labelCount ∧
      gen'.labelCount = gen.labelCount + Backend.labelCount s := by
  induction nodes generalizing gen text with
  | nil =>
    obtain ⟨-, rfl, rfl⟩ := Emit.pure_ok.mp h
    exact ⟨.skip, .nil, rfl, rfl⟩
  | cons node nodes ih =>
    obtain ⟨ty, t₁, gen₁, t₂, hnode, hrest, rfl⟩ := discard_bind_ok.mp h
    obtain ⟨s, hs, hline, hlabels⟩ := hnodes node (by simp) _ _ _ _ hnode
    obtain ⟨s', hs', hline', hlabels'⟩ := ih (fun n hn => hnodes n (.tail _ hn)) hrest
    refine ⟨.seq s s', .cons hs hs', ?_, ?_⟩
    · rw [List.map_append, hline, hline', hlabels, Backend.lower]
    · rw [hlabels', hlabels, Backend.labelCount, Nat.add_assoc]

/-- The text of a statement is the lowering of its structured program. -/
theorem emit_structured (E : Env) {node : AstNode} (h : node.Nested)
    (hemit : emit tables node gen = .ok (ty, text, gen')) :
    ∃ s, Structured tables gen node s gen' ∧
      text.map Instr.line = (backend E).lower s gen.labelCount ∧
      gen'.labelCount = gen.labelCount + Backend.labelCount s := by
  induction h generalizing gen ty text gen' with
  | @leaf node hstraight =>
    obtain ⟨hcode, hlabels, -⟩ := hstraight.emit hemit
    exact ⟨.leaf (.leaf node text), .leaf hstraight hemit, map_line hcode, hlabels⟩
  | @block stmts t _ ih =>
    rw [emit] at hemit
    obtain ⟨-, hblock⟩ := statement_ok.mp hemit
    obtain ⟨gen₂, hseq, rfl⟩ := block_ok hblock
    obtain ⟨s, hs, hline, hlabels⟩ := emitSeq_structured
      (fun node hnode gen ty text gen' hemit => ih node hnode hemit) hseq
    exact ⟨s, .block hs, hline, hlabels⟩
  | @if_ op condition thenBody elseBody hcond _ _ ihThen ihElse =>
    rw [emit] at hemit
    obtain ⟨-, hif⟩ := statement_ok.mp hemit
    obtain ⟨tc, cc, gen₂, rax, tt, ct, gen₃, ce, hc, hrax, ht, he, rfl⟩ := cond_ok hif
    rw [emits_optToList] at he
    obtain ⟨a, ha, hlabels, hline⟩ := tested_of_emit hcond hc hrax
    obtain ⟨s, hs, hline', hlabels'⟩ := ihThen ht
    obtain ⟨s', hs', hline'', hlabels''⟩ := emitSeq_structured
      (fun node hnode gen ty text gen' hemit => ihElse node (Option.mem_toList.mp hnode) hemit) he
    refine ⟨.ite a s s', .if_ ha hs hs', ?_, ?_⟩
    · rw [hlabels] at hline'
      rw [hlabels', hlabels] at hline''
      simp only [Backend.lower]
      rw [show (backend E).code a = a.code from rfl, ← hline, ← hline', ← hline'']
      simp [Instr.line, backend, Label.marked]
    · rw [hlabels'', hlabels', hlabels, Backend.labelCount]
      dsimp only
      omega
  | @while_ op condition body hcond _ ih =>
    rw [emit] at hemit
    obtain ⟨-, hwhile⟩ := statement_ok.mp hemit
    obtain ⟨tb, cb, gen₂, tc, cc, rax, hb, hc, hrax, rfl⟩ := while_ok hwhile
    obtain ⟨a, ha, hlabels, hline⟩ := tested_of_emit hcond hc hrax
    obtain ⟨s, hs, hline', hlabels'⟩ := ih hb
    refine ⟨.loop a s, .while_ hs ha, map_line_loop hline hline', ?_⟩
    · rw [hlabels, hlabels', Backend.labelCount]
      dsimp only
      omega
  | @return_ op expr hexpr =>
    rw [emit] at hemit
    obtain ⟨-, hret⟩ := statement_ok.mp hemit
    obtain ⟨c, hc, rfl⟩ := return_ok hret
    rw [emits_optToList] at hc
    obtain ⟨s, hs, hline, hlabels⟩ := emitSeq_structured (E := E)
      (fun node hnode gen ty text gen' hemit => by
        have hstraight := hexpr node (Option.mem_toList.mp hnode)
        obtain ⟨hcode, hlabels, -⟩ := hstraight.emit hemit
        exact ⟨.leaf (.leaf node text), .leaf hstraight hemit, map_line hcode, hlabels⟩) hc
    refine ⟨.seq s .ret, .return_ hs, ?_, hlabels⟩
    rw [List.map_append, hline, Backend.lower]
    rfl

theorem procParams_ok {i : Nat} {offset : Int} {params : List Param}
    (h : procParams i offset params gen = .ok ((), text, gen')) :
    (∀ i ∈ text, i.straight = true) ∧ gen' = gen := by
  induction params generalizing i offset gen text with
  | nil =>
    obtain ⟨-, rfl, rfl⟩ := Emit.pure_ok.mp h
    exact ⟨List.forall_mem_nil _, rfl⟩
  | cons param params ih =>
    obtain ⟨reg, -, h₁⟩ := Emit.lift_bind_ok.mp h
    cases reg with
    | none =>
      obtain ⟨rax, -, h₂⟩ := Emit.lift_bind_ok.mp h₁
      obtain ⟨t₁, h₃, rfl⟩ := genWrite_bind_ok.mp h₂
      obtain ⟨t₂, h₄, rfl⟩ := genWrite_bind_ok.mp h₃
      obtain ⟨htext, rfl⟩ := ih h₄
      exact ⟨List.forall_mem_cons.mpr ⟨rfl, List.forall_mem_cons.mpr ⟨rfl, htext⟩⟩, rfl⟩
    | some reg =>
      obtain ⟨t₁, h₂, rfl⟩ := genWrite_bind_ok.mp h₁
      obtain ⟨htext, rfl⟩ := ih h₂
      exact ⟨List.forall_mem_cons.mpr ⟨rfl, htext⟩, rfl⟩

/-- The text of a procedure is that of its body between a prologue and an epilogue. -/
theorem proc_text {ident : Token} {body : Emit Ty} {type : Ty} {size : Int}
    (h : proc ident (some body) type size gen = .ok ((), text, gen')) :
    ∃ sig params tb code, type = .procedure sig ∧
      procParams 0 16 sig.params gen = .ok ((), params, gen) ∧ body gen = .ok (tb, code, gen') ∧
      text = .global ident.value :: .label (.proc ident.value) :: .pushRbp :: .movRbpRsp ::
        .subRsp size :: (params ++ (code ++ [.label .return_, .movRspRbp, .popRbp, .ret])) := by
  cases type
  case procedure sig =>
    obtain ⟨t₁, h₁, rfl⟩ := genWrite_bind_ok.mp h
    obtain ⟨t₂, h₂, rfl⟩ := genWrite_bind_ok.mp h₁
    obtain ⟨t₃, h₃, rfl⟩ := genWrite_bind_ok.mp h₂
    obtain ⟨t₄, h₄, rfl⟩ := genWrite_bind_ok.mp h₃
    obtain ⟨t₅, h₅, rfl⟩ := genWrite_bind_ok.mp h₄
    obtain ⟨u, params, gen₁, t₆, hparams, h₆, rfl⟩ := Emit.bind_ok.mp h₅
    obtain ⟨-, rfl⟩ := procParams_ok hparams
    obtain ⟨tb, code, gen₂, t₇, hb, h₇, rfl⟩ := discard_bind_ok.mp h₆
    obtain ⟨t₈, h₈, rfl⟩ := genWrite_bind_ok.mp h₇
    obtain ⟨t₉, h₉, rfl⟩ := genWrite_bind_ok.mp h₈
    obtain ⟨t₁₀, h₁₀, rfl⟩ := genWrite_bind_ok.mp h₉
    obtain ⟨rfl, rfl⟩ := genWrite_ok.mp h₁₀
    exact ⟨sig, params, tb, code, rfl, hparams, hb, rfl⟩
  all_goals cases h

theorem proc_ok {ident : Token} {body : Emit Ty} {type : Ty} {size : Int}
    (h : proc ident (some body) type size gen = .ok ((), text, gen')) :
    ∃ params tb code, (∀ i ∈ params, i.straight = true) ∧ body gen = .ok (tb, code, gen') ∧
      text = .global ident.value :: .label (.proc ident.value) :: .pushRbp :: .movRbpRsp ::
        .subRsp size :: (params ++ (code ++ [.label .return_, .movRspRbp, .popRbp, .ret])) := by
  obtain ⟨sig, params, tb, code, -, hparams, hbody, htext⟩ := proc_text h
  exact ⟨params, tb, code, (procParams_ok hparams).1, hbody, htext⟩

end

/-! ## Procedures -/

/-- The text of a procedure holds that of its body, with `.return` behind it, and there the body
and each statement in it do what their structured programs do: they perform the same leaf
statements and conditions, fall through to the line behind them iff they end normally, and jump to
`.return` iff they return. -/
def ControlFlowSimulated (E : Env) (tables : List Hashtable) (gen : Gen) (body : AstNode)
    (text : List Instr) (gen' : Gen) : Prop :=
  ∃ s ty before code, Structured tables gen body s gen' ∧
    emit tables body gen = .ok (ty, code, gen') ∧
    text = before ++ (code ++ [.label .return_, .movRspRbp, .popRbp, .ret]) ∧
    target (text.map Instr.line) .return_ = some (before.length + code.length) ∧
    ∀ p n s', (backend E).Part before.length gen.labelCount s p n s' →
      (backend E).Simulates (text.map Instr.line) p s'

/-- The text of a procedure over structured control flow does what the procedure means. -/
theorem controlFlow_simulated {tables : List Hashtable} {op ident : Token} {body : AstNode}
    {type ty : Ty} {t : Option Nat} {size : Int} {gen gen' : Gen} {text : List Instr} (E : Env)
    (hbody : body.Nested)
    (hemit : emit tables (.proc op ident (some body) type t size) gen = .ok (ty, text, gen')) :
    ControlFlowSimulated E tables gen body text gen' := by
  rw [emit] at hemit
  obtain ⟨-, hproc⟩ := statement_ok.mp hemit
  obtain ⟨params, tb, code, hparams, hcode, rfl⟩ := proc_ok hproc
  obtain ⟨s, hs, hline, -⟩ := emit_structured E hbody hcode
  let before : List Instr := .global ident.value :: .label (.proc ident.value) :: .pushRbp ::
    .movRbpRsp :: .subRsp size :: params
  let after : List Instr := [.label .return_, .movRspRbp, .popRbp, .ret]
  have htext : (before ++ (code ++ after)).map Instr.line = before.map Instr.line ++
      ((backend E).lower s gen.labelCount ++ after.map Instr.line) := by
    rw [List.map_append, List.map_append, hline]
  have hbefore : labels (before.map Instr.line) = [.proc ident.value] := by
    have hparams : labels (params.map Instr.line) = [] := by rw [map_line hparams, labels_code]
    exact congrArg (.proc ident.value :: ·) hparams
  have hafter : labels (after.map Instr.line) = [.return_] := rfl
  have hproc : Label.proc ident.value ∉ labels ((backend E).lower s gen.labelCount) := by
    intro hmem
    obtain ⟨k, m, hname, -⟩ := Backend.mem_labels_lower hmem
    cases k <;> cases hname
  have hexit : Label.return_ ∉ labels ((backend E).lower s gen.labelCount) :=
    Backend.exit_notMem_lower
  have hnodup : (labels ((before ++ (code ++ after)).map Instr.line)).Nodup := by
    rw [htext, labels_append, labels_append, hbefore, hafter]
    simp [List.nodup_append', Backend.nodup_labels_lower, hproc, hexit]
  have hseg : Segment ((before ++ (code ++ after)).map Instr.line) before.length
      ((backend E).lower s gen.labelCount) := by
    have h := segment_of_eq htext
    rwa [List.length_map] at h
  have hreturn : ((before ++ (code ++ after)).map Instr.line)[before.length + code.length]? =
      some (.label .return_) := by
    simp [after, Instr.line]
  exact ⟨s, tb, before, code, hs, hcode, rfl, target_eq hreturn hnodup, fun p n s' hpart =>
    Backend.parts_simulate hnodup hseg hpart⟩

/-- `while 1 { if 0 { return 2; } else 3; }` -/
def returningLoop : AstNode :=
  let num (n : BitVec 64) : AstNode := .literal (.num n) .number
  .block [.while_ .eof (num 1) (.block [.if_ .eof (num 0)
    (.block [.return_ .eof (some (num 2))] none) (some (num 3))] none)] none

theorem nested_returningLoop : returningLoop.Nested := by
  have num (n : BitVec 64) : (AstNode.literal (.num n) .number).Straight :=
    AstNode.allKinds_iff.mpr ⟨rfl, List.forall_mem_nil _⟩
  refine .block (List.forall_mem_singleton.mpr (.while_ (num 1) (.block
    (List.forall_mem_singleton.mpr (.if_ (num 0) (.block (List.forall_mem_singleton.mpr
      (.return_ ?_))) ?_)))))
  · intro e he
    cases he
    exact num 2
  · intro s hs
    cases hs
    exact .leaf (num 3)

def procReturningLoop : AstNode :=
  .proc .eof (.ident "f") (some returningLoop) (.procedure { params := [], returntype := .int })
    none 0

theorem emit_procReturningLoop :
    ∃ text gen', emit [] procReturningLoop {} = .ok (.void, text, gen') :=
  ⟨_, _, rfl⟩

theorem controlFlow_simulated_returningLoop :
    ∃ text gen', emit [] procReturningLoop {} = .ok (.void, text, gen') ∧
      ControlFlowSimulated .returning [] {} returningLoop text gen' := by
  obtain ⟨text, gen', hemit⟩ := emit_procReturningLoop
  exact ⟨text, gen', hemit, controlFlow_simulated .returning nested_returningLoop hemit⟩

end Seron
