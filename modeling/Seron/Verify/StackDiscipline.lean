import Seron.Verify.Emission
import Seron.Machine

/-! # What the code of an expression leaves alone

The code of an expression pushes and pops. Whatever it does in between, it never raises the stack
pointer above where it found it, so a cell at or above the stack pointer changes only where a
store or a called procedure changes it. -/

namespace Seron

open Memory

variable {E : Env} {m m' : Machine} {c c' : List Instr} {a : Int}

/-- No store and no called procedure in the run of the code changes the cell `a`. -/
def Spares (E : Env) (a : Int) : List Instr → Machine → Prop
  | [], _ => True
  | i :: is, m =>
    (match i with
      | .store .. | .call _ => ∀ m', exec E i m = some m' → m'.mem a = m.mem a
      | _ => True) ∧
    ∀ m', exec E i m = some m' → Spares E a is m'

theorem Spares.append : Spares E a (c ++ c') m ↔
    Spares E a c m ∧ ∀ m', run E c m = some m' → Spares E a c' m' := by
  induction c generalizing m with
  | nil => simp [Spares]
  | cons i c ih =>
    simp only [List.cons_append, Spares, ih, run_cons, Option.bind_eq_some_iff]
    constructor
    · rintro ⟨hi, h⟩
      exact ⟨⟨hi, fun m' hm' => (h m' hm').1⟩, fun m'' ⟨m', hm', hrun⟩ => (h m' hm').2 m'' hrun⟩
    · rintro ⟨⟨hi, h⟩, h'⟩
      exact ⟨hi, fun m' hm' => ⟨h m' hm', fun m'' hrun => h' m'' ⟨m', hm', hrun⟩⟩⟩

/-- The registers an instruction may write, if it does not move the stack. -/
def Instr.writes : Instr → Option (List Register)
  | .mov dst _ | .movImm dst _ | .movSym dst _ | .load dst _ | .lea dst _ | .alu _ dst _
  | .imulImm dst _ | .setcc _ dst => some [dst.reg]
  | .imul _ | .idiv _ => some [.rax, .rdx]
  | .store .. | .cmp .. | .cmpImm .. => some []
  | .call _ => some [.rax, .rdi, .rsi, .rdx, .rcx, .r8, .r9]
  | _ => none

/-- What is the same in two states: the frame pointer, the registers of `keep` and the spared cells
at or above the stack pointer, which is no higher. If `balanced`, the stack pointer is the same. -/
structure Machine.Kept (balanced : Bool) (keep : Register → Prop) (spared : Int → Prop)
    (m m' : Machine) : Prop where
  rsp_le : m'.rsp ≤ m.rsp
  rsp_eq : balanced = true → m'.rsp = m.rsp
  rbp : m'.rbp = m.rbp
  reg : ∀ r, keep r → m'.reg r = m.reg r
  mem : ∀ a, m.rsp ≤ a → spared a → m'.mem a = m.mem a

/-- Whatever run of the code keeps what it spares. -/
def Keeps (E : Env) (balanced : Bool) (keep : Register → Prop) (c : List Instr) : Prop :=
  ∀ m m', run E c m = some m' → m.Kept balanced keep (Spares E · c m) m'

variable {balanced : Bool} {keep : Register → Prop}

theorem Machine.Kept.refl {spared : Int → Prop} : m.Kept balanced keep spared m :=
  ⟨le_refl _, fun _ => rfl, rfl, fun _ _ => rfl, fun _ _ _ => rfl⟩

theorem Machine.Kept.trans {m'' : Machine} {spared spared' spared'' : Int → Prop}
    (h : m.Kept balanced keep spared m') (h' : m'.Kept balanced keep spared' m'')
    (hspared : ∀ a, spared'' a → spared a ∧ spared' a) :
    m.Kept balanced keep spared'' m'' where
  rsp_le := h'.rsp_le.trans h.rsp_le
  rsp_eq hb := (h'.rsp_eq hb).trans (h.rsp_eq hb)
  rbp := h'.rbp.trans h.rbp
  reg r hr := (h'.reg r hr).trans (h.reg r hr)
  mem a ha hs := by
    obtain ⟨hs, hs'⟩ := hspared a hs
    exact (h'.mem a (h.rsp_le.trans ha) hs').trans (h.mem a ha hs)

theorem Machine.imul_frame (m : Machine) (src : SubReg) :
    (m.imul src).rsp = m.rsp ∧ (m.imul src).rbp = m.rbp ∧ (m.imul src).mem = m.mem ∧
      ∀ r, r ∉ [Register.rax, .rdx] → (m.imul src).reg r = m.reg r := by
  obtain ⟨reg, w⟩ := src
  cases w <;> refine ⟨rfl, rfl, rfl, fun r hr => ?_⟩ <;> cases r <;> simp at hr <;> rfl

theorem Machine.idiv_frame {src : SubReg} (h : m.idiv src = some m') :
    m'.rsp = m.rsp ∧ m'.rbp = m.rbp ∧ m'.mem = m.mem ∧
      ∀ r, r ∉ [Register.rax, .rdx] → m'.reg r = m.reg r := by
  obtain ⟨reg, w⟩ := src
  cases w <;> simp only [Machine.idiv] at h <;> split at h <;> cases h <;>
    refine ⟨rfl, rfl, rfl, fun r hr => ?_⟩ <;> cases r <;> simp at hr <;> rfl

/-- An instruction that does not move the stack changes the registers it writes. -/
theorem exec_of_writes {i : Instr} {regs : List Register} (hi : i.writes = some regs)
    (hrun : exec E i m = some m') :
    m'.rsp = m.rsp ∧ m'.rbp = m.rbp ∧ (∀ r, r ∉ regs → m'.reg r = m.reg r) ∧
      ∀ a, Spares E a [i] m → m'.mem a = m.mem a := by
  have set {n : Nat} {x : BitVec n} {dst : SubReg} {m' : Machine}
      (h : (m.set dst x).unflagged = m'.unflagged) :
      m'.rsp = m.rsp ∧ m'.rbp = m.rbp ∧ (∀ r, r ∉ [dst.reg] → m'.reg r = m.reg r) ∧
        m'.mem = m.mem := by
    refine ⟨congrArg (·.rsp) h.symm, congrArg (·.rbp) h.symm, fun r hr => ?_,
      congrArg (·.mem) h.symm⟩
    have hreg := congrFun (congrArg (·.reg) h) r
    exact hreg.symm.trans (Machine.set_of_ne (by simpa using hr))
  cases i <;> simp only [Instr.writes, Option.some.injEq, reduceCtorEq] at hi <;> subst hi
  case movImm | movSym | load | lea =>
    cases hrun
    obtain ⟨hrsp, hrbp, hreg, hmem⟩ := set rfl
    exact ⟨hrsp, hrbp, hreg, fun a _ => congrFun hmem a⟩
  case mov | alu | imulImm =>
    simp only [exec] at hrun
    split at hrun <;> cases hrun
    obtain ⟨hrsp, hrbp, hreg, hmem⟩ := set rfl
    exact ⟨hrsp, hrbp, hreg, fun a _ => congrFun hmem a⟩
  case setcc =>
    simp only [exec] at hrun
    split at hrun
    · obtain ⟨f, -, rfl⟩ := Option.map_eq_some_iff.mp hrun
      obtain ⟨hrsp, hrbp, hreg, hmem⟩ := set rfl
      exact ⟨hrsp, hrbp, hreg, fun a _ => congrFun hmem a⟩
    · cases hrun
  case store dst src =>
    have hmem (a) (hs : Spares E a [.store dst src] m) : m'.mem a = m.mem a := hs.1 m' hrun
    cases hrun
    exact ⟨rfl, rfl, fun _ _ => rfl, hmem⟩
  case cmp =>
    simp only [exec] at hrun
    split at hrun <;> cases hrun
    exact ⟨rfl, rfl, fun _ _ => rfl, fun _ _ => rfl⟩
  case cmpImm =>
    cases hrun
    exact ⟨rfl, rfl, fun _ _ => rfl, fun _ _ => rfl⟩
  case imul src =>
    cases hrun
    obtain ⟨hrsp, hrbp, hmem, hreg⟩ := m.imul_frame src
    exact ⟨hrsp, hrbp, hreg, fun a _ => congrFun hmem a⟩
  case idiv src =>
    obtain ⟨m₁, h₁, rfl⟩ := Option.map_eq_some_iff.mp hrun
    obtain ⟨hrsp, hrbp, hmem, hreg⟩ := Machine.idiv_frame h₁
    exact ⟨hrsp, hrbp, hreg, fun a _ => congrFun hmem a⟩
  case call =>
    refine ⟨E.call_rsp hrun, E.call_rbp hrun, fun r hr => ?_, fun a hs => hs.1 m' hrun⟩
    cases r <;> simp at hr

namespace Keeps

theorem nil : Keeps E balanced keep [] := by
  intro m m' h
  cases h
  exact .refl

theorem append (h : Keeps E balanced keep c) (h' : Keeps E balanced keep c') :
    Keeps E balanced keep (c ++ c') := by
  intro m m' hrun
  obtain ⟨m₁, h₁, h₂⟩ := run_append_eq_some.mp hrun
  refine (h m m₁ h₁).trans (h' m₁ m' h₂) fun a hs => ?_
  obtain ⟨hs₁, hs₂⟩ := Spares.append.mp hs
  exact ⟨hs₁, hs₂ _ h₁⟩

theorem single {i : Instr} {regs : List Register} (hi : i.writes = some regs)
    (hregs : ∀ r ∈ regs, ¬keep r) : Keeps E balanced keep [i] := by
  intro m m' hrun
  have hexec : exec E i m = some m' := by simpa [Option.bind_eq_some_iff] using hrun
  obtain ⟨hrsp, hrbp, hreg, hmem⟩ := exec_of_writes hi hexec
  exact ⟨hrsp.le, fun _ => hrsp, hrbp, fun r hr => hreg r fun hmem => hregs r hmem hr,
    fun a _ hs => hmem a hs⟩

theorem cons {i : Instr} {regs : List Register} (hi : i.writes = some regs)
    (hregs : ∀ r ∈ regs, ¬keep r) (h : Keeps E balanced keep c) : Keeps E balanced keep (i :: c) :=
  (single hi hregs).append h

/-- Code between a push and the pop that belongs to it. -/
theorem park {src dst : Register} (h : Keeps E balanced keep c) (hdst : ¬keep dst) :
    Keeps E balanced keep (.push src :: (c ++ [.pop dst])) := by
  intro m m' hrun
  obtain ⟨m₁, h₁, h₂⟩ := run_append_eq_some.mp hrun
  cases h₂
  have hk := h _ m₁ h₁
  have hne : ∀ r, keep r → r ≠ dst := fun r hr heq => hdst (heq ▸ hr)
  have hrsp := hk.rsp_le
  simp only [Machine.push_rsp] at hrsp
  refine ⟨?_, fun hb => ?_, hk.rbp, fun r hr => ?_, fun a ha hs => ?_⟩
  · simp
    omega
  · simp [hk.rsp_eq hb]
  · rw [Machine.setReg_of_ne (hne r hr)]
    exact hk.reg r hr
  · have hs' := (Spares.append.mp (hs.2 _ rfl)).1
    exact (hk.mem a (by simp; omega) hs').trans (Machine.push_mem ha)

/-- A push is not balanced. -/
theorem push {r : Register} : Keeps E false keep [.push r] := by
  intro m m' hrun
  cases hrun
  refine ⟨?_, nofun, rfl, fun _ _ => rfl, fun a ha _ => Machine.push_mem ha⟩
  simp

end Keeps

/-! ## Expressions -/

/-- Expressions without sugar. If `balanced`, each call in them has at most six arguments; if
`raxOnly`, there is no binary operator, no assignment and no call in them. -/
inductive Tidy (balanced raxOnly : Bool) : AstNode → Prop
  | literal {op : Token} {kind : LiteralKind} : Tidy balanced raxOnly (.literal op kind)
  | grouping {e : AstNode} : Tidy balanced raxOnly e → Tidy balanced raxOnly (.grouping e)
  | unaryop {e : AstNode} {op : Token} {kind : UnaryOpKind} : Tidy balanced raxOnly e →
    Tidy balanced raxOnly (.unaryop e op kind)
  | array {op : Token} {values : List AstNode} {type : Ty} {offset : Int} :
    (∀ e ∈ values, Tidy balanced raxOnly e) → Tidy balanced raxOnly (.array op values type offset)
  | binop {lhs rhs : AstNode} {op : Token} {kind : BinOpKind} : raxOnly = false →
    Tidy balanced raxOnly lhs → Tidy balanced raxOnly rhs →
    Tidy balanced raxOnly (.binop lhs rhs op kind)
  | assign {op : Token} {value target : AstNode} : raxOnly = false →
    Tidy balanced raxOnly value → Tidy balanced raxOnly target →
    Tidy balanced raxOnly (.assign op value target)
  | call {op : Token} {callee : AstNode} {args : List AstNode} : raxOnly = false →
    (balanced = true → args.length ≤ 6) → Tidy balanced raxOnly callee →
    (∀ e ∈ args, Tidy balanced raxOnly e) → Tidy balanced raxOnly (.call op callee args)

/-- The registers the code of a tidy expression keeps. -/
def kept (raxOnly : Bool) (r : Register) : Prop := raxOnly = true ∧ r ≠ .rax

variable {tables : List Hashtable} {gen gen' : Gen} {ty : Ty} {raxOnly : Bool}

theorem subregister_reg {r : Register} {k : TypeKind} {s : SubReg} (h : subregister r k = .ok s) :
    s.reg = r := by
  cases k <;> cases h <;> rfl

theorem not_kept_rax : ¬kept raxOnly .rax := fun h => h.2 rfl

theorem not_kept_of_false {r : Register} (h : raxOnly = false) : ¬kept raxOnly r := by
  simp [kept, h]

/-- An instruction that writes no register but `rax`. -/
theorem Keeps.rax {i : Instr} {regs : List Register} (hi : i.writes = some regs)
    (hregs : ∀ r ∈ regs, r = .rax) : Keeps E balanced (kept raxOnly) [i] :=
  .single hi fun r hr hk => hk.2 (hregs r hr)

theorem Keeps.sub {i : Instr} {k : TypeKind} {rax : SubReg} (hrax : subregister .rax k = .ok rax)
    (hi : i.writes = some [rax.reg]) : Keeps E balanced (kept raxOnly) [i] :=
  .rax hi fun r hr => by rw [List.mem_singleton.mp hr, subregister_reg hrax]

theorem binopInstrs_keeps {rax rdi al : SubReg} {kind : BinOpKind} :
    Keeps E balanced (kept false) (binopInstrs rax rdi al kind) := by
  have h {r : Register} : ¬kept false r := not_kept_of_false rfl
  cases kind
  all_goals first
    | exact .single rfl fun _ _ => h
    | exact .cons rfl (fun _ _ => h) (.single rfl fun _ _ => h)
    | exact .cons rfl (fun _ _ => h) (.cons rfl (fun _ _ => h) (.single rfl fun _ _ => h))

theorem scalePointer_keeps {lhs rhs : Ty} (h : scalePointer lhs rhs gen = .ok ((), c, gen')) :
    Keeps E balanced (kept false) c := by
  obtain ⟨-, rfl | ⟨reg, w, size, -, rfl⟩⟩ := scalePointer_code h
  · exact .nil
  · exact .single rfl fun _ _ => not_kept_of_false rfl

theorem literalIdent_keeps {str : String} {addr : Bool}
    (h : literalIdent tables str addr gen = .ok (ty, c, gen')) :
    Keeps E balanced (kept raxOnly) c := by
  obtain ⟨-, sym, -, ⟨-, -, -, rfl⟩ | ⟨-, -, -, rax, hrax, rfl⟩ | ⟨-, -, rfl⟩⟩ :=
    literalIdent_ok.mp h
  · exact .rax rfl (by simp)
  · exact .sub hrax rfl
  · exact .rax rfl (by simp)

theorem literal_keeps {op : Token} {kind : LiteralKind}
    (h : literal tables op kind gen = .ok (ty, c, gen')) : Keeps E balanced (kept raxOnly) c := by
  cases kind with
  | string =>
    obtain ⟨-, rfl, -⟩ := literal_string_ok.mp h
    exact .rax rfl (by simp)
  | number =>
    obtain ⟨-, ⟨rax, hrax, rfl⟩, -⟩ := literal_number_ok.mp h
    exact .sub hrax rfl
  | ident => exact literalIdent_keeps h

section
variable {values : List AstNode}

theorem arrayElems_keeps {type : Ty} {offset elemSize : Int}
    (ih : ∀ e ∈ values, ∀ {ty c gen gen'}, emit tables e gen = .ok (ty, c, gen') →
      Keeps E balanced (kept raxOnly) c)
    (h : arrayElems type offset elemSize (emits tables values) gen = .ok ((), c, gen')) :
    Keeps E balanced (kept raxOnly) c := by
  induction values generalizing c gen with
  | nil =>
    obtain ⟨-, rfl, -⟩ := Emit.pure_ok.mp h
    exact .nil
  | cons value values ihv =>
    obtain ⟨ty, cv, gen₁, rax, rest, hv, -, hrest, rfl⟩ := arrayElems_cons_ok h
    refine (ih value (by simp) hv).append (.cons rfl (by simp) ?_)
    exact ihv (fun e he => ih e (by simp [he])) hrest

/-- The first six arguments have registers. -/
theorem placeArg_cases {i : Nat} {k : TypeKind} {place : Instr} (h : placeArg i k = .ok place) :
    6 ≤ i ∧ place = .push .rax ∨
      ∃ r w w', abiRegister (i + 1) = some r ∧ place = .mov ⟨r, w⟩ ⟨.rax, w'⟩ := by
  unfold placeArg at h
  split at h
  · rename_i hreg
    cases h
    refine .inl ⟨?_, rfl⟩
    simpa [abiRegister] using hreg
  · rename_i r hreg
    refine .inr ?_
    cases k <;> cases h <;> exact ⟨r, _, _, hreg, rfl⟩

/-- Arguments are popped by nobody: only without stack arguments is the code balanced. -/
theorem callArgs_keeps {sig : ProcSignature} {i : Nat}
    (hlen : balanced = true → i + values.length ≤ 6)
    (ih : ∀ e ∈ values, ∀ {ty c gen gen'}, emit tables e gen = .ok (ty, c, gen') →
      Keeps E balanced (kept false) c)
    (h : callArgs sig i (emits tables values) gen = .ok ((), c, gen')) :
    Keeps E balanced (kept false) c := by
  induction values generalizing c gen i with
  | nil =>
    obtain ⟨-, rfl, -⟩ := Emit.pure_ok.mp h
    exact .nil
  | cons arg args iha =>
    obtain ⟨k, ty, ca, gen₁, place, rest, -, harg, hplace, hrest, rfl⟩ := callArgs_cons_ok h
    have hlen' : balanced = true → i + 1 + args.length ≤ 6 := fun hb => by
      have := hlen hb
      simp only [List.length_cons] at this
      omega
    have hplaced : Keeps E balanced (kept false) [place] := by
      rcases placeArg_cases hplace with ⟨hi, rfl⟩ | ⟨r, w, w', -, rfl⟩
      · have hb : balanced = false := by
          rw [Bool.eq_false_iff]
          intro hb
          have := hlen' hb
          omega
        rw [hb]
        exact .push
      · exact .single rfl fun _ _ => not_kept_of_false rfl
    refine (ih arg (by simp) harg).append (hplaced.append ?_)
    exact iha hlen' (fun e he => ih e (by simp [he])) hrest

end

theorem emitAddr_keeps {e : AstNode}
    (ih : ∀ {node op kind ty c gen gen'}, e = .unaryop node op kind →
      emit tables node gen = .ok (ty, c, gen') → Keeps E balanced (kept raxOnly) c)
    (h : emitAddr tables e gen = .ok (ty, c, gen')) : Keeps E balanced (kept raxOnly) c := by
  cases e <;> simp only [emitAddr, fail_ok] at h
  case unaryop node op kind =>
    cases kind <;> simp only [unaryopAddr, fail_ok] at h
    exact ih rfl h
  case literal op kind =>
    cases kind <;> simp only [literalAddr, fail_ok] at h
    exact literalIdent_keeps h

/-- The code of an expression, and the code for its address, keep what they should. -/
theorem emit_keeps {e : AstNode} (he : Tidy balanced raxOnly e) :
    (∀ {ty c gen gen'}, emit tables e gen = .ok (ty, c, gen') → Keeps E balanced (kept raxOnly) c) ∧
      ∀ {ty c gen gen'}, emitAddr tables e gen = .ok (ty, c, gen') →
        Keeps E balanced (kept raxOnly) c := by
  induction he with
  | @literal op kind =>
    refine ⟨fun h => ?_, fun h => emitAddr_keeps (by simp) h⟩
    rw [emit] at h
    exact literal_keeps h
  | grouping _ ih =>
    refine ⟨fun h => ?_, fun h => emitAddr_keeps (by simp) h⟩
    rw [emit] at h
    exact ih.1 h
  | @unaryop e op kind _ ih =>
    refine ⟨fun h => ?_, fun h => emitAddr_keeps (fun he hn => ?_) h⟩
    · rw [emit] at h
      cases kind with
      | minus =>
        obtain ⟨ce, rax, hnode, hrax, rfl⟩ := unaryop_minus_ok.mp h
        exact (ih.1 hnode).append (.sub hrax rfl)
      | neg =>
        obtain ⟨ce, rax, hnode, hrax, rfl⟩ := unaryop_neg_ok h
        have hcmp : Keeps E balanced (kept raxOnly) [.cmpImm rax 0] := .rax rfl (by simp)
        exact (ih.1 hnode).append (hcmp.append (.sub hrax rfl))
      | deref =>
        obtain ⟨tp, ce, rax, hnode, -, hrax, rfl⟩ := unaryop_deref_ok h
        exact (ih.1 hnode).append (.sub hrax rfl)
      | addrof => exact ih.2 h
    · cases he
      exact ih.1 hn
  | array _ ih =>
    refine ⟨fun h => ?_, fun h => emitAddr_keeps (by simp) h⟩
    rw [emit] at h
    obtain ⟨elemSize, ce, -, hce, -, rfl⟩ := array_ok h
    exact (arrayElems_keeps (fun e he => (ih e he).1) hce).append (.rax rfl (by simp))
  | @binop lhs rhs op kind hfalse _ _ ihl ihr =>
    refine ⟨fun h => ?_, fun h => emitAddr_keeps (by simp) h⟩
    rw [emit] at h
    subst hfalse
    obtain ⟨tr, cr, gen₁, rdi, tl, cl, gen₂, rax, scale, hr, -, hl, -, hscale, -, rfl⟩ :=
      binop_ok.mp h
    have hparked : Keeps E balanced (kept false) (.push .rax :: (cl ++ [.pop .rdi])) :=
      (ihl.1 hl).park (not_kept_of_false rfl)
    have hop : Keeps E balanced (kept false) (scale ++ binopInstrs rax rdi ⟨.rax, .w8⟩ kind) :=
      (scalePointer_keeps hscale).append binopInstrs_keeps
    simpa using (ihr.1 hr).append (hparked.append hop)
  | assign hfalse _ _ ihv iht =>
    refine ⟨fun h => ?_, fun h => emitAddr_keeps (by simp) h⟩
    rw [emit] at h
    obtain ⟨ta, ca, gen₁, cv, rax, ha, hv, -, -, rfl⟩ := assign_ok h
    have hparked : Keeps E balanced (kept raxOnly) (.push .rax :: (cv ++ [.pop .rdi])) :=
      (ihv.1 hv).park (not_kept_of_false hfalse)
    have hstore : Keeps E balanced (kept raxOnly) [.store (.reg .rdi) rax] := .rax rfl (by simp)
    simpa using (iht.2 ha).append (hparked.append hstore)
  | call hfalse hlen _ _ ihc iha =>
    refine ⟨fun h => ?_, fun h => emitAddr_keeps (by simp) h⟩
    rw [emit] at h
    subst hfalse
    obtain ⟨sig, cc, gen₁, ca, hc, ha, -, rfl⟩ := call_ok h
    have hargs : Keeps E balanced (kept false) (.push .rax :: (ca ++ [.pop .rax])) :=
      (callArgs_keeps (fun hb => by simpa using hlen hb) (fun e he => (iha e he).1) ha).park
        not_kept_rax
    have hcall : Keeps E balanced (kept false) [.call .rax] :=
      .single rfl fun _ _ => not_kept_of_false rfl
    simpa using (ihc.1 hc).append (hargs.append hcall)

end Seron
