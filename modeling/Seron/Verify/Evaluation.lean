import Seron.Verify.Calls
import Seron.Verify.Checks
import Seron.Verify.Meaning
import Seron.Verify.Running

/-! # Expressions in a program

The code of an expression, wherever it stands in the text of a program, comes to its end with the
value of the expression in `rax`, if the calls in it return what the procedures mean. -/

namespace Seron

open Memory Runs

/-! ## States -/

/-- The stack goes on for some bytes below the stack pointer, and the frame pointer fits into a
word. -/
structure Machine.Room (need : Int) (m : Machine) : Prop where
  low : need ≤ m.rsp
  high : m.rsp ≤ 2 ^ 64
  rbp_nonneg : 0 ≤ m.rbp
  rbp_lt : m.rbp < 2 ^ 64

/-- The slot of the local variable or parameter holds the number. -/
def Valued (locals : List (String × Symbol)) (x : String) (w : Number) (m : Machine) : Prop :=
  ∃ sym, locals.lookup x = some sym ∧ (sym.kind = .variable ∨ sym.kind = .parameter) ∧
    sym.type = w.type.ty ∧ m.rsp ≤ m.rbp - sym.offset ∧
    readBytes m.mem (m.rbp - sym.offset) w.type.width.bytes = w.bits.setWidth 64

/-- Every variable with a value has it in its slot, and every local symbol belongs to a variable. -/
structure Reflects (locals : List (String × Symbol)) (vars : Vars) (m : Machine) : Prop where
  unknown : ∀ x, vars.lookup x = none → locals.lookup x = none
  value : ∀ x w, vars.lookup x = some (some w) → Valued locals x w m

/-- The arguments of a call are in their registers. -/
def Supplied (ws : List Number) (m : Machine) : Prop :=
  ∀ i w, ws[i]? = some w → ∃ r, abiRegister (i + 1) = some r ∧ m.get ⟨r, w.type.width⟩ = w.bits

/-- A call returned the number: it is in `rax`, and stack and frame are as on entry. -/
structure Answered (w : Number) (m m' : Machine) : Prop extends m.SameFrame m' where
  value : m'.get ⟨.rax, w.type.width⟩ = w.bits

/-- From its label, the procedure runs to a `ret` that returns the number. -/
def Replies (I : Image) (name : String) (w : Number) (m : Machine) : Prop :=
  ∃ i q m', i ≤ I.text.length ∧ I.symbol name = I.place i ∧ I.Reaches (i, m) (q, m') ∧
    I.text[q]? = some .ret ∧ Answered w m m'

/-- The procedures return what they mean, if there is enough room on the stack. -/
def Delivers (I : Image) (P : Meaning) (globals : List (String × Symbol)) (need : Int) : Prop :=
  ∀ name ws w, P name ws = some w → ∃ sig,
    globals.lookup name = some { kind := .procedure, type := .procedure sig } ∧
    sig.params.map (·.type.kind) = ws.map (·.type.ty.kind) ∧ sig.returntype = w.type.ty ∧
    ∀ m, Supplied ws m → m.Room need → Replies I name w m

/-- The tables from the scope on hold the local symbols, and behind them the global ones. -/
def InSight (tables : List Hashtable) (scope : Option Nat)
    (locals globals : List (String × Symbol)) : Prop :=
  ∃ chain, Chain tables scope chain ∧ chain.flatten = locals ++ globals

/-- The kinds of the expressions whose code needs `rax` alone. -/
def AstNodeKind.raxOnly : AstNodeKind → Bool
  | .literal | .grouping | .unaryop | .array => true
  | _ => false

/-- A call has registers for its arguments, and behind the first argument none that needs the
registers of the others. -/
def AstNode.simpleCall : AstNode → Bool
  | .call _ _ args =>
    args.length ≤ 6 && args.tail.all fun arg => arg.subtrees.all fun x => x.kind.raxOnly
  | _ => true

def AstNode.SimpleCalls (node : AstNode) : Prop := ∀ x ∈ node.subtrees, x.simpleCall = true

instance (node : AstNode) : Decidable node.SimpleCalls :=
  inferInstanceAs (Decidable (∀ x ∈ node.subtrees, x.simpleCall = true))

theorem AstNode.SimpleCalls.part {node c : AstNode} (h : node.SimpleCalls) (hc : c ∈ node.parts) :
    c.SimpleCalls :=
  fun x hx => h x (mem_subtrees.mpr (.inr ⟨c, hc, hx⟩))

theorem tidy_of_kinds {e : AstNode} (h : ∀ x ∈ e.subtrees, x.kind.raxOnly = true) :
    Tidy true true e := by
  induction e using AstNode.parts_induct with
  | step e ih =>
    have hpart {c : AstNode} (hc : c ∈ e.children) : Tidy true true c :=
      ih c (AstNode.mem_parts_of_children hc) fun x hx =>
        h x (AstNode.mem_subtrees.mpr (.inr ⟨c, AstNode.mem_parts_of_children hc, hx⟩))
    have hkind := h e AstNode.mem_subtrees_self
    cases e
    case literal => exact .literal
    case grouping => exact .grouping (hpart (by simp [AstNode.children]))
    case unaryop => exact .unaryop (hpart (by simp [AstNode.children]))
    case array => exact .array fun e he => hpart he
    all_goals cases hkind

theorem AstNode.SimpleCalls.call {op : Token} {callee : AstNode} {args : List AstNode}
    (h : (AstNode.call op callee args).SimpleCalls) :
    args.length ≤ 6 ∧ ∀ e ∈ args.tail, Tidy true true e := by
  have hcall := h _ mem_subtrees_self
  rw [simpleCall, Bool.and_eq_true, decide_eq_true_eq, List.all_eq_true] at hcall
  exact ⟨hcall.1, fun e he => tidy_of_kinds (List.all_eq_true.mp (hcall.2 e he))⟩

variable {I : Image} {tables : List Hashtable} {scope : Option Nat} {P : Meaning} {vars : Vars}
  {locals globals : List (String × Symbol)} {need need' : Int} {m m' : Machine}

theorem Machine.Room.mono (h : m.Room need) (hneed : need' ≤ need) : m.Room need' :=
  ⟨hneed.trans h.low, h.high, h.rbp_nonneg, h.rbp_lt⟩

theorem Machine.Room.keep (h : m.Room need) (hframe : m.SameFrame m') : m'.Room need := by
  obtain ⟨hrsp, hrbp, -⟩ := hframe
  exact ⟨hrsp ▸ h.low, hrsp ▸ h.high, hrbp ▸ h.rbp_nonneg, hrbp ▸ h.rbp_lt⟩

/-- Below a pushed word there is less room. -/
theorem Machine.Room.below (h : m.Room (need + 8)) (hrsp : m'.rsp = m.rsp - 8)
    (hrbp : m'.rbp = m.rbp) : m'.Room need := by
  have hlow := h.low
  have hhigh := h.high
  exact ⟨by omega, by omega, hrbp ▸ h.rbp_nonneg, hrbp ▸ h.rbp_lt⟩

theorem Valued.mono {x : String} {w : Number} (h : Valued locals x w m) (hrsp : m'.rsp ≤ m.rsp)
    (hrbp : m'.rbp = m.rbp) (hmem : ∀ a, m.rsp ≤ a → m'.mem a = m.mem a) : Valued locals x w m' := by
  obtain ⟨sym, hsym, hkind, htype, hle, hread⟩ := h
  refine ⟨sym, hsym, hkind, htype, ?_, ?_⟩
  · rw [hrbp]
    exact hrsp.trans hle
  · rw [hrbp, ← hread]
    exact readBytes_congr fun a ha _ => hmem a (hle.trans ha)

theorem Reflects.mono (h : Reflects locals vars m) (hrsp : m'.rsp ≤ m.rsp)
    (hrbp : m'.rbp = m.rbp) (hmem : ∀ a, m.rsp ≤ a → m'.mem a = m.mem a) :
    Reflects locals vars m' :=
  ⟨h.unknown, fun x w hx => (h.value x w hx).mono hrsp hrbp hmem⟩

theorem Reflects.keep (h : Reflects locals vars m) (hframe : m.SameFrame m') :
    Reflects locals vars m' := h.mono hframe.rsp.le hframe.rbp hframe.mem

theorem InSight.lookup {key : String} {sym : Symbol} (h : InSight tables scope locals globals)
    (hlookup : symboltableLookup tables scope key = .ok (some sym)) :
    (locals ++ globals).lookup key = some sym := by
  obtain ⟨chain, hchain, hflat⟩ := h
  cases scope with
  | none => cases hlookup
  | some i =>
    by_cases hkey : key.length < maxIdentLen
    · rw [hchain.symboltableLookup_short hkey, hflat] at hlookup
      exact Except.ok.inj hlookup
    · rw [hchain.symboltableLookup_long (Nat.le_of_not_lt hkey)] at hlookup
      split at hlookup <;> cases hlookup

theorem Machine.SameFrame.refl : m.SameFrame m := ⟨rfl, rfl, fun _ _ => rfl⟩

/-- A word above the frame, taken from the stack again. -/
theorem Machine.SameFrame.popped {v w : BitVec 64} {r : Register}
    (h : (m.push v).SameFrame m') : m.SameFrame (m'.drop.setReg r w) where
  rsp := by
    have hrsp := h.rsp
    simp only [push_rsp] at hrsp
    simp [hrsp]
  rbp := h.rbp
  mem a ha := (h.mem a (by simp; omega)).trans (push_mem ha)

/-! ## The operators -/

/-- Lines that touch nothing but registers and flags. -/
def Instr.inRegisters : Instr → Bool
  | .store .. | .call _ => false
  | i => i.writes.isSome

theorem Machine.SameFrame.of_exec {i : Instr} (hi : i.inRegisters = true) {E : Env}
    (h : exec E i m = some m') : m.SameFrame m' := by
  have hwrites : i.writes.isSome := by
    cases i <;> first | rfl | exact hi
  obtain ⟨regs, hregs⟩ := Option.isSome_iff_exists.mp hwrites
  obtain ⟨hrsp, hrbp, -, hmem⟩ := exec_of_writes hregs h
  refine ⟨hrsp, hrbp, fun a _ => hmem a ⟨?_, fun _ _ => trivial⟩⟩
  cases i <;> trivial

theorem Machine.SameFrame.of_run {code : List Instr} (hcode : ∀ i ∈ code, i.inRegisters = true)
    {E : Env}
    (h : run E code m = some m') : m.SameFrame m' := by
  induction code generalizing m with
  | nil =>
    cases h
    exact .refl
  | cons i code ih =>
    obtain ⟨hi, hcode⟩ := List.forall_mem_cons.mp hcode
    obtain ⟨m₁, hexec, hrun⟩ := Option.bind_eq_some_iff.mp h
    exact (of_exec hi hexec).trans (ih hcode hrun)

theorem binopInstrs_inRegisters {rax rdi al : SubReg} {kind : BinOpKind} :
    ∀ i ∈ binopInstrs rax rdi al kind, i.inRegisters = true := by
  cases kind <;> simp [binopInstrs, Instr.inRegisters, Instr.writes]

/-- The operator applied to the values of the operands. -/
theorem run_apply {E : Env} {T : WordTy} {kind : BinOpKind} {a b c : BitVec T.width.bits}
    (hc : kind.apply a b = some c) (ha : m.get ⟨.rax, T.width⟩ = a)
    (hb : m.get ⟨.rdi, T.width⟩ = b) :
    ∃ m', run E (binopInstrs ⟨.rax, T.width⟩ ⟨.rdi, T.width⟩ ⟨.rax, .w8⟩ kind) m = some m' ∧
      m'.get ⟨.rax, T.width⟩ = c ∧ m.SameFrame m' := by
  suffices h : ∃ m', run E (binopInstrs ⟨.rax, T.width⟩ ⟨.rdi, T.width⟩ ⟨.rax, .w8⟩ kind) m =
      some m' ∧ m'.get ⟨.rax, T.width⟩ = c by
    obtain ⟨m', hrun, hval⟩ := h
    exact ⟨m', hrun, hval, .of_run binopInstrs_inRegisters hrun⟩
  unfold BinOpKind.apply at hc
  split at hc
  · rename_i f hf
    cases hc
    have hop := @run_binopInstrs T E m kind ⟨.rax, .w8⟩ f hf
    obtain ⟨m', hrun, hval, -⟩ := hop
    exact ⟨m', hrun, by rw [hval, ha, hb]⟩
  · rename_i f _ hf
    split at hc
    · rename_i hsmall
      cases hc
      obtain ⟨m', hrun, hval⟩ : ∃ m',
          run E (binopInstrs ⟨.rax, T.width⟩ ⟨.rdi, T.width⟩ ⟨.rax, .w8⟩ kind) m = some m' ∧
            (m'.get ⟨.rax, T.width⟩).toNat =
              (kind.leftover a b).toNat / 2 ^ 8 * 2 ^ 8 + (f a b).toNat := by
        cases T
        · exact run_comparison (T := .int) hf ha hb
        · exact run_comparison (T := .long) hf ha hb
      have hone : (if f a b then (1 : BitVec T.width.bits) else 0).toNat = (f a b).toNat := by
        cases f a b <;> cases T <;> rfl
      refine ⟨m', hrun, BitVec.eq_of_toNat_eq ?_⟩
      rw [hval, hone, Nat.div_eq_of_lt hsmall, Nat.zero_mul, Nat.zero_add]
    · cases hc
  · cases hc

/-! ## Expressions -/

/-- The code of the expression was run: its value is in `rax`, and where nothing in it needs
another register, these are as before. -/
structure Evaluated (I : Image) (e : AstNode) (w : Number) (p q : Nat) (m m' : Machine) : Prop where
  reaches : I.Reaches (p, m) (q, m')
  answered : Answered w m m'
  regs : Tidy true true e → ∀ r, r ≠ .rax → m'.reg r = m.reg r

section
variable (I tables scope P vars locals need)

/-- The code of the expression, wherever it stands, has the type and the value of the expression. -/
def Evaluates (e : AstNode) : Prop :=
  ∀ gen gen' ty code w p m, gen.scope = scope → emit tables e gen = .ok (ty, code, gen') →
    evalExpr P vars e = some w → At I.text p code → Reflects locals vars m →
    m.Room (need + 8 * e.traverseDepth) →
    ty = w.type.ty ∧ ∃ m', Evaluated I e w p (p + code.length) m m'

end

/-! ### Arguments -/

theorem placeArg_word {i : Nat} {T : WordTy} {place : Instr} (hi : i < 6)
    (h : placeArg i T.ty.kind = .ok place) :
    ∃ r, abiRegister (i + 1) = some r ∧ place = .mov ⟨r, T.width⟩ ⟨.rax, T.width⟩ := by
  obtain ⟨r, hr⟩ : ∃ r, abiRegister (i + 1) = some r :=
    ⟨_, List.getElem?_eq_getElem (by simpa using hi)⟩
  simp only [placeArg, hr, T.subregister_kind] at h
  cases h
  exact ⟨r, hr, rfl⟩

/-- An argument is evaluated and put into its register. -/
theorem arg_placed {arg : AstNode} {k : TypeKind} {c : List Instr} {place : Instr} {i p : Nat}
    {gen gen₁ : Gen} {ty : Ty} {w : Number}
    (harg : Evaluates I tables scope P vars locals need arg) (hscope : gen.scope = scope)
    (hemit : emit tables arg gen = .ok (ty, c, gen₁)) (heval : evalExpr P vars arg = some w)
    (hkind : k = w.type.ty.kind) (hi : i < 6) (hplace : placeArg i k = .ok place)
    (hat : At I.text p (c ++ [place])) (hvars : Reflects locals vars m)
    (hroom : m.Room (need + 8 * arg.traverseDepth)) :
    ∃ r m', abiRegister (i + 1) = some r ∧ I.Reaches (p, m) (p + c.length + 1, m') ∧
      m.SameFrame m' ∧ m'.get ⟨r, w.type.width⟩ = w.bits ∧
      (Tidy true true arg → ∀ r', r' ≠ r → r' ≠ .rax → m'.reg r' = m.reg r') := by
  subst hkind
  obtain ⟨hcode, hline⟩ := at_append.mp hat
  obtain ⟨-, m₁, hreach, ⟨hframe, hval⟩, hregs⟩ :=
    harg gen gen₁ ty c w p m hscope hemit heval hcode hvars hroom
  obtain ⟨r, hr, rfl⟩ := placeArg_word hi hplace
  let m₂ := m₁.set ⟨r, w.type.width⟩ (m₁.get ⟨.rax, w.type.width⟩)
  have hexec : exec I.env (.mov ⟨r, w.type.width⟩ ⟨.rax, w.type.width⟩) m₁ = some m₂ := if_pos rfl
  refine ⟨r, m₂, hr, hreach.trans (Runs.Reaches.single ?_), hframe.trans ⟨rfl, rfl, fun _ _ => rfl⟩,
    ?_, fun htidy r' hne hrax => ?_⟩
  · exact Image.step_of_exec (at_singleton.mp hline) hexec
  · exact Machine.get_set_self.trans hval
  · exact (Machine.set_of_ne hne).trans (hregs htidy r' hrax)

/-- The arguments from the one number on are in their registers. -/
def PlacedFrom (i : Nat) (ws : List Number) (m : Machine) : Prop :=
  ∀ j w, ws[j]? = some w → ∃ r, abiRegister (i + j + 1) = some r ∧
    m.get ⟨r, w.type.width⟩ = w.bits

/-- The arguments are put in place. Those behind the first one need no register but `rax`, so they
leave the ones in front of them in place. -/
theorem args_placed {sig : ProcSignature} {args : List AstNode} {i p : Nat} {code : List Instr}
    {gen gen' : Gen} {ws : List Number}
    (hargs : ∀ e ∈ args, Evaluates I tables scope P vars locals need e)
    (htidy : 0 < i → ∀ e ∈ args, Tidy true true e) (htail : ∀ e ∈ args.tail, Tidy true true e)
    (hscope : gen.scope = scope)
    (hemit : callArgs sig i (emits tables args) gen = .ok ((), code, gen'))
    (heval : evalArgs P vars args = some ws)
    (hkinds : (sig.params.drop i).map (·.type.kind) = ws.map (·.type.ty.kind))
    (hlen : i + args.length ≤ 6) (hat : At I.text p code) (hvars : Reflects locals vars m)
    (hroom : m.Room (need + 8 * AstNode.traverseDepth.listDepth args)) :
    ∃ m', I.Reaches (p, m) (p + code.length, m') ∧ m.SameFrame m' ∧ PlacedFrom i ws m' ∧
      ∀ j < i, ∀ r, abiRegister (j + 1) = some r → m'.reg r = m.reg r := by
  induction args generalizing i p code gen ws m with
  | nil =>
    obtain ⟨-, rfl, -⟩ := Emit.pure_ok.mp hemit
    cases heval
    exact ⟨m, Runs.Reaches.refl, .refl, by simp [PlacedFrom], fun _ _ _ _ => rfl⟩
  | cons arg args ih =>
    obtain ⟨k, ty, c, gen₁, place, rest, hk, harg, hplace, hrest, rfl⟩ :=
      callArgs_cons_ok hemit
    obtain ⟨w, hw, heval⟩ := Option.bind_eq_some_iff.mp heval
    obtain ⟨ws, hws, hcons⟩ := Option.bind_eq_some_iff.mp heval
    cases hcons
    have hi : i < sig.params.length := by
      by_contra hle
      rw [List.drop_eq_nil_of_le (Nat.le_of_not_lt hle)] at hkinds
      cases hkinds
    cases (ProcSignature.paramKind_of_some (List.getElem?_eq_getElem hi)).symm.trans hk
    rw [List.drop_eq_getElem_cons hi, List.map_cons, List.map_cons, List.cons.injEq] at hkinds
    rw [List.length_cons] at hlen
    rw [AstNode.traverseDepth.listDepth] at hroom
    obtain ⟨hfirst, hothers⟩ := List.forall_mem_cons.mp hargs
    rw [show c ++ place :: rest = c ++ [place] ++ rest by simp] at hat
    obtain ⟨hat₁, hat₂⟩ := at_append.mp hat
    obtain ⟨r, m₁, hr, hreach₁, hframe₁, hval, hregs₁⟩ := arg_placed hfirst hscope harg hw hkinds.1
      (by omega) hplace hat₁ hvars (hroom.mono (by omega))
    obtain ⟨m₂, hreach₂, hframe₂, hplaced, hregs₂⟩ := ih hothers (fun _ => htail)
      (fun e he => htail e (List.mem_of_mem_tail he)) ((emit_checked harg).2.trans hscope) hrest hws
      hkinds.2 (by omega) hat₂ (hvars.keep hframe₁) ((hroom.keep hframe₁).mono (by omega))
    refine ⟨m₂, ?_, hframe₁.trans hframe₂, fun j w' hj => ?_, fun j hj r' hr' => ?_⟩
    · have hreach := hreach₁.trans (by simpa [Nat.add_assoc] using hreach₂)
      simpa [Nat.add_assoc, Nat.add_comm 1] using hreach
    · cases j with
      | zero =>
        cases hj
        refine ⟨r, hr, ?_⟩
        rw [← hval, Machine.get, Machine.get, hregs₂ i (by omega) r hr]
      | succ j =>
        obtain ⟨r', hr', hget⟩ := hplaced j w' hj
        exact ⟨r', by rwa [show i + (j + 1) = i + 1 + j by omega], hget⟩
    · have hne : r' ≠ r := fun heq => by
        have := abiRegister_inj (heq ▸ hr') hr
        omega
      rw [hregs₂ j (by omega) r' hr', hregs₁ (htidy (by omega) arg (by simp)) r' hne
        (abiRegister_ne_rax hr')]

/-! ### Calls -/

/-- The address of a procedure is parked below the arguments, called, and left with a value. -/
theorem call_answered {name : String} {w : Number} {ws : List Number} {ca : List Instr} {p : Nat}
    (hat : At I.text p (.movSym ⟨.rax, .w64⟩ name :: .push .rax :: (ca ++ [.pop .rax, .call .rax])))
    (hroom : m.Room (need + 8))
    (hargs : ∀ m₂, m₂.reg = (m.set ⟨.rax, .w64⟩ (I.symbol name)).reg → m₂.rsp = m.rsp - 8 →
      m₂.rbp = m.rbp → (∀ a, m.rsp ≤ a → m₂.mem a = m.mem a) →
      ∃ m₃, I.Reaches (p + 2, m₂) (p + 2 + ca.length, m₃) ∧ m₂.SameFrame m₃ ∧ PlacedFrom 0 ws m₃)
    (hproc : ∀ m, Supplied ws m → m.Room need → Replies I name w m) :
    ∃ m', I.Reaches (p, m) (p + ca.length + 4, m') ∧ Answered w m m' := by
  obtain ⟨hsym, hat⟩ := at_cons.mp hat
  obtain ⟨hpush, hat⟩ := at_cons.mp hat
  obtain ⟨-, hat⟩ := at_append.mp hat
  obtain ⟨hpop, hat⟩ := at_cons.mp hat
  have hcall := at_singleton.mp hat
  let m₁ := m.set ⟨.rax, .w64⟩ (I.symbol name)
  let m₂ := m₁.push (m₁.reg .rax)
  have hreach₂ : I.Reaches (p, m) (p + 2, m₂) :=
    .step (Image.step_of_exec hsym rfl) (.step (Image.step_of_exec hpush rfl) Runs.Reaches.refl)
  obtain ⟨m₃, hreach₃, hframe₃, hplaced⟩ :=
    hargs m₂ rfl rfl rfl fun a ha => Machine.push_mem ha
  have hrax : m₁.reg .rax = I.symbol name := by
    simp [m₁, Machine.set, Machine.merge]
  -- what was parked is the address of the procedure
  let m₄ := m₃.drop.setReg .rax m₃.top
  have htop : m₄.reg .rax = I.symbol name := by
    rw [Machine.setReg_self, hframe₃.top, hrax]
  have hframe₄ : m.SameFrame m₄ :=
    ⟨(hframe₃.popped (m := m₁)).rsp, hframe₃.rbp, (hframe₃.popped (m := m₁)).mem⟩
  have hreach₄ : I.Reaches (p + 2, m₂) (p + 2 + ca.length + 1, m₄) :=
    hreach₃.trans (Runs.Reaches.single (Image.step_of_exec hpop rfl))
  let m₅ := m₄.push (I.place (p + 2 + ca.length + 1 + 1))
  have hpassed : Supplied ws m₅ := by
    intro i v hi
    obtain ⟨r, hr, hget⟩ := hplaced i v hi
    rw [Nat.zero_add] at hr
    refine ⟨r, hr, ?_⟩
    rw [← hget, Machine.get, Machine.get, Machine.push_reg,
      Machine.setReg_of_ne (abiRegister_ne_rax hr), Machine.drop_reg]
  obtain ⟨i, q, m₆, hi, hname, hreach₆, hret, hframe₆, hval⟩ :=
    hproc m₅ hpassed ((hroom.keep hframe₄).below rfl rfl)
  have hlt := (List.getElem?_eq_some_iff.mp hcall).1
  have hreach₅ : I.Reaches (p + 2 + ca.length + 1, m₄) (i, m₅) :=
    Image.reaches_call hcall hi (htop.trans hname)
  have hback : I.Reaches (q, m₆) (p + 2 + ca.length + 1 + 1, m₆.drop) :=
    Image.reaches_ret hret hlt hframe₆.top
  refine ⟨m₆.drop, ?_, ?_, hval⟩
  · have hall := hreach₂.trans (hreach₄.trans (hreach₅.trans (hreach₆.trans hback)))
    rwa [show p + 2 + ca.length + 1 + 1 = p + ca.length + 4 by omega] at hall
  · have hdrop : m₄.SameFrame m₆.drop := by
      refine ⟨?_, hframe₆.rbp, fun a ha => ?_⟩
      · rw [Machine.drop_rsp, hframe₆.rsp, Machine.push_rsp]
        omega
      · exact (hframe₆.mem a (by rw [Machine.push_rsp]; omega)).trans (Machine.push_mem ha)
    exact hframe₄.trans hdrop

/-! ### Operands -/

/-- One line that writes `rax` and nothing else. -/
theorem reaches_line {p : Nat} {line : Instr} (hline : I.text[p]? = some line)
    (hwrites : line.writes = some [.rax]) (hregs : line.inRegisters = true)
    (hrun : run I.env [line] m = some m') :
    I.Reaches (p, m) (p + 1, m') ∧ m.SameFrame m' ∧ ∀ r, r ≠ .rax → m'.reg r = m.reg r := by
  obtain ⟨m₁, hexec, heq⟩ := Option.bind_eq_some_iff.mp hrun
  cases heq
  refine ⟨Runs.Reaches.single (Image.step_of_exec hline hexec), .of_exec hregs hexec, fun r hr => ?_⟩
  exact (exec_of_writes hwrites hexec).2.2.1 r (by simpa using hr)

/-- Another line behind the code of an expression. -/
theorem Evaluated.line {e e' : AstNode} {v w : Number} {p q : Nat} {line : Instr} {m₁ : Machine}
    (h : Evaluated I e v p q m m₁) (htidy : Tidy true true e' → Tidy true true e)
    (hline : I.text[q]? = some line) (hwrites : line.writes = some [.rax])
    (hregs : line.inRegisters = true)
    (hrun : ∃ m', run I.env [line] m₁ = some m' ∧ m'.get ⟨.rax, w.type.width⟩ = w.bits) :
    ∃ m', Evaluated I e' w p (q + 1) m m' := by
  obtain ⟨m', hrun, hval⟩ := hrun
  obtain ⟨hreach, hframe, hkeep⟩ := reaches_line hline hwrites hregs hrun
  exact ⟨m', h.reaches.trans hreach, ⟨h.answered.toSameFrame.trans hframe, hval⟩,
    fun he r hr => (hkeep r hr).trans (h.regs (htidy he) r hr)⟩

theorem literal_evaluated {op : Token} {kind : LiteralKind} {w : Number} {p : Nat} {line : Instr}
    (hline : I.text[p]? = some line) (hwrites : line.writes = some [.rax])
    (hregs : line.inRegisters = true)
    (hrun : ∃ m', run I.env [line] m = some m' ∧ m'.get ⟨.rax, w.type.width⟩ = w.bits) :
    ∃ m', Evaluated I (.literal op kind) w p (p + 1) m m' := by
  obtain ⟨m', hrun, hval⟩ := hrun
  obtain ⟨hreach, hframe, hkeep⟩ := reaches_line hline hwrites hregs hrun
  exact ⟨m', hreach, ⟨hframe, hval⟩, fun _ => hkeep⟩

/-- The right operand waits on the stack for the left one. -/
theorem binop_evaluated {lhs rhs : AstNode} {op : Token} {kind : BinOpKind} {T : WordTy}
    {a b c : BitVec T.width.bits} {cl cr : List Instr} {p : Nat}
    (hat : At I.text p (cr ++ .push .rax :: (cl ++ .pop .rdi ::
      binopInstrs ⟨.rax, T.width⟩ ⟨.rdi, T.width⟩ ⟨.rax, .w8⟩ kind)))
    (hr : ∃ m', Evaluated I rhs ⟨T, b⟩ p (p + cr.length) m m')
    (hl : ∀ m₂ q, At I.text q cl → m₂.rsp = m.rsp - 8 → m₂.rbp = m.rbp →
      (∀ x, m.rsp ≤ x → m₂.mem x = m.mem x) →
      ∃ m', Evaluated I lhs ⟨T, a⟩ q (q + cl.length) m₂ m')
    (hc : kind.apply a b = some c) :
    ∃ m', Evaluated I (.binop lhs rhs op kind) ⟨T, c⟩ p (p + (cr ++ .push .rax :: (cl ++ .pop .rdi ::
      binopInstrs ⟨.rax, T.width⟩ ⟨.rdi, T.width⟩ ⟨.rax, .w8⟩ kind)).length) m m' := by
  obtain ⟨-, hat⟩ := at_append.mp hat
  obtain ⟨hpush, hat⟩ := at_cons.mp hat
  obtain ⟨hatl, hat⟩ := at_append.mp hat
  obtain ⟨hpop, hat⟩ := at_cons.mp hat
  obtain ⟨m₁, hreach₁, ⟨hframe₁, hval₁⟩, -⟩ := hr
  let m₂ := m₁.push (m₁.reg .rax)
  have hrsp : m₂.rsp = m.rsp - 8 := by rw [Machine.push_rsp, hframe₁.rsp]
  obtain ⟨m₃, hreach₃, ⟨hframe₃, hval₃⟩, -⟩ := hl m₂ _ hatl hrsp hframe₁.rbp fun x hx =>
    (Machine.push_mem (by rwa [hframe₁.rsp])).trans (hframe₁.mem x hx)
  let m₄ := m₃.drop.setReg .rdi m₃.top
  have hrax : m₄.get ⟨.rax, T.width⟩ = a := by
    refine .trans ?_ hval₃
    simp [m₄, Machine.get, Machine.setReg_of_ne]
  have hrdi : m₄.get ⟨.rdi, T.width⟩ = b := by
    refine .trans ?_ hval₁
    rw [Machine.get, Machine.get, Machine.setReg_self, hframe₃.top]
  obtain ⟨m₅, hrun₅, hval₅, hframe₅⟩ := run_apply (E := I.env) hc hrax hrdi
  refine ⟨m₅, ?_, ⟨(hframe₁.trans hframe₃.popped).trans hframe₅, hval₅⟩, fun htidy => ?_⟩
  · refine hreach₁.trans (.step (Image.step_of_exec hpush rfl) (hreach₃.trans
      (.step (Image.step_of_exec hpop rfl) ?_)))
    have hreach₅ := Image.reaches_of_run hat hrun₅
    simpa only [List.length_append, List.length_cons, Nat.add_assoc, Nat.add_comm,
      Nat.add_left_comm] using hreach₅
  · -- an operator needs `rdi`
    cases htidy
    contradiction

/-! ### The constructs -/

theorem run_slot {w : Number} {offset : Int} {E : Env}
    (hread : readBytes m.mem (m.rbp - offset) w.type.width.bytes = w.bits.setWidth 64) :
    ∃ m', run E [.load ⟨.rax, w.type.width⟩ (.rbp (-offset))] m = some m' ∧
      m'.get ⟨.rax, w.type.width⟩ = w.bits := by
  refine ⟨_, rfl, ?_⟩
  rw [Machine.get_set, BitVec.setWidth_eq, Addr.eval, ← Int.sub_eq_add_neg, hread,
    BitVec.setWidth_setWidth_of_le _ w.type.width.bits_le, BitVec.setWidth_eq]

theorem number_evaluates {op : Token} :
    Evaluates I tables scope P vars locals need (.literal op .number) := by
  intro gen gen' ty code w p m hscope hemit heval hat hvars hroom
  rw [emit] at hemit
  obtain ⟨rfl, ⟨rax, hrax, rfl⟩, -⟩ := literal_number_ok.mp hemit
  simp only [evalExpr, Option.ite_none_right_eq_some, Option.map_eq_some_iff] at heval
  obtain ⟨hlt, T, hT, rfl⟩ := heval
  have hty : typeFromTokenLiteral op.numberType = T.ty := by
    revert hT
    cases op.numberType <;> rintro ⟨⟩ <;> rfl
  rw [hty, T.subregister_kind] at hrax
  cases hrax
  obtain ⟨m', hrun, hval, -⟩ := run_number (E := I.env) (m := m) (T := T) hlt
  exact ⟨hty, literal_evaluated (at_singleton.mp hat) rfl rfl ⟨m', hrun, hval⟩⟩

/-- A variable is loaded from its slot. -/
theorem ident_evaluates {op : Token} (hsight : InSight tables scope locals globals) :
    Evaluates I tables scope P vars locals need (.literal op .ident) := by
  intro gen gen' ty code w p m hscope hemit heval hat hvars hroom
  rw [emit] at hemit
  obtain ⟨sym, hlocal, hkind, htype, -, hread⟩ :=
    hvars.value op.value w (Option.join_eq_some_iff.mp heval)
  obtain ⟨-, sym', hsym', hcases⟩ := literalIdent_ok.mp hemit
  have hfound := hsight.lookup (hscope ▸ hsym')
  rw [List.lookup_append, hlocal] at hfound
  cases hfound
  rcases hcases with ⟨-, haddr, -⟩ | ⟨-, -, rfl, ⟨rax, hrax, rfl⟩⟩ | ⟨hproc, -⟩
  · cases haddr
  · rw [htype, w.type.subregister_kind] at hrax
    cases hrax
    exact ⟨htype, literal_evaluated (at_singleton.mp hat) rfl rfl (run_slot hread)⟩
  · rw [hproc] at hkind
    simp at hkind

theorem grouping_evaluates {e : AstNode} (h : Evaluates I tables scope P vars locals need e) :
    Evaluates I tables scope P vars locals need (.grouping e) := by
  intro gen gen' ty code w p m hscope hemit heval hat hvars hroom
  rw [emit, grouping] at hemit
  rw [evalExpr] at heval
  rw [AstNode.traverseDepth] at hroom
  obtain ⟨hty, m', hreach, hanswered, hregs⟩ :=
    h gen gen' ty code w p m hscope hemit heval hat hvars (hroom.mono (by omega))
  refine ⟨hty, m', hreach, hanswered, fun htidy => ?_⟩
  cases htidy with
  | grouping htidy => exact hregs htidy

theorem minus_evaluates {e : AstNode} {op : Token}
    (h : Evaluates I tables scope P vars locals need e) :
    Evaluates I tables scope P vars locals need (.unaryop e op .minus) := by
  intro gen gen' ty code w p m hscope hemit heval hat hvars hroom
  rw [emit] at hemit
  obtain ⟨c, rax, hnode, hrax, rfl⟩ := unaryop_minus_ok.mp hemit
  obtain ⟨v, hv, rfl⟩ := Option.map_eq_some_iff.mp heval
  rw [AstNode.traverseDepth] at hroom
  obtain ⟨hatc, hline⟩ := at_append.mp hat
  obtain ⟨rfl, m₁, hm₁⟩ :=
    h gen gen' ty c v p m hscope hnode hv hatc hvars (hroom.mono (by omega))
  rw [v.type.subregister_kind] at hrax
  cases hrax
  obtain ⟨m₂, hrun₂, hval₂, -⟩ := run_minus (E := I.env) (m := m₁) (T := v.type)
  have htidy (h : Tidy true true (.unaryop e op .minus)) : Tidy true true e := by
    cases h
    assumption
  obtain ⟨m', hm'⟩ := hm₁.line (w := v.neg) htidy (at_singleton.mp hline) rfl rfl
    ⟨m₂, hrun₂, hval₂.trans (congrArg (- ·) hm₁.answered.value)⟩
  exact ⟨rfl, m', by simpa [Nat.add_assoc] using hm'⟩

/-- The right operand is evaluated first, and kept on the stack. -/
theorem binop_evaluates {lhs rhs : AstNode} {op : Token} {kind : BinOpKind}
    (hlhs : Evaluates I tables scope P vars locals need lhs)
    (hrhs : Evaluates I tables scope P vars locals need rhs) :
    Evaluates I tables scope P vars locals need (.binop lhs rhs op kind) := by
  intro gen gen' ty code w p m hscope hemit heval hat hvars hroom
  rw [emit] at hemit
  obtain ⟨tr, cr, gen₁, rdi, tl, cl, gen₂, rax, scale, hr, hrdi, hl, hrax, hscale, rfl, rfl⟩ :=
    binop_ok.mp hemit
  obtain ⟨va, hva, heval⟩ := Option.bind_eq_some_iff.mp heval
  obtain ⟨vb, hvb, hbin⟩ := Option.bind_eq_some_iff.mp heval
  obtain ⟨T, a, b, c, rfl, rfl, rfl, hc⟩ := Number.binop_eq_some hbin
  rw [AstNode.traverseDepth] at hroom
  have hlscope := (emit_checked hr).2.trans hscope
  have hcr := (at_append.mp hat).1
  obtain ⟨rfl, hright⟩ :=
    hrhs gen gen₁ tr cr _ p m hscope hr hvb hcr hvars (hroom.mono (by omega))
  have hleft (m₂ : Machine) (q : Nat) (hq : At I.text q cl) (hrsp : m₂.rsp = m.rsp - 8)
      (hrbp : m₂.rbp = m.rbp) (hmem : ∀ x, m.rsp ≤ x → m₂.mem x = m.mem x) :=
    hlhs gen₁ gen₂ tl cl _ q m₂ hlscope hl hva hq (hvars.mono (by omega) hrbp hmem)
      ((show m.Room (need + 8 * lhs.traverseDepth + 8) from hroom.mono (by omega)).below hrsp hrbp)
  have hcl := (at_append.mp (at_cons.mp (at_append.mp hat).2).2).1
  obtain ⟨rfl, -⟩ := hleft (m.push 0) _ hcl rfl rfl fun _ => Machine.push_mem
  -- operands of one type are not scaled
  have hnone := (scalePointer_self T.kind_ne_pointer).symm.trans hscale
  cases hnone
  cases (T.subregister_kind .rdi).symm.trans hrdi
  cases (T.subregister_kind .rax).symm.trans hrax
  exact ⟨if_neg T.kind_ne_pointer, binop_evaluated hat hright
    (fun m₂ q hq hrsp hrbp hmem => (hleft m₂ q hq hrsp hrbp hmem).2) hc⟩

theorem call_evaluates {op : Token} {callee : AstNode} {args : List AstNode}
    (hcalls : (AstNode.call op callee args).SimpleCalls)
    (hsight : InSight tables scope locals globals) (hprocs : Delivers I P globals need)
    (h : ∀ arg ∈ args, Evaluates I tables scope P vars locals need arg) :
    Evaluates I tables scope P vars locals need (.call op callee args) := by
  intro gen gen' ty code w p m hscope hemit heval hat hvars hroom
  rw [emit] at hemit
  obtain ⟨sig, cc, gen₁, ca, hcallee, hargs, rfl, rfl⟩ := call_ok hemit
  obtain ⟨name, ws, rfl, hws, hunknown, hname⟩ := evalExpr_call.mp heval
  obtain ⟨sig', hglobal, hkinds, hreturn, hanswers⟩ := hprocs name.value ws w hname
  -- the callee is the procedure of the name
  rw [emit] at hcallee
  obtain ⟨rfl, sym, hsym, hcases⟩ := literalIdent_ok.mp hcallee
  have hfound := hsight.lookup (hscope ▸ hsym)
  rw [List.lookup_append, hvars.unknown _ hunknown, Option.none_or, hglobal] at hfound
  cases hfound
  rcases hcases with ⟨hkind, -⟩ | ⟨hkind, -⟩ | ⟨-, htype, rfl⟩
  · simp at hkind
  · simp at hkind
  · cases htype
    obtain ⟨hlen, htail⟩ := hcalls.call
    rw [AstNode.traverseDepth] at hroom
    have hca : At I.text (p + 2) ca := (at_append.mp (at_cons.mp (at_cons.mp hat).2).2).1
    obtain ⟨m', hreach, hanswered⟩ := call_answered hat (hroom.mono (by omega))
      (fun m₂ _ hrsp hrbp hmem => by
        obtain ⟨m₃, hreach, hframe, hplaced, -⟩ := args_placed (i := 0) h (by omega) htail
          hscope hargs hws hkinds (by omega) hca (hvars.mono (by omega) hrbp hmem)
          ((hroom.mono (by omega)).below hrsp hrbp)
        exact ⟨m₃, hreach, hframe, hplaced⟩) hanswers
    refine ⟨hreturn, m', ?_, hanswered, fun htidy => ?_⟩
    · simpa [Nat.add_assoc] using hreach
    · cases htidy
      contradiction

/-- The code of an expression evaluates it. -/
theorem expr_evaluates {e : AstNode} (hcalls : e.SimpleCalls)
    (hsight : InSight tables scope locals globals) (hprocs : Delivers I P globals need) :
    Evaluates I tables scope P vars locals need e := by
  induction e using AstNode.parts_induct with
  | step e ih =>
    have hpart (c : AstNode) (hc : c ∈ e.parts) : Evaluates I tables scope P vars locals need c :=
      ih c hc (hcalls.part hc)
    cases e
    case literal op kind =>
      cases kind with
      | number => exact number_evaluates
      | ident => exact ident_evaluates hsight
      | string =>
        intro gen gen' ty code w p m hscope hemit heval
        cases heval
    case grouping e => exact grouping_evaluates (hpart e (by simp [AstNode.parts, AstNode.children]))
    case unaryop e op kind =>
      cases kind with
      | minus => exact minus_evaluates (hpart e (by simp [AstNode.parts, AstNode.children]))
      | _ =>
        intro gen gen' ty code w p m hscope hemit heval
        cases heval
    case binop lhs rhs op kind =>
      exact binop_evaluates (hpart lhs (by simp [AstNode.parts, AstNode.children]))
        (hpart rhs (by simp [AstNode.parts, AstNode.children]))
    case call op callee args =>
      exact call_evaluates hcalls hsight hprocs
        fun arg harg => hpart arg (by simp [AstNode.parts, AstNode.children, harg])
    -- the others have no meaning
    all_goals
      intro gen gen' ty code w p m hscope hemit heval
      cases heval

end Seron
