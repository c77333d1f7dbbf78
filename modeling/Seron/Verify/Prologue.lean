import Seron.Verify.AccessWidth
import Seron.Verify.Calls
import Seron.Verify.Frame
import Seron.Verify.Lowering

/-! # Prologues

The prologue of a procedure stores each argument, from where the calling convention puts it, into
the slot of its parameter. -/

namespace Seron

open Memory Layout

/-- The registers of the first six arguments, counted from 0. -/
def sysvRegister (i : Nat) : Option Register :=
  [Register.rdi, .rsi, .rdx, .rcx, .r8, .r9][i]?

/-- Where the calling convention puts an argument on entry: the return address is on top of the
stack, and the seventh argument behind it. -/
def Machine.argument (m : Machine) (i : Nat) : BitVec 64 :=
  match sysvRegister i with
  | some r => m.reg r
  | none => readBytes m.mem (m.rsp + 8 * ((i - 5 : Nat) : Int)) 8

/-- What the prologue, entered in the one state, leaves in the other: every parameter at the width
of its type in a slot of the new frame, the frame pointer of the caller below the return address,
and the stack of the caller. -/
structure Received (params : List Param) (m m' : Machine) : Prop where
  rbp : m'.rbp = m.rsp - 8
  slot : ∀ i param, params[i]? = some param → ∃ w : Width,
    typePrimitiveSize param.type.kind = .ok w.bytes ∧ m'.rsp ≤ m'.rbp - param.offset ∧
      readBytes m'.mem (m'.rbp - param.offset) w.bytes =
        ((m.argument i).setWidth w.bits).setWidth 64
  saved : readBytes m'.mem m'.rbp 8 = BitVec.ofInt 64 m.rbp
  caller : ∀ a, m.rsp ≤ a → m'.mem a = m.mem a

variable {E : Env} {m : Machine} {gen gen' : Gen} {text : List Instr}

/-! ## One parameter -/

/-- Where the prologue looks for an argument, once `rbp` is set. -/
def Machine.incoming (m : Machine) (i : Nat) : BitVec 64 :=
  match sysvRegister i with
  | some r => m.reg r
  | none => readBytes m.mem (m.rbp + (16 + 8 * ((i - 6 : Nat) : Int))) 8

/-- One parameter is stored; nothing else changes but `rax`. -/
structure Stored (param : Param) (v : BitVec 64) (m m' : Machine) : Prop where
  rsp : m'.rsp = m.rsp
  rbp : m'.rbp = m.rbp
  reg : ∀ r, r ≠ .rax → m'.reg r = m.reg r
  mem : ∀ a, a - m.rbp ∉ param.slot → m'.mem a = m.mem a
  slot : ∃ w : Width, typePrimitiveSize param.type.kind = .ok w.bytes ∧
    readBytes m'.mem (m.rbp - param.offset) w.bytes = (v.setWidth w.bits).setWidth 64

theorem Param.slot_eq {param : Param} {n : Nat} (h : typePrimitiveSize param.type.kind = .ok n) :
    param.slot = Set.Ico (-param.offset) (-param.offset + n) := by
  rw [slot, Ty.size_eq h]

/-- A register is stored into the slot. -/
theorem stored_of_store {param : Param} {s : SubReg} {v : BitVec 64}
    (hs : typePrimitiveSize param.type.kind = .ok s.width.bytes)
    (hv : (m.reg s.reg).setWidth s.width.bits = v.setWidth s.width.bits) :
    ∃ m', run E [.store (.rbp (-param.offset)) s] m = some m' ∧ Stored param v m m' := by
  refine ⟨_, rfl, rfl, rfl, fun _ _ => rfl, fun a ha => ?_, s.width, hs, ?_⟩
  · apply writeBytes_outside
    rw [Param.slot_eq hs, Set.mem_Ico] at ha
    simp only [Addr.eval]
    omega
  · rw [← hv, Width.bits_eq]
    exact readBytes_writeBytes

theorem abiRegisterStr_ok {i : Nat} {k : TypeKind} {reg : Option SubReg}
    (h : abiRegisterStr (i + 1) k = .ok reg) :
    (sysvRegister i = none ∧ reg = none) ∨
      ∃ r s, sysvRegister i = some r ∧ subregister r k = .ok s ∧ reg = some s := by
  have hsysv : abiRegister (i + 1) = sysvRegister i := rfl
  unfold abiRegisterStr at h
  rw [hsysv] at h
  cases hreg : sysvRegister i with
  | none =>
    rw [hreg] at h
    cases h
    exact .inl ⟨rfl, rfl⟩
  | some r =>
    rw [hreg] at h
    obtain ⟨s, hs, heq⟩ := Except.bind_ok.mp h
    cases heq
    exact .inr ⟨r, s, rfl, hs, rfl⟩

/-- An argument on the stack goes through `rax`. -/
theorem stored_of_load {param : Param} {s : SubReg} {a : Int}
    (hs : subregister .rax param.type.kind = .ok s) :
    ∃ m', run E [.load s (.rbp a), .store (.rbp (-param.offset)) s] m = some m' ∧
      Stored param (readBytes m.mem (m.rbp + a) 8) m m' := by
  obtain ⟨reg, w⟩ := s
  obtain rfl : reg = .rax := subregister_reg hs
  let m₁ := m.set ⟨.rax, w⟩ (readBytes m.mem (m.rbp + a) w.bytes)
  have hw := w.bytes_le
  have hrax : (m₁.reg .rax).setWidth w.bits =
      (readBytes m.mem (m.rbp + a) 8).setWidth w.bits := by
    refine (Machine.get_set (m := m) (r := .rax)).trans ?_
    rw [readBytes_low hw, Width.bits_eq]
    have hle : 8 * w.bytes ≤ 64 := by omega
    rw [BitVec.setWidth_setWidth_of_le _ hle, BitVec.setWidth_setWidth_of_le _ hle,
      BitVec.setWidth_eq]
  have hstore : ∃ m', run E [.store (.rbp (-param.offset)) ⟨.rax, w⟩] m₁ = some m' ∧
      Stored param (readBytes m.mem (m.rbp + a) 8) m₁ m' :=
    stored_of_store (subregister_bytes hs) hrax
  obtain ⟨m', hrun, hstored⟩ := hstore
  refine ⟨m', hrun, hstored.rsp, hstored.rbp, fun r hr => ?_, hstored.mem, hstored.slot⟩
  exact (hstored.reg r hr).trans (Machine.set_of_ne hr)

/-- The first parameter is stored, from where the calling convention puts its argument. -/
theorem procParams_cons {param : Param} {params : List Param} {i : Nat}
    (h : procParams i (16 + 8 * ((i - 6 : Nat) : Int)) (param :: params) gen =
      .ok ((), text, gen')) :
    ∃ first rest, text = first ++ rest ∧
      procParams (i + 1) (16 + 8 * ((i + 1 - 6 : Nat) : Int)) params gen = .ok ((), rest, gen') ∧
      ∀ m, ∃ m', run E first m = some m' ∧ Stored param (m.incoming i) m m' := by
  rw [procParams] at h
  obtain ⟨reg, hreg, h⟩ := Emit.lift_bind_ok.mp h
  rcases abiRegisterStr_ok hreg with ⟨hsysv, rfl⟩ | ⟨r, s, hsysv, hs, rfl⟩
  · have hi : 6 ≤ i := by simpa [sysvRegister] using hsysv
    obtain ⟨rax, hrax, h⟩ := Emit.lift_bind_ok.mp h
    obtain ⟨t₁, h₁, rfl⟩ := genWrite_bind_ok.mp h
    obtain ⟨t₂, h₂, rfl⟩ := genWrite_bind_ok.mp h₁
    refine ⟨[_, _], t₂, rfl, ?_, fun m => ?_⟩
    · rw [show 16 + 8 * ((i + 1 - 6 : Nat) : Int) = 16 + 8 * ((i - 6 : Nat) : Int) + 8 by omega]
      exact h₂
    · rw [Machine.incoming, hsysv]
      exact stored_of_load hrax
  · have hi : i < 6 := by simpa using (List.getElem?_eq_some_iff.mp hsysv).1
    obtain ⟨t₁, h₁, rfl⟩ := genWrite_bind_ok.mp h
    refine ⟨[_], t₁, rfl, ?_, fun m => ?_⟩
    · rw [show (i + 1 - 6 : Nat) = i - 6 by omega]
      exact h₁
    · rw [Machine.incoming, hsysv]
      refine stored_of_store (subregister_bytes hs) ?_
      rw [subregister_reg hs]

/-- Storing a parameter leaves the arguments where they are. -/
theorem Stored.incoming {param : Param} {v : BitVec 64} {m' : Machine} {lo : Int}
    (h : Stored param v m m') (hinside : param.slot ⊆ Set.Ico lo 0) (i : Nat) :
    m'.incoming i = m.incoming i := by
  unfold Machine.incoming
  cases hreg : sysvRegister i with
  | some r =>
    have hr : abiRegister (i + 1) = some r := hreg
    exact h.reg r (abiRegister_ne_rax hr)
  | none =>
    rw [h.rbp]
    apply readBytes_congr
    intro a hlo _
    apply h.mem
    intro hmem
    have := (hinside hmem).2
    omega

/-! ## All parameters -/

/-- The slots do not overlap and lie below `rbp`. -/
theorem run_procParams {params : List Param} {i : Nat} {lo : Int}
    (h : procParams i (16 + 8 * ((i - 6 : Nat) : Int)) params gen = .ok ((), text, gen'))
    (hslots : LaidOut lo 0 (params.map Param.slot)) (m : Machine) :
    ∃ m', run E text m = some m' ∧ m'.rsp = m.rsp ∧ m'.rbp = m.rbp ∧
      (∀ a, (∀ param ∈ params, a - m.rbp ∉ param.slot) → m'.mem a = m.mem a) ∧
      ∀ k param, params[k]? = some param → ∃ w : Width,
        typePrimitiveSize param.type.kind = .ok w.bytes ∧
        readBytes m'.mem (m.rbp - param.offset) w.bytes =
          ((m.incoming (i + k)).setWidth w.bits).setWidth 64 := by
  induction params generalizing i text m with
  | nil =>
    obtain ⟨-, rfl, -⟩ := Emit.pure_ok.mp h
    exact ⟨m, rfl, rfl, rfl, fun _ _ => rfl, by simp⟩
  | cons param params ih =>
    obtain ⟨first, rest, rfl, hrest, hfirst⟩ := procParams_cons (E := E) h
    obtain ⟨m₁, hrun₁, hstored⟩ := hfirst m
    obtain ⟨hapart, hpairwise⟩ := List.pairwise_cons.mp hslots.disjoint
    obtain ⟨hinside, hinsides⟩ := List.forall_mem_cons.mp hslots.inside
    obtain ⟨m', hrun', hrsp, hrbp, hmem, hread⟩ := ih hrest ⟨hpairwise, hinsides⟩ m₁
    refine ⟨m', by rw [run_append_some hrun₁, hrun'], hrsp.trans hstored.rsp,
      hrbp.trans hstored.rbp, fun a ha => ?_, fun k param' hk => ?_⟩
    · obtain ⟨ha, hrest⟩ := List.forall_mem_cons.mp ha
      rw [hstored.rbp] at hmem
      exact (hmem a hrest).trans (hstored.mem a ha)
    · rw [hstored.rbp] at hmem hread
      cases k with
      | zero =>
        -- the later slots are apart from this one
        cases hk
        obtain ⟨w, hw, hslot⟩ := hstored.slot
        refine ⟨w, hw, ?_⟩
        rw [Nat.add_zero, ← hslot]
        apply readBytes_congr
        intro a hlo hhi
        apply hmem
        intro other hother hmem'
        have hin : a - m.rbp ∈ param.slot := by
          rw [Param.slot_eq hw, Set.mem_Ico]
          omega
        exact Set.disjoint_left.mp (hapart _ (List.mem_map_of_mem hother)) hin hmem'
      | succ k =>
        -- and the arguments that are still to be stored are as before
        obtain ⟨w, hw, hslot⟩ := hread k param' hk
        refine ⟨w, hw, ?_⟩
        rw [hslot, show i + (k + 1) = i + 1 + k by omega]
        rw [hstored.incoming hinside]

/-! ## The prologue -/

/-- The frame of a procedure that was entered, before its parameters are stored. -/
def Machine.enter (m : Machine) (size : Int) : Machine :=
  let pushed := m.push (BitVec.ofInt 64 m.rbp)
  { pushed with rbp := pushed.rsp, rsp := pushed.rsp - size, flags := none }

theorem run_enter {ident : String} {size : Int} :
    run E (.global ident :: .label (.proc ident) :: .pushRbp :: .movRbpRsp :: .subRsp size :: text)
      m = run E text (m.enter size) := rfl

theorem enter_incoming {size : Int} (i : Nat) : (m.enter size).incoming i = m.argument i := by
  unfold Machine.incoming Machine.argument
  cases hreg : sysvRegister i with
  | some r => rfl
  | none =>
    have hi : 6 ≤ i := by simpa [sysvRegister] using hreg
    have haddr : (m.enter size).rbp + (16 + 8 * ((i - 6 : Nat) : Int)) =
        m.rsp + 8 * ((i - 5 : Nat) : Int) := by
      simp only [Machine.enter, Machine.push_rsp]
      omega
    show readBytes (m.enter size).mem ((m.enter size).rbp + (16 + 8 * ((i - 6 : Nat) : Int))) 8 = _
    rw [haddr]
    exact readBytes_writeBytes_disjoint (.inr (by omega))

/-- The prologue receives the parameters, if their slots are laid out in the frame. -/
theorem run_prologue {params : List Param} {size : Int} (ident : String)
    (h : procParams 0 16 params gen = .ok ((), text, gen'))
    (hslots : LaidOut (-size) 0 (params.map Param.slot)) (m : Machine) :
    ∃ m', run E (.global ident :: .label (.proc ident) :: .pushRbp :: .movRbpRsp :: .subRsp size ::
      text) m = some m' ∧ Received params m m' := by
  obtain ⟨m', hrun, hrsp, hrbp, hmem, hread⟩ := run_procParams (E := E) h hslots (m.enter size)
  have hentered : (m.enter size).rbp = m.rsp - 8 := rfl
  rw [hentered] at hrbp hmem hread
  have houtside : ∀ a, m.rsp - 8 ≤ a → ∀ param ∈ params, a - (m.rsp - 8) ∉ param.slot := by
    intro a ha param hparam hmem
    have := (hslots.inside _ (List.mem_map_of_mem hparam) hmem).2
    omega
  refine ⟨m', run_enter.trans hrun, hrbp, fun i param hi => ?_, ?_, fun a ha => ?_⟩
  · obtain ⟨w, hw, hslot⟩ := hread i param hi
    rw [Nat.zero_add, enter_incoming] at hslot
    refine ⟨w, hw, ?_, by rw [hrbp, hslot]⟩
    have hfirst : -param.offset ∈ param.slot := by
      have := (typePrimitiveSize_bounds hw).1
      rw [Param.slot_eq hw, Set.mem_Ico]
      omega
    have hlo := (hslots.inside _ (List.mem_map_of_mem (List.mem_of_getElem? hi)) hfirst).1
    have hreserved : (m.enter size).rsp = m.rsp - 8 - size := rfl
    rw [hrsp, hrbp, hreserved]
    omega
  · rw [hrbp, readBytes_congr fun a ha _ => hmem a (houtside a ha)]
    exact Machine.top_push
  · rw [hmem a (houtside a (by omega))]
    exact Machine.push_mem ha

/-- Behind the prologue that is emitted for a procedure of a program, every parameter is in its
slot, and the stack of the caller is intact. -/
theorem prologue_receives {fuel : Nat} {garbage : List Nat} {toks : List Token}
    {root root' root'' : AstNode} {p : Parser} {st : Symboltable} {op ident : Token}
    {body : AstNode} {sig : ProcSignature} {table : Option Nat} {stackSize : Int}
    {tables : List Hashtable} {ty : Ty}
    (hparse : parse fuel garbage toks = .ok root p) (hexpand : expandAst root = .ok root')
    (hbuild : symboltableBuild root' = .ok (root'', st))
    (hproc : .proc op ident (some body) (.procedure sig) table stackSize ∈ root''.subtrees)
    (hemit : emit tables (.proc op ident (some body) (.procedure sig) table stackSize) gen =
      .ok (ty, text, gen')) :
    ∃ prologue tb code, emit tables body gen = .ok (tb, code, gen') ∧
      text = prologue ++ (code ++ [.label .return_, .movRspRbp, .popRbp, .ret]) ∧
      ∀ E m, ∃ m', run E prologue m = some m' ∧ Received sig.params m m' := by
  have hlaid := frames_laidOut hparse hexpand hbuild _ _ _ _ _ _ hproc
  have hslots : LaidOut (-stackSize) 0 (sig.params.map Param.slot) :=
    ⟨(List.pairwise_append.mp hlaid.disjoint).2.1,
      fun r hr => hlaid.inside r (List.mem_append_right _ hr)⟩
  rw [emit] at hemit
  obtain ⟨-, hemit⟩ := statement_ok.mp hemit
  obtain ⟨sig', params, tb, code, hsig, hparams, hbody, rfl⟩ := proc_text hemit
  cases hsig
  exact ⟨_ :: _ :: _ :: _ :: _ :: params, tb, code, hbody, rfl, fun E m =>
    run_prologue ident.value hparams hslots m⟩

/-- `proc f(a: int, b: char, c: long, d: *int, e: int, f: int, g: char, h: int) int { return h; }` -/
def eightParams : List Token :=
  let param (name : String) (type : List Token) : List Token := .ident name :: { kind := .colon } :: type
  [{ kind := .kwProc }, .ident "f", { kind := .lparen }] ++
    param "a" [{ kind := .kwTypeInt }, { kind := .comma }] ++
    param "b" [{ kind := .kwTypeChar }, { kind := .comma }] ++
    param "c" [{ kind := .kwTypeLong }, { kind := .comma }] ++
    param "d" [{ kind := .asterisk }, { kind := .kwTypeInt }, { kind := .comma }] ++
    param "e" [{ kind := .kwTypeInt }, { kind := .comma }] ++
    param "f" [{ kind := .kwTypeInt }, { kind := .comma }] ++
    param "g" [{ kind := .kwTypeChar }, { kind := .comma }] ++
    param "h" [{ kind := .kwTypeInt }] ++
    [{ kind := .rparen }, { kind := .kwTypeInt }, { kind := .lbrace }, { kind := .kwReturn },
      .ident "h", { kind := .semicolon }, { kind := .rbrace }, .eof]

/-- Whether a program is one procedure with eight parameters, which can be emitted. -/
def emitsEight (root : AstNode) (tables : List Hashtable) : Bool :=
  match root with
  | .block [.proc op ident (some body) (.procedure sig) table size] _ =>
    match emit tables (.proc op ident (some body) (.procedure sig) table size) {} with
    | .ok _ => sig.params.length == 8
    | .error _ => false
  | _ => false

theorem prologue_receives_eightParams :
    ∃ (sig : ProcSignature) (text prologue code : List Instr), sig.params.length = 8 ∧
      text = prologue ++ (code ++ [.label .return_, .movRspRbp, .popRbp, .ret]) ∧
      ∀ E m, ∃ m', run E prologue m = some m' ∧ Received sig.params m m' := by
  obtain ⟨root, p, root', root'', st, hparse, hexpand, hbuild, htest⟩ :=
    @of_annotatesTo (fun _ root tables => emitsEight root tables) 100 eightParams
      (by decide +kernel)
  unfold emitsEight at htest
  split at htest
  · rename_i op ident body sig table size t
    split at htest
    · rename_i r hemit
      obtain ⟨ty, text, gen'⟩ := r
      have hmem : AstNode.proc op ident (some body) (.procedure sig) table size ∈
          (AstNode.block [.proc op ident (some body) (.procedure sig) table size] t).subtrees :=
        AstNode.mem_subtrees.mpr (.inr ⟨_, List.mem_singleton.mpr rfl,
          AstNode.mem_subtrees.mpr (.inl rfl)⟩)
      obtain ⟨prologue, tb, code, -, htext, hreceived⟩ :=
        prologue_receives hparse hexpand hbuild hmem hemit
      exact ⟨sig, text, prologue, code, beq_iff_eq.mp htest, htext, hreceived⟩
    · cases htest
  · cases htest

end Seron
