import Seron.Verify.Logic
import Seron.Verify.Slots

/-! # Arrays

The elements of an array literal are stored at offsets that count down from its highest one, and so
the first is at the lowest address. That is where scaling an index looks for them. -/

namespace Seron

open Memory Layout

variable {T : OperandTy} {E : Env} {m m' m₀ : Machine} {gen gen' : Gen} {tables : List Hashtable}
  {scope : Option Nat} {A B : Set Int}

namespace OperandTy

/-- The literals of the type lie below. -/
def literalBound : OperandTy → Nat
  | char => 2 ^ 7
  | int | long => 2 ^ 31

theorem literalBound_le (T : OperandTy) : T.literalBound ≤ 2 ^ 31 := by
  cases T <;> decide

theorem primitiveSize (T : OperandTy) : typePrimitiveSize T.ty.kind = .ok T.width.bytes := by
  cases T <;> rfl

end OperandTy

/-! ## Memory -/

/-- The second state differs from the first one in registers, and in the memory of a region relative
to `rbp`. -/
structure Machine.Within (A : Set Int) (m m' : Machine) : Prop where
  rsp : m'.rsp = m.rsp
  rbp : m'.rbp = m.rbp
  mem : ∀ a, a - m.rbp ∉ A → m'.mem a = m.mem a

theorem Machine.Within.trans {m'' : Machine} (h : m.Within A m') (h' : m'.Within A m'') :
    m.Within A m'' where
  rsp := h'.rsp.trans h.rsp
  rbp := h'.rbp.trans h.rbp
  mem a ha := (h'.mem a (by rwa [h.rbp])).trans (h.mem a ha)

theorem Machine.Within.mono (h : m.Within A m') (hsub : A ⊆ B) : m.Within B m' where
  rsp := h.rsp
  rbp := h.rbp
  mem a ha := h.mem a fun hmem => ha (hsub hmem)

/-- What lies apart from the region is read as before. -/
theorem Machine.Within.read (h : m.Within A m') {a : Int} {n : Nat}
    (hapart : Disjoint (Set.Ico (a - m.rbp) (a - m.rbp + n)) A) :
    readBytes m'.mem a n = readBytes m.mem a n := by
  apply readBytes_congr
  intro x hlo hhi
  apply h.mem
  exact Set.disjoint_left.mp hapart (Set.mem_Ico.mpr (by omega))

/-- A store writes the bytes of its slot. -/
theorem run_store {offset : Int} {w : Width} {v : BitVec w.bits} (hv : m.get ⟨.rax, w⟩ = v) :
    ∃ m', run E [.store (.rbp (-offset)) ⟨.rax, w⟩] m = some m' ∧
      m.Within (Set.Ico (-offset) (-offset + w.bytes)) m' ∧ m'.reg = m.reg ∧
      readBytes m'.mem (m.rbp - offset) w.bytes = v.setWidth 64 := by
  refine ⟨_, rfl, ⟨rfl, rfl, fun a ha => ?_⟩, rfl, ?_⟩
  · rw [Set.mem_Ico] at ha
    apply writeBytes_outside
    simp only [Addr.eval]
    omega
  · rw [← hv, Machine.get]
    cases w <;> exact readBytes_writeBytes

/-! ## Elements -/

/-- An element of an array literal, with its value in a state: a number, or a variable of the type
of the elements. -/
inductive Element (tables : List Hashtable) (scope : Option Nat) (T : OperandTy) (m : Machine) :
    AstNode → BitVec T.width.bits → Prop
  | number {op : Token} : typeFromTokenLiteral op.numberType = T.ty →
    op.number.toNat < T.literalBound →
    Element tables scope T m (.literal op .number) (op.number.setWidth _)
  | ident {op : Token} {sym : Symbol} : symboltableLookup tables scope op.value = .ok (some sym) →
    sym.kind = .variable ∨ sym.kind = .parameter → sym.type = T.ty →
    Element tables scope T m (.literal op .ident)
      ((readBytes m.mem (m.rbp - sym.offset) T.width.bytes).setWidth _)

/-- The variables that are found in the scope lie apart from a region. -/
def SlotsApart (tables : List Hashtable) (scope : Option Nat) (A : Set Int) : Prop :=
  ∀ key sym, symboltableLookup tables scope key = .ok (some sym) →
    sym.kind = .variable ∨ sym.kind = .parameter → Disjoint sym.slot A

theorem run_element {e : AstNode} {v : BitVec T.width.bits} (h : Element tables scope T m₀ e v)
    (hscope : gen.scope = scope) (hapart : SlotsApart tables scope A) :
    ∃ code, emit tables e gen = .ok (T.ty, code, gen) ∧
      ∀ E m, m₀.Within A m → ∃ m', run E code m = some m' ∧ m'.get ⟨.rax, T.width⟩ = v ∧
        m.Within ∅ m' := by
  cases h with
  | @number op hty hlt =>
    refine ⟨[.movImm ⟨.rax, T.width⟩ (op.number.setWidth 32).toInt], ?_,
      fun E m _ => ⟨_, rfl, ?_, ⟨rfl, rfl, fun _ _ => rfl⟩⟩⟩
    · rw [emit]
      exact literal_number_ok.mpr ⟨hty.symm, ⟨_, T.subregister_kind _, rfl⟩, rfl⟩
    · rw [toInt_setWidth (hlt.trans_le T.literalBound_le), Machine.get_set, BitVec.setWidth_eq]
      simp
  | @ident op sym hsym hkind hty =>
    refine ⟨[.load ⟨.rax, T.width⟩ (.rbp (-sym.offset))], ?_,
      fun E m hm => ⟨_, rfl, ?_, ⟨rfl, rfl, fun _ _ => rfl⟩⟩⟩
    · rw [emit, literal]
      exact literalIdent_ok.mpr ⟨rfl, _, hscope ▸ hsym,
        .inr (.inl ⟨hkind, rfl, hty.symm, _, T.subregister_kind _, rfl⟩)⟩
    · have hslot := hapart _ _ hsym hkind
      rw [Symbol.slot, hty, Ty.size_eq T.primitiveSize] at hslot
      have hread : readBytes m.mem (m₀.rbp - sym.offset) T.width.bytes =
          readBytes m₀.mem (m₀.rbp - sym.offset) T.width.bytes := by
        apply hm.read
        rwa [show m₀.rbp - sym.offset - m₀.rbp = -sym.offset by omega]
      rw [Machine.get_set, BitVec.setWidth_eq, Addr.eval, ← Int.sub_eq_add_neg, hm.rbp, hread]

/-! ## The literal -/

/-- The bytes of the last elements of an array. -/
def tailRegion (T : OperandTy) (offset : Int) (n : Nat) : Set Int :=
  Set.Ico (-(offset + n * T.width.bytes)) (-offset)

/-- The elements, from a base address upwards. -/
def Elements (T : OperandTy) (m : Machine) (base : Int) (vs : List (BitVec T.width.bits)) : Prop :=
  ∀ (i : Nat) (v : BitVec T.width.bits), vs[i]? = some v →
    readBytes m.mem (base + i * T.width.bytes) T.width.bytes = v.setWidth 64

theorem Elements.cons {base : Int} {v : BitVec T.width.bits} {vs : List (BitVec T.width.bits)}
    (hfirst : readBytes m.mem base T.width.bytes = v.setWidth 64)
    (hrest : Elements T m (base + T.width.bytes) vs) : Elements T m base (v :: vs) := by
  intro i v' hi
  cases i with
  | zero =>
    cases hi
    rw [← hfirst]
    simp
  | succ i =>
    rw [← hrest i v' hi]
    congr 1
    push_cast
    rw [add_mul, one_mul]
    omega

theorem tailRegion_subset {offset : Int} {n : Nat} :
    tailRegion T offset n ⊆ tailRegion T offset (n + 1) := by
  apply Set.Ico_subset_Ico_left
  push_cast
  rw [add_mul]
  omega

theorem length_emits {nodes : List AstNode} : (emits tables nodes).length = nodes.length := by
  induction nodes with
  | nil => rfl
  | cons node nodes ih => exact congrArg (· + 1) ih

/-- The loop stores the elements one above the other. -/
theorem run_arrayElems {offset : Int} {values : List AstNode} {vs : List (BitVec T.width.bits)}
    (h : List.Forall₂ (Element tables scope T m₀) values vs) (hscope : gen.scope = scope)
    (hapart : SlotsApart tables scope A) (hA : tailRegion T offset values.length ⊆ A) :
    ∃ code, arrayElems T.ty offset T.width.bytes (emits tables values) gen = .ok ((), code, gen) ∧
      ∀ E m, m₀.Within A m → ∃ m', run E code m = some m' ∧
        m.Within (tailRegion T offset values.length) m' ∧
        Elements T m' (m.rbp - (offset + values.length * T.width.bytes)) vs := by
  induction h with
  | nil => exact ⟨[], rfl, fun E m _ => ⟨m, rfl, ⟨rfl, rfl, fun _ _ => rfl⟩, by simp [Elements]⟩⟩
  | @cons value v values vs hvalue _ ih =>
    have hsub : tailRegion T offset values.length ⊆ tailRegion T offset (value :: values).length :=
      tailRegion_subset
    obtain ⟨cv, hemit, hrunv⟩ := run_element hvalue hscope hapart
    obtain ⟨rest, hrest, hruns⟩ := ih (hsub.trans hA)
    let size : Int := (value :: values).length * T.width.bytes
    have hsize : size = values.length * T.width.bytes + T.width.bytes := by
      simp only [size, List.length_cons]
      push_cast
      rw [add_mul, one_mul]
    refine ⟨cv ++ .store (.rbp (-(offset + size))) ⟨.rax, T.width⟩ :: rest, ?_, ?_⟩
    · have hlength : ((emits tables (value :: values)).length : Int) * T.width.bytes = size := by
        rw [length_emits]
      refine discard_bind_ok.mpr ⟨_, cv, gen, _, hemit, Emit.lift_bind_ok.mpr
        ⟨_, T.subregister_kind .rax, genWrite_bind_ok.mpr ⟨rest, hrest, ?_⟩⟩, rfl⟩
      rw [← hlength]
      rfl
    · intro E m hm
      obtain ⟨m₁, hrun₁, hval, hkeep₁⟩ := hrunv E m hm
      obtain ⟨m₂, hrun₂, hkeep₂, -, hread₂⟩ :=
        @run_store E m₁ (offset + size) T.width v hval
      have hpos : (0 : Int) ≤ values.length * T.width.bytes := by positivity
      have hstored : m₁.Within (tailRegion T offset (value :: values).length) m₂ := by
        refine hkeep₂.mono (Set.Ico_subset_Ico_right ?_)
        omega
      have hkept := (hkeep₁.mono (Set.empty_subset _)).trans hstored
      obtain ⟨m₃, hrun₃, hkeep₃, helements⟩ := hruns E m₂ (hm.trans (hkept.mono hA))
      refine ⟨m₃, ?_, hkept.trans (hkeep₃.mono hsub), ?_⟩
      · rw [run_append_some hrun₁]
        show run E ([_] ++ rest) m₁ = _
        rw [run_append_some hrun₂, hrun₃]
      · have hrbp₁ : m₁.rbp = m.rbp := hkeep₁.rbp
        have hrbp₂ : m₂.rbp = m.rbp := hkept.rbp
        have hbase : m.rbp - (offset + size) + T.width.bytes =
            m.rbp - (offset + values.length * T.width.bytes) := by omega
        rw [hrbp₂, ← hbase] at helements
        refine Elements.cons ?_ helements
        -- the later elements lie above this one
        rw [← hread₂, hrbp₁]
        apply hkeep₃.read
        rw [hrbp₂]
        refine Set.disjoint_left.mpr fun a ha ha' => ?_
        have hhigh := (Set.mem_Ico.mp ha).2
        have hlow := (Set.mem_Ico.mp ha').1
        omega

/-- The address of the first element, relative to `rbp`. -/
def firstElement (T : OperandTy) (offset : Int) (n : Nat) : Int := -(offset + n * T.width.bytes)

/-- Each element lies in the region of the array. -/
theorem element_subset {offset : Int} {n i : Nat} (h : i < n) :
    Set.Ico (firstElement T offset n + i * T.width.bytes)
      (firstElement T offset n + i * T.width.bytes + T.width.bytes) ⊆ tailRegion T offset n := by
  have hle : ((i + 1) * T.width.bytes : Int) ≤ n * T.width.bytes := by
    exact_mod_cast Nat.mul_le_mul_right _ h
  have hpos : (0 : Int) ≤ i * T.width.bytes := by positivity
  rw [add_mul, one_mul] at hle
  apply Set.Ico_subset_Ico
  · simp only [firstElement]
    omega
  · simp only [firstElement]
    omega

/-- What is written apart from the array leaves its elements. -/
theorem Elements.within {offset : Int} {vs : List (BitVec T.width.bits)}
    (h : Elements T m (m.rbp + firstElement T offset vs.length) vs) (hm : m.Within A m')
    (hapart : Disjoint A (tailRegion T offset vs.length)) :
    Elements T m' (m.rbp + firstElement T offset vs.length) vs := by
  intro i v hi
  have hlt : i < vs.length := (List.getElem?_eq_some_iff.mp hi).1
  rw [← h i v hi]
  apply hm.read
  refine (hapart.mono_right ?_).symm
  refine subset_trans (le_of_eq ?_) (element_subset hlt)
  congr 1 <;> omega

/-- The code of the literal leaves the address of the first element. -/
theorem run_array (op : Token) {offset : Int} {values : List AstNode}
    {vs : List (BitVec T.width.bits)} (h : List.Forall₂ (Element tables scope T m) values vs)
    (hscope : gen.scope = scope) (hapart : SlotsApart tables scope (tailRegion T offset values.length)) :
    ∃ code, emit tables (.array op values T.ty offset) gen =
        .ok (.pointer (some T.ty), code, gen) ∧
      ∀ E, ∃ m', run E code m = some m' ∧ m.Within (tailRegion T offset values.length) m' ∧
        m'.get ⟨.rax, .w64⟩ = BitVec.ofInt 64 (m.rbp + firstElement T offset values.length) ∧
        Elements T m' (m.rbp + firstElement T offset values.length) vs := by
  obtain ⟨code, hemit, hrun⟩ := run_arrayElems h hscope hapart subset_rfl
  refine ⟨code ++ [.lea ⟨.rax, .w64⟩ (.rbp (firstElement T offset values.length))], ?_, ?_⟩
  · rw [emit, array]
    refine Emit.lift_bind_ok.mpr ⟨_, T.primitiveSize, Emit.bind_ok.mpr ⟨(), code, gen, _, hemit,
      genWrite_bind_ok.mpr ⟨[], Emit.pure_ok.mpr ⟨rfl, rfl, rfl⟩, ?_⟩, rfl⟩⟩
    rw [length_emits, firstElement]
  · intro E
    obtain ⟨m₁, hrun₁, hkeep, helements⟩ := hrun E m ⟨rfl, rfl, fun _ _ => rfl⟩
    let base := BitVec.ofInt 64 (m₁.rbp + firstElement T offset values.length)
    have hbase : base = BitVec.ofInt 64 (m.rbp + firstElement T offset values.length) := by
      simp only [base, hkeep.rbp]
    refine ⟨m₁.set ⟨.rax, .w64⟩ base, ?_, ⟨hkeep.rsp, hkeep.rbp, hkeep.mem⟩, ?_, helements⟩
    · rw [run_append_some hrun₁]
      rfl
    · rw [← hbase]
      exact Machine.get_set_self (w := .w64)

/-- `let xs: *T = [...] T;` stores the elements, and in the variable the address of the first. -/
theorem run_let (opl opa x : Token) {offset slot : Int} {values : List AstNode}
    {vs : List (BitVec T.width.bits)} (h : List.Forall₂ (Element tables scope T m) values vs)
    (hscope : gen.scope = scope) (hapart : SlotsApart tables scope (tailRegion T offset values.length))
    (hx : Disjoint (Set.Ico (-slot) (-slot + 8)) (tailRegion T offset values.length)) :
    ∃ code, emit tables (.vardecl opl x (some (.array opa values T.ty offset))
        (.pointer (some T.ty)) slot) gen = .ok (.void, code, gen) ∧
      ∀ E, ∃ m', run E code m = some m' ∧ m'.rsp = m.rsp ∧ m'.rbp = m.rbp ∧
        readBytes m'.mem (m.rbp - slot) 8 =
          BitVec.ofInt 64 (m.rbp + firstElement T offset values.length) ∧
        Elements T m' (m.rbp + firstElement T offset values.length) vs := by
  obtain ⟨code, hemit, hrun⟩ := run_array opa h hscope hapart
  have hlength := h.length_eq
  refine ⟨code ++ [.store (.rbp (-slot)) ⟨.rax, .w64⟩], ?_, fun E => ?_⟩
  · rw [emit]
    refine statement_ok.mpr ⟨rfl, Emit.bind_ok.mpr ⟨_, code, gen, _, hemit, ?_, rfl⟩⟩
    rw [if_neg (by simp [Ty.kind])]
    exact Emit.lift_bind_ok.mpr ⟨_, rfl, genWrite_ok.mpr ⟨rfl, rfl⟩⟩
  · obtain ⟨m₁, hrun₁, hkeep₁, hrax, helements⟩ := hrun E
    obtain ⟨m₂, hrun₂, hkeep₂, -, hread⟩ := @run_store E m₁ slot .w64 _ hrax
    refine ⟨m₂, by rw [run_append_some hrun₁, hrun₂], hkeep₂.rsp.trans hkeep₁.rsp,
      hkeep₂.rbp.trans hkeep₁.rbp, ?_, ?_⟩
    · rw [hkeep₁.rbp] at hread
      exact hread.trans (BitVec.setWidth_eq _)
    · rw [← hkeep₁.rbp, hlength] at helements ⊢
      rw [hlength] at hx
      exact helements.within hkeep₂ hx

/-! ## Indexing -/

/-- The types of the operands of an index, and the register whose contents are scaled. -/
inductive Sides (T : OperandTy) : Ty → Ty → Register → Prop
  | pointerLeft : Sides T (.pointer (some T.ty)) .long .rdi
  | pointerRight : Sides T .long (.pointer (some T.ty)) .rax

/-- The code behind the operands of an index: it scales the index, adds it to the pointer and reads
what is there. -/
def readElement (T : OperandTy) (r : Register) : List Instr :=
  [.imulImm ⟨r, .w64⟩ T.width.bytes, .alu .add ⟨.rax, .w64⟩ ⟨.rdi, .w64⟩,
    .load ⟨.rax, .w64⟩ (.reg .rax)]

variable {tl tr : Ty} {r : Register} {cl cr : List Instr} {gen₁ : Gen} {lhs rhs : AstNode}

theorem emit_element {op op' : Token} (h : Sides T tl tr r)
    (hr : emit tables rhs gen = .ok (tr, cr, gen₁))
    (hl : emit tables lhs gen₁ = .ok (tl, cl, gen')) :
    emit tables (.unaryop (.binop lhs rhs op .add) op' .deref) gen =
      .ok (T.ty, cr ++ .push .rax :: (cl ++ .pop .rdi :: readElement T r), gen') := by
  have hbinop : emit tables (.binop lhs rhs op .add) gen = .ok (.pointer (some T.ty),
      cr ++ .push .rax :: (cl ++ .pop .rdi :: ([.imulImm ⟨r, .w64⟩ T.width.bytes] ++
        [.alu .add ⟨.rax, .w64⟩ ⟨.rdi, .w64⟩])), gen') := by
    rw [emit]
    cases h with
    | pointerLeft =>
      exact binop_ok.mpr ⟨_, cr, gen₁, _, _, cl, gen', _, _, hr, rfl, hl, rfl, by cases T <;> rfl,
        rfl, rfl⟩
    | pointerRight =>
      exact binop_ok.mpr ⟨_, cr, gen₁, _, _, cl, gen', _, _, hr, rfl, hl, rfl, by cases T <;> rfl,
        rfl, rfl⟩
  rw [emit]
  refine Emit.bind_ok.mpr ⟨_, _, gen', _, hbinop, Emit.lift_bind_ok.mpr ⟨_, rfl,
    genWrite_pure_ok.mpr ⟨rfl, rfl, rfl⟩⟩, ?_⟩
  simp [readElement]

theorem Machine.get_quad (m : Machine) (r : Register) : m.get ⟨r, .w64⟩ = m.reg r :=
  BitVec.setWidth_eq _

theorem Machine.set_quad {v : BitVec 64} : (m.set ⟨r, .w64⟩ v).reg r = v :=
  setReg_self.trans (BitVec.setWidth_eq _)

theorem run_scale (r : Register) (s : Int) :
    ∃ m', run E [.imulImm ⟨r, .w64⟩ s] m = some m' ∧ m'.mem = m.mem ∧
      m'.reg r = m.reg r * BitVec.ofInt 64 s ∧ ∀ r', r' ≠ r → m'.reg r' = m.reg r' := by
  refine ⟨_, rfl, rfl, ?_, fun r' hr => Machine.set_of_ne hr⟩
  exact Machine.set_quad.trans (congrArg (· * BitVec.ofInt 64 s) (m.get_quad r))

theorem run_add :
    ∃ m', run E [.alu .add ⟨.rax, .w64⟩ ⟨.rdi, .w64⟩] m = some m' ∧ m'.mem = m.mem ∧
      m'.reg .rax = m.reg .rax + m.reg .rdi := by
  let sum : BitVec 64 := m.reg .rax + m.reg .rdi
  have hsum : m.get ⟨.rax, .w64⟩ + m.get ⟨.rdi, .w64⟩ = sum :=
    congrArg₂ (· + ·) (m.get_quad .rax) (m.get_quad .rdi)
  refine ⟨(m.set ⟨.rax, .w64⟩ sum).unflagged, ?_, rfl, @Machine.set_quad m .rax sum⟩
  rw [← hsum]
  rfl

/-- Eight bytes are read, and the element is their low part. -/
theorem run_read {a : Int} {v : BitVec T.width.bits} (hrax : m.reg .rax = BitVec.ofInt 64 a)
    (hlo : 0 ≤ a) (hhi : a < 2 ^ 64)
    (hread : readBytes m.mem a T.width.bytes = v.setWidth 64) :
    ∃ m', run E [.load ⟨.rax, .w64⟩ (.reg .rax)] m = some m' ∧ m'.get ⟨.rax, T.width⟩ = v := by
  have haddr : ((m.reg .rax).toNat : Int) = a := by
    rw [hrax, BitVec.toNat_ofInt]
    omega
  refine ⟨m.set ⟨.rax, .w64⟩ (readBytes m.mem a 8), ?_, ?_⟩
  · rw [run_cons, exec, Addr.eval, haddr]
    rfl
  · have hlow : v.setWidth 64 =
        ((readBytes m.mem a 8).setWidth (8 * T.width.bytes)).setWidth 64 :=
      hread.symm.trans (readBytes_low T.width.bytes_le)
    have hv := congrArg (BitVec.setWidth T.width.bits) hlow
    rw [BitVec.setWidth_setWidth_of_le _ T.width.bits_le, BitVec.setWidth_eq, ← T.width.bits_eq,
      BitVec.setWidth_setWidth_of_le _ T.width.bits_le, BitVec.setWidth_eq] at hv
    rw [hv, Machine.get, Machine.set_quad]

/-- An address in the address space is the sum of a base and a scaled index. -/
theorem ofInt_element {base s : Int} {b : BitVec 64} :
    BitVec.ofInt 64 base + b * BitVec.ofInt 64 s = BitVec.ofInt 64 (base + b.toNat * s) := by
  have hb : b = BitVec.ofInt 64 b.toNat := by simp
  rw [BitVec.ofInt_add, BitVec.ofInt_mul, ← hb]

/-- Behind its operands, the code of an index reads the element. -/
theorem run_readElement {base : Int} {b : BitVec 64} {vs : List (BitVec T.width.bits)}
    {v : BitVec T.width.bits} (h : Sides T tl tr r) (helements : Elements T m base vs)
    (hv : vs[b.toNat]? = some v) (hlo : 0 ≤ base) (hhi : base + vs.length * T.width.bytes ≤ 2 ^ 64)
    (hregs : if r = .rdi then m.reg .rax = BitVec.ofInt 64 base ∧ m.reg .rdi = b
      else m.reg .rax = b ∧ m.reg .rdi = BitVec.ofInt 64 base) :
    ∃ m', run E (readElement T r) m = some m' ∧ m'.get ⟨.rax, T.width⟩ = v := by
  obtain ⟨m₁, hrun₁, hmem₁, hscaled, hothers⟩ := @run_scale E m r T.width.bytes
  obtain ⟨m₂, hrun₂, hmem₂, hsum⟩ := @run_add E m₁
  have haddr : m₂.reg .rax = BitVec.ofInt 64 (base + b.toNat * T.width.bytes) := by
    rw [hsum]
    cases h with
    | pointerLeft =>
      obtain ⟨hrax, hrdi⟩ := hregs
      rw [hothers .rax (by simp), hscaled, hrax, hrdi, ofInt_element]
    | pointerRight =>
      obtain ⟨hrax, hrdi⟩ := hregs
      rw [hothers .rdi (by simp), hscaled, hrax, hrdi, add_comm, ofInt_element]
  have hlt : b.toNat < vs.length := (List.getElem?_eq_some_iff.mp hv).1
  have hle : ((b.toNat + 1) * T.width.bytes : Int) ≤ vs.length * T.width.bytes := by
    exact_mod_cast Nat.mul_le_mul_right _ hlt
  have hpos : (0 : Int) ≤ b.toNat * T.width.bytes := by positivity
  have hbytes : (0 : Int) < T.width.bytes := Int.natCast_pos.mpr T.width.bytes_pos
  rw [add_mul, one_mul] at hle
  have hread : readBytes m₂.mem (base + b.toNat * T.width.bytes) T.width.bytes = v.setWidth 64 := by
    rw [hmem₂, hmem₁]
    exact helements _ v hv
  obtain ⟨m₃, hrun₃, hget⟩ := run_read (E := E) haddr (by omega) (by omega) hread
  refine ⟨m₃, ?_, hget⟩
  rw [readElement, ← List.singleton_append, run_append_some hrun₁, ← List.singleton_append,
    run_append_some hrun₂, hrun₃]

/-- A pointer is loaded from its slot. -/
theorem steady_load {slot base : Int} (hread : readBytes m.mem (m.rbp - slot) 8 = BitVec.ofInt 64 base)
    (hrsp : m.rsp ≤ m.rbp - slot) :
    Steady E .w64 [.load ⟨.rax, .w64⟩ (.rbp (-slot))] m (BitVec.ofInt 64 base) := by
  intro m₁ hrbp _ hmem
  refine ⟨_, rfl, ?_, ⟨rfl, rfl, fun _ _ => rfl⟩⟩
  refine Machine.get_set_self.trans ?_
  rw [← hread, Addr.eval, hrbp, ← Int.sub_eq_add_neg]
  exact readBytes_congr fun a ha _ => hmem a (hrsp.trans ha)

/-- An index reads the element, with the pointer on either side. -/
theorem run_index {base : Int} {b pl pr : BitVec 64} {vs : List (BitVec T.width.bits)}
    {v : BitVec T.width.bits} (h : Sides T tl tr r) (hl : Steady E .w64 cl m pl)
    (hr : Steady E .w64 cr m pr) (hsides : if r = .rdi then pl = BitVec.ofInt 64 base ∧ pr = b
      else pl = b ∧ pr = BitVec.ofInt 64 base)
    (helements : Elements T m base vs) (hv : vs[b.toNat]? = some v) (hrsp : m.rsp ≤ base)
    (hlo : 0 ≤ base) (hhi : base + vs.length * T.width.bytes ≤ 2 ^ 64) :
    ∃ m', run E (cr ++ .push .rax :: (cl ++ .pop .rdi :: readElement T r)) m = some m' ∧
      m'.get ⟨.rax, T.width⟩ = v := by
  obtain ⟨m₁, hrax, hrdi, hframe, hrun⟩ := hl.run_operands hr
  have hrax : m₁.reg .rax = pl := (m₁.get_quad .rax).symm.trans hrax
  have hrdi : m₁.reg .rdi = pr := (m₁.get_quad .rdi).symm.trans hrdi
  have helements₁ : Elements T m₁ base vs := by
    intro i v hi
    rw [← helements i v hi]
    have hpos : (0 : Int) ≤ i * T.width.bytes := by positivity
    exact readBytes_congr fun a ha _ => hframe.mem a (by omega)
  rw [← hrax, ← hrdi] at hsides
  obtain ⟨m', hrun', hget⟩ := run_readElement (E := E) h helements₁ hv hlo hhi hsides
  exact ⟨m', (hrun _).trans hrun', hget⟩

theorem Arith.shape {e : AstNode} {T : WordTy} (h : Arith tables scope T e) : Shape .expr e := by
  induction h with
  | number | ident => exact .literal
  | grouping _ ih => exact .grouping ih
  | minus _ ih => exact .unaryop ih
  | binop _ _ _ ih ih' => exact .binop ih ih'

theorem Arith.expanded {e : AstNode} {T : WordTy} (h : Arith tables scope T e) : e.expanded = e := by
  induction h with
  | number | ident => rfl
  | grouping _ ih | minus _ ih => rw [AstNode.expanded, ih]
  | binop _ _ _ ih ih' => rw [AstNode.expanded, ih, ih']

/-- What an index into a variable is expanded to, with the code of its operands. -/
theorem emit_index {op x : Token} {e node : AstNode} {sym : Symbol} {ce : List Instr}
    (hsym : symboltableLookup tables gen.scope x.value = .ok (some sym))
    (hkind : sym.kind = .variable) (htype : sym.type = .pointer (some T.ty))
    (hshape : Shape .expr e) (he : e.expanded = e) (hemit : emit tables e gen = .ok (.long, ce, gen))
    (hnode : expandAst (.index op (.literal x .ident) e) = .ok node ∨
      expandAst (.index op e (.literal x .ident)) = .ok node) :
    let cx : List Instr := [.load ⟨.rax, .w64⟩ (.rbp (-sym.offset))]
    emit tables node gen =
        .ok (T.ty, ce ++ .push .rax :: (cx ++ .pop .rdi :: readElement T .rdi), gen) ∨
      emit tables node gen =
        .ok (T.ty, cx ++ .push .rax :: (ce ++ .pop .rdi :: readElement T .rax), gen) := by
  intro cx
  have hx : emit tables (.literal x .ident) gen = .ok (.pointer (some T.ty), cx, gen) := by
    rw [emit, literal]
    exact literalIdent_ok.mpr ⟨rfl, _, hsym, .inr (.inl ⟨.inl hkind, rfl, htype.symm, _, rfl, rfl⟩)⟩
  rcases hnode with hnode | hnode
  · cases (expandAst_eq (.index .literal hshape)).symm.trans hnode
    rw [AstNode.expanded, he]
    exact .inl (emit_element .pointerLeft hemit hx)
  · cases (expandAst_eq (.index hshape .literal)).symm.trans hnode
    rw [AstNode.expanded, he]
    exact .inr (emit_element .pointerRight hx hemit)

/-! ## Programs -/

theorem not_expr_vardecl {op ident : Token} {init : Option AstNode} {type : Ty} {offset : Int} :
    ¬ Shape .expr (.vardecl op ident init type offset) := by
  intro h
  cases h

/-- A region of the frame lies between its bounds. -/
theorem bounds_of_subset {lo hi size : Int} (h : Set.Ico lo hi ⊆ Set.Ico (-size) 0) (hlt : lo < hi) :
    -size ≤ lo ∧ hi ≤ 0 := by
  have hfirst := h (Set.left_mem_Ico.mpr hlt)
  have hlast := h (Set.mem_Ico.mpr ⟨(by omega : lo ≤ hi - 1), by omega⟩)
  rw [Set.mem_Ico] at hfirst hlast
  omega

/-- The array that a variable is initialised with lies in the frame, apart from all variables. -/
theorem NodeOf.array_apart {root root'' body : AstNode} {st : Symboltable} {sig : ProcSignature}
    {stackSize offset slot : Int} {opl opa x : Token} {values : List AstNode} {type : Ty}
    (h : NodeOf root'' body sig stackSize scope
      (.vardecl opl x (some (.array opa values T.ty offset)) type slot))
    (hshape : Shape .program root) (hbuild : symboltableBuild root = .ok (root'', st))
    (hlaid : FramesLaidOut root'') :
    SlotsApart st.tables scope (tailRegion T offset values.length) ∧
      tailRegion T offset values.length ⊆ Set.Ico (-stackSize) 0 := by
  have hshape' : Shape .program root'' := Built.shape ⟨_, _, _, symboltableBuild_ok.mp hbuild⟩ hshape
  have harray : AstNode.array opa values T.ty offset ∈ body.visited :=
    AstNode.visited_trans (h.visited not_expr_vardecl hshape')
      (AstNode.visited_of_child List.mem_cons_self (AstNode.mem_visited.mpr (.inl rfl)))
  have hregion : tailRegion T offset values.length ∈
      (AstNode.array opa values T.ty offset).elements := by
    rw [AstNode.elements, Ty.size_eq T.primitiveSize]
    exact List.mem_singleton.mpr rfl
  refine ⟨fun key sym hlookup hkind => ?_, ?_⟩
  · exact (h.slot not_expr_vardecl hshape hbuild hlaid hlookup hkind).2 _
      (List.mem_flatMap.mpr ⟨_, harray, hregion⟩)
  · exact (h.laidOut hlaid).inside _ (List.mem_append_left _
      (List.mem_flatMap.mpr ⟨_, harray, hregion⟩))

/-- Behind the declaration of an array in a procedure, an index into it reads the element of the
literal with its number, with the pointer in front of the index or behind it. The frame of the
procedure lies in the address space. -/
theorem array_indexed {fuel : Nat} {garbage : List Nat} {toks : List Token}
    {root root' root'' body : AstNode} {p : Parser} {st : Symboltable} {sig : ProcSignature}
    {stackSize offset slot : Int} {opl opa x : Token} {values : List AstNode}
    {vs : List (BitVec T.width.bits)}
    (hparse : parse fuel garbage toks = .ok root p) (hexpand : expandAst root = .ok root')
    (hbuild : symboltableBuild root' = .ok (root'', st))
    (hlet : NodeOf root'' body sig stackSize scope (.vardecl opl x
      (some (.array opa values T.ty offset)) (.pointer (some T.ty)) slot))
    (hx : symboltableLookup st.tables scope x.value = .ok (some
      { kind := .variable, type := .pointer (some T.ty), offset := slot }))
    (hvalues : List.Forall₂ (Element st.tables scope T m) values vs)
    (hframe : m.rsp ≤ m.rbp - stackSize) (hlo : stackSize ≤ m.rbp) (hhi : m.rbp ≤ 2 ^ 64)
    (hscope : gen.scope = scope) (E : Env) :
    ∃ code, emit st.tables (.vardecl opl x (some (.array opa values T.ty offset))
        (.pointer (some T.ty)) slot) gen = .ok (.void, code, gen) ∧
      ∃ m', run E code m = some m' ∧
        ∀ (op x' : Token) (e node : AstNode) (env : String → BitVec 64) (v : BitVec T.width.bits),
          x'.value = x.value → Arith st.tables scope .long e →
          (∀ y ∈ e.names, Holds st.tables scope .long env m' y) →
          vs[(e.value env).toNat]? = some v →
          (expandAst (.index op (.literal x' .ident) e) = .ok node ∨
            expandAst (.index op e (.literal x' .ident)) = .ok node) →
          ∃ code', emit st.tables node gen = .ok (T.ty, code', gen) ∧
            ∃ m'', run E code' m' = some m'' ∧ m''.get ⟨.rax, T.width⟩ = v := by
  have hlaid := frames_laidOut hparse hexpand hbuild
  have hshape := parse_shape hparse
  cases (expandAst_eq hshape).symm.trans hexpand
  obtain ⟨hapart, hinside⟩ := hlet.array_apart hshape.expanded hbuild hlaid
  obtain ⟨hslot, -⟩ :=
    hlet.slot not_expr_vardecl hshape.expanded hbuild hlaid hx (.inl rfl)
  have hpointer : ({ kind := .variable, type := .pointer (some T.ty), offset := slot } :
      Symbol).slot = Set.Ico (-slot) (-slot + 8) := rfl
  have hxapart := hapart _ _ hx (.inl rfl)
  rw [hpointer] at hslot hxapart
  obtain ⟨code, hemit, hrun⟩ := run_let opl opa x hvalues hscope hapart hxapart
  obtain ⟨m', hrun', hrsp, hrbp, hread, helements⟩ := hrun E
  refine ⟨code, hemit, m', hrun', fun op x' e node env v hname he hm hv hnode => ?_⟩
  -- where the frame lies
  have hlength : vs.length = values.length := hvalues.length_eq.symm
  have hlt : (e.value env).toNat < vs.length := (List.getElem?_eq_some_iff.mp hv).1
  have hbytes : (0 : Int) < T.width.bytes := Int.natCast_pos.mpr T.width.bytes_pos
  have hsize : (0 : Int) < values.length * T.width.bytes := by
    have hvalues : (0 : Int) < values.length := by omega
    positivity
  obtain ⟨hfirst, hlast⟩ := bounds_of_subset hinside (by simp only [firstElement] at *; omega)
  obtain ⟨hxlo, -⟩ := bounds_of_subset hslot (by omega)
  have hbase : m'.rsp ≤ m.rbp + firstElement T offset values.length := by
    rw [hrsp, firstElement]
    omega
  have hend : m.rbp + firstElement T offset values.length + vs.length * T.width.bytes ≤ 2 ^ 64 := by
    rw [hlength, firstElement]
    omega
  have hstart : 0 ≤ m.rbp + firstElement T offset values.length := by
    rw [firstElement]
    omega
  -- the operands
  obtain ⟨ce, hce, hcode⟩ := arith_computes he hscope
  have hsteadye := (hcode E env).steady hm
  have hsteadyx : Steady E .w64 [.load ⟨.rax, .w64⟩ (.rbp (-slot))] m'
      (BitVec.ofInt 64 (m.rbp + firstElement T offset values.length)) := by
    apply steady_load
    · rw [hrbp, hread]
    · rw [hrsp, hrbp]
      omega
  rw [← hscope, ← hname] at hx
  rcases emit_index hx rfl rfl he.shape he.expanded hce hnode with hindex | hindex
  · exact ⟨_, hindex, run_index .pointerLeft hsteadyx hsteadye ⟨rfl, rfl⟩ helements hv hbase hstart
      hend⟩
  · exact ⟨_, hindex, run_index .pointerRight hsteadye hsteadyx ⟨rfl, rfl⟩ helements hv hbase hstart
      hend⟩

/-- `proc f() void { let xs: *int = [4, 5]int; }` -/
def arrayOfTwo : List Token :=
  [{ kind := .kwProc }, .ident "f", { kind := .lparen }, { kind := .rparen },
    { kind := .kwTypeVoid }, { kind := .lbrace }, { kind := .kwVardecl }, .ident "xs",
    { kind := .colon }, { kind := .asterisk }, { kind := .kwTypeInt }, { kind := .assign },
    { kind := .lbracket }, .num 4, { kind := .comma }, .num 5, { kind := .rbracket },
    { kind := .kwTypeInt }, { kind := .semicolon }, { kind := .rbrace }, .eof]

/-- Whether the only statement of a program declares an array of 4 and 5, in a small frame. -/
def declaresTwo (root : AstNode) (tables : List Hashtable) : Bool :=
  match root with
  | .block [.proc _ _ (some (.block [.vardecl _ x (some (.array _ [.literal a .number,
      .literal b .number] .int _)) (.pointer (some .int)) slot] t)) (.procedure _) _ size] _ =>
    match symboltableLookup tables t x.value with
    | .ok (some { kind := .variable, type := .pointer (some .int), offset }) =>
      offset == slot && a.number == 4 && b.number == 5 && decide (size ≤ 1024) &&
        a.numberType == .any && b.numberType == .any
    | _ => false
  | _ => false

/-- `xs[1]` is 5. -/
theorem array_indexed_arrayOfTwo :
    ∃ (tables : List Hashtable) (gen : Gen) (decl node : AstNode) (x : Token) (m m' m'' : Machine)
      (code code' : List Instr), emit tables decl gen = .ok (.void, code, gen) ∧
      run .returning code m = some m' ∧
      expandAst (.index .eof (.literal x .ident) (.literal { Token.num 1 with numberType := .long }
        .number)) = .ok node ∧
      emit tables node gen = .ok (.int, code', gen) ∧ run .returning code' m' = some m'' ∧
      m''.get ⟨.rax, .w32⟩ = 5 := by
  obtain ⟨root, p, root', root'', st, hparse, hexpand, hbuild, htest⟩ :=
    @of_annotatesTo (fun _ root tables => declaresTwo root tables) 100 arrayOfTwo (by decide +kernel)
  unfold declaresTwo at htest
  split at htest
  · rename_i opp ident opl x opa a b offset slot t sig table size t'
    split at htest
    · rename_i off hlookup
      simp only [Bool.and_eq_true, beq_iff_eq, decide_eq_true_eq] at htest
      obtain ⟨⟨⟨⟨⟨rfl, ha⟩, hb⟩, hsize⟩, hta⟩, htb⟩ := htest
      let m : Machine := { slotMachine with rsp := 0, rbp := 1024 }
      have hlet : NodeOf (.block [.proc opp ident (some (.block [.vardecl opl x
          (some (.array opa [.literal a .number, .literal b .number] .int offset))
          (.pointer (some .int)) off] t)) (.procedure sig) table size] t') (.block [.vardecl opl x
          (some (.array opa [.literal a .number, .literal b .number] .int offset))
          (.pointer (some .int)) off] t) sig size t (.vardecl opl x
          (some (.array opa [.literal a .number, .literal b .number] OperandTy.int.ty offset))
          (.pointer (some OperandTy.int.ty)) off) :=
        ⟨opp, ident, _, t, table, _, rfl, List.mem_singleton.mpr rfl, List.mem_singleton.mpr rfl,
          .self⟩
      have hfour : Element st.tables t .int m (.literal a .number) (a.number.setWidth _) :=
        .number (by rw [hta]; rfl) (by rw [ha]; decide)
      have hfive : Element st.tables t .int m (.literal b .number) (b.number.setWidth _) :=
        .number (by rw [htb]; rfl) (by rw [hb]; decide)
      obtain ⟨code, hemit, m', hrun, hindex⟩ := array_indexed (m := m)
        hparse hexpand hbuild hlet hlookup (.cons hfour (.cons hfive .nil)) (by simp [m]; omega)
        (by simp [m]; omega) (by simp [m]) (show ({ scope := t } : Gen).scope = t from rfl) .returning
      let one : AstNode := .literal { Token.num 1 with numberType := .long } .number
      have hone : Arith st.tables t .long one := .number rfl (by decide)
      have hnode := expandAst_eq (.index .literal hone.shape :
        Shape .expr (.index .eof (.literal x .ident) one))
      obtain ⟨code', hemit', m'', hrun', hget⟩ := hindex .eof x one _ (fun _ => 0)
        (b.number.setWidth _) rfl hone (by simp [one, AstNode.names]) rfl (.inl hnode)
      refine ⟨st.tables, _, _, _, x, m, m', m'', code, code', hemit, hrun, hnode, hemit', hrun', ?_⟩
      exact hget.trans (by rw [hb]; rfl)
    · cases htest
  · cases htest

end Seron
