import Seron.Verify.Evaluation
import Seron.Verify.Slots

/-! # Statements in a program

The code of a statement, wherever it stands in a procedure, comes to the line behind it with the
variables the statement leaves, or to the end of the procedure with the value that it returns. -/

namespace Seron

open Memory Runs Layout

/-! ## States -/

/-- The state differs in the general registers, below the stack pointer and in the slots. -/
structure Machine.Spared (symbols : List (String × Symbol)) (m m' : Machine) : Prop where
  rsp : m'.rsp = m.rsp
  rbp : m'.rbp = m.rbp
  mem : ∀ a, m.rsp ≤ a → (∀ decl ∈ symbols, a - m.rbp ∉ decl.2.slot) → m'.mem a = m.mem a

/-- The slots of the local symbols, and of the variables that are declared further inside, are laid
out in a frame of the size. -/
def Framed (size : Int) (locals : List (String × Symbol)) (node : AstNode) : Prop :=
  LaidOut (-size) 0 ((locals ++ node.children.flatMap AstNode.vars).map fun decl => decl.2.slot)

/-- No block declares a name twice. -/
def AstNode.Distinct (node : AstNode) : Prop :=
  ∀ x ∈ node.subtrees, x.kind = .block → ((x.children.flatMap declared).map Prod.fst).Nodup

instance (node : AstNode) : Decidable node.Distinct :=
  inferInstanceAs (Decidable
    (∀ x ∈ node.subtrees, x.kind = .block →
      ((x.children.flatMap AstNode.declared).map Prod.fst).Nodup))

theorem AstNode.Distinct.part {node c : AstNode} (h : node.Distinct) (hc : c ∈ node.parts) :
    c.Distinct :=
  fun x hx => h x (mem_subtrees.mpr (.inr ⟨c, hc, hx⟩))

theorem AstNode.Distinct.block {stmts : List AstNode} {t : Option Nat}
    (h : (AstNode.block stmts t).Distinct) : ((stmts.flatMap declared).map Prod.fst).Nodup :=
  h _ mem_subtrees_self rfl

variable {I : Image} {tables : List Hashtable} {scope : Option Nat} {P : Meaning} {vars : Vars}
  {locals globals symbols symbols' : List (String × Symbol)} {need size : Int}
  {m m' m'' : Machine} {node : AstNode}

namespace Machine.Spared

theorem of_same (h : m.SameFrame m') : m.Spared symbols m' :=
  ⟨h.rsp, h.rbp, fun a ha _ => h.mem a ha⟩

theorem trans (h : m.Spared symbols m') (h' : m'.Spared symbols m'') : m.Spared symbols m'' where
  rsp := h'.rsp.trans h.rsp
  rbp := h'.rbp.trans h.rbp
  mem a ha hout := by
    have hmem := h'.mem a (h.rsp ▸ ha) fun decl hdecl => h.rbp ▸ hout decl hdecl
    exact hmem.trans (h.mem a ha hout)

theorem mono (h : m.Spared symbols m') (hsub : ∀ decl ∈ symbols, decl ∈ symbols') :
    m.Spared symbols' m' :=
  ⟨h.rsp, h.rbp, fun a ha hout => h.mem a ha fun decl hdecl => hout decl (hsub decl hdecl)⟩

theorem room (h : m.Spared symbols m') (hroom : m.Room need) : m'.Room need :=
  ⟨h.rsp ▸ hroom.low, h.rsp ▸ hroom.high, h.rbp ▸ hroom.rbp_nonneg, h.rbp ▸ hroom.rbp_lt⟩

end Machine.Spared

theorem WordTy.eq_of_kind {ty : Ty} {T : WordTy} (h : ty.kind = T.ty.kind) : ty = T.ty := by
  cases T <;> cases ty <;> first | rfl | cases h

theorem WordTy.slot_eq {sym : Symbol} {T : WordTy} (h : sym.type = T.ty) :
    sym.slot = Set.Ico (-sym.offset) (-sym.offset + T.width.bytes) := by
  have hsize : typePrimitiveSize sym.type.kind = .ok T.width.bytes := by
    rw [h]
    cases T <;> rfl
  rw [Symbol.slot, Ty.size_eq hsize]

/-- A variable keeps its value while other slots are written. -/
theorem Valued.spared {x : String} {w : Number} (h : Valued locals x w m)
    (hspared : m.Spared symbols m')
    (hapart : ∀ sym, locals.lookup x = some sym → ∀ b ∈ symbols, Disjoint sym.slot b.2.slot) :
    Valued locals x w m' := by
  obtain ⟨sym, hsym, hkind, htype, hle, hread⟩ := h
  refine ⟨sym, hsym, hkind, htype, by rw [hspared.rsp, hspared.rbp]; exact hle, ?_⟩
  rw [hspared.rbp, ← hread]
  refine readBytes_congr fun a ha ha' => hspared.mem a (hle.trans ha) fun decl hdecl hmem => ?_
  have hown : a - m.rbp ∈ sym.slot := by
    rw [WordTy.slot_eq htype, Set.mem_Ico]
    omega
  exact Set.disjoint_left.mp (hapart sym hsym decl hdecl) hown hmem

theorem Reflects.spared (h : Reflects locals vars m) (hspared : m.Spared symbols m')
    (hapart : ∀ a ∈ locals, ∀ b ∈ symbols, Disjoint a.2.slot b.2.slot) : Reflects locals vars m' :=
  ⟨h.unknown, fun x w hx => (h.value x w hx).spared hspared fun _ hsym =>
    hapart _ (Shadowing.mem_of_lookup_eq hsym)⟩

/-- What a declaration stores is the value of its variable. -/
theorem Reflects.declare {x : String} {w : Number} {sym : Symbol} (h : Reflects locals vars m)
    (hsym : locals.lookup x = some sym) (hkind : sym.kind = .variable) (htype : sym.type = w.type.ty)
    (hdisjoint : locals.Pairwise fun a b => Disjoint a.2.slot b.2.slot)
    (hle : m.rsp ≤ m.rbp - sym.offset) (hval : m.get ⟨.rax, w.type.width⟩ = w.bits)
    (hrsp : m'.rsp = m.rsp) (hrbp : m'.rbp = m.rbp) (hmem : m'.mem =
      writeBytes m.mem (m.rbp - sym.offset) w.type.width.bytes (m.reg .rax)) :
    Reflects locals ((x, some w) :: vars) m' ∧ m.Spared [(x, sym)] m' := by
  have hspared : m.Spared [(x, sym)] m' := by
    refine ⟨hrsp, hrbp, fun a _ hout => ?_⟩
    have hout := hout _ (List.mem_singleton.mpr rfl)
    rw [WordTy.slot_eq htype, Set.mem_Ico] at hout
    rw [hmem]
    exact writeBytes_outside (by omega)
  have : Std.Symm fun a b : String × Symbol => Disjoint a.2.slot b.2.slot := ⟨fun _ _ h => h.symm⟩
  refine ⟨⟨fun y hy => h.unknown y ?_, fun y v hy => ?_⟩, hspared⟩
  · rw [List.lookup_cons] at hy
    split at hy
    · cases hy
    · exact hy
  · by_cases heq : y = x
    · subst heq
      rw [List.lookup_cons_self] at hy
      cases hy
      refine ⟨sym, hsym, .inl hkind, htype, by rw [hrsp, hrbp]; exact hle, ?_⟩
      rw [hmem, hrbp, readBytes_writeBytes, ← hval, Machine.get, Width.bits_eq]
    · rw [List.lookup_cons, beq_eq_false_iff_ne.mpr heq] at hy
      refine (h.value y v hy).spared hspared fun sym' hsym' b hb => ?_
      rw [List.mem_singleton.mp hb]
      exact hdisjoint.forall (Shadowing.mem_of_lookup_eq hsym') (Shadowing.mem_of_lookup_eq hsym)
        (by simp [heq])

/-! ## Conditions -/

section
variable {w : Number} {l : Label} {p q : Nat}

/-- The zero flag tells whether the number is zero. -/
theorem step_test (hline : I.text[p]? = some (.cmpImm ⟨.rax, w.type.width⟩ 0))
    (hval : m.get ⟨.rax, w.type.width⟩ = w.bits) :
    ∃ f : Flags, f.zero = !w.truth ∧ I.step (p, m) = some (p + 1, { m with flags := some f }) := by
  refine ⟨.ofCmp (m.get ⟨.rax, w.type.width⟩) (BitVec.ofInt _ 0), ?_, Image.step_of_exec hline rfl⟩
  rw [ofCmp_zero, hval, Number.truth, BitVec.ofInt_ofNat]
  simp [bne, beq_eq_decide]

/-- The jump behind a condition is taken if the number is zero. -/
theorem reaches_je (hat : At I.text p [.cmpImm ⟨.rax, w.type.width⟩ 0, .je l])
    (hval : m.get ⟨.rax, w.type.width⟩ = w.bits) (htarget : I.target (p + 1) l = some q) :
    ∃ m', I.Reaches (p, m) (if w.truth then p + 2 else q, m') ∧ m.SameFrame m' := by
  obtain ⟨hline, hjump⟩ := at_cons.mp hat
  obtain ⟨f, hzero, hstep⟩ := step_test hline hval
  refine ⟨{ m with flags := some f }, .step hstep (.step ?_ Runs.Reaches.refl),
    ⟨rfl, rfl, fun _ _ => rfl⟩⟩
  rw [Image.step_je (at_singleton.mp hjump) htarget rfl, hzero]
  cases w.truth <;> rfl

theorem reaches_jne (hat : At I.text p [.cmpImm ⟨.rax, w.type.width⟩ 0, .jne l])
    (hval : m.get ⟨.rax, w.type.width⟩ = w.bits) (htarget : I.target (p + 1) l = some q) :
    ∃ m', I.Reaches (p, m) (if w.truth then q else p + 2, m') ∧ m.SameFrame m' := by
  obtain ⟨hline, hjump⟩ := at_cons.mp hat
  obtain ⟨f, hzero, hstep⟩ := step_test hline hval
  refine ⟨{ m with flags := some f }, .step hstep (.step ?_ Runs.Reaches.refl),
    ⟨rfl, rfl, fun _ _ => rfl⟩⟩
  rw [Image.step_jne (at_singleton.mp hjump) htarget rfl, hzero]
  cases w.truth <;> rfl

end

/-! ## Statements -/

/-- The code of a statement was run to its end, or to the end of the procedure. -/
def Executed (I : Image) (symbols locals : List (String × Symbol)) (ret p next : Nat) (m : Machine)
    (ending : Ending) : Prop :=
  ∃ q m', I.Reaches (p, m) (q, m') ∧ m.Spared symbols m' ∧
    match ending with
    | .normal vars => q = next ∧ Reflects locals vars m'
    | .returned w => q = ret ∧ m'.get ⟨.rax, w.type.width⟩ = w.bits

namespace Executed

variable {ret p p₁ mid next : Nat} {ending : Ending}

/-- Something is run in front. -/
theorem after (hreach : I.Reaches (p, m) (p₁, m')) (hspared : m.Spared symbols m')
    (h : Executed I symbols locals ret p₁ next m' ending) :
    Executed I symbols locals ret p next m ending := by
  obtain ⟨q, m₂, hreach', hspared', hend⟩ := h
  exact ⟨q, m₂, hreach.trans hreach', hspared.trans hspared', hend⟩

theorem mono (h : Executed I symbols locals ret p next m ending)
    (hsub : ∀ decl ∈ symbols, decl ∈ symbols') : Executed I symbols' locals ret p next m ending := by
  obtain ⟨q, m', hreach, hspared, hend⟩ := h
  exact ⟨q, m', hreach, hspared.mono hsub, hend⟩

/-- Behind a statement that ends normally it goes on elsewhere. -/
theorem onward (h : Executed I symbols locals ret p mid m ending)
    (hgo : ∀ m', I.Reaches (mid, m') (next, m')) :
    Executed I symbols locals ret p next m ending := by
  obtain ⟨q, m', hreach, hspared, hend⟩ := h
  cases ending with
  | normal vars =>
    obtain ⟨rfl, hvars⟩ := hend
    exact ⟨next, m', hreach.trans (hgo m'), hspared, rfl, hvars⟩
  | returned w => exact ⟨q, m', hreach, hspared, hend⟩

/-- Behind a block, the variables outside are as before. -/
theorem leave {inner : List (String × Symbol)} (hvars : Reflects locals vars m)
    (h : Executed I symbols inner ret p next m ending)
    (hapart : ∀ a ∈ locals, ∀ b ∈ symbols, Disjoint a.2.slot b.2.slot) :
    Executed I symbols locals ret p next m (ending.leave vars) := by
  obtain ⟨q, m', hreach, hspared, hend⟩ := h
  refine ⟨q, m', hreach, hspared, ?_⟩
  cases ending with
  | normal => exact ⟨hend.1, hvars.spared hspared hapart⟩
  | returned => exact hend

end Executed

/-! ## Where a statement stands -/

/-- A statement where the tables and the frame are those that were built for it. -/
structure Site (tables : List Hashtable) (globals : List (String × Symbol)) (size : Int)
    (scope : Option Nat) (locals : List (String × Symbol)) (node : AstNode) : Prop where
  sight : InSight tables scope locals globals
  declared : ∀ decl ∈ node.declared, locals.lookup decl.1 = some decl.2
  framed : Framed size locals node
  built : ∃ lo, Scoped tables lo scope node

namespace Site

variable {stmts : List AstNode} {t : Option Nat} {stmt c : AstNode}

/-- What is declared further inside has other slots than the local symbols. -/
theorem apart (h : Site tables globals size scope locals node) :
    ∀ a ∈ locals, ∀ b ∈ node.children.flatMap AstNode.vars, Disjoint a.2.slot b.2.slot := by
  intro a ha b hb
  have hdisjoint := h.framed.disjoint
  rw [List.map_append] at hdisjoint
  exact (List.pairwise_append.mp hdisjoint).2.2 _ (List.mem_map_of_mem ha) _ (List.mem_map_of_mem hb)

theorem apart_vars (h : Site tables globals size scope locals node) (hdecl : node.declared = []) :
    ∀ a ∈ locals, ∀ b ∈ node.vars, Disjoint a.2.slot b.2.slot := by
  rw [node.vars_eq, hdecl, List.nil_append]
  exact h.apart

theorem disjoint (h : Site tables globals size scope locals node) :
    locals.Pairwise fun a b => Disjoint a.2.slot b.2.slot := by
  have hdisjoint := h.framed.disjoint
  rw [List.map_append] at hdisjoint
  exact List.pairwise_map.mp (List.pairwise_append.mp hdisjoint).1

theorem slot_le {x : String} {sym : Symbol} {T : WordTy}
    (h : Site tables globals size scope locals node) (hsym : locals.lookup x = some sym)
    (htype : sym.type = T.ty) : sym.offset ≤ size := by
  have hinside := h.framed.inside _
    (List.mem_map_of_mem (List.mem_append_left _ (Shadowing.mem_of_lookup_eq hsym)))
  rw [WordTy.slot_eq htype] at hinside
  have hpos : 0 < T.width.bytes := by cases T <;> decide
  have := (hinside (Set.left_mem_Ico.mpr (by omega))).1
  omega

theorem child (h : Site tables globals size scope locals node) (hkind : node.kind ≠ .block)
    (hc : c ∈ node.children) (hdecl : c.declared = []) :
    Site tables globals size scope locals c := by
  refine ⟨h.sight, by simp [hdecl], ?_, ?_⟩
  · have hsub : (c.children.flatMap AstNode.vars).Sublist (node.children.flatMap AstNode.vars) := by
      have hvars := c.vars_eq
      rw [hdecl, List.nil_append] at hvars
      rw [← hvars]
      exact sublist_flatMap hc
    exact h.framed.subperm (((List.Sublist.refl locals).append hsub).map _).subperm
  · obtain ⟨lo, hscoped⟩ := h.built
    cases hscoped with
    | block => exact (hkind rfl).elim
    | other _ hchildren => exact ⟨lo, hchildren c hc⟩

/-- The statements of a block, where its declarations are in sight. -/
theorem of_block (hsight : InSight tables t (stmts.flatMap AstNode.declared ++ locals) globals)
    (hbuilt : ∃ lo, Scoped tables lo t stmt) (hframed : Framed size locals (.block stmts t))
    (hnames : ((stmts.flatMap AstNode.declared).map Prod.fst).Nodup) (hstmt : stmt ∈ stmts) :
    Site tables globals size t (stmts.flatMap AstNode.declared ++ locals) stmt := by
  refine ⟨hsight, fun decl hdecl => ?_, ?_, hbuilt⟩
  · have hmem : decl ∈ stmts.flatMap AstNode.declared := List.mem_flatMap.mpr ⟨stmt, hstmt, hdecl⟩
    rw [List.lookup_append, Shadowing.lookup_of_nodup hnames hmem, Option.some_or]
  · obtain ⟨l, hperm, hsublist⟩ := subperm_flatMap_vars (List.Subperm.refl _) hstmt
    have hall : (stmts.flatMap AstNode.declared ++ locals ++
        stmt.children.flatMap AstNode.vars).Perm (locals ++ l) := by
      rw [List.append_assoc]
      refine List.perm_append_comm.trans ?_
      rw [List.append_assoc]
      exact hperm.symm.append_left locals
    exact hframed.subperm ((hall.map _).subperm.trans
      (((List.Sublist.refl locals).append hsublist).map _).subperm)

theorem enter (h : Site tables globals size scope locals (.block stmts t))
    (hnames : ((stmts.flatMap AstNode.declared).map Prod.fst).Nodup) (hstmt : stmt ∈ stmts) :
    Site tables globals size t (stmts.flatMap AstNode.declared ++ locals) stmt := by
  obtain ⟨chain, hchain, hflat⟩ := h.sight
  obtain ⟨lo, hbuilt⟩ := h.built
  obtain ⟨-, hchain', hstmts⟩ := hbuilt.enter hchain
  exact of_block ⟨_, hchain', by simp [hflat]⟩ (hstmts stmt hstmt) h.framed hnames hstmt

end Site

/-! ## The code of statements -/

/-- The lines of a procedure, with the label at its end. -/
structure Lines (I : Image) (lo hi ret : Nat) : Prop where
  resolves : I.Resolves lo hi
  label : I.text[ret]? = some (.label .return_)
  lo_le : lo ≤ ret
  lt_hi : ret < hi

section
variable (I : Image) (tables : List Hashtable) (globals : List (String × Symbol)) (P : Meaning)
  (rounds : Nat) (need size : Int) (lo hi ret : Nat)

/-- The code of the statement, wherever it stands in the procedure, does what the statement means. -/
def Executes (node : AstNode) : Prop :=
  ∀ scope locals gen gen' ty text vars ending p m, Site tables globals size scope locals node →
    gen.scope = scope → emit tables node gen = .ok (ty, text, gen') →
    evalStmt P rounds node vars = some ending → At I.text p text → lo ≤ p → p + text.length ≤ hi →
    Reflects locals vars m → m.Room (need + 8 * node.traverseDepth) → m.rsp = m.rbp - size →
    Executed I node.vars locals ret p (p + text.length) m ending

end

/-- What is emitted in the scope is executed, from any state in which the variables are as before. -/
def Performs {α : Type} (I : Image) (symbols locals : List (String × Symbol)) (scope : Option Nat)
    (lo hi ret : Nat) (m : Machine) (x : Emit α) (ending : Ending) : Prop :=
  ∀ gen gen' a text p m', gen.scope = scope → m.Spared symbols m' → x gen = .ok (a, text, gen') →
    At I.text p text → lo ≤ p → p + text.length ≤ hi →
    Executed I symbols locals ret p (p + text.length) m' ending

section
variable {rounds lo hi ret : Nat}

/-- An expression in a statement. -/
theorem expr_executed {e : AstNode} {gen gen' : Gen} {ty : Ty} {c : List Instr} {w : Number}
    {p : Nat} (hcalls : e.SimpleCalls) (hsight : InSight tables scope locals globals)
    (hprocs : Delivers I P globals need) (hscope : gen.scope = scope)
    (hemit : emit tables e gen = .ok (ty, c, gen')) (heval : evalExpr P vars e = some w)
    (hat : At I.text p c) (hvars : Reflects locals vars m)
    (hroom : m.Room (need + 8 * e.traverseDepth)) :
    ty = w.type.ty ∧ ∃ m', I.Reaches (p, m) (p + c.length, m') ∧ m.SameFrame m' ∧
      m'.get ⟨.rax, w.type.width⟩ = w.bits := by
  obtain ⟨hty, m', hreach, ⟨hframe, hval⟩, -⟩ := expr_evaluates hcalls hsight hprocs gen gen' ty c w p
    m hscope hemit heval hat hvars hroom
  exact ⟨hty, m', hreach, hframe, hval⟩

/-- The statements of a block, one after the other until one returns. -/
theorem stmts_executed {stmts : List AstNode} {gen gen' : Gen} {text : List Instr} {ending : Ending}
    {p : Nat}
    (hstmts : ∀ stmt ∈ stmts, Executes I tables globals P rounds need size lo hi ret stmt)
    (hsites : ∀ stmt ∈ stmts, Site tables globals size scope locals stmt)
    (hscope : gen.scope = scope) (hemit : emitSeq (emits tables stmts) gen = .ok ((), text, gen'))
    (heval : evalStmts P rounds stmts vars = some ending) (hat : At I.text p text) (hlo : lo ≤ p)
    (hhi : p + text.length ≤ hi) (hvars : Reflects locals vars m)
    (hroom : ∀ stmt ∈ stmts, m.Room (need + 8 * stmt.traverseDepth)) (hrsp : m.rsp = m.rbp - size) :
    Executed I (stmts.flatMap AstNode.vars) locals ret p (p + text.length) m ending := by
  induction stmts generalizing gen text p vars m with
  | nil =>
    obtain ⟨-, rfl, -⟩ := Emit.pure_ok.mp hemit
    cases heval
    exact ⟨p, m, Runs.Reaches.refl, .of_same .refl, rfl, hvars⟩
  | cons stmt stmts ih =>
    obtain ⟨hstmt, hstmts⟩ := List.forall_mem_cons.mp hstmts
    obtain ⟨hsite, hsites⟩ := List.forall_mem_cons.mp hsites
    obtain ⟨hroom₁, hroom⟩ := List.forall_mem_cons.mp hroom
    obtain ⟨ty, c, gen₁, rest, hfirst, hrest, rfl⟩ := discard_bind_ok.mp hemit
    obtain ⟨first, hfirsts, heval⟩ := Option.bind_eq_some_iff.mp heval
    obtain ⟨hat₁, hat₂⟩ := at_append.mp hat
    rw [List.length_append] at hhi ⊢
    obtain ⟨q, m₁, hreach, hspared, hend⟩ := hstmt scope locals gen gen₁ ty c vars first p m hsite
      hscope hfirst hfirsts hat₁ hlo (by omega) hvars hroom₁ hrsp
    cases first with
    | normal vars₁ =>
      obtain ⟨rfl, hvars₁⟩ := hend
      have hexecuted := ih hstmts hsites ((emit_checked hfirst).2.trans hscope) hrest heval hat₂
        (by omega) (by omega) hvars₁ (fun s hs => hspared.room (hroom s hs))
        (by rw [hspared.rsp, hspared.rbp, hrsp])
      rw [Nat.add_assoc] at hexecuted
      refine .after hreach (hspared.mono fun decl hdecl => ?_) (hexecuted.mono fun decl hdecl => ?_)
      · exact List.mem_append_left _ hdecl
      · exact List.mem_append_right _ hdecl
    | returned w =>
      cases heval
      exact ⟨q, m₁, hreach, hspared.mono fun decl hdecl => List.mem_append_left _ hdecl, hend⟩

/-- At the start of a block, what it declares has no value. -/
theorem Reflects.enter {stmts : List AstNode} (h : Reflects locals vars m) :
    Reflects (stmts.flatMap AstNode.declared ++ locals) (undeclared stmts ++ vars) m := by
  have hcases (x : String) : (undeclared stmts ++ vars).lookup x =
      (((stmts.flatMap AstNode.declared).lookup x).map fun _ => none).or (vars.lookup x) := by
    rw [List.lookup_append, lookup_undeclared]
  refine ⟨fun x hx => ?_, fun x w hx => ?_⟩
  · rw [hcases] at hx
    obtain ⟨hnone, hx⟩ := Option.or_eq_none_iff.mp hx
    rw [List.lookup_append, Option.map_eq_none_iff.mp hnone, Option.none_or, h.unknown x hx]
  · rw [hcases] at hx
    cases hdecl : (stmts.flatMap AstNode.declared).lookup x with
    | some sym =>
      rw [hdecl] at hx
      cases hx
    | none =>
      rw [hdecl] at hx
      obtain ⟨sym, hsym, hrest⟩ := h.value x w hx
      exact ⟨sym, by rw [List.lookup_append, hdecl, Option.none_or, hsym], hrest⟩

theorem block_executed {stmts : List AstNode} {t : Option Nat} {gen gen' : Gen} {text : List Instr}
    {ending : Ending} {p : Nat}
    (hstmts : ∀ stmt ∈ stmts, Executes I tables globals P rounds need size lo hi ret stmt)
    (hsites : ∀ stmt ∈ stmts,
      Site tables globals size t (stmts.flatMap AstNode.declared ++ locals) stmt)
    (hemit : block t (emits tables stmts) gen = .ok ((), text, gen'))
    (heval : evalStmt P rounds (.block stmts t) vars = some ending) (hat : At I.text p text)
    (hlo : lo ≤ p) (hhi : p + text.length ≤ hi) (hvars : Reflects locals vars m)
    (hroom : m.Room (need + 8 * (AstNode.block stmts t).traverseDepth))
    (hrsp : m.rsp = m.rbp - size)
    (hapart : ∀ a ∈ locals, ∀ b ∈ stmts.flatMap AstNode.vars, Disjoint a.2.slot b.2.slot) :
    Executed I (stmts.flatMap AstNode.vars) locals ret p (p + text.length) m ending := by
  obtain ⟨gen₁, hemit, -⟩ := block_ok hemit
  rw [evalStmt] at heval
  obtain ⟨inner, hinner, rfl⟩ := Option.map_eq_some_iff.mp heval
  refine .leave hvars (stmts_executed hstmts hsites rfl hemit hinner hat hlo hhi hvars.enter
    (fun stmt hstmt => hroom.mono ?_) hrsp) hapart
  have hdepth : stmt.traverseDepth < (AstNode.block stmts t).traverseDepth :=
    @AstNode.traverseDepth_child (.block stmts t) stmt hstmt
  omega

/-- A declaration stores the value into the slot of its variable. -/
theorem vardecl_executed {op ident : Token} {init : AstNode} {type : Ty} {offset : Int} {w : Number}
    {gen gen' : Gen} {text : List Instr} {p : Nat} (hcalls : init.SimpleCalls)
    (hsite : Site tables globals size scope locals (.vardecl op ident (some init) type offset))
    (hprocs : Delivers I P globals need) (hscope : gen.scope = scope)
    (hemit : vardecl (some (emit tables init)) type offset gen = .ok ((), text, gen'))
    (heval : evalExpr P vars init = some w) (hat : At I.text p text)
    (hvars : Reflects locals vars m) (hroom : m.Room (need + 8 * init.traverseDepth))
    (hrsp : m.rsp = m.rbp - size) :
    Executed I (AstNode.vardecl op ident (some init) type offset).vars locals ret p (p + text.length)
      m (.normal ((ident.value, some w) :: vars)) := by
  obtain ⟨ty, c, gen₁, t₁, hinit, hstore, rfl⟩ := Emit.bind_ok.mp hemit
  split at hstore
  · exact (invalidTypes_ok.mp hstore).elim
  · rename_i hkinds
    obtain ⟨rax, hrax, hstore⟩ := Emit.lift_bind_ok.mp hstore
    obtain ⟨rfl, -⟩ := genWrite_ok.mp hstore
    obtain ⟨hat₁, hline⟩ := at_append.mp hat
    obtain ⟨rfl, m₁, hreach, hframe, hval⟩ := expr_executed hcalls hsite.sight hprocs hscope hinit
      heval hat₁ hvars hroom
    cases (w.type.subregister_kind .rax).symm.trans hrax
    let sym : Symbol := { kind := .variable, type, offset }
    have htype : sym.type = w.type.ty := WordTy.eq_of_kind (not_not.mp hkinds)
    have hsym : locals.lookup ident.value = some sym := hsite.declared _ (List.mem_singleton.mpr rfl)
    have hle : m₁.rsp ≤ m₁.rbp - sym.offset := by
      have := hsite.slot_le hsym htype
      rw [hframe.rsp, hframe.rbp]
      omega
    let m₂ := { m₁ with mem :=
      (writeBytes m₁.mem (m₁.rbp - sym.offset) w.type.width.bytes (m₁.reg .rax)) }
    obtain ⟨hvars', hspared⟩ : Reflects locals ((ident.value, some w) :: vars) m₂ ∧
        m₁.Spared [(ident.value, sym)] m₂ :=
      (hvars.keep hframe).declare hsym rfl htype hsite.disjoint hle hval rfl rfl rfl
    have hlast : I.step (p + c.length, m₁) = some (p + c.length + 1, m₂) :=
      Image.step_of_exec (at_singleton.mp hline) rfl
    refine .after hreach (.of_same hframe) ⟨_, _, Runs.Reaches.single hlast, ?_, ?_, hvars'⟩
    · exact hspared.mono fun decl hdecl => AstNode.vars_of_declared hdecl
    · rw [List.length_append, List.length_singleton, Nat.add_assoc]

/-- A value in `rax`, and a jump to the end of the procedure. -/
theorem return_executed {e : AstNode} {gen gen' : Gen} {text : List Instr} {w : Number} {p : Nat}
    (hlines : Lines I lo hi ret) (hcalls : e.SimpleCalls)
    (hsight : InSight tables scope locals globals) (hprocs : Delivers I P globals need)
    (hscope : gen.scope = scope)
    (hemit : return_ (some (emit tables e)) gen = .ok ((), text, gen'))
    (heval : evalExpr P vars e = some w) (hat : At I.text p text) (hlo : lo ≤ p)
    (hhi : p + text.length ≤ hi) (hvars : Reflects locals vars m)
    (hroom : m.Room (need + 8 * e.traverseDepth)) :
    Executed I symbols locals ret p (p + text.length) m (.returned w) := by
  obtain ⟨c', hseq, rfl⟩ := return_ok hemit
  obtain ⟨ty, c, gen₁, rest, he, hrest, rfl⟩ := discard_bind_ok.mp hseq
  obtain ⟨-, rfl, -⟩ := Emit.pure_ok.mp hrest
  rw [List.append_nil] at hat hhi
  rw [List.length_append, List.length_singleton] at hhi
  obtain ⟨hat₁, hline⟩ := at_append.mp hat
  obtain ⟨-, m₁, hreach, hframe, hval⟩ := expr_executed hcalls hsight hprocs hscope he heval hat₁ hvars
    hroom
  have htarget : I.target (p + c.length) .return_ = some ret :=
    hlines.resolves _ ret .return_ (by omega) (by omega) hlines.lo_le hlines.lt_hi hlines.label
  have hjump := Image.step_jmp (m := m₁) (at_singleton.mp hline) htarget
  exact ⟨ret, m₁, hreach.trans (Runs.Reaches.single hjump), .of_same hframe, rfl, hval⟩

/-- The condition, and then one of the branches. -/
theorem if_executed {condition thenBody : AstNode} {elseBody : Option AstNode} {gen gen' : Gen}
    {text : List Instr} {w : Number} {ending : Ending} {p : Nat}
    (hlines : Lines I lo hi ret) (hcalls : condition.SimpleCalls)
    (hsight : InSight tables scope locals globals) (hprocs : Delivers I P globals need)
    (hscope : gen.scope = scope)
    (hemit : cond (emit tables condition) (emit tables thenBody) (emitOpt tables elseBody) gen =
      .ok ((), text, gen'))
    (heval : evalExpr P vars condition = some w) (hat : At I.text p text) (hlo : lo ≤ p)
    (hhi : p + text.length ≤ hi) (hvars : Reflects locals vars m)
    (hroom : m.Room (need + 8 * condition.traverseDepth))
    (hthen : w.truth = true →
      Performs I symbols locals scope lo hi ret m (emit tables thenBody) ending)
    (helse : w.truth = false →
      Performs I symbols locals scope lo hi ret m (emitSeq (emitOpt tables elseBody).toList) ending) :
    Executed I symbols locals ret p (p + text.length) m ending := by
  obtain ⟨tc, cc, gen₁, rax, tt, ct, gen₂, ce, hcond, hrax, hct, hce, rfl⟩ := cond_ok hemit
  obtain ⟨hatc, hrest⟩ := at_append.mp hat
  obtain ⟨hcmp, hrest⟩ := at_cons.mp hrest
  obtain ⟨hje, hrest⟩ := at_cons.mp hrest
  obtain ⟨hatt, hrest⟩ := at_append.mp hrest
  obtain ⟨hjmp, hrest⟩ := at_cons.mp hrest
  obtain ⟨helselabel, hrest⟩ := at_cons.mp hrest
  obtain ⟨hate, hend⟩ := at_append.mp hrest
  have hendlabel := at_singleton.mp hend
  simp only [List.length_append, List.length_cons, List.length_nil] at hhi ⊢
  have hscope₁ : ({ gen with labelCount := gen.labelCount + 1 } : Gen).scope = scope := hscope
  obtain ⟨rfl, m₁, hreach, hframe, hval⟩ := expr_executed hcalls hsight hprocs hscope₁ hcond heval
    hatc hvars hroom
  cases (w.type.subregister_kind .rax).symm.trans hrax
  -- the jump over the first branch
  have htarget := hlines.resolves (p + cc.length + 1) _ _ (by omega) (by omega) (by omega) (by omega)
    helselabel
  obtain ⟨m₂, hjump, hframe₂⟩ := reaches_je (at_cons.mpr ⟨hcmp, at_singleton.mpr hje⟩) hval htarget
  have hspared : m.Spared symbols m₂ := .of_same (hframe.trans hframe₂)
  have hlast (m' : Machine) := Image.step_silent (m := m') hendlabel rfl
  have hscope₂ := (emit_checked hcond).2.trans hscope₁
  cases hw : w.truth with
  | true =>
    rw [hw] at hjump
    have hexecuted := hthen hw gen₁ gen₂ tt ct _ m₂ hscope₂ hspared hct hatt (by omega) (by omega)
    refine .after (hreach.trans hjump) hspared (hexecuted.onward fun m' => ?_)
    have hover := hlines.resolves (p + cc.length + 1 + 1 + ct.length) _ _ (by omega) (by omega)
      (by omega) (by omega) hendlabel
    exact (Image.Reaches.step (Image.step_jmp (m := m') hjmp hover)
      (Runs.Reaches.single (hlast m'))).upTo (by omega)
  | false =>
    rw [hw] at hjump
    have hexecuted := helse hw gen₂ gen' () ce _ m₂ ((emit_checked hct).2.trans hscope₂) hspared hce
      hate (by omega) (by omega)
    have hlabel := Runs.Reaches.single (Image.step_silent (m := m₂) helselabel rfl)
    refine .after ((hreach.trans hjump).trans hlabel) hspared (hexecuted.onward fun m' => ?_)
    exact Image.Reaches.upTo (Runs.Reaches.single (hlast m')) (by omega)

/-- The rounds of a loop, from the test of the condition on: as long as it holds, the body is
performed and control comes back to the test. -/
theorem loop_executed {condition : Vars → Option Number} {body : Vars → Option Ending}
    {cond q next n : Nat} {ending : Ending}
    (htest : ∀ m' w, m.Spared symbols m' → condition vars = some w →
      ∃ m₁, I.Reaches (cond, m') (if w.truth then q else next, m₁) ∧ m'.SameFrame m₁)
    (hbody : ∀ m' ending, m.Spared symbols m' → body vars = some ending →
      Executed I symbols locals ret q cond m' ending)
    (hvars : ∀ m', m.Spared symbols m' → Reflects locals vars m')
    (heval : evalLoop condition body n vars = some ending) (hm : m.Spared symbols m') :
    Executed I symbols locals ret cond next m' ending := by
  induction n generalizing m' with
  | zero => cases heval
  | succ n ih =>
    obtain ⟨w, hw, heval⟩ := Option.bind_eq_some_iff.mp heval
    obtain ⟨m₁, hreach, hframe⟩ := htest m' w hm hw
    have hm₁ : m'.Spared symbols m₁ := .of_same hframe
    cases htruth : w.truth with
    | false =>
      simp only [htruth] at heval hreach
      cases heval
      exact ⟨next, m₁, hreach, hm₁, rfl, hvars m₁ (hm.trans hm₁)⟩
    | true =>
      simp only [htruth, if_true] at heval hreach
      obtain ⟨round, hround, heval⟩ := Option.bind_eq_some_iff.mp heval
      obtain ⟨r, m₂, hreach₂, hm₂, hend⟩ := hbody m₁ round (hm.trans hm₁) hround
      refine .after hreach hm₁ ?_
      cases round with
      | normal vars' =>
        obtain ⟨rfl, -⟩ := hend
        exact .after hreach₂ hm₂ (ih heval ((hm.trans hm₁).trans hm₂))
      | returned w =>
        cases heval
        exact ⟨r, m₂, hreach₂, hm₂, hend⟩

theorem while_executed {condition body : AstNode} {gen gen' : Gen} {text : List Instr}
    {ending : Ending} {n p : Nat} (hlines : Lines I lo hi ret) (hcalls : condition.SimpleCalls)
    (hsight : InSight tables scope locals globals) (hprocs : Delivers I P globals need)
    (hscope : gen.scope = scope)
    (hemit : while_ (emit tables condition) (emit tables body) gen = .ok ((), text, gen'))
    (heval : evalLoop (fun vars => evalExpr P vars condition) (evalStmt P rounds body) n vars =
      some ending) (hat : At I.text p text) (hlo : lo ≤ p) (hhi : p + text.length ≤ hi)
    (hvars : ∀ m', m.Spared symbols m' → Reflects locals vars m')
    (hroom : m.Room (need + 8 * condition.traverseDepth))
    (hbody : ∀ ending, evalStmt P rounds body vars = some ending →
      Performs I symbols locals scope lo hi ret m (emit tables body) ending) :
    Executed I symbols locals ret p (p + text.length) m ending := by
  obtain ⟨tb, cb, gen₁, tc, cc, rax, hcb, hcc, hrax, rfl⟩ := while_ok hemit
  obtain ⟨hjmp, hrest⟩ := at_cons.mp hat
  obtain ⟨hwhile, hrest⟩ := at_cons.mp hrest
  obtain ⟨hatb, hrest⟩ := at_append.mp hrest
  obtain ⟨hcond, hrest⟩ := at_cons.mp hrest
  obtain ⟨hatc, htest⟩ := at_append.mp hrest
  have hjne := at_singleton.mp (at_cons.mp htest).2
  simp only [List.length_append, List.length_cons, List.length_nil] at hhi ⊢
  have hscope₁ : ({ gen with labelCount := gen.labelCount + 1 } : Gen).scope = scope := hscope
  have htocond := hlines.resolves p _ _ hlo (by omega) (by omega) (by omega) hcond
  have hspared : m.Spared symbols m := .of_same .refl
  refine .after (.step (Image.step_jmp hjmp htocond) Runs.Reaches.refl) hspared
    (loop_executed (q := p + 1) ?_ ?_ hvars heval hspared)
  · intro m' w hm hw
    have hlabel := Runs.Reaches.single (Image.step_silent (m := m') hcond rfl)
    obtain ⟨rfl, m₁, hreach, hframe, hval⟩ := expr_executed hcalls hsight hprocs
      ((emit_checked hcb).2.trans hscope₁) hcc hw hatc (hvars m' hm) (hm.room hroom)
    cases (w.type.subregister_kind .rax).symm.trans hrax
    have hback := hlines.resolves (p + 1 + 1 + cb.length + 1 + cc.length + 1) _ _ (by omega)
      (by omega) (by omega) (by omega) hwhile
    obtain ⟨m₂, hjump, hframe₂⟩ := reaches_jne htest hval hback
    refine ⟨m₂, Image.Reaches.upTo ((hlabel.trans hreach).trans hjump) ?_, hframe.trans hframe₂⟩
    split <;> omega
  · intro m' round hm hround
    have hlabel := Runs.Reaches.single (Image.step_silent (m := m') hwhile rfl)
    exact .after hlabel (.of_same .refl)
      (hbody round hround _ gen₁ tb cb _ m' hscope₁ hm hcb hatb (by omega) (by omega))

/-! ### All statements -/

/-- A part of a statement, where its variables are as before. -/
theorem Executes.performs {c : AstNode} {ending : Ending}
    (h : Executes I tables globals P rounds need size lo hi ret c)
    (hsite : Site tables globals size scope locals c)
    (heval : evalStmt P rounds c vars = some ending)
    (hvars : ∀ m', m.Spared symbols m' → Reflects locals vars m')
    (hroom : m.Room (need + 8 * c.traverseDepth)) (hrsp : m.rsp = m.rbp - size)
    (hsub : ∀ decl ∈ c.vars, decl ∈ symbols) :
    Performs I symbols locals scope lo hi ret m (emit tables c) ending := by
  intro gen gen' ty text p m' hscope hm hemit hat hlo hhi
  exact (h scope locals gen gen' ty text vars ending p m' hsite hscope hemit heval hat hlo hhi
    (hvars m' hm) (hm.room hroom) (by rw [hm.rsp, hm.rbp, hrsp])).mono hsub

theorem Performs.leave {α : Type} {x : Emit α} {ending : Ending}
    (h : Performs I symbols locals scope lo hi ret m x ending)
    (hvars : ∀ m', m.Spared symbols m' → Reflects locals vars m')
    (hapart : ∀ a ∈ locals, ∀ b ∈ symbols, Disjoint a.2.slot b.2.slot) :
    Performs I symbols locals scope lo hi ret m x (ending.leave vars) :=
  fun gen gen' a text p m' hscope hm hx hat hlo hhi =>
    (h gen gen' a text p m' hscope hm hx hat hlo hhi).leave (hvars m' hm) hapart

theorem Performs.nil (hvars : ∀ m', m.Spared symbols m' → Reflects locals vars m') :
    Performs I symbols locals scope lo hi ret m (emitSeq []) (.normal vars) := by
  intro gen gen' a text p m' _ hm hemit _ _ _
  obtain ⟨-, rfl, -⟩ := Emit.pure_ok.mp hemit
  exact ⟨p, m', Runs.Reaches.refl, .of_same .refl, rfl, hvars m' hm⟩

theorem Performs.single {x : Emit Ty} {ending : Ending}
    (h : Performs I symbols locals scope lo hi ret m x ending) :
    Performs I symbols locals scope lo hi ret m (emitSeq [x]) ending := by
  intro gen gen' a text p m' hscope hm hemit hat hlo hhi
  obtain ⟨ty, c, gen₁, rest, hx, hrest, rfl⟩ := discard_bind_ok.mp hemit
  obtain ⟨-, rfl, -⟩ := Emit.pure_ok.mp hrest
  rw [List.append_nil] at hat hhi ⊢
  exact h gen gen₁ ty c p m' hscope hm hx hat hlo hhi

/-! ### The constructs -/

theorem Machine.Room.child {c : AstNode} (h : m.Room (need + 8 * node.traverseDepth))
    (hc : c ∈ node.children) : m.Room (need + 8 * c.traverseDepth) := by
  have := AstNode.traverseDepth_child hc
  exact h.mono (by omega)

theorem exprstmt_executes (hprocs : Delivers I P globals need) (hshape : Shape .expr node)
    (hcalls : node.SimpleCalls) : Executes I tables globals P rounds need size lo hi ret node := by
  intro scope locals gen gen' ty text vars ending p m hsite hscope hemit heval hat hlo hhi hvars
    hroom hrsp
  rw [evalStmt_expr hshape] at heval
  obtain ⟨w, hw, rfl⟩ := Option.map_eq_some_iff.mp heval
  obtain ⟨-, m', hreach, hframe, -⟩ := expr_executed hcalls hsite.sight hprocs hscope hemit hw hat
    hvars hroom
  exact ⟨_, m', hreach, .of_same hframe, rfl, hvars.keep hframe⟩

theorem block_executes {stmts : List AstNode} {t : Option Nat}
    (hnames : (AstNode.block stmts t).Distinct)
    (h : ∀ stmt ∈ stmts, Executes I tables globals P rounds need size lo hi ret stmt) :
    Executes I tables globals P rounds need size lo hi ret (.block stmts t) := by
  intro scope locals gen gen' ty text vars ending p m hsite hscope hemit heval hat hlo hhi hvars
    hroom hrsp
  rw [emit] at hemit
  obtain ⟨-, hemit⟩ := statement_ok.mp hemit
  have hexecuted := block_executed h (fun stmt hstmt => hsite.enter hnames.block hstmt) hemit heval
    hat hlo hhi hvars hroom hrsp hsite.apart
  rwa [AstNode.vars_eq]

theorem vardecl_executes {op ident : Token} {init : Option AstNode} {type : Ty} {offset : Int}
    (hprocs : Delivers I P globals need)
    (hcalls : (AstNode.vardecl op ident init type offset).SimpleCalls) :
    Executes I tables globals P rounds need size lo hi ret (.vardecl op ident init type offset) := by
  intro scope locals gen gen' ty text vars ending p m hsite hscope hemit heval hat hlo hhi hvars
    hroom hrsp
  rw [emit] at hemit
  obtain ⟨-, hemit⟩ := statement_ok.mp hemit
  cases init with
  | none =>
    obtain ⟨-, rfl, -⟩ := Emit.pure_ok.mp hemit
    cases heval
    exact ⟨p, m, Runs.Reaches.refl, .of_same .refl, rfl, hvars⟩
  | some init =>
    rw [evalStmt] at heval
    obtain ⟨w, hw, rfl⟩ := Option.map_eq_some_iff.mp heval
    exact vardecl_executed (hcalls.part (by simp [AstNode.parts, AstNode.children])) hsite hprocs
      hscope hemit hw hat hvars (hroom.child (by simp [AstNode.children])) hrsp

theorem return_executes {op : Token} {value : Option AstNode} (hlines : Lines I lo hi ret)
    (hprocs : Delivers I P globals need) (hcalls : (AstNode.return_ op value).SimpleCalls) :
    Executes I tables globals P rounds need size lo hi ret (.return_ op value) := by
  intro scope locals gen gen' ty text vars ending p m hsite hscope hemit heval hat hlo hhi hvars
    hroom hrsp
  rw [emit] at hemit
  obtain ⟨-, hemit⟩ := statement_ok.mp hemit
  cases value with
  | none => cases heval
  | some e =>
    rw [evalStmt] at heval
    obtain ⟨w, hw, rfl⟩ := Option.map_eq_some_iff.mp heval
    exact return_executed hlines (hcalls.part (by simp [AstNode.parts, AstNode.children]))
      hsite.sight hprocs hscope hemit hw hat hlo hhi hvars (hroom.child (by simp [AstNode.children]))

theorem if_executes {op : Token} {condition thenBody : AstNode} {elseBody : Option AstNode}
    (hlines : Lines I lo hi ret) (hprocs : Delivers I P globals need)
    (hcalls : (AstNode.if_ op condition thenBody elseBody).SimpleCalls)
    (h : ∀ c ∈ thenBody :: elseBody.toList, c.declared = [] ∧
      Executes I tables globals P rounds need size lo hi ret c) :
    Executes I tables globals P rounds need size lo hi ret
      (.if_ op condition thenBody elseBody) := by
  intro scope locals gen gen' ty text vars ending p m hsite hscope hemit heval hat hlo hhi hvars
    hroom hrsp
  rw [emit] at hemit
  obtain ⟨-, hemit⟩ := statement_ok.mp hemit
  let node : AstNode := .if_ op condition thenBody elseBody
  have hkind : node.kind ≠ .block := by simp [node, AstNode.kind]
  have hkeep (m' : Machine) (hm : m.Spared node.vars m') : Reflects locals vars m' :=
    hvars.spared hm (hsite.apart_vars rfl)
  have hbranch {c : AstNode} (hc : c ∈ thenBody :: elseBody.toList)
      (heval : (evalStmt P rounds c vars).map (·.leave vars) = some ending) :
      Performs I node.vars locals scope lo hi ret m (emit tables c) ending := by
    obtain ⟨inner, hinner, rfl⟩ := Option.map_eq_some_iff.mp heval
    have hchild : c ∈ node.children := List.mem_cons_of_mem _ hc
    obtain ⟨hdecl, hc⟩ := h c hc
    exact .leave (hc.performs (hsite.child hkind hchild hdecl) hinner hkeep (hroom.child hchild)
      hrsp fun decl hdecl => AstNode.vars_of_child hchild hdecl) hkeep (hsite.apart_vars rfl)
  obtain ⟨w, hw, heval⟩ := evalStmt_if.mp heval
  refine if_executed hlines (hcalls.part (by simp [AstNode.parts, AstNode.children])) hsite.sight
    hprocs hscope hemit hw hat hlo hhi hvars (hroom.child (by simp [AstNode.children]))
    (fun htrue => ?_) fun hfalse => ?_
  · rw [if_pos htrue] at heval
    exact hbranch List.mem_cons_self heval
  · rw [if_neg (by simp [hfalse])] at heval
    cases elseBody with
    | none =>
      cases heval
      exact .nil hkeep
    | some elseBody => exact .single (hbranch (List.mem_cons_of_mem _ List.mem_cons_self) heval)

theorem while_executes {op : Token} {condition body : AstNode} (hlines : Lines I lo hi ret)
    (hprocs : Delivers I P globals need) (hcalls : (AstNode.while_ op condition body).SimpleCalls)
    (hdecl : body.declared = [])
    (h : Executes I tables globals P rounds need size lo hi ret body) :
    Executes I tables globals P rounds need size lo hi ret (.while_ op condition body) := by
  intro scope locals gen gen' ty text vars ending p m hsite hscope hemit heval hat hlo hhi hvars
    hroom hrsp
  rw [emit] at hemit
  obtain ⟨-, hemit⟩ := statement_ok.mp hemit
  rw [evalStmt] at heval
  let node : AstNode := .while_ op condition body
  have hkind : node.kind ≠ .block := by simp [node, AstNode.kind]
  have hkeep (m' : Machine) (hm : m.Spared node.vars m') : Reflects locals vars m' :=
    hvars.spared hm (hsite.apart_vars rfl)
  have hmem : body ∈ node.children := by simp [node, AstNode.children]
  exact while_executed hlines (hcalls.part (by simp [AstNode.parts, AstNode.children])) hsite.sight
    hprocs hscope hemit heval hat hlo hhi hkeep (hroom.child (by simp [AstNode.children]))
    fun ending hending => h.performs (hsite.child hkind hmem hdecl) hending hkeep (hroom.child hmem)
      hrsp fun decl hdecl => AstNode.vars_of_child hmem hdecl

theorem Shape.block_declared (h : Shape .block node) : node.declared = [] := by
  cases h
  rfl

/-- The code of a statement does what the statement means. -/
theorem stmt_executes (hlines : Lines I lo hi ret) (hprocs : Delivers I P globals need)
    (hshape : Shape .stmt node) (hcalls : node.SimpleCalls) (hnames : node.Distinct) :
    Executes I tables globals P rounds need size lo hi ret node := by
  induction node using AstNode.parts_induct with
  | step node ih =>
    have hchild {c : AstNode} (hc : c ∈ node.children) :
        Executes I tables globals P rounds need size lo hi ret c :=
      have hpart := AstNode.mem_parts_of_children hc
      ih c hpart (hshape.stmt_child hc).1 (hcalls.part hpart) (hnames.part hpart)
    cases hshape with
    | exprstmt hexpr => exact exprstmt_executes hprocs hexpr hcalls
    | blockstmt hblock =>
      cases hblock with
      | @block stmts t _ => exact block_executes hnames fun stmt hstmt => hchild hstmt
    | @vardecl op ident init type offset _ => exact vardecl_executes hprocs hcalls
    | @return_ op value hvalue => exact return_executes hlines hprocs hcalls
    | @if_ op condition thenBody elseBody _ hthen helse =>
      refine if_executes hlines hprocs hcalls fun c hc => ⟨?_, hchild (List.mem_cons_of_mem _ hc)⟩
      rcases List.mem_cons.mp hc with rfl | hc
      · exact hthen.block_declared
      · exact (helse c (Option.mem_toList.mp hc)).block_declared
    | @while_ op condition body _ hbody =>
      exact while_executes hlines hprocs hcalls hbody.block_declared
        (hchild (List.mem_cons_of_mem _ List.mem_cons_self))
    | for_ =>
      intro scope locals gen gen' ty text vars ending p m hsite hscope hemit
      rw [emit] at hemit
      cases hemit

end

end Seron
