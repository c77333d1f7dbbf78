import Seron.Verify.Execution
import Seron.Verify.Passes
import Seron.Verify.Prologue

/-! # Whole programs

The code that the compiler generates for a program, run in memory from the label of a procedure on,
returns what the procedure means in the program that was parsed. -/

namespace Seron

open Memory Runs Layout

variable {I : Image} {tables : List Hashtable} {P : Meaning} {vars : Vars}
  {globals : List (String × Symbol)} {need size : Int} {m m' : Machine} {w : Number}
  {ws : List Number} {params : List Param} {gen gen' : Gen}

/-! ## Entering a procedure -/

/-- The frame of a procedure that was called, with the parameters in their slots. -/
structure Entered (params : List Param) (size : Int) (m m' : Machine) : Prop where
  rsp : m'.rsp = m.rsp - 8 - size
  rbp : m'.rbp = m.rsp - 8
  saved : readBytes m'.mem (m.rsp - 8) 8 = BitVec.ofInt 64 m.rbp
  caller : ∀ a, m.rsp ≤ a → m'.mem a = m.mem a
  slot : ∀ i param, params[i]? = some param → ∃ w : Width,
    typePrimitiveSize param.type.kind = .ok w.bytes ∧
      readBytes m'.mem (m'.rbp - param.offset) w.bytes =
        ((m.argument i).setWidth w.bits).setWidth 64

theorem run_entry {E : Env} {code : List Instr} (ident : String)
    (h : procParams 0 16 params gen = .ok ((), code, gen'))
    (hslots : LaidOut (-size) 0 (params.map Param.slot)) (m : Machine) :
    ∃ m', run E (.label (.proc ident) :: .pushRbp :: .movRbpRsp :: .subRsp size :: code) m = some m' ∧
      Entered params size m m' := by
  obtain ⟨m', hrun, hrsp, hrbp, hmem, hread⟩ := run_procParams (E := E) h hslots (m.enter size)
  have hentered : (m.enter size).rbp = m.rsp - 8 := rfl
  rw [hentered] at hrbp hmem hread
  have houtside : ∀ a, m.rsp - 8 ≤ a → ∀ param ∈ params, a - (m.rsp - 8) ∉ param.slot := by
    intro a ha param hparam hmem
    have := (hslots.inside _ (List.mem_map_of_mem hparam) hmem).2
    omega
  refine ⟨m', hrun, hrsp, hrbp, ?_, fun a ha => ?_, fun i param hi => ?_⟩
  · rw [readBytes_congr fun a ha _ => hmem a (houtside a ha)]
    exact Machine.top_push
  · rw [hmem a (houtside a (by omega))]
    exact Machine.push_mem ha
  · obtain ⟨width, hw, hslot⟩ := hread i param hi
    rw [Nat.zero_add, enter_incoming] at hslot
    exact ⟨width, hw, by rw [hrbp, hslot]⟩

theorem WordTy.width_eq {T : WordTy} {k : TypeKind} {width : Width} (hk : k = T.ty.kind)
    (h : typePrimitiveSize k = .ok width.bytes) : width = T.width := by
  subst hk
  cases T <;> cases width <;> first | rfl | cases h

/-- The parameters have the values of the arguments. -/
theorem reflects_params (hbind : bindParams params ws = some vars)
    (hslot : ∀ (i : Nat) (param : Param) (w : Number), params[i]? = some param → ws[i]? = some w →
      param.type.kind = w.type.ty.kind → m.rsp ≤ m.rbp - param.offset ∧
        readBytes m.mem (m.rbp - param.offset) w.type.width.bytes = w.bits.setWidth 64) :
    Reflects (params.map Param.declared) vars m := by
  induction params generalizing ws vars with
  | nil =>
    cases ws with
    | nil =>
      cases hbind
      exact ⟨fun _ _ => rfl, fun _ _ h => by cases h⟩
    | cons => cases hbind
  | cons param params ih =>
    cases ws with
    | nil => cases hbind
    | cons w ws =>
      obtain ⟨rest, hrest, hbind⟩ := Option.bind_eq_some_iff.mp hbind
      split at hbind
      · rename_i hkind
        cases hbind
        have ih := ih hrest fun i p v hp hv => hslot (i + 1) p v hp hv
        refine ⟨fun x hx => ?_, fun x v hx => ?_⟩
        · rw [List.lookup_cons] at hx
          rw [List.map_cons, List.lookup_cons]
          split at hx
          · cases hx
          · rename_i hne
            rw [show (x == (Param.declared param).1) = false from hne]
            exact ih.unknown x hx
        · rw [List.lookup_cons] at hx
          rw [Valued, List.map_cons, List.lookup_cons]
          split at hx
          · rename_i heq
            cases hx
            rw [show (x == (Param.declared param).1) = true from heq]
            exact ⟨_, rfl, .inr rfl, WordTy.eq_of_kind hkind, hslot 0 param w rfl rfl hkind⟩
          · rename_i hne
            rw [show (x == (Param.declared param).1) = false from hne]
            exact ih.value x v hx
      · cases hbind

theorem Entered.reflects (h : Entered params size m m') (hbind : bindParams params ws = some vars)
    (hm : Supplied ws m) (hslots : LaidOut (-size) 0 (params.map Param.slot)) :
    Reflects (params.map Param.declared) vars m' := by
  refine reflects_params hbind fun i param w hparam hw hkind => ?_
  obtain ⟨width, hwidth, hslot⟩ := h.slot i param hparam
  obtain rfl := WordTy.width_eq hkind hwidth
  obtain ⟨r, hr, hget⟩ := hm i w hw
  have hargument : m.argument i = m.reg r := by
    have hsysv : sysvRegister i = some r := hr
    rw [Machine.argument, hsysv]
  refine ⟨?_, ?_⟩
  · have hfirst : -param.offset ∈ param.slot := by
      have := (typePrimitiveSize_bounds hwidth).1
      rw [Param.slot_eq hwidth, Set.mem_Ico]
      omega
    have hlo := (hslots.inside _ (List.mem_map_of_mem (List.mem_of_getElem? hparam)) hfirst).1
    rw [h.rsp, h.rbp]
    omega
  · rw [hslot, hargument, ← hget]
    rfl

/-! ## Leaving a procedure -/

/-- The lines behind `.return` give the frame back. -/
theorem run_exit {E : Env} {b : Machine} (hrbp : m.rbp = b.rsp - 8)
    (hsaved : readBytes m.mem (b.rsp - 8) 8 = BitVec.ofInt 64 b.rbp)
    (hmem : ∀ a, b.rsp ≤ a → m.mem a = b.mem a) (hnonneg : 0 ≤ b.rbp)
    (hlt : b.rbp < 2 ^ 64) :
    ∃ m', run E [.label .return_, .movRspRbp, .popRbp] m = some m' ∧ b.SameFrame m' ∧
      m'.reg = m.reg := by
  refine ⟨_, rfl, ⟨?_, ?_, fun a ha => hmem a ha⟩, rfl⟩
  · simp only [Machine.drop_rsp]
    omega
  · have htop : readBytes m.mem m.rbp 8 = BitVec.ofInt 64 b.rbp := by rw [hrbp, hsaved]
    change ((readBytes m.mem m.rbp 8).toNat : Int) = b.rbp
    rw [htop, BitVec.toNat_ofInt]
    omega

/-! ## Procedures -/

/-- A procedure in the text of a program, with its tables and its frame as they were built. -/
structure Installed (I : Image) (tables : List Hashtable) (globals : List (String × Symbol))
    (ident : Token) (sig : ProcSignature) (stmts : List AstNode) (t : Option Nat) (size : Int) :
    Prop where
  code : ∃ before rest after gen gen',
    I.text = before ++ .label (.proc ident.value) :: (rest ++ after) ∧
    proc ident (some (emit tables (.block stmts t))) (.procedure sig) size gen =
      .ok ((), .global ident.value :: .label (.proc ident.value) :: rest, gen') ∧
    (∀ i ∈ rest, i.defines? = none) ∧ TargetsUnique (untilProc (rest ++ after))
  sight : InSight tables t (stmts.flatMap AstNode.declared ++ sig.params.map Param.declared) globals
  built : ∀ stmt ∈ stmts, ∃ lo, Scoped tables lo t stmt
  framed : Framed size (sig.params.map Param.declared) (.block stmts t)
  size_nonneg : 0 ≤ size
  shape : Shape .block (.block stmts t)
  calls : (AstNode.block stmts t).SimpleCalls
  names : (AstNode.block stmts t).Distinct

/-- The lines of a procedure behind its label. -/
theorem Image.lines_of_targets {before rest after : List Instr} {name : String} {ret : Nat}
    (htext : I.text = before ++ .label (.proc name) :: (rest ++ after))
    (hrest : ∀ i ∈ rest, i.defines? = none) (hunique : TargetsUnique (untilProc (rest ++ after)))
    (hret : I.text[ret]? = some (.label .return_)) (hlo : before.length + 1 ≤ ret)
    (hhi : ret < before.length + 1 + rest.length) :
    Lines I (before.length + 1) (before.length + 1 + rest.length) ret := by
  have hlen : rest.length ≤ (untilProc (rest ++ after)).length := by
    rw [untilProc_append hrest, List.length_append]
    omega
  have hresolves := resolves_of_unique htext hunique
  exact ⟨fun pc j l hpc hpc' hj hj' => hresolves pc j l hpc (by omega) hj (by omega), hret, hlo, hhi⟩

/-- From its label, a procedure returns what its body means. -/
theorem Installed.replies {ident : Token} {sig : ProcSignature} {stmts : List AstNode}
    {t : Option Nat} {rounds : Nat} (h : Installed I tables globals ident sig stmts t size)
    (hprocs : Delivers I P globals need) (hneed : 0 ≤ need)
    (hbind : bindParams sig.params ws = some vars)
    (heval : evalStmt P rounds (.block stmts t) vars = some (.returned w)) (hm : Supplied ws m)
    (hroom : m.Room (need + size + 8 + 8 * (AstNode.block stmts t).traverseDepth)) :
    Replies I ident.value w m := by
  obtain ⟨before, rest, after, gen, gen', htext, hproc, hrest, hunique⟩ := h.code
  obtain ⟨sig', params, tb, code, hsig, hparams, hbody, hproctext⟩ := proc_text hproc
  cases hsig
  let entry : List Instr := .label (.proc ident.value) :: .pushRbp :: .movRbpRsp ::
    .subRsp size :: params
  let exit : List Instr := [.label .return_, .movRspRbp, .popRbp]
  obtain rfl : rest = .pushRbp :: .movRbpRsp :: .subRsp size :: (params ++
      (code ++ [.label .return_, .movRspRbp, .popRbp, .ret])) := by
    simpa using hproctext
  -- where the parts of the procedure are
  have hall : At I.text before.length (entry ++ (code ++ (exit ++ [.ret]))) := by
    have heq : I.text = before ++ ((entry ++ (code ++ (exit ++ [.ret]))) ++ after) := by
      simp [htext, entry, exit]
    exact at_of_eq heq
  obtain ⟨hentry, hall⟩ := at_append.mp hall
  obtain ⟨hcode, hall⟩ := at_append.mp hall
  obtain ⟨hexit, hret⟩ := at_append.mp hall
  have hlen : entry.length = params.length + 4 := rfl
  have hlines := I.lines_of_targets htext hrest hunique (at_cons.mp hexit).1 (by omega)
    (by simp only [List.length_cons, List.length_append]; omega)
  have hslots : LaidOut (-size) 0 (sig.params.map Param.slot) := by
    refine h.framed.subperm (List.Sublist.subperm ?_)
    rw [List.map_append, List.map_map]
    exact List.sublist_append_left _ _
  -- the prologue
  obtain ⟨m₁, hrun₁, hentered⟩ := run_entry (E := I.env) ident.value hparams hslots m
  have hreach₁ := Image.reaches_of_run hentry hrun₁
  have hsize := h.size_nonneg
  have hrsp₁ : m₁.rsp = m₁.rbp - size := by rw [hentered.rsp, hentered.rbp]
  have hvars := hentered.reflects hbind hm hslots
  have hlow := hroom.low
  have hhigh := hroom.high
  have hroom₁ : m₁.Room (need + 8 * (AstNode.block stmts t).traverseDepth) :=
    ⟨by rw [hentered.rsp]; omega, by rw [hentered.rsp]; omega, by rw [hentered.rbp]; omega,
      by rw [hentered.rbp]; omega⟩
  -- the body
  rw [emit] at hbody
  obtain ⟨-, hbody⟩ := statement_ok.mp hbody
  have hchild {stmt : AstNode} (hstmt : stmt ∈ stmts) : stmt ∈ (AstNode.block stmts t).parts := hstmt
  have hexecs (stmt : AstNode) (hstmt : stmt ∈ stmts) :
      Executes I tables globals P rounds need size (before.length + 1) _ _ stmt :=
    stmt_executes hlines hprocs (by cases h.shape with | block hstmts => exact hstmts stmt hstmt)
      (h.calls.part (hchild hstmt)) (h.names.part (hchild hstmt))
  have hsites (stmt : AstNode) (hstmt : stmt ∈ stmts) :=
    Site.of_block h.sight (h.built stmt hstmt) h.framed h.names.block hstmt
  have hapart : ∀ a ∈ sig.params.map Param.declared, ∀ b ∈ stmts.flatMap AstNode.vars,
      Disjoint a.2.slot b.2.slot := by
    have hdisjoint := h.framed.disjoint
    rw [List.map_append] at hdisjoint
    exact fun a ha b hb => (List.pairwise_append.mp hdisjoint).2.2 _ (List.mem_map_of_mem ha) _
      (List.mem_map_of_mem hb)
  obtain ⟨q, m₂, hreach₂, hspared, rfl, hval⟩ := block_executed hexecs hsites hbody heval hcode
    (by omega) (by simp only [List.length_cons, List.length_append]; omega) hvars hroom₁ hrsp₁ hapart
  -- the epilogue
  have houtside : ∀ a, m.rsp - 8 ≤ a → m₂.mem a = m₁.mem a := by
    refine fun a ha => hspared.mem a (by rw [hentered.rsp]; omega) fun decl hdecl hmem => ?_
    have hinside := h.framed.inside _ (List.mem_map_of_mem (List.mem_append_right _ hdecl))
    have := (hinside hmem).2
    rw [hentered.rbp] at this
    omega
  obtain ⟨m₃, hrun₃, hframe, hregs⟩ := run_exit (E := I.env) (b := m)
    (hspared.rbp.trans hentered.rbp)
    ((readBytes_congr fun a ha _ => houtside a ha).trans hentered.saved)
    (fun a ha => (houtside a (by omega)).trans (hentered.caller a ha)) hroom.rbp_nonneg hroom.rbp_lt
  have hreach₃ := Image.reaches_of_run hexit hrun₃
  have hlabel := (at_cons.mp hentry).1
  have hlt := (List.getElem?_eq_some_iff.mp hlabel).1
  refine ⟨before.length, _, m₃, by omega, I.symbol_eq _ _ hlabel,
    (hreach₁.trans hreach₂).trans hreach₃, at_singleton.mp hret, hframe, ?_⟩
  rw [Machine.get, hregs]
  exact hval

/-! ## Programs -/

section
variable {node node' : AstNode} {nodes : List AstNode} {st st' : Symboltable} {text : List Instr}

theorem buildTo_proc_size {depth : Nat} {op ident : Token} {body : AstNode} {sig : ProcSignature}
    {table : Option Nat} (hshape : Shape .decl node)
    (h : buildTo depth node st = .ok (.proc op ident (some body) (.procedure sig) table size, st')) :
    0 ≤ size := by
  obtain ⟨d, body₀, params₀, table₀, size₀, st₁, st₂, stmts, rfl, hbody, -, hbuild, -, hparams,
    rfl⟩ := buildTo_proc hshape h
  have hslots := @buildTo_allots _ _ _ _ AstNode.slot _
    (fun _ _ _ _ hpre hproc _ hlen => hpre.allots hproc hlen) hbuild
    (hbody.procFree (by simp) (by simp))
  exact (hslots.append (procPostParams_allots hparams)).1

/-- The code of one of several nodes in the text of all. -/
theorem emitSeq_split (h : emitSeq (emits tables nodes) gen = .ok ((), text, gen'))
    (hnode : node ∈ nodes) : ∃ gen₁ ty c gen₂ before after,
      emit tables node gen₁ = .ok (ty, c, gen₂) ∧ text = before ++ (c ++ after) := by
  induction nodes generalizing gen text with
  | nil => cases hnode
  | cons n nodes ih =>
    obtain ⟨ty, c, gen₁, rest, hfirst, hrest, rfl⟩ := discard_bind_ok.mp h
    rcases List.mem_cons.mp hnode with rfl | hnode
    · exact ⟨gen, ty, c, gen₁, [], rest, hfirst, rfl⟩
    · obtain ⟨gen₂, ty', c', gen₃, before, after, hemit, rfl⟩ := ih hrest hnode
      exact ⟨gen₂, ty', c', gen₃, c ++ before, after, hemit, by simp⟩

/-- What a name stands for at the top level. -/
theorem lookup_globals {decls : List AstNode} {name : String} :
    (decls.flatMap AstNode.global).lookup name =
      (decls.find? fun decl => (decl.global.lookup name).isSome).bind (·.global.lookup name) := by
  induction decls with
  | nil => rfl
  | cons decl decls ih =>
    rw [List.flatMap_cons, List.lookup_append, ih, List.find?_cons]
    cases hdecl : decl.global.lookup name with
    | none => simp
    | some sym => simp [hdecl]

theorem AstNode.procNamed?_eq_some {decls : List AstNode} {t : Option Nat} {name : String}
    {sig : ProcSignature} {body : AstNode}
    (h : (AstNode.block decls t).procNamed? name = some (sig, body)) :
    ∃ op ident table size, .proc op ident (some body) (.procedure sig) table size ∈ decls ∧
      ident.value = name ∧ (AstNode.block decls t).globals.lookup name =
        some { kind := .procedure, type := .procedure sig } := by
  unfold procNamed? at h
  split at h
  · rename_i op ident body' sig' table size hfind
    cases h
    have hsome := List.find?_some hfind
    have hname : ident.value = name := by
      by_contra hne
      rw [global, List.lookup_cons, beq_eq_false_iff_ne.mpr (Ne.symm hne)] at hsome
      cases hsome
    refine ⟨op, ident, table, size, List.mem_of_find?_eq_some hfind, hname, ?_⟩
    rw [globals, children, lookup_globals]
    rw [children] at hfind
    rw [hfind, Option.bind_some, global, hname, List.lookup_cons_self]
  · cases h

/-- The text of a procedure, and what follows it. -/
theorem codegen_proc {root' : AstNode} {data : List DataLine} {op ident : Token} {body : AstNode}
    {type : Ty} {table : Option Nat} {size : Int} (hshape : Shape .program root')
    (hfor : root'.AllKinds (· ≠ .for_)) (h : codegen tables root' = .ok (text, data))
    (hproc : .proc op ident (some body) type table size ∈ root'.children) :
    ∃ before rest after gen gen',
      text = before ++ .label (.proc ident.value) :: (rest ++ after) ∧
      proc ident (some (emit tables body)) type size gen =
        .ok ((), .global ident.value :: .label (.proc ident.value) :: rest, gen') ∧
      (∀ i ∈ rest, i.defines? = none) ∧ TargetsUnique (untilProc (rest ++ after)) := by
  cases hshape with
  | @program decls t hdecls =>
    obtain ⟨⟨ty, text, gen⟩, hemit, heq⟩ := Except.bind_ok.mp h
    cases heq
    rw [emit] at hemit
    obtain ⟨gen₁, hseq, -⟩ := block_ok (statement_ok.mp hemit).2
    have hparts := (AstNode.allKinds_iff.mp hfor).2
    obtain ⟨gen₂, ty', c, gen₃, before, after, hdecl, rfl⟩ := emitSeq_split hseq hproc
    rw [emit] at hdecl
    obtain ⟨-, hdecl⟩ := statement_ok.mp hdecl
    have hbody : Shape .block body := by
      cases hdecls _ hproc with
      | proc hbody => exact hbody body rfl
    have hnested := hbody.nested (by simp) (by simp) <|
      (AstNode.allKinds_iff.mp (hparts _ hproc)).2 body (by simp [AstNode.parts, AstNode.children])
    obtain ⟨rest, rfl, hrest, -⟩ := proc_targets hnested hdecl
    refine ⟨before ++ [.global ident.value], rest, after, gen₂, gen₃, by simp, hdecl, hrest, ?_⟩
    exact (emitSeq_targets hdecls hparts hseq).2 ident.value _
      ⟨before ++ [.global ident.value], by simp⟩

/-- The tables in which the body of a procedure is. -/
theorem ProcScoped.inSight {lo : Nat} {op ident : Token} {stmts : List AstNode} {sig : ProcSignature}
    {t table : Option Nat} {size : Int} {ht : Hashtable}
    (h : ProcScoped tables lo (some 0)
      (.proc op ident (some (.block stmts t)) (.procedure sig) table size))
    (hget : tables[0]? = some ht) (hparent : ht.parent = none) (hbinds : Binds ht globals) :
    InSight tables t (stmts.flatMap AstNode.declared ++ sig.params.map Param.declared) globals ∧
      ∀ stmt ∈ stmts, ∃ lo, Scoped tables lo t stmt := by
  obtain ⟨stmts, t, ht', heq, -, hget', hparent', hscope, hbinds', hstmts⟩ := h _ _ _ _ _ _ rfl
  cases heq
  have hroot : Chain tables (some 0) [globals] :=
    .cons hget hbinds (by simp [hparent]) (hparent ▸ .nil)
  have hchain := Chain.cons hget' hbinds' (hparent' ▸ hscope) (hparent' ▸ hroot)
  exact ⟨⟨_, hchain, by simp⟩, fun stmt hstmt => ⟨_, hstmts stmt hstmt⟩⟩

/-- The slots of the variables and parameters of a procedure. -/
theorem buildTo_proc_framed {depth : Nat} {op ident : Token} {stmts : List AstNode}
    {sig : ProcSignature} {t table : Option Nat} (hshape : Shape .decl node)
    (h : buildTo depth node st =
      .ok (.proc op ident (some (.block stmts t)) (.procedure sig) table size, st')) :
    Framed size (sig.params.map Param.declared) (.block stmts t) := by
  have hbody : ((AstNode.block stmts t).children.flatMap AstNode.vars).map (fun decl => decl.2.slot)
      |>.Subperm (AstNode.block stmts t).slots := by
    have hvars := (AstNode.block stmts t).vars_eq
    rw [AstNode.declared_eq_nil (by simp [AstNode.kind]), List.nil_append] at hvars
    rw [← hvars]
    exact (List.sublist_append_left _ _).subperm.trans (AstNode.slots_perm _).subperm
  refine (buildTo_proc_laidOut hshape h).subperm ?_
  rw [List.map_append, List.map_map]
  exact (List.perm_append_comm.subperm).trans ((List.subperm_append_right _).mpr hbody)

/-- Every procedure of a program with a body is in its text. -/
theorem codegen_installed {root root' : AstNode} {data : List DataLine} {op ident : Token}
    {body₀ : AstNode} {sig₀ : ProcSignature} {table₀ : Option Nat} {size₀ : Int}
    (hshape : Shape .program root) (hbuild : symboltableBuild root.expanded = .ok (root', st))
    (hcodegen : codegen st.tables root' = .ok (I.text, data)) (hcalls : root'.SimpleCalls)
    (hnames : root'.Distinct) (hsteps : root.StepsApart)
    (hproc : .proc op ident (some body₀) (.procedure sig₀) table₀ size₀ ∈ root.children) :
    ∃ stmts t params table size,
      Installed I st.tables root.globals ident { sig₀ with params } stmts t size ∧
      Annotates sig₀ body₀ { sig₀ with params } (.block stmts t) ∧
      .proc op ident (some (.block stmts t)) (.procedure { sig₀ with params }) table size ∈
        root'.children := by
  have hshape' := hshape.expanded.annotated (symboltableBuild_ok.mp hbuild)
  have hfor := allKinds_buildTo (symboltableBuild_ok.mp hbuild) (forFree_expanded hshape)
  obtain ⟨⟨ht, hget, hparent, hbinds⟩, hscoped⟩ := symboltableBuild_scoped hshape.expanded hbuild
  cases hshape with
  | @program decls₀ t₀ hdecls₀ =>
    obtain ⟨nodes, rfl, hvisits⟩ := symboltableBuild_visits (.program hdecls₀) hbuild
    obtain ⟨d', hzip, depth, st₁, st₂, hvisit⟩ := exists_of_forall₂ hvisits hproc
    have hd' := (List.of_mem_zip hzip).2
    have hdecl := (hdecls₀ _ hproc).expanded
    have hbody₀ :
        body₀ ∈ (AstNode.proc op ident (some body₀) (.procedure sig₀) table₀ size₀).parts := by
      simp [AstNode.parts, AstNode.children]
    obtain ⟨stmts, t, params, size, rfl, hannotates⟩ := buildTo_annotates (hdecls₀ _ hproc)
      ((hsteps.part (AstNode.mem_parts_of_children hproc)).part hbody₀) hvisit
    refine ⟨stmts, t, params, t, size, ?_, hannotates, hd'⟩
    have hpart : AstNode.block stmts t ∈ (AstNode.proc op ident (some (.block stmts t))
        (.procedure { sig₀ with params }) t size).parts := by
      simp [AstNode.parts, AstNode.children]
    have hroot : AstNode.proc op ident (some (.block stmts t)) (.procedure { sig₀ with params }) t
        size ∈ (AstNode.block nodes (some 0)).parts := hd'
    obtain ⟨hsight, hbuilt⟩ := (hscoped _ (AstNode.mem_subtrees.mpr (.inr ⟨_, hroot,
      AstNode.mem_subtrees_self⟩)) rfl).inSight hget hparent hbinds
    refine ⟨codegen_proc hshape' hfor hcodegen hd', ?_, hbuilt, buildTo_proc_framed hdecl hvisit,
      buildTo_proc_size hdecl hvisit, ?_, (hcalls.part hroot).part hpart,
      (hnames.part hroot).part hpart⟩
    · rwa [AstNode.globals_expanded] at hsight
    · cases hshape' with
      | program hdecls' =>
        cases hdecls' _ hd' with
        | proc hblock => exact hblock _ rfl

theorem bindParams_kinds (h : bindParams params ws = some vars) :
    params.map (·.type.kind) = ws.map (·.type.ty.kind) := by
  induction params generalizing ws vars with
  | nil =>
    cases ws with
    | nil => rfl
    | cons => cases h
  | cons param params ih =>
    cases ws with
    | nil => cases h
    | cons w ws =>
      obtain ⟨rest, hrest, h⟩ := Option.bind_eq_some_iff.mp h
      split at h
      · rename_i hkind
        rw [List.map_cons, List.map_cons, ih hrest, hkind]
      · cases h

/-- The stack that a call of a procedure takes, less that of the calls that it makes. -/
def AstNode.frameBytes : AstNode → Int
  | .proc _ _ (some body) _ _ stackSize => stackSize + 8 + 8 * body.traverseDepth
  | _ => 0

/-- The most stack that a call of any procedure takes. -/
def AstNode.stackBytes (root : AstNode) : Int := (root.children.map frameBytes).foldr max 0

theorem AstNode.stackBytes_nonneg (root : AstNode) : 0 ≤ root.stackBytes := by
  unfold stackBytes
  induction root.children with
  | nil => exact le_rfl
  | cons decl decls ih => exact ih.trans (le_max_right _ _)

theorem AstNode.frameBytes_le {root decl : AstNode} (h : decl ∈ root.children) :
    decl.frameBytes ≤ root.stackBytes := by
  unfold stackBytes
  generalize root.children = decls at h
  induction decls with
  | nil => cases h
  | cons d decls ih =>
    rcases List.mem_cons.mp h with rfl | h
    · exact le_max_left _ _
    · exact (ih h).trans (le_max_right _ _)

theorem delivers_meaning {root root' : AstNode} {data : List DataLine}
    (hshape : Shape .program root) (hbuild : symboltableBuild root.expanded = .ok (root', st))
    (hcodegen : codegen st.tables root' = .ok (I.text, data)) (hcalls : root'.SimpleCalls)
    (hnames : root'.Distinct) (hsteps : root.StepsApart) (depth : Nat) :
    Delivers I (meaning root depth) root.globals (depth * root'.stackBytes) := by
  induction depth with
  | zero =>
    intro name ws w h
    cases h
  | succ depth ih =>
    intro name ws w h
    rw [meaning] at h
    obtain ⟨⟨sig, body⟩, hproc, h⟩ := Option.bind_eq_some_iff.mp h
    obtain ⟨vars, hbind, h⟩ := Option.bind_eq_some_iff.mp h
    obtain ⟨ending, heval, h⟩ := Option.bind_eq_some_iff.mp h
    cases ending with
    | normal => cases h
    | returned v =>
      simp only at h
      split at h
      · rename_i hkind
        cases h
        obtain ⟨decls, t, rfl⟩ : ∃ decls t, root = .block decls t := by
          cases hshape with | program => exact ⟨_, _, rfl⟩
        obtain ⟨op, ident, table₀, size₀, hdecl, rfl, hlookup⟩ := AstNode.procNamed?_eq_some hproc
        obtain ⟨stmts, t', params, table, size, hinstalled, ⟨-, hparams, hcarries⟩, hdecl'⟩ :=
          codegen_installed hshape hbuild hcodegen hcalls hnames hsteps hdecl
        refine ⟨sig, hlookup, bindParams_kinds hbind, WordTy.eq_of_kind hkind.symm,
          fun m hm hroom => ?_⟩
        have hbytes := AstNode.frameBytes_le hdecl'
        rw [AstNode.frameBytes] at hbytes
        refine hinstalled.replies ih ?_ ((hparams ws).trans hbind)
          ((hcarries .refl).stmt _ _ _ heval) hm
          (hroom.mono ?_)
        · exact Int.mul_nonneg (Int.natCast_nonneg _) root'.stackBytes_nonneg
        · push_cast
          rw [add_mul, one_mul]
          omega
      · cases h

/-- If a procedure of a program means something, the code of the program returns that from the label
of the procedure on, with the stack and the frame as they were, wherever the text is in memory. -/
theorem program_returns {fuel : Nat} {garbage : List Nat} {toks : List Token}
    {root root' root'' : AstNode} {p : Parser} {data : List DataLine} {depth : Nat} {name : String}
    {args : List Number} (hparse : parse fuel garbage toks = .ok root p)
    (hexpand : expandAst root = .ok root') (hbuild : symboltableBuild root' = .ok (root'', st))
    (hcodegen : codegen st.tables root'' = .ok (I.text, data)) (hcalls : root''.SimpleCalls)
    (hnames : root''.Distinct) (hsteps : root.StepsApart)
    (hmeaning : meaning root depth name args = some w)
    (hargs : Supplied args m) (hroom : m.Room (depth * root''.stackBytes)) :
    Replies I name w m := by
  have hshape := parse_shape hparse
  cases (expandAst_eq hshape).symm.trans hexpand
  obtain ⟨sig, -, -, -, hreplies⟩ :=
    delivers_meaning hshape hbuild hcodegen hcalls hnames hsteps depth name args w hmeaning
  exact hreplies m hargs hroom

end

/-- ```
proc pick(n: int, flag: int) int { while flag { return n; } return 0; }
proc fact(n: int) int {
    if n { let rest: int = fact(n - 1); return pick(n * rest, 1); }
    return 1;
}
``` -/
def factorial : List Token :=
  [{ kind := .kwProc }, .ident "pick", { kind := .lparen }, .ident "n", { kind := .colon },
    { kind := .kwTypeInt }, { kind := .comma }, .ident "flag", { kind := .colon },
    { kind := .kwTypeInt }, { kind := .rparen }, { kind := .kwTypeInt }, { kind := .lbrace },
    { kind := .kwWhile }, .ident "flag", { kind := .lbrace }, { kind := .kwReturn }, .ident "n",
    { kind := .semicolon }, { kind := .rbrace }, { kind := .kwReturn }, .num 0,
    { kind := .semicolon }, { kind := .rbrace },
    { kind := .kwProc }, .ident "fact", { kind := .lparen }, .ident "n", { kind := .colon },
    { kind := .kwTypeInt }, { kind := .rparen }, { kind := .kwTypeInt }, { kind := .lbrace },
    { kind := .kwIf }, .ident "n", { kind := .lbrace }, { kind := .kwVardecl }, .ident "rest",
    { kind := .colon }, { kind := .kwTypeInt }, { kind := .assign }, .ident "fact",
    { kind := .lparen }, .ident "n", { kind := .minus }, .num 1, { kind := .rparen },
    { kind := .semicolon }, { kind := .kwReturn }, .ident "pick", { kind := .lparen }, .ident "n",
    { kind := .asterisk }, .ident "rest", { kind := .comma }, .num 1, { kind := .rparen },
    { kind := .semicolon }, { kind := .rbrace }, { kind := .kwReturn }, .num 1,
    { kind := .semicolon }, { kind := .rbrace }, .eof]

theorem program_returns_factorial :
    ∃ (I : Image) (root'' : AstNode) (st : Symboltable) (data : List DataLine),
      codegen st.tables root'' = .ok (I.text, data) ∧
      Replies I "fact" ⟨.int, 6⟩ { Machine.zero with reg := fun _ => 3, rsp := 65536 } := by
  obtain ⟨root₀, p₀, hparse₀, hmeaning⟩ :=
    @of_parsesTo (fun root => root.StepsApart ∧
      meaning root 6 "fact" [⟨.int, 3⟩] = some ⟨.int, 6⟩) 100 factorial (by decide +kernel)
  obtain ⟨root, p, root', root'', st, hparse, hexpand, hbuild, htest⟩ :=
    @of_annotatesTo (fun _ root tables => decide (root.SimpleCalls ∧ root.Distinct ∧
      root.stackBytes ≤ 1000) && emitsText (fun text => text.length < 2 ^ 64 ∧
        (text.filter Instr.entry).Nodup) root tables) 100 factorial (by decide +kernel)
  cases hparse₀.symm.trans hparse
  obtain ⟨hsteps, hmeaning⟩ := of_decide_eq_true hmeaning
  obtain ⟨hconds, htext⟩ := Bool.and_eq_true_iff.mp htest
  obtain ⟨hcalls, hnames, hbytes⟩ := of_decide_eq_true hconds
  obtain ⟨text, data, hcodegen, htext⟩ := of_emitsText htext
  obtain ⟨hlen, hnodup⟩ := of_decide_eq_true htext
  refine ⟨.packed text hlen hnodup, root'', st, data, hcodegen, ?_⟩
  refine program_returns hparse hexpand hbuild hcodegen hcalls hnames hsteps hmeaning
    (fun i w hi => ?_) ⟨?_, ?_, ?_, ?_⟩
  · cases i with
    | zero =>
      cases hi
      exact ⟨.rdi, rfl, rfl⟩
    | succ i => cases hi
  · change (6 : Int) * root''.stackBytes ≤ 65536
    omega
  all_goals decide

end Seron
