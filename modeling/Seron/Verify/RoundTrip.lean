import Seron.Verify.ParserComplete
import Seron.Verify.Printing

/-! # Parsing undoes printing

The printed tokens of a tree are tokens it can be read from, so the parser returns the tree. -/

namespace Seron

/-! ## Printable types -/

mutual

/-- The types that can be written down, with names and parameter lists that fit into their
arrays. -/
def Ty.Printable : Ty → Prop
  | .int | .char | .long | .void => True
  | .pointer (some ty) => ty.Printable
  | .procedure sig => sig.Printable
  | .object name => name.length < maxIdentLen
  | .pointer none | .invalid | .table _ => False

def ProcSignature.Printable : ProcSignature → Prop
  | ⟨params, returntype⟩ =>
    params.length < maxParamCount ∧ Params.Printable params ∧ returntype.Printable

def Param.Printable : Param → Prop
  | ⟨type, ident, offset⟩ => offset = 0 ∧ ident.length < maxIdentLen ∧ type.Printable

def Params.Printable : List Param → Prop
  | [] => True
  | param :: params => param.Printable ∧ Params.Printable params

end

/-- The tokens of a program, without the end of the file. -/
def AstNode.printProgram : AstNode → List Token
  | .block decls _ => (decls.map AstNode.print).flatten
  | _ => []

/-! ## Printed tokens are read -/

theorem ident_mem_identOf {n : Nat} {name : String} (h : name.length ≤ n) :
    [Token.ident name] ∈ identOf n name :=
  ⟨.ident name, rfl, strncpy_eq h, rfl⟩

theorem commaSeparated_mem {ls : List (Language Token)} {ps : List (List Token)}
    (h : List.Forall₂ (fun l p => p ∈ l) ls ps) : commaSeparated ps ∈ commas false ls := by
  induction h with
  | nil => exact commas_nil
  | @cons l p ls ps hp hps ih =>
    cases hps with
    | nil =>
      have hlast := commas_cons hp (.inr ⟨.inr rfl, rfl⟩) (commas_nil : [] ∈ commas false [])
      simpa [commaSeparated] using hlast
    | cons hp' hps =>
      have hcons := commas_cons hp (.inl (kind_mem_tokenOf .comma)) ih
      simpa [commaSeparated, List.intercalate] using hcons

mutual

theorem Ty.print_mem : ∀ ty : Ty, ty.Printable → ty.print ∈ ty.reads false
  | .int, _ => by
    rw [Ty.print, Ty.reads]
    exact kind_mem_tokenOf _
  | .char, _ => by
    rw [Ty.print, Ty.reads]
    exact kind_mem_tokenOf _
  | .long, _ => by
    rw [Ty.print, Ty.reads]
    exact kind_mem_tokenOf _
  | .void, _ => by
    rw [Ty.print, Ty.reads]
    exact kind_mem_tokenOf _
  | .pointer (some ty), h => by
    rw [Ty.print, Ty.reads]
    exact cons_mem_mul (kind_mem_tokenOf _) (ty.print_mem h)
  | .procedure sig, h => by
    rw [Ty.print, Ty.reads]
    exact cons_mem_mul (kind_mem_tokenOf _) (sig.print_mem h)
  | .object name, h => by
    rw [Ty.print, Ty.reads]
    exact ident_mem_identOf (Nat.le_pred_of_lt h)
  | .pointer none, h | .invalid, h | .table _, h => h.elim

theorem ProcSignature.print_mem : ∀ sig : ProcSignature, sig.Printable →
    sig.print ∈ sig.reads false
  | ⟨params, returntype⟩, ⟨hlength, hparams, hreturn⟩ => by
    rw [ProcSignature.print, ProcSignature.reads]
    exact onlyIf_mul_mem hlength (cons_mem_mul (kind_mem_tokenOf _) (Language.append_mem_mul
      (commaSeparated_mem (Params.print_mem params hparams)) (cons_mem_mul (kind_mem_tokenOf _)
        (returntype.print_mem hreturn))))

theorem Param.print_mem : ∀ param : Param, param.Printable → param.print ∈ param.reads false
  | ⟨type, ident, offset⟩, ⟨hoffset, hident, htype⟩ => by
    rw [Param.print, Param.reads]
    exact onlyIf_mul_mem hoffset (cons_mem_mul (ident_mem_identOf (Nat.le_of_lt hident))
      (cons_mem_mul (kind_mem_tokenOf _) (type.print_mem htype)))

theorem Params.print_mem : ∀ params : List Param, Params.Printable params →
    List.Forall₂ (fun l p => p ∈ l) (Params.reads false params) (Params.print params)
  | [], _ => .nil
  | param :: params, ⟨hparam, hparams⟩ =>
    .cons (param.print_mem hparam) (Params.print_mem params hparams)

end

theorem Nodes.print_mem {es : List AstNode} (h : ∀ e ∈ es, e.print ∈ e.reads false) :
    List.Forall₂ (fun l p => p ∈ l) (Nodes.reads false es) (Nodes.print es) := by
  induction es with
  | nil => exact .nil
  | cons e es ih =>
    obtain ⟨he, hes⟩ := List.forall_mem_cons.mp h
    exact .cons he (ih hes)

theorem Stmts.print_mem {stmts : List AstNode} (h : ∀ s ∈ stmts, s.print ∈ s.reads false) :
    Stmts.print stmts ∈ Stmts.reads false stmts := by
  induction stmts with
  | nil => exact Language.nil_mem_one
  | cons stmt stmts ih =>
    obtain ⟨hstmt, hstmts⟩ := List.forall_mem_cons.mp h
    rw [Stmts.print, Stmts.reads]
    refine Language.append_mem_mul hstmt (Language.append_mem_mul ?_ (ih hstmts))
    split
    · exact Language.nil_mem_one
    · exact kind_mem_tokenOf _

theorem OptNode.print_mem {absent front : Language Token} {ps qs : List Token}
    {node : Option AstNode} (habsent : ps ∈ absent) (hfront : qs ∈ front)
    (h : ∀ e ∈ node, e.print ∈ e.reads false) :
    OptNode.print ps qs node ∈ OptNode.reads false absent front node := by
  cases node with
  | none => exact habsent
  | some e => exact Language.append_mem_mul hfront (h e rfl)

/-- A tree can be read from the tokens it is printed to. -/
theorem Tree.print_mem {l : Level} {e : AstNode} (h : Tree Ty.Printable l e) (hl : l ≠ .program) :
    e.print ∈ e.reads false := by
  have one : [] ∈ (1 : Language Token) := Language.nil_mem_one
  induction h with
  | literal =>
    rw [AstNode.print, AstNode.reads]
    exact mem_singleton
  | grouping _ ih =>
    rw [AstNode.print, AstNode.reads]
    exact cons_mem_mul (kind_mem_tokenOf _)
      (Language.append_mem_mul (ih nofun) (kind_mem_tokenOf _))
  | ofPrimary _ ih | ofCall _ ih | ofIndex _ ih | tighter _ ih | ofBinary _ ih | ofAssign _ ih
  | exprstmt _ ih | blockstmt _ ih => exact ih nofun
  | call _ _ _ ih ihargs =>
    rw [AstNode.print, AstNode.reads]
    exact Language.append_mem_mul (ih nofun) (cons_mem_mul mem_singleton (Language.append_mem_mul
      (commaSeparated_mem (Nodes.print_mem fun e he => ihargs e he nofun)) (kind_mem_tokenOf _)))
  | index _ _ _ ih ihi =>
    rw [AstNode.print, AstNode.reads]
    exact Language.append_mem_mul (ih nofun) (cons_mem_mul mem_singleton
      (Language.append_mem_mul (ihi nofun) (kind_mem_tokenOf _)))
  | unaryop _ _ ih =>
    rw [AstNode.print, AstNode.reads]
    exact cons_mem_mul mem_singleton (ih nofun)
  | binop _ _ _ _ ihlhs ihrhs =>
    rw [AstNode.print, AstNode.reads]
    exact Language.append_mem_mul (ihlhs nofun) (cons_mem_mul mem_singleton (ihrhs nofun))
  | assign _ _ _ ihvalue ihtarget =>
    rw [AstNode.print, AstNode.reads]
    exact Language.append_mem_mul (ihtarget nofun) (cons_mem_mul mem_singleton (ihvalue nofun))
  | array _ _ htype ihvalues =>
    rw [AstNode.print, AstNode.reads]
    exact cons_mem_mul mem_singleton (Language.append_mem_mul
      (commaSeparated_mem (Nodes.print_mem fun e he => ihvalues e he nofun))
      (cons_mem_mul (kind_mem_tokenOf _) (Ty.print_mem _ htype)))
  | vardecl _ _ htype _ ihinit =>
    rw [AstNode.print, AstNode.reads]
    exact cons_mem_mul mem_singleton (cons_mem_mul mem_singleton (cons_mem_mul (kind_mem_tokenOf _)
      (Language.append_mem_mul (Ty.print_mem _ htype) (Language.append_mem_mul
        (OptNode.print_mem one (kind_mem_tokenOf _) fun e he => ihinit e he nofun)
        (kind_mem_tokenOf _)))))
  | if_ _ _ _ _ ihcond ihthen ihelse =>
    rw [AstNode.print, AstNode.reads]
    exact cons_mem_mul mem_singleton (Language.append_mem_mul (ihcond nofun)
      (Language.append_mem_mul (ihthen nofun)
        (OptNode.print_mem one (kind_mem_tokenOf _) fun e he => ihelse e he nofun)))
  | while_ _ _ _ ihcond ihbody =>
    rw [AstNode.print, AstNode.reads]
    exact cons_mem_mul mem_singleton (Language.append_mem_mul (ihcond nofun) (ihbody nofun))
  | for_ _ _ htype _ _ _ _ ihinit ihcond ihstep ihbody =>
    rw [AstNode.print, AstNode.reads]
    exact cons_mem_mul mem_singleton (cons_mem_mul mem_singleton (cons_mem_mul (kind_mem_tokenOf _)
      (Language.append_mem_mul (Ty.print_mem _ htype) (cons_mem_mul (kind_mem_tokenOf _)
        (Language.append_mem_mul (ihinit nofun) (cons_mem_mul (kind_mem_tokenOf _)
          (Language.append_mem_mul (ihcond nofun) (cons_mem_mul (kind_mem_tokenOf _)
            (Language.append_mem_mul (ihstep nofun) (ihbody nofun))))))))))
  | return_ _ _ ihvalue =>
    rw [AstNode.print, AstNode.reads]
    exact cons_mem_mul mem_singleton (Language.append_mem_mul
      (OptNode.print_mem one one fun e he => ihvalue e he nofun) (kind_mem_tokenOf _))
  | block _ ih =>
    rw [AstNode.print, AstNode.reads]
    exact cons_mem_mul (kind_mem_tokenOf _) (Language.append_mem_mul
      (Stmts.print_mem fun s hs => ih s hs nofun) (kind_mem_tokenOf _))
  | proc _ _ htype _ ihbody =>
    rw [AstNode.print, AstNode.reads]
    exact cons_mem_mul mem_singleton (cons_mem_mul mem_singleton (Language.append_mem_mul
      (ProcSignature.print_mem _ htype)
      (OptNode.print_mem (kind_mem_tokenOf _) one fun e he => ihbody e he nofun)))
  | program => exact absurd rfl hl

/-! ## Printed tokens are none of the parser's own -/

/-- No token is the sentinel. -/
def Genuine (ts : List Token) : Prop := ∀ t ∈ ts, t.kind ≠ .sentinel

namespace Genuine

variable {ts us : List Token} {t : Token}

theorem nil : Genuine [] := List.forall_mem_nil _

theorem cons (ht : t.kind ≠ .sentinel) (hts : Genuine ts) : Genuine (t :: ts) :=
  List.forall_mem_cons.mpr ⟨ht, hts⟩

theorem append (hts : Genuine ts) (hus : Genuine us) : Genuine (ts ++ us) :=
  List.forall_mem_append.mpr ⟨hts, hus⟩

theorem single (ht : t.kind ≠ .sentinel) : Genuine [t] := cons ht nil

theorem commaSeparated {ps : List (List Token)} (h : ∀ p ∈ ps, Genuine p) :
    Genuine (commaSeparated ps) := by
  induction ps with
  | nil => exact nil
  | cons p ps ih =>
    obtain ⟨hp, hps⟩ := List.forall_mem_cons.mp h
    cases ps with
    | nil => simpa [Seron.commaSeparated] using hp
    | cons p' ps =>
      have hcons := hp.append (.cons (t := { kind := .comma }) (by simp) (ih hps))
      simpa [Seron.commaSeparated, List.intercalate] using hcons

end Genuine

mutual

theorem Ty.print_genuine : ∀ ty : Ty, Genuine ty.print
  | .int | .char | .long | .void | .object _ => by
    rw [Ty.print]
    exact .single nofun
  | .pointer (some ty) => by
    rw [Ty.print]
    exact .cons nofun ty.print_genuine
  | .procedure sig => by
    rw [Ty.print]
    exact .cons nofun sig.print_genuine
  | .pointer none | .invalid | .table _ => .nil

theorem ProcSignature.print_genuine : ∀ sig : ProcSignature, Genuine sig.print
  | ⟨params, returntype⟩ => by
    rw [ProcSignature.print]
    exact .cons nofun (.append (.commaSeparated (Params.print_genuine params))
      (.cons nofun returntype.print_genuine))

theorem Param.print_genuine : ∀ param : Param, Genuine param.print
  | ⟨type, ident, _⟩ => by
    rw [Param.print]
    exact .cons nofun (.cons nofun type.print_genuine)

theorem Params.print_genuine : ∀ params : List Param, ∀ p ∈ Params.print params, Genuine p
  | [] => List.forall_mem_nil _
  | param :: params =>
    List.forall_mem_cons.mpr ⟨param.print_genuine, Params.print_genuine params⟩

end

theorem Nodes.print_genuine {es : List AstNode} (h : ∀ e ∈ es, Genuine e.print) :
    ∀ p ∈ Nodes.print es, Genuine p := by
  induction es with
  | nil => exact List.forall_mem_nil _
  | cons e es ih =>
    obtain ⟨he, hes⟩ := List.forall_mem_cons.mp h
    exact List.forall_mem_cons.mpr ⟨he, ih hes⟩

theorem Stmts.print_genuine {stmts : List AstNode} (h : ∀ s ∈ stmts, Genuine s.print) :
    Genuine (Stmts.print stmts) := by
  induction stmts with
  | nil => exact .nil
  | cons stmt stmts ih =>
    obtain ⟨hstmt, hstmts⟩ := List.forall_mem_cons.mp h
    rw [Stmts.print]
    refine hstmt.append (.append ?_ (ih hstmts))
    split
    · exact .nil
    · exact .single nofun

theorem OptNode.print_genuine {ps qs : List Token} {node : Option AstNode} (hps : Genuine ps)
    (hqs : Genuine qs) (h : ∀ e ∈ node, Genuine e.print) : Genuine (OptNode.print ps qs node) := by
  cases node with
  | none => exact hps
  | some e => exact hqs.append (h e rfl)

theorem Tree.print_genuine {T : Ty → Prop} {l : Level} {e : AstNode} (h : Tree T l e)
    (hl : l ≠ .program) : Genuine e.print := by
  have kind {t : Token} {k : TokenKind} (h : t.kind = k) (hk : k ≠ .sentinel) :
      t.kind ≠ .sentinel := h ▸ hk
  induction h with
  | literal h =>
    rw [AstNode.print]
    exact .single (ne_of_mem_of_not_mem (literalFromToken_first h) (by decide))
  | grouping _ ih =>
    rw [AstNode.print]
    exact .cons nofun (.append (ih nofun) (.single nofun))
  | ofPrimary _ ih | ofCall _ ih | ofIndex _ ih | tighter _ ih | ofBinary _ ih | ofAssign _ ih
  | exprstmt _ ih | blockstmt _ ih => exact ih nofun
  | call hop _ _ ih ihargs =>
    rw [AstNode.print]
    exact .append (ih nofun) (.cons (kind hop nofun) (.append
      (.commaSeparated (Nodes.print_genuine fun e he => ihargs e he nofun)) (.single nofun)))
  | index hop _ _ ih ihi =>
    rw [AstNode.print]
    exact .append (ih nofun) (.cons (kind hop nofun) (.append (ihi nofun) (.single nofun)))
  | unaryop h _ ih =>
    rw [AstNode.print]
    exact .cons (ne_of_mem_of_not_mem (unaryopFromToken_first h) (by decide)) (ih nofun)
  | binop hop _ _ _ ihlhs ihrhs =>
    rw [AstNode.print]
    exact .append (ihlhs nofun) (.cons (binaryOps_stops hop).2.2 (ihrhs nofun))
  | assign hop _ _ ihvalue ihtarget =>
    rw [AstNode.print]
    exact .append (ihtarget nofun) (.cons (kind hop nofun) (ihvalue nofun))
  | array hop _ _ ihvalues =>
    rw [AstNode.print]
    exact .cons (kind hop nofun) (.append
      (.commaSeparated (Nodes.print_genuine fun e he => ihvalues e he nofun))
      (.cons nofun (Ty.print_genuine _)))
  | vardecl hop hident _ _ ihinit =>
    rw [AstNode.print]
    exact .cons (kind hop nofun) (.cons (kind hident nofun) (.cons nofun (.append
      (Ty.print_genuine _) (.append (OptNode.print_genuine .nil (.single nofun)
        fun e he => ihinit e he nofun) (.single nofun)))))
  | if_ hop _ _ _ ihcond ihthen ihelse =>
    rw [AstNode.print]
    exact .cons (kind hop nofun) (.append (ihcond nofun) (.append (ihthen nofun)
      (OptNode.print_genuine .nil (.single nofun) fun e he => ihelse e he nofun)))
  | while_ hop _ _ ihcond ihbody =>
    rw [AstNode.print]
    exact .cons (kind hop nofun) (.append (ihcond nofun) (ihbody nofun))
  | for_ hop hident _ _ _ _ _ ihinit ihcond ihstep ihbody =>
    rw [AstNode.print]
    exact .cons (kind hop nofun) (.cons (kind hident nofun) (.cons nofun (.append
      (Ty.print_genuine _) (.cons nofun (.append (ihinit nofun) (.cons nofun (.append
        (ihcond nofun) (.cons nofun (.append (ihstep nofun) (ihbody nofun))))))))))
  | return_ hop _ ihvalue =>
    rw [AstNode.print]
    exact .cons (kind hop nofun) (.append (OptNode.print_genuine .nil .nil
      fun e he => ihvalue e he nofun) (.single nofun))
  | block _ ih =>
    rw [AstNode.print]
    exact .cons nofun (.append (Stmts.print_genuine fun s hs => ih s hs nofun) (.single nofun))
  | proc hop hident _ _ ihbody =>
    rw [AstNode.print]
    exact .cons (kind hop nofun) (.cons (kind hident nofun) (.append (ProcSignature.print_genuine _)
      (OptNode.print_genuine (.single nofun) .nil fun e he => ihbody e he nofun)))
  | program => exact absurd rfl hl

/-! ## The round trip -/

/-- Parsing the printed tokens of a program gives the program, without a diagnostic and with
nothing left but the end of the file. -/
theorem parse_print {root : AstNode} (h : Tree Ty.Printable .program root) {fuel : Nat}
    (hfuel : root.printProgram.length < fuel) (garbage : List Nat) :
    ∃ p, parse fuel garbage (root.printProgram ++ [.eof]) = .ok root p ∧ p.toks = [.eof] ∧
      p.diags = [] := by
  cases h with
  | @program decls hdecls =>
    refine parse_complete hdecls ?_ ?_ hfuel garbage
    · clear hfuel
      induction decls with
      | nil => exact Language.nil_mem_one
      | cons d decls ih =>
        obtain ⟨hd, hdecls⟩ := List.forall_mem_cons.mp hdecls
        rw [List.map_cons, List.prod_cons]
        exact Language.append_mem_mul (hd.print_mem nofun) (ih hdecls)
    · intro t ht
      obtain ⟨_, hp, ht⟩ := List.mem_flatten.mp ht
      obtain ⟨d, hd, rfl⟩ := List.mem_map.mp hp
      exact (hdecls d hd).print_genuine nofun t ht

/-- `-x[0] + 1` -/
def negatedElement : AstNode :=
  .binop
    (.unaryop (.index { kind := .lbracket } (.literal (.ident "x") .ident) (.literal (.num 0) .number))
      { kind := .minus } .minus)
    (.literal (.num 1) .number) { kind := .plus } .add

theorem negatedElement_tree {T : Ty → Prop} : Tree T .expression negatedElement := by
  have hx : Tree T .call (.literal (.ident "x") .ident) := .ofPrimary (.literal rfl)
  have hnum {n : Nat} : Tree T (.binary 1) (.literal (.num n) .number) :=
    .tighter (.ofIndex (.ofCall (.ofPrimary (.literal rfl))))
  have hindex : Tree T .expression (.literal (.num 0) .number) :=
    .ofAssign (.ofBinary (.tighter (.tighter (.tighter (.tighter (.tighter (.tighter
      (.tighter hnum))))))))
  have helement : Tree T .index (.index { kind := .lbracket } (.literal (.ident "x") .ident)
      (.literal (.num 0) .number)) := .index rfl hx hindex
  have hunary : Tree T (.binary 0) (.unaryop _ { kind := .minus } .minus) := .unaryop rfl helement
  have hbinop : Tree T (.binary 2) negatedElement :=
    .binop (by decide) rfl (.tighter (.tighter hunary)) hnum
  exact .ofAssign (.ofBinary (.tighter (.tighter (.tighter (.tighter (.tighter (.tighter
    hbinop)))))))

/-- `proc g() void; proc f(x: *int) int { return -x[0] + 1; }` -/
def twoProcs : AstNode :=
  .block
    [.proc { kind := .kwProc } (.ident "g") none (.procedure { params := [], returntype := .void })
        none 0,
      .proc { kind := .kwProc } (.ident "f")
        (some (.block [.return_ { kind := .kwReturn } (some negatedElement)] none))
        (.procedure { params := [{ type := .pointer (some .int), ident := "x" }], returntype := .int })
        none 0]
    none

theorem parse_print_twoProcs : ∃ p, parse 30 [] (twoProcs.printProgram ++ [.eof]) = .ok twoProcs p ∧
    p.toks = [.eof] ∧ p.diags = [] := by
  refine parse_print (.program ?_) (by decide) []
  refine List.forall_mem_cons.mpr ⟨?_, List.forall_mem_singleton.mpr ?_⟩
  · exact .proc rfl rfl ⟨by decide, trivial, trivial⟩ nofun
  · refine .proc rfl rfl ⟨by decide, ⟨⟨rfl, by decide, trivial⟩, trivial⟩, trivial⟩ ?_
    rintro _ ⟨⟩
    refine .block (List.forall_mem_singleton.mpr (.return_ rfl ?_))
    rintro _ ⟨⟩
    exact negatedElement_tree

end Seron
