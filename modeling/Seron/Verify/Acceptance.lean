import Seron.Main
import Seron.Verify.Annotation
import Seron.Verify.Encoding
import Seron.Verify.Order
import Seron.Verify.Validity

/-! # Accepted programs

The rules by which statements and declarations are well formed, and that the compiler writes code
for exactly the programs that follow them. -/

namespace Seron

open AstNode

/-- What a name stands for. -/
abbrev Binding := String × SymbolKind × Ty

/-- The binding that a declaration makes; its place on the stack does not matter. -/
def binding (decl : String × Symbol) : Binding := (decl.1, decl.2.kind, decl.2.type)

/-! ## The rules -/

/-- The statement follows the rules. What a block declares is in sight in all of it, and a value that
is returned need not have the type of the procedure. -/
inductive Permitted : List Binding → AstNode → Prop
  | expr {Γ : List Binding} {e : AstNode} {ty : Ty} : Typed (Γ.lookup ·) e ty → Permitted Γ e
  | vardecl {Γ : List Binding} {op ident : Token} {init : Option AstNode} {type : Ty} {offset : Int} :
    type.Fits → (∀ e ∈ init, ∃ ty, Typed (Γ.lookup ·) e ty ∧ ty.kind = type.kind) →
    Permitted Γ (.vardecl op ident init type offset)
  | return_ {Γ : List Binding} {op : Token} {value : Option AstNode} :
    (∀ e ∈ value, ∃ ty, Typed (Γ.lookup ·) e ty) → Permitted Γ (.return_ op value)
  | if_ {Γ : List Binding} {op : Token} {cond thenBody : AstNode}
      {elseBody : Option AstNode} {ty : Ty} :
    Typed (Γ.lookup ·) cond ty → ty.Fits → Permitted Γ thenBody → (∀ b ∈ elseBody, Permitted Γ b) →
    Permitted Γ (.if_ op cond thenBody elseBody)
  | while_ {Γ : List Binding} {op : Token} {cond body : AstNode} {ty : Ty} :
    Typed (Γ.lookup ·) cond ty → ty.Fits → Permitted Γ body → Permitted Γ (.while_ op cond body)
  | block {Γ : List Binding} {stmts : List AstNode} {table : Option Nat} :
    (∀ stmt ∈ stmts, Permitted ((stmts.flatMap declared).map binding ++ Γ) stmt) →
    Permitted Γ (.block stmts table)

/-- The declaration follows the rules. The parameters are in sight behind the variables of the
body. -/
inductive Admitted (Γ : List Binding) : AstNode → Prop
  | table {op ident : Token} {type : Ty} : Admitted Γ (.table op ident type)
  | external {op ident : Token} {type : Ty} {table : Option Nat} {stackSize : Int} :
    Admitted Γ (.proc op ident none type table stackSize)
  | proc {op ident : Token} {stmts : List AstNode} {sig : ProcSignature} {t table : Option Nat}
    {stackSize : Int} : (∀ param ∈ sig.params, param.type.Fits) →
    (∀ stmt ∈ stmts, Permitted
      ((stmts.flatMap declared ++ sig.params.map Param.declared).map binding ++ Γ) stmt) →
    Admitted Γ (.proc op ident (some (.block stmts t)) (.procedure sig) table stackSize)

/-- The program follows the rules: all its declarations do, next to each other. -/
def AstNode.Typable (root : AstNode) : Prop :=
  ∀ decl ∈ root.children, Admitted (root.globals.map binding) decl

/-! ## Checks without annotations -/

variable {tables : List Hashtable} {node node' : AstNode} {nodes nodes' : List AstNode}

theorem checks_erase (h : ∀ n ∈ nodes, check tables n.erase = check tables n) :
    checks tables (nodes.map erase) = checks tables nodes := by
  induction nodes with
  | nil => rfl
  | cons node nodes ih =>
    obtain ⟨hnode, hnodes⟩ := List.forall_mem_cons.mp h
    rw [List.map_cons, checks, checks, hnode, ih hnodes]

/-- The checks of an expression do not look at its annotations. -/
theorem check_erase (h : Shape .expr node) : check tables node.erase = check tables node ∧
    checkAddr tables node.erase = checkAddr tables node := by
  induction node using AstNode.parts_induct with
  | step node ih =>
    have part {c : AstNode} (hc : c ∈ node.parts) := ih c hc (h.expr_part hc)
    cases h
    case literal => exact ⟨rfl, rfl⟩
    case unaryop =>
      have he := part (List.mem_singleton.mpr rfl)
      rw [erase, check, check, checkAddr, checkAddr, he.1, he.2]
      exact ⟨rfl, rfl⟩
    case index => exact ⟨by rw [erase, check, check], by rw [erase, checkAddr, checkAddr]⟩
    all_goals
      rw [erase, check, check]
      refine ⟨?_, by rw [checkAddr, checkAddr] <;> simp⟩
    case grouping => exact (part (List.mem_singleton.mpr rfl)).1
    case binop =>
      rw [(part (by simp [parts, children])).1, (part (by simp [parts, children])).1]
    case call =>
      rw [(part (by simp [parts, children])).1, erase_list,
        checks_erase fun n hn => (part (by simp [parts, children, hn])).1]
    case array values _ _ _ =>
      rw [erase_list, @checks_erase _ values fun n hn => (part hn).1]
    case assign =>
      rw [(part (by simp [parts])).1, (part (by simp [parts])).2]

theorem check_of_erase (h : Shape .expr node) (h' : Shape .expr node')
    (heq : node'.erase = node.erase) : check tables node' = check tables node := by
  rw [← (check_erase h').1, heq, (check_erase h).1]

theorem declared_erase (node : AstNode) :
    node.erase.declared.map binding = node.declared.map binding := by
  cases node <;> rfl

theorem declareds_erase (heq : nodes'.map erase = nodes.map erase) :
    (nodes'.flatMap declared).map binding = (nodes.flatMap declared).map binding := by
  have hnodes (nodes : List AstNode) : (nodes.flatMap declared).map binding =
      (nodes.map erase).flatMap fun node => node.declared.map binding := by
    rw [List.map_flatMap, List.flatMap_map]
    exact List.flatMap_congr fun node _ => (declared_erase node).symm
  rw [hnodes, hnodes, heq]

/-! ## Statements -/

/-- The sized nodes and the short names of a statement. -/
structure Plain (node : AstNode) : Prop where
  sized : ∀ n ∈ node.visited, n.Sized
  short : ∀ n ∈ node.visited, ∀ name ∈ n.newNames, name.length < maxIdentLen

theorem Plain.child {c : AstNode} (h : Plain node) (hc : c ∈ node.children) : Plain c :=
  ⟨fun n hn => h.sized n (visited_of_child hc hn), fun n hn => h.short n (visited_of_child hc hn)⟩

theorem Plain.declared_short {decl : String × Symbol} (h : Plain node) (hdecl : decl ∈ node.declared) :
    decl.1.length < maxIdentLen := by
  have hself := visited_self node
  cases node
  case vardecl =>
    rw [List.mem_singleton.mp hdecl]
    exact h.short _ hself _ List.mem_cons_self
  all_goals cases hdecl

variable {Γ : List Binding} {scope : Option Nat}

/-- An annotated expression has the types that the rules give to the expression. -/
theorem typed_annotated {ty : Ty} (hsight : sight tables scope = (Γ.lookup ·))
    (hshape : Shape .expr node)
    (hshape' : Shape .expr node') (heq : node'.erase = node.erase) :
    Typed (sight tables scope) node' ty ↔ Typed (Γ.lookup ·) node ty := by
  rw [← (check_typed hshape').1, check_of_erase hshape hshape' heq, (check_typed hshape).1, hsight]

theorem Shape.of_erase_expr (hshape : Shape .expr node) (hshape' : Shape .stmt node')
    (heq : node'.erase = node.erase) : Shape .expr node' := by
  have hkind := congrArg kind heq
  cases hshape' with
  | exprstmt h => exact h
  | blockstmt h => cases h; cases hshape <;> cases hkind
  | _ => cases hshape <;> cases hkind

/-- Where all declarations have short names, every name is looked up properly. -/
theorem Chain.lookup_of_short {t : Nat} {chain : List (List (String × Symbol))}
    (h : Chain tables (some t) chain)
    (hshort : ∀ decl ∈ chain.flatten, decl.1.length < maxIdentLen) (key : String) :
    symboltableLookup tables (some t) key = .ok (chain.flatten.lookup key) := by
  by_cases hkey : key.length < maxIdentLen
  · exact h.symboltableLookup_short hkey
  · have hnone : chain.flatten.lookup key = none := by
      refine Shadowing.lookup_eq_none.mpr fun hmem => ?_
      obtain ⟨decl, hdecl, rfl⟩ := List.mem_map.mp hmem
      exact hkey (hshort decl hdecl)
    rw [h.symboltableLookup_long (Nat.le_of_not_lt hkey), hnone, if_neg]
    rintro ⟨decl, hdecl, hsame⟩
    refine take_ne ?_ ?_ hsame.2.symm
    · rw [String.length_toList]
      exact hshort decl hdecl
    · rwa [String.length_toList]

theorem lookup_map_binding (decls : List (String × Symbol)) (key : String) :
    (decls.map binding).lookup key = (decls.lookup key).map fun sym => (sym.kind, sym.type) := by
  induction decls with
  | nil => rfl
  | cons decl decls ih =>
    rw [List.map_cons, binding, List.lookup_cons, List.lookup_cons, ih]
    cases key == decl.1 <;> rfl

/-- The tables answer with what the names stand for. -/
theorem Chain.sight_eq {t : Nat} {chain : List (List (String × Symbol))}
    (h : Chain tables (some t) chain)
    (hshort : ∀ decl ∈ chain.flatten, decl.1.length < maxIdentLen) :
    sight tables (some t) = ((chain.flatten.map binding).lookup ·) := by
  funext name
  rw [sight_of_lookup (h.lookup_of_short hshort name), lookup_map_binding]

theorem forall_congr_erase {P Q : AstNode → Prop} (heq : nodes'.map erase = nodes.map erase)
    (h : ∀ n ∈ nodes, ∀ n' ∈ nodes', n'.erase = n.erase → (P n' ↔ Q n)) :
    (∀ n' ∈ nodes', P n') ↔ ∀ n ∈ nodes, Q n := by
  constructor
  · intro hall n hn
    obtain ⟨n', hn', heq'⟩ := List.mem_map.mp (heq ▸ List.mem_map_of_mem hn :
      n.erase ∈ nodes'.map erase)
    exact (h n hn n' hn' heq').mp (hall n' hn')
  · intro hall n' hn'
    obtain ⟨n, hn, heq'⟩ := List.mem_map.mp (heq ▸ List.mem_map_of_mem hn' :
      n'.erase ∈ nodes.map erase)
    exact (h n hn n' hn' heq'.symm).mpr (hall n hn)

theorem forall_congr_erase_opt {o o' : Option AstNode} {P Q : AstNode → Prop}
    (heq : erase.opt o' = erase.opt o) (h : ∀ n ∈ o, ∀ n' ∈ o', n'.erase = n.erase → (P n' ↔ Q n)) :
    (∀ n' ∈ o', P n') ↔ ∀ n ∈ o, Q n := by
  cases o <;> cases o'
  case none.none => simp
  case some.some n n' =>
    simp only [Option.mem_some_iff, forall_eq']
    exact h n rfl n' rfl (Option.some_inj.mp heq)
  all_goals cases heq

theorem Scoped.child {c : AstNode} {lo : Nat} (h : Scoped tables lo scope node)
    (hkind : node.kind ≠ .block) (hc : c ∈ node.children) : Scoped tables lo scope c := by
  cases h with
  | block => exact (hkind rfl).elim
  | other _ hchildren => exact hchildren c hc

theorem Plain.declareds_short {decl : String × Symbol} (h : ∀ n ∈ nodes, Plain n)
    (heq : nodes'.map erase = nodes.map erase) (hdecl : decl ∈ nodes'.flatMap declared) :
    decl.1.length < maxIdentLen := by
  have hbinding := @List.mem_map_of_mem _ _ _ _ binding hdecl
  rw [declareds_erase heq] at hbinding
  obtain ⟨decl₀, hdecl₀, hsame⟩ := List.mem_map.mp hbinding
  obtain ⟨n, hn, hdecl₀⟩ := List.mem_flatMap.mp hdecl₀
  have hname : (binding decl₀).1 = (binding decl).1 := by rw [hsame]
  have hshort := (h n hn).declared_short hdecl₀
  rwa [show decl₀.1 = decl.1 from hname] at hshort

namespace Permitted

variable {op : Token}

theorem expr_iff {e : AstNode} (h : Shape .expr e) :
    Permitted Γ e ↔ ∃ ty, Typed (Γ.lookup ·) e ty := by
  constructor
  · intro hpermitted
    cases hpermitted with
    | expr htyped => exact ⟨_, htyped⟩
    | _ => cases h
  · rintro ⟨ty, htyped⟩
    exact .expr htyped

theorem block_iff {stmts : List AstNode} {table : Option Nat} : Permitted Γ (.block stmts table) ↔
    ∀ stmt ∈ stmts, Permitted ((stmts.flatMap declared).map binding ++ Γ) stmt := by
  constructor
  · intro hpermitted
    cases hpermitted with
    | expr htyped => cases htyped
    | block hall => exact hall
  · exact .block

theorem vardecl_iff {ident : Token} {init : Option AstNode} {type : Ty} {offset : Int} :
    Permitted Γ (.vardecl op ident init type offset) ↔
      type.Fits ∧ ∀ e ∈ init, ∃ ty, Typed (Γ.lookup ·) e ty ∧ ty.kind = type.kind := by
  constructor
  · intro hpermitted
    cases hpermitted with
    | expr htyped => cases htyped
    | vardecl hfits hinit => exact ⟨hfits, hinit⟩
  · rintro ⟨hfits, hinit⟩
    exact .vardecl hfits hinit

theorem return_iff {value : Option AstNode} :
    Permitted Γ (.return_ op value) ↔ ∀ e ∈ value, ∃ ty, Typed (Γ.lookup ·) e ty := by
  constructor
  · intro hpermitted
    cases hpermitted with
    | expr htyped => cases htyped
    | return_ hvalue => exact hvalue
  · exact .return_

theorem if_iff {cond thenBody : AstNode} {elseBody : Option AstNode} :
    Permitted Γ (.if_ op cond thenBody elseBody) ↔
      (∃ ty, Typed (Γ.lookup ·) cond ty ∧ ty.Fits) ∧ Permitted Γ thenBody ∧
        ∀ b ∈ elseBody, Permitted Γ b := by
  constructor
  · intro hpermitted
    cases hpermitted with
    | expr htyped => cases htyped
    | if_ hcond hfits hthen helse => exact ⟨⟨_, hcond, hfits⟩, hthen, helse⟩
  · rintro ⟨⟨ty, hcond, hfits⟩, hthen, helse⟩
    exact .if_ hcond hfits hthen helse

theorem while_iff {cond body : AstNode} : Permitted Γ (.while_ op cond body) ↔
    (∃ ty, Typed (Γ.lookup ·) cond ty ∧ ty.Fits) ∧ Permitted Γ body := by
  constructor
  · intro hpermitted
    cases hpermitted with
    | expr htyped => cases htyped
    | while_ hcond hfits hbody => exact ⟨⟨_, hcond, hfits⟩, hbody⟩
  · rintro ⟨⟨ty, hcond, hfits⟩, hbody⟩
    exact .while_ hcond hfits hbody

end Permitted

/-- An annotated statement is valid if and only if the statement is permitted where its tables say
what is in sight. -/
theorem valid_permitted {lo t : Nat} {chain : List (List (String × Symbol))}
    (hshape : Shape .stmt node) (hshape' : Shape .stmt node') (heq : node'.erase = node.erase)
    (hfor : node.AllKinds (· ≠ .for_)) (hplain : Plain node)
    (hscoped : Scoped tables lo (some t) node')
    (hchain : Chain tables (some t) chain)
    (hshort : ∀ decl ∈ chain.flatten, decl.1.length < maxIdentLen) :
    Valid tables (some t) node' ↔ Permitted (chain.flatten.map binding) node := by
  induction node using AstNode.parts_induct generalizing node' lo t chain with
  | step node ih =>
    have hsight := hchain.sight_eq hshort
    have hstmt := hshape
    have hchild {c c' : AstNode} (hc : c ∈ node.children) (hc' : c' ∈ node'.children)
        (hkind : node'.kind ≠ .block) (heq : c'.erase = c.erase) :
        Valid tables (some t) c' ↔ Permitted (chain.flatten.map binding) c :=
      ih c (mem_parts_of_children hc) (hshape.stmt_child hc).1 (hshape'.stmt_child hc').1 heq
        ((allKinds_iff.mp hfor).2 c (mem_parts_of_children hc)) (hplain.child hc)
        (hscoped.child hkind hc') hchain hshort
    have hexpr {e e' : AstNode} {ty : Ty} (he : Shape .expr e) (he' : e' ∈ node'.children)
        (heq : e'.erase = e.erase) :
        Typed (sight tables (some t)) e' ty ↔ Typed ((chain.flatten.map binding).lookup ·) e ty :=
      typed_annotated hsight he (he.of_erase_expr (hshape'.stmt_child he').1 heq) heq
    cases hshape with
    | exprstmt he =>
      have he' := he.of_erase_expr hshape' heq
      rw [Permitted.expr_iff he, Valid.expr_iff he']
      exact exists_congr fun ty => typed_annotated hsight he he' heq
    | for_ => exact ((allKinds_iff.mp hfor).1 rfl).elim
    | blockstmt hblock =>
      cases hblock with
      | @block stmts table hstmts =>
        cases node'
        case block stmts' t' =>
          have hstmts' : stmts'.map erase = stmts.map erase := by
            rw [← erase_list, ← erase_list]
            exact (AstNode.block.inj heq).1
          obtain ⟨ht, hchain', hinner⟩ := hscoped.enter hchain
          obtain ⟨t', rfl⟩ := Option.ne_none_iff_exists'.mp ht
          have hnames : ∀ decl ∈ (stmts'.flatMap declared :: chain).flatten,
              decl.1.length < maxIdentLen := by
            intro decl hdecl
            rcases List.mem_append.mp hdecl with hdecl | hdecl
            · exact Plain.declareds_short (fun n hn => hplain.child hn) hstmts' hdecl
            · exact hshort decl hdecl
          rw [Valid.block_iff, Permitted.block_iff, ← declareds_erase hstmts', ← List.map_append]
          refine forall_congr_erase hstmts' fun n hn n' hn' heq => ?_
          obtain ⟨lo', hscoped'⟩ := hinner n' hn'
          exact ih n (mem_parts_of_children hn) (hstmt.stmt_child hn).1 (hshape'.stmt_child hn').1 heq
            ((allKinds_iff.mp hfor).2 n (mem_parts_of_children hn)) (hplain.child hn) hscoped' hchain'
            hnames
        all_goals cases congrArg kind heq
    | @vardecl op ident init type offset hinit =>
      cases node'
      case vardecl op' ident' init' type' offset' =>
        obtain ⟨-, -, hinit', rfl, -⟩ := AstNode.vardecl.inj heq
        have hfits : type'.Fits := hplain.sized (.vardecl op ident init type' offset) (visited_self _)
        rw [Valid.vardecl_iff, Permitted.vardecl_iff, and_iff_right hfits]
        refine forall_congr_erase_opt hinit' fun e he e' he' heq => exists_congr fun ty => ?_
        rw [hexpr (hinit e he) (Option.mem_toList.mpr he') heq, eq_comm]
        refine and_congr_right fun _ => and_iff_left_of_imp fun hkind => ?_
        rw [Ty.Fits, hkind]
        exact hfits
      all_goals cases congrArg kind heq
    | @return_ op value hvalue =>
      cases node'
      case return_ op' value' =>
        rw [Valid.return_iff, Permitted.return_iff]
        refine forall_congr_erase_opt (AstNode.return_.inj heq).2 fun e he e' he' heq => ?_
        exact exists_congr fun ty => hexpr (hvalue e he) (Option.mem_toList.mpr he') heq
      all_goals cases congrArg kind heq
    | @if_ op cond thenBody elseBody hcond hthen helse =>
      cases node'
      case if_ op' cond' thenBody' elseBody' =>
        obtain ⟨-, hcond', hthen', helse'⟩ := AstNode.if_.inj heq
        have hbodies : (∀ b' ∈ elseBody', Valid tables (some t) b') ↔
            ∀ b ∈ elseBody, Permitted (chain.flatten.map binding) b :=
          forall_congr_erase_opt helse' fun b hb b' hb' heq =>
            hchild (by simp_all [children]) (by simp_all [children]) (by simp [kind]) heq
        rw [Valid.if_iff, Permitted.if_iff, hbodies,
          hchild (by simp [children]) (by simp [children]) (by simp [kind]) hthen']
        simp only [hexpr hcond (by simp [children]) hcond']
      all_goals cases congrArg kind heq
    | @while_ op cond body hcond hbody =>
      cases node'
      case while_ op' cond' body' =>
        obtain ⟨-, hcond', hbody'⟩ := AstNode.while_.inj heq
        rw [Valid.while_iff, Permitted.while_iff,
          hchild (by simp [children]) (by simp [children]) (by simp [kind]) hbody']
        simp only [hexpr hcond (by simp [children]) hcond']
      all_goals cases congrArg kind heq

/-! ## Declarations -/

theorem params_declared_erase {params params' : List Param}
    (heq : params'.map Param.erase = params.map Param.erase) :
    (params'.map Param.declared).map binding = (params.map Param.declared).map binding := by
  have hparams (params : List Param) : (params.map Param.declared).map binding =
      (params.map Param.erase).map fun param => binding param.declared := by
    rw [List.map_map, List.map_map]
    rfl
  rw [hparams, hparams, heq]

theorem params_fits_erase {params params' : List Param}
    (heq : params'.map Param.erase = params.map Param.erase) :
    (∀ param ∈ params', param.type.Fits) ↔ ∀ param ∈ params, param.type.Fits := by
  have hparams (params : List Param) : (∀ param ∈ params, param.type.Fits) ↔
      ∀ param ∈ params.map Param.erase, param.type.Fits := by
    rw [List.forall_mem_map]
    rfl
  rw [hparams, heq, ← hparams]

namespace Admitted

variable {op ident : Token} {sig : ProcSignature} {table : Option Nat} {stackSize : Int}

theorem proc_iff {stmts : List AstNode} {t : Option Nat} :
    Admitted Γ (.proc op ident (some (.block stmts t)) (.procedure sig) table stackSize) ↔
      (∀ param ∈ sig.params, param.type.Fits) ∧ ∀ stmt ∈ stmts, Permitted
        ((stmts.flatMap declared ++ sig.params.map Param.declared).map binding ++ Γ) stmt := by
  constructor
  · intro hadmitted
    cases hadmitted with
    | proc hparams hstmts => exact ⟨hparams, hstmts⟩
  · rintro ⟨hparams, hstmts⟩
    exact .proc hparams hstmts

end Admitted

/-- An annotated declaration is valid if and only if the declaration is admitted. -/
theorem valid_admitted {lo t : Nat} {chain : List (List (String × Symbol))}
    (hshape : Shape .decl node) (hshape' : Shape .decl node') (heq : node'.erase = node.erase)
    (hfor : node.AllKinds (· ≠ .for_)) (hplain : Plain node)
    (hscoped : node'.kind = .proc → ProcScoped tables lo (some t) node')
    (hchain : Chain tables (some t) chain)
    (hshort : ∀ decl ∈ chain.flatten, decl.1.length < maxIdentLen) :
    Valid tables (some t) node' ↔ Admitted (chain.flatten.map binding) node := by
  cases hshape with
  | table =>
    cases node'
    case table => exact iff_of_true .table .table
    all_goals cases congrArg kind heq
  | @proc op ident body sig table stackSize hbody =>
    cases hshape' with
    | table => cases congrArg kind heq
    | @proc op' ident' body' sig' table' stackSize' hbody' =>
      obtain ⟨-, -, hbodies, hsig, -⟩ := AstNode.proc.inj heq
      have hparams : sig'.params.map Param.erase = sig.params.map Param.erase :=
        congrArg ProcSignature.params (Ty.procedure.inj hsig)
      have hparamNames : ∀ param ∈ sig'.params, param.ident.length < maxIdentLen := by
        intro param hparam
        obtain ⟨param₀, hparam₀, hsame⟩ := List.mem_map.mp
          (hparams ▸ List.mem_map_of_mem hparam : param.erase ∈ sig.params.map Param.erase)
        have hname : param₀.erase.ident = param.erase.ident := by rw [hsame]
        rw [← show param₀.ident = param.ident from hname]
        exact hplain.short _ (visited_self _) _
          (List.mem_cons_of_mem _ (List.mem_map_of_mem hparam₀))
      cases body with
      | none =>
        cases body' with
        | none => exact iff_of_true .external .external
        | some body' => cases hbodies
      | some body =>
        cases body' with
        | none => cases hbodies
        | some body' =>
          cases hbody body rfl with
          | @block stmts t₀ hstmts =>
            obtain ⟨stmts', t', ht, rfl, -, hget, hparent, hlt, hbinds, hinner⟩ :=
              hscoped rfl _ _ _ _ _ _ rfl
            have hstmts' : stmts'.map erase = stmts.map erase := by
              rw [← erase_list, ← erase_list]
              exact (AstNode.block.inj (Option.some_inj.mp hbodies)).1
            have hshapes' : ∀ stmt ∈ stmts', Shape .stmt stmt := by
              cases hbody' _ rfl with
              | block hshapes' => exact hshapes'
            have hfor' := (allKinds_iff.mp ((allKinds_iff.mp hfor).2 (.block stmts t₀) (by
              simp [parts, children]))).2
            have hplains : ∀ stmt ∈ stmts, Plain stmt := fun stmt hstmt =>
              (hplain.child (c := .block stmts t₀) (by simp [children])).child hstmt
            have hchain' := Chain.cons hget hbinds (hparent ▸ hlt) (hparent ▸ hchain)
            have hnames : ∀ decl ∈ (stmts'.flatMap declared ++ sig'.params.map Param.declared) ++
                chain.flatten, decl.1.length < maxIdentLen := by
              intro decl hdecl
              rcases List.mem_append.mp hdecl with hdecl | hdecl
              · rcases List.mem_append.mp hdecl with hdecl | hdecl
                · exact Plain.declareds_short hplains hstmts' hdecl
                · obtain ⟨param, hparam, rfl⟩ := List.mem_map.mp hdecl
                  exact hparamNames param hparam
              · exact hshort decl hdecl
            rw [Admitted.proc_iff, List.map_append, ← declareds_erase hstmts',
              ← params_declared_erase hparams, ← List.map_append, ← List.map_append]
            rw [Valid.proc_iff, Valid.block_iff, params_fits_erase hparams]
            refine and_congr_right fun _ => forall_congr_erase hstmts' fun n hn n' hn' heq => ?_
            exact valid_permitted (hstmts n hn) (hshapes' n' hn') heq (hfor' n hn) (hplains n hn)
              (hinner n' hn') hchain' hnames

/-! ## Sizes -/

theorem sized_visited (h : node.Sized) (hchildren : ∀ c ∈ node.children, ∀ n ∈ c.visited, n.Sized) :
    ∀ n ∈ node.visited, n.Sized := by
  rw [visited_eq]
  refine List.forall_mem_cons.mpr ⟨h, fun n hn => ?_⟩
  obtain ⟨c, hc, hn⟩ := List.mem_flatMap.mp hn
  exact hchildren c hc n hn

theorem forall_of_forall₂ {α β : Type} {R : α → β → Prop} {as : List α} {bs : List β} {P : α → Prop}
    (h : List.Forall₂ R as bs) (hR : ∀ a b, R a b → P a) : ∀ a ∈ as, P a := by
  induction h with
  | nil => exact List.forall_mem_nil _
  | cons hab _ ih => exact List.forall_mem_cons.mpr ⟨hR _ _ hab, ih⟩

/-- What has a type or an address is made of values that have a size. -/
theorem Typed.sized {S : Sight} (hshape : Shape .expr node)
    (h : (∃ ty, Typed S node ty) ∨ ∃ ty, Located S node ty) : ∀ n ∈ node.visited, n.Sized := by
  induction node using AstNode.parts_induct with
  | step node ih =>
    have part {c : AstNode} (hc : c ∈ node.children)
        (h : (∃ ty, Typed S c ty) ∨ ∃ ty, Located S c ty) :=
      ih c (mem_parts_of_children hc) (hshape.expr_part (mem_parts_of_children hc)) h
    have only {c : AstNode} (hc : node.children = [c])
        (h : (∃ ty, Typed S c ty) ∨ ∃ ty, Located S c ty) :
        ∀ c ∈ node.children, ∀ n ∈ c.visited, n.Sized := by
      rw [hc]
      exact List.forall_mem_singleton.mpr (part (hc ▸ List.mem_singleton_self c) h)
    have args {args : List AstNode} {tys : List Ty} (h : List.Forall₂ (Typed S) args tys)
        (hargs : ∀ c ∈ args, c ∈ node.children) : ∀ c ∈ args, ∀ n ∈ c.visited, n.Sized := by
      intro c hc
      exact part (hargs c hc) (.inl (forall₂_exists.mp ⟨tys, h⟩ c hc))
    rcases h with ⟨ty, htyped⟩ | ⟨ty, hlocated⟩
    · cases htyped with
      | string | number | stored | procedure => exact sized_visited trivial (List.forall_mem_nil _)
      | grouping h | unaryop _ h | deref h | derefProc h =>
          exact sized_visited trivial (only rfl (.inl ⟨_, h⟩))
      | addrof h => exact sized_visited trivial (only rfl (.inr ⟨_, h⟩))
      | binop hl _ hr =>
        refine sized_visited trivial (List.forall_mem_cons.mpr ⟨?_, List.forall_mem_singleton.mpr ?_⟩)
        · exact part (by simp [children]) (.inl ⟨_, hl⟩)
        · exact part (by simp [children]) (.inl ⟨_, hr⟩)
      | call hcallee hargs =>
        refine sized_visited trivial (List.forall_mem_cons.mpr ⟨?_, args hargs ?_⟩)
        · exact part (by simp [children]) (.inl ⟨_, hcallee⟩)
        · exact fun c hc => List.mem_cons_of_mem _ hc
      | assign _ hvalue => exact sized_visited trivial (only rfl (.inl ⟨_, hvalue⟩))
      | array hfits hvalues => exact sized_visited hfits (args hvalues fun c hc => hc)
    · cases hlocated with
      | stored | procedure => exact sized_visited trivial (List.forall_mem_nil _)
      | deref h => exact sized_visited trivial (only rfl (.inl ⟨_, h⟩))

theorem Shape.typed_sized {S : Sight} {ty : Ty} (hshape : Shape .expr node) (h : Typed S node ty) :
    ∀ n ∈ node.visited, n.Sized := Typed.sized hshape (.inl ⟨ty, h⟩)

/-- The rules put values on the stack only where they have a size. -/
theorem Permitted.sized (hshape : Shape .stmt node) (h : Permitted Γ node) :
    ∀ n ∈ node.visited, n.Sized := by
  induction h with
  | expr htyped =>
    refine Typed.sized ?_ (.inl ⟨_, htyped⟩)
    cases hshape with
    | exprstmt h => exact h
    | blockstmt h => cases h; cases htyped
    | _ => cases htyped
  | vardecl hfits hinit =>
    refine sized_visited hfits fun e he => ?_
    obtain ⟨ty, htyped, -⟩ := hinit e (Option.mem_toList.mp he)
    refine Typed.sized ?_ (.inl ⟨ty, htyped⟩)
    cases hshape with
    | exprstmt h | blockstmt h => cases h
    | vardecl h => exact h e (Option.mem_toList.mp he)
  | return_ hvalue =>
    refine sized_visited trivial fun e he => Typed.sized ?_ (.inl (hvalue e (Option.mem_toList.mp he)))
    cases hshape with
    | exprstmt h | blockstmt h => cases h
    | return_ h => exact h e (Option.mem_toList.mp he)
  | if_ hcond _ _ _ ihthen ihelse =>
    cases hshape with
    | exprstmt h | blockstmt h => cases h
    | if_ hcond' hthen helse =>
      refine sized_visited trivial (List.forall_mem_cons.mpr ⟨hcond'.typed_sized hcond, ?_⟩)
      refine List.forall_mem_cons.mpr ⟨ihthen (.blockstmt hthen), fun b hb => ?_⟩
      have hb := Option.mem_toList.mp hb
      exact ihelse b hb (.blockstmt (helse b hb))
  | while_ hcond _ _ ihbody =>
    cases hshape with
    | exprstmt h | blockstmt h => cases h
    | while_ hcond' hbody =>
      refine sized_visited trivial (List.forall_mem_cons.mpr ⟨hcond'.typed_sized hcond, ?_⟩)
      exact List.forall_mem_singleton.mpr (ihbody (.blockstmt hbody))
  | block _ ih =>
    cases hshape with
    | exprstmt h => cases h
    | blockstmt h =>
      cases h with
      | block hstmts => exact sized_visited trivial fun stmt hstmt => ih stmt hstmt (hstmts stmt hstmt)

theorem Admitted.sized (hshape : Shape .decl node) (h : Admitted Γ node) :
    ∀ n ∈ node.visited, n.Sized := by
  cases h with
  | table | external => exact sized_visited trivial (List.forall_mem_nil _)
  | @proc op ident stmts sig t table size hparams hstmts =>
    cases hshape with
    | proc hbody =>
      refine sized_visited hparams (List.forall_mem_singleton.mpr (sized_visited trivial ?_))
      intro stmt hstmt
      cases hbody _ rfl with
      | block hshapes => exact (hstmts stmt hstmt).sized (hshapes stmt hstmt)

theorem procPostParams_fits {table : Option Nat} {params params' : List Param} {st st' : Symboltable}
    (h : procPostParams table params st = .ok (params', st')) : ∀ param ∈ params, param.type.Fits := by
  induction params generalizing params' st with
  | nil => exact List.forall_mem_nil _
  | cons param params ih =>
    obtain ⟨offset, st₁, hsize, h₁⟩ := StateT.bind_ok.mp h
    obtain ⟨n, hn, -⟩ := Except.bind_ok.mp hsize
    obtain ⟨u, st₂, -, h₂⟩ := StateT.bind_ok.mp h₁
    obtain ⟨rest, st₃, hrest, h₃⟩ := StateT.bind_ok.mp h₂
    cases h₃
    exact List.forall_mem_cons.mpr ⟨⟨n, hn⟩, ih hrest⟩

/-- The annotation stops at what has no size. -/
theorem buildTo_sized {depth : Nat} {st st' : Symboltable}
    (h : buildTo depth node st = .ok (node', st')) : ∀ n ∈ node.visited, n.Sized := by
  induction depth generalizing node node' st st' with
  | zero => cases h
  | succ depth ih =>
    obtain ⟨d, node₁, st₁, nodes, st₂, hd, hpre, hlist, -, hpost⟩ := buildTo_ok h
    cases hd
    have hnodes : ∀ c ∈ node₁.children, ∀ n ∈ c.visited, n.Sized :=
      forall_of_forall₂ (forall₂_of_traverseList (R := fun c _ => ∀ n ∈ c.visited, n.Sized)
        (fun _ _ _ _ hc => ih hc) hlist) fun _ _ h => h
    refine sized_visited ?_ (hpre.children_unvisited.1 ▸ hnodes)
    cases hpre with
    | block | table => trivial
    | vardecl hsize | array hsize => exact ⟨_, hsize⟩
    | @proc _ _ _ _ body =>
      cases body with
      | none => trivial
      | some body =>
        obtain ⟨body', st₃, rest, -, hrest, rfl⟩ := traverseList_cons_ok hlist
        cases hrest
        cases hpost with
        | other _ hproc => exact (hproc rfl).elim
        | proc hparams => exact procPostParams_fits hparams
    | other _ hvardecl hproc _ harray =>
      cases node
      case vardecl => exact (hvardecl rfl).elim
      case proc => exact (hproc rfl).elim
      case array => exact (harray rfl).elim
      all_goals trivial

/-! ## Programs -/

theorem codegen_ok_iff {root : AstNode} :
    (∃ code, codegen tables root = .ok code) ↔ ∃ ty, check tables root none = .ok ty := by
  have herror (e : Failure) := @codegen_error_iff _ tables root e
  cases hcodegen : codegen tables root with
  | error e =>
    rw [(herror e).mp hcodegen]
    simp
  | ok code =>
    cases hcheck : check tables root none with
    | error e =>
      rw [(herror e).mpr hcheck] at hcodegen
      cases hcodegen
    | ok ty => exact iff_of_true ⟨code, rfl⟩ ⟨ty, rfl⟩

theorem symboltableBuild_total {root : AstNode} (hshape : Shape .program root)
    (hfor : root.AllKinds (· ≠ .for_)) (hplain : Plain root) :
    ∃ root' st, symboltableBuild root = .ok (root', st) := by
  have hkind : root.kind = .block := by
    cases hshape
    rfl
  obtain ⟨root', st, hbuild, -⟩ :=
    @buildTo_total _ {} root.traverseDepth _ hshape hfor hplain.sized hplain.short le_rfl (.inl hkind)
  exact ⟨root', st, symboltableBuild_ok.mpr hbuild⟩

/-- The check of an annotated program succeeds if and only if the program follows the rules. -/
theorem check_typable {root root' : AstNode} {st : Symboltable} (hshape : Shape .program root)
    (hfor : root.AllKinds (· ≠ .for_)) (hplain : Plain root)
    (hbuild : symboltableBuild root = .ok (root', st)) :
    (∃ ty, check st.tables root' none = .ok ty) ↔ root.Typable := by
  have heq := buildTo_erase (symboltableBuild_ok.mp hbuild)
  obtain ⟨decls, t, nodes, st₁, ht, rfl, hdecls, -, -, rfl, -⟩ := symboltableBuild_block hshape hbuild
  have hnodes : nodes.map erase = decls.map erase := by
    rw [← erase_list, ← erase_list]
    exact (AstNode.block.inj heq).1
  have hchain := rootChain hdecls hbuild
  have hshapes := buildTo_declShapes hdecls hbuild
  have hnames : ∀ decl ∈ [decls.flatMap global].flatten, decl.1.length < maxIdentLen := by
    intro decl hdecl
    rw [List.flatten_singleton] at hdecl
    obtain ⟨d, hd, hdecl⟩ := List.mem_flatMap.mp hdecl
    have hd' : d ∈ (AstNode.block decls t).visited := visited_of_child hd (visited_self d)
    cases d
    case proc | table =>
      rw [List.mem_singleton.mp hdecl]
      exact hplain.short _ hd' _ List.mem_cons_self
    all_goals cases hdecl
  refine (check_valid (.program hshapes)).trans ?_
  rw [Valid.block_iff]
  refine (forall_congr_erase hnodes fun n hn n' hn' heq => ?_).trans Iff.rfl
  have hadmitted := valid_admitted (hdecls n hn) (hshapes n' hn') heq
    ((allKinds_iff.mp hfor).2 n hn) (hplain.child hn) (procScoped_of_mem hdecls hbuild hn')
    hchain hnames
  rwa [List.flatten_singleton] at hadmitted

theorem AstNode.Typable.sized {root : AstNode} (hshape : Shape .program root) (h : root.Typable) :
    ∀ n ∈ root.visited, n.Sized := by
  cases hshape with
  | program hdecls =>
    exact sized_visited trivial fun decl hdecl => (h decl hdecl).sized (hdecls decl hdecl)

/-- Where the names are short, the compiler writes code for a program if and only if the program
follows the rules once its loops and index expressions are expanded. -/
theorem accepted_iff_typable {fuel : Nat} {garbage : List Nat} {toks : List Token} {root : AstNode}
    {p : Parser} (hparse : parse fuel garbage toks = .ok root p)
    (hshort : ∀ n ∈ root.expanded.visited, ∀ name ∈ n.newNames, name.length < maxIdentLen) :
    (∃ code, compileRoot root = .ok code) ↔ root.expanded.Typable := by
  have hshape := parse_shape hparse
  have hexpand := expandAst_eq hshape
  have hfor := forFree_expanded hshape
  have hshape' := hshape.expanded
  constructor
  · rintro ⟨code, hcode⟩
    obtain ⟨root', hroot', hcode⟩ := Except.bind_ok.mp hcode
    cases hexpand.symm.trans hroot'
    obtain ⟨⟨root'', st⟩, hbuild, hcode⟩ := Except.bind_ok.mp hcode
    have hplain : Plain root.expanded := ⟨buildTo_sized (symboltableBuild_ok.mp hbuild), hshort⟩
    exact (check_typable hshape' hfor hplain hbuild).mp (codegen_ok_iff.mp ⟨code, hcode⟩)
  · intro htypable
    have hplain : Plain root.expanded := ⟨htypable.sized hshape', hshort⟩
    obtain ⟨root'', st, hbuild⟩ := symboltableBuild_total hshape' hfor hplain
    obtain ⟨code, hcode⟩ :=
      codegen_ok_iff.mpr ((check_typable hshape' hfor hplain hbuild).mpr htypable)
    exact ⟨code, Except.bind_ok.mpr ⟨_, hexpand, Except.bind_ok.mpr ⟨_, hbuild, hcode⟩⟩⟩

/-- `proc at(p: *long, n: int) long { let x: long = p[n]; return x; }` -/
def indexed : List Token :=
  [{ kind := .kwProc }, .ident "at", { kind := .lparen }, .ident "p", { kind := .colon },
    { kind := .asterisk }, { kind := .kwTypeLong }, { kind := .comma }, .ident "n", { kind := .colon },
    { kind := .kwTypeInt }, { kind := .rparen }, { kind := .kwTypeLong }, { kind := .lbrace },
    { kind := .kwVardecl }, .ident "x", { kind := .colon }, { kind := .kwTypeLong },
    { kind := .assign }, .ident "p", { kind := .lbracket }, .ident "n", { kind := .rbracket },
    { kind := .semicolon }, { kind := .kwReturn }, .ident "x", { kind := .semicolon },
    { kind := .rbrace }, .eof]

theorem accepted_iff_typable_indexed :
    ∃ root p, parse 100 [] indexed = .ok root p ∧ root.expanded.Typable := by
  obtain ⟨root, p, root', root'', st, hparse, hexpand, hbuild, htest⟩ :=
    @of_annotatesTo (fun root root' tables => decide (∀ n ∈ root.visited, ∀ name ∈ n.newNames,
      name.length < maxIdentLen) && emitsText (fun _ => true) root' tables) 100 indexed
      (by decide +kernel)
  obtain ⟨hshort, htext⟩ := Bool.and_eq_true_iff.mp htest
  obtain ⟨text, data, hcodegen, -⟩ := of_emitsText htext
  obtain rfl : root.expanded = root' :=
    Except.ok.inj ((expandAst_eq (parse_shape hparse)).symm.trans hexpand)
  exact ⟨root, p, hparse, (accepted_iff_typable hparse (of_decide_eq_true hshort)).mp
    ⟨(text, data), Except.bind_ok.mpr ⟨_, hexpand, Except.bind_ok.mpr ⟨_, hbuild, hcodegen⟩⟩⟩⟩

end Seron
