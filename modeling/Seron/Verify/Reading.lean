import Seron.Parser.Rules
import Mathlib.Computability.Language

/-! # Trees and their tokens

Which tokens a tree can be read from. A token that the tree holds is read as it is, any other one
by its kind only. Commas may be left out between the elements of a list if the reading is
`loose`. -/

namespace Seron

/-! ## Single tokens and lists -/

/-- Any token of a kind. -/
def tokenOf (kind : TokenKind) : Language Token := {ts | ∃ t, t.kind = kind ∧ ts = [t]}

/-- An identifier that is stored with room for `n` characters. -/
def identOf (n : Nat) (name : String) : Language Token :=
  {ts | ∃ t, t.kind = .literalIdent ∧ strncpy n t.value = name ∧ ts = [t]}

/-- Nothing, under a condition. -/
def onlyIf (p : Prop) : Language Token := {ts | p ∧ ts = []}

/-- The elements of a list, each with a comma behind it; the last one needs none. -/
def commas (loose : Bool) : List (Language Token) → Language Token
  | [] => 1
  | l :: ls => l * ((tokenOf .comma + onlyIf (loose = true ∨ ls = [])) * commas loose ls)

section
variable {kind : TokenKind} {t : Token} {p : Prop} {loose : Bool} {l : Language Token}
  {ls : List (Language Token)} {us vs sep : List Token}

theorem mem_tokenOf (h : t.kind = kind) : [t] ∈ tokenOf kind := ⟨t, h, rfl⟩

theorem kind_mem_tokenOf (kind : TokenKind) : [{ kind := kind }] ∈ tokenOf kind := mem_tokenOf rfl

theorem mem_identOf {n : Nat} (h : t.kind = .literalIdent) : [t] ∈ identOf n (strncpy n t.value) :=
  ⟨t, h, rfl, rfl⟩

theorem mem_onlyIf (h : p) : [] ∈ onlyIf p := ⟨h, rfl⟩

theorem onlyIf_mul_mem (h : p) (hus : us ∈ l) : us ∈ onlyIf p * l :=
  Language.append_mem_mul (mem_onlyIf h) hus

theorem cons_mem_mul (ht : [t] ∈ l) {m : Language Token} (hus : us ∈ m) : t :: us ∈ l * m :=
  Language.append_mem_mul ht hus

theorem mem_onlyIf_mul : us ∈ onlyIf p * l ↔ p ∧ us ∈ l := by
  constructor
  · rintro ⟨_, ⟨hp, rfl⟩, vs, hvs, rfl⟩
    exact ⟨hp, hvs⟩
  · rintro ⟨hp, hus⟩
    exact onlyIf_mul_mem hp hus

theorem mem_tokenOf_mul (h : us ∈ tokenOf kind * l) :
    ∃ t vs, t.kind = kind ∧ vs ∈ l ∧ us = t :: vs := by
  obtain ⟨_, ⟨t, ht, rfl⟩, vs, hvs, rfl⟩ := h
  exact ⟨t, vs, ht, hvs, rfl⟩

theorem mem_singleton_mul (h : us ∈ ({[t]} : Language Token) * l) : ∃ vs ∈ l, us = t :: vs := by
  obtain ⟨_, rfl, vs, hvs, rfl⟩ := h
  exact ⟨vs, hvs, rfl⟩

theorem mem_singleton : [t] ∈ ({[t]} : Language Token) := Set.mem_singleton _

theorem commas_nil : [] ∈ commas loose [] := Language.nil_mem_one

theorem commas_cons (hus : us ∈ l) (hsep : sep ∈ tokenOf .comma + onlyIf (loose = true ∨ ls = []))
    (hvs : vs ∈ commas loose ls) : us ++ (sep ++ vs) ∈ commas loose (l :: ls) :=
  Language.append_mem_mul hus (Language.append_mem_mul hsep hvs)

end

/-! ## Types -/

mutual

/-- The tokens of a type. -/
def Ty.reads (loose : Bool) : Ty → Language Token
  | .int => tokenOf .kwTypeInt
  | .char => tokenOf .kwTypeChar
  | .long => tokenOf .kwTypeLong
  | .void => tokenOf .kwTypeVoid
  | .pointer (some ty) => tokenOf .asterisk * ty.reads loose
  | .procedure sig => tokenOf .kwProc * sig.reads loose
  | .object name => identOf (maxIdentLen - 1) name
  | .pointer none | .invalid | .table _ => 0

/-- The parameters and the return type. -/
def ProcSignature.reads (loose : Bool) : ProcSignature → Language Token
  | ⟨params, returntype⟩ =>
    onlyIf (params.length < maxParamCount) * (tokenOf .lparen *
      (commas loose (Params.reads loose params) * (tokenOf .rparen * returntype.reads loose)))

def Param.reads (loose : Bool) : Param → Language Token
  | ⟨type, ident, offset⟩ =>
    onlyIf (offset = 0) * (identOf maxIdentLen ident * (tokenOf .colon * type.reads loose))

def Params.reads (loose : Bool) : List Param → List (Language Token)
  | [] => []
  | param :: params => param.reads loose :: Params.reads loose params

end

/-- The tokens of a signature behind the name of a procedure. -/
def Ty.readsSignature (loose : Bool) : Ty → Language Token
  | .procedure sig => sig.reads loose
  | _ => 0

/-! ## Nodes -/

/-- The nodes that are statements of their own, without a semicolon to make them one. -/
def AstNode.isStatement : AstNode → Bool
  | .block .. | .vardecl .. | .if_ .. | .while_ .. | .for_ .. | .return_ .. => true
  | _ => false

mutual

/-- The tokens of a node. -/
def AstNode.reads (loose : Bool) : AstNode → Language Token
  | .literal op _ => {[op]}
  | .grouping e => tokenOf .lparen * (e.reads loose * tokenOf .rparen)
  | .call op callee args =>
    callee.reads loose * ({[op]} * (commas loose (Nodes.reads loose args) * tokenOf .rparen))
  | .index op e i => e.reads loose * ({[op]} * (i.reads loose * tokenOf .rbracket))
  | .unaryop e op _ => {[op]} * e.reads loose
  | .binop lhs rhs op _ => lhs.reads loose * ({[op]} * rhs.reads loose)
  | .assign op value target => target.reads loose * ({[op]} * value.reads loose)
  | .array op values type _ =>
    {[op]} * (commas loose (Nodes.reads loose values) * (tokenOf .rbracket * type.reads loose))
  | .block stmts _ => tokenOf .lbrace * (Stmts.reads loose stmts * tokenOf .rbrace)
  | .vardecl op ident init type _ =>
    {[op]} * ({[ident]} * (tokenOf .colon * (type.reads loose *
      (OptNode.reads loose 1 (tokenOf .assign) init * tokenOf .semicolon))))
  | .if_ op cond thenBody elseBody =>
    {[op]} * (cond.reads loose * (thenBody.reads loose *
      OptNode.reads loose 1 (tokenOf .kwElse) elseBody))
  | .while_ op cond body => {[op]} * (cond.reads loose * body.reads loose)
  | .for_ op _ cond step body type ident init =>
    {[op]} * ({[ident]} * (tokenOf .colon * (type.reads loose * (tokenOf .assign *
      (init.reads loose * (tokenOf .comma * (cond.reads loose * (tokenOf .comma *
        (step.reads loose * body.reads loose)))))))))
  | .return_ op e => {[op]} * (OptNode.reads loose 1 1 e * tokenOf .semicolon)
  | .proc op ident body type _ _ =>
    {[op]} * ({[ident]} * (type.readsSignature loose *
      OptNode.reads loose (tokenOf .semicolon) 1 body))
  | .table .. => 0

/-- An optional node, with what stands in its place or in front of it. -/
def OptNode.reads (loose : Bool) (absent front : Language Token) : Option AstNode → Language Token
  | none => absent
  | some node => front * node.reads loose

def Nodes.reads (loose : Bool) : List AstNode → List (Language Token)
  | [] => []
  | node :: nodes => node.reads loose :: Nodes.reads loose nodes

/-- A sequence of statements. -/
def Stmts.reads (loose : Bool) : List AstNode → Language Token
  | [] => 1
  | stmt :: stmts =>
    stmt.reads loose * ((if stmt.isStatement then 1 else tokenOf .semicolon) *
      Stmts.reads loose stmts)

end

/-! ## Grammar levels -/

/-- The operators of each binary level, from tight to loose. -/
def binaryOps : Nat → List TokenKind
  | 0 => [.slash, .asterisk]
  | 1 => [.plus, .minus]
  | 2 => [.lt, .ltEq, .gt, .gtEq]
  | 3 => [.eq, .neq]
  | 4 => [.ampersand]
  | 5 => [.pipe]
  | 6 => [.logAnd]
  | 7 => [.logOr]
  | _ => []

/-- The rules of the binary levels. -/
def ruleExprBinary (r : Rules) : Nat → P AstNode
  | 0 => ruleExprUnary r
  | n + 1 => templBinop r.fuel (ruleExprBinary r n) (binaryOps n)

/-- The levels of expressions, from tight to loose, and the other kinds of trees; `binary 0` is
the level of the prefix operators. -/
inductive Level where
  | primary | call | index | binary (n : Nat) | assign | expression
  | statement | block | declaration | program
  deriving DecidableEq

/-- The trees of each level, with types that satisfy `T`: every operand sits at the level the
grammar has for it. -/
inductive Tree (T : Ty → Prop) : Level → AstNode → Prop
  | literal {op : Token} {kind : LiteralKind} : literalFromToken op.kind = some kind →
    Tree T .primary (.literal op kind)
  | grouping {e : AstNode} : Tree T .expression e → Tree T .primary (.grouping e)
  | ofPrimary {e : AstNode} : Tree T .primary e → Tree T .call e
  | call {op : Token} {callee : AstNode} {args : List AstNode} : op.kind = .lparen →
    Tree T .primary callee → (∀ e ∈ args, Tree T .expression e) →
    Tree T .call (.call op callee args)
  | ofCall {e : AstNode} : Tree T .call e → Tree T .index e
  | index {op : Token} {e i : AstNode} : op.kind = .lbracket → Tree T .call e →
    Tree T .expression i → Tree T .index (.index op e i)
  | ofIndex {e : AstNode} : Tree T .index e → Tree T (.binary 0) e
  | unaryop {op : Token} {kind : UnaryOpKind} {e : AstNode} :
    unaryopFromToken op.kind = some kind → Tree T .index e → Tree T (.binary 0) (.unaryop e op kind)
  | tighter {n : Nat} {e : AstNode} : Tree T (.binary n) e → Tree T (.binary (n + 1)) e
  | binop {n : Nat} {op : Token} {kind : BinOpKind} {lhs rhs : AstNode} :
    op.kind ∈ binaryOps n → binopFromToken op.kind = some kind → Tree T (.binary (n + 1)) lhs →
    Tree T (.binary n) rhs → Tree T (.binary (n + 1)) (.binop lhs rhs op kind)
  | ofBinary {e : AstNode} : Tree T (.binary 8) e → Tree T .assign e
  | assign {op : Token} {value target : AstNode} : op.kind = .assign → Tree T .assign value →
    Tree T (.binary 8) target → Tree T .assign (.assign op value target)
  | ofAssign {e : AstNode} : Tree T .assign e → Tree T .expression e
  | array {op : Token} {values : List AstNode} {type : Ty} : op.kind = .lbracket →
    (∀ e ∈ values, Tree T .expression e) → T type → Tree T .expression (.array op values type 0)
  | exprstmt {e : AstNode} : Tree T .expression e → Tree T .statement e
  | blockstmt {b : AstNode} : Tree T .block b → Tree T .statement b
  | vardecl {op ident : Token} {init : Option AstNode} {type : Ty} : op.kind = .kwVardecl →
    ident.kind = .literalIdent → T type → (∀ e ∈ init, Tree T .expression e) →
    Tree T .statement (.vardecl op ident init type 0)
  | if_ {op : Token} {cond thenBody : AstNode} {elseBody : Option AstNode} : op.kind = .kwIf →
    Tree T .expression cond → Tree T .block thenBody → (∀ b ∈ elseBody, Tree T .block b) →
    Tree T .statement (.if_ op cond thenBody elseBody)
  | while_ {op : Token} {cond body : AstNode} : op.kind = .kwWhile → Tree T .expression cond →
    Tree T .block body → Tree T .statement (.while_ op cond body)
  | for_ {op ident : Token} {cond step body init : AstNode} {type : Ty} : op.kind = .kwFor →
    ident.kind = .literalIdent → T type → Tree T .expression init → Tree T .expression cond →
    Tree T .expression step → Tree T .block body →
    Tree T .statement (.for_ op none cond step body type ident init)
  | return_ {op : Token} {value : Option AstNode} : op.kind = .kwReturn →
    (∀ e ∈ value, Tree T .expression e) → Tree T .statement (.return_ op value)
  | block {stmts : List AstNode} : (∀ s ∈ stmts, Tree T .statement s) →
    Tree T .block (.block stmts none)
  | proc {op ident : Token} {body : Option AstNode} {sig : ProcSignature} : op.kind = .kwProc →
    ident.kind = .literalIdent → T (.procedure sig) → (∀ b ∈ body, Tree T .block b) →
    Tree T .declaration (.proc op ident body (.procedure sig) none 0)
  | program {decls : List AstNode} : (∀ d ∈ decls, Tree T .declaration d) →
    Tree T .program (.block decls none)

/-- A tree of a level, and its tokens. -/
def Reads (T : Ty → Prop) (loose : Bool) (l : Level) (e : AstNode) (ts : List Token) : Prop :=
  Tree T l e ∧ ts ∈ e.reads loose

/-- A list of expressions, and its tokens. -/
def ReadsList (T : Ty → Prop) (loose : Bool) (es : List AstNode) (ts : List Token) : Prop :=
  (∀ e ∈ es, Tree T .expression e) ∧ ts ∈ commas loose (Nodes.reads loose es)

section
variable {T : Ty → Prop} {loose : Bool} {l l' : Level} {e : AstNode} {es : List AstNode} {op t : Token}
  {ts us vs sep : List Token}

theorem Reads.imp (h : Reads T loose l e ts) (hl : Tree T l e → Tree T l' e) : Reads T loose l' e ts :=
  ⟨hl h.1, h.2⟩

theorem Reads.literal {kind : LiteralKind} (h : literalFromToken op.kind = some kind) :
    Reads T loose .primary (.literal op kind) [op] :=
  ⟨.literal h, mem_singleton⟩

theorem Reads.grouping (hop : op.kind = .lparen) (he : Reads T loose .expression e ts)
    (ht : t.kind = .rparen) : Reads T loose .primary (.grouping e) (op :: (ts ++ [t])) :=
  ⟨.grouping he.1,
    cons_mem_mul (mem_tokenOf hop) (Language.append_mem_mul he.2 (mem_tokenOf ht))⟩

theorem Reads.call (he : Reads T loose .primary e ts) (hop : op.kind = .lparen)
    (hargs : ReadsList T loose es us) (ht : t.kind = .rparen) :
    Reads T loose .call (.call op e es) (ts ++ op :: (us ++ [t])) :=
  ⟨.call hop he.1 hargs.1, Language.append_mem_mul he.2 (cons_mem_mul mem_singleton
    (Language.append_mem_mul hargs.2 (mem_tokenOf ht)))⟩

theorem Reads.index {i : AstNode} (he : Reads T loose .call e ts) (hop : op.kind = .lbracket)
    (hi : Reads T loose .expression i us) (ht : t.kind = .rbracket) :
    Reads T loose .index (.index op e i) (ts ++ op :: (us ++ [t])) :=
  ⟨.index hop he.1 hi.1, Language.append_mem_mul he.2 (cons_mem_mul mem_singleton
    (Language.append_mem_mul hi.2 (mem_tokenOf ht)))⟩

theorem Reads.unaryop {kind : UnaryOpKind} (hop : unaryopFromToken op.kind = some kind)
    (he : Reads T loose .index e ts) : Reads T loose (.binary 0) (.unaryop e op kind) (op :: ts) :=
  ⟨.unaryop hop he.1, cons_mem_mul mem_singleton he.2⟩

theorem Reads.binop {n : Nat} {kind : BinOpKind} {lhs rhs : AstNode}
    (hlhs : Reads T loose (.binary (n + 1)) lhs ts) (hop : op.kind ∈ binaryOps n)
    (hkind : binopFromToken op.kind = some kind) (hrhs : Reads T loose (.binary n) rhs us) :
    Reads T loose (.binary (n + 1)) (.binop lhs rhs op kind) (ts ++ op :: us) :=
  ⟨.binop hop hkind hlhs.1 hrhs.1, Language.append_mem_mul hlhs.2 (cons_mem_mul mem_singleton hrhs.2)⟩

theorem Reads.assign {value target : AstNode} (htarget : Reads T loose (.binary 8) target ts)
    (hop : op.kind = .assign) (hvalue : Reads T loose .assign value us) :
    Reads T loose .assign (.assign op value target) (ts ++ op :: us) :=
  ⟨.assign hop hvalue.1 htarget.1,
    Language.append_mem_mul htarget.2 (cons_mem_mul mem_singleton hvalue.2)⟩

theorem Reads.array {type : Ty} (hop : op.kind = .lbracket) (hes : ReadsList T loose es ts)
    (ht : t.kind = .rbracket) (hT : T type) (htype : us ∈ type.reads loose) :
    Reads T loose .expression (.array op es type 0) (op :: (ts ++ t :: us)) :=
  ⟨.array hop hes.1 hT, cons_mem_mul mem_singleton (Language.append_mem_mul hes.2
    (cons_mem_mul (mem_tokenOf ht) htype))⟩

theorem ReadsList.nil : ReadsList T loose [] [] := ⟨List.forall_mem_nil _, commas_nil⟩

theorem ReadsList.cons (he : Reads T loose .expression e ts)
    (hsep : sep ∈ tokenOf .comma + onlyIf (loose = true ∨ Nodes.reads loose es = []))
    (hes : ReadsList T loose es us) : ReadsList T loose (e :: es) (ts ++ (sep ++ us)) :=
  ⟨List.forall_mem_cons.mpr ⟨he.1, hes.1⟩, commas_cons he.2 hsep hes.2⟩

end

end Seron
