import Seron.Verify.ParserSound

/-! # Printing

The token sequence of a tree, and that the tokens from which a tree is read are those it is printed
to, up to positions and commas. -/

namespace Seron

/-! ## The token sequence of a tree -/

/-- The elements of a list with commas between them. -/
def commaSeparated (ls : List (List Token)) : List Token :=
  List.intercalate [{ kind := .comma }] ls

mutual

def Ty.print : Ty → List Token
  | .int => [{ kind := .kwTypeInt }]
  | .char => [{ kind := .kwTypeChar }]
  | .long => [{ kind := .kwTypeLong }]
  | .void => [{ kind := .kwTypeVoid }]
  | .pointer (some ty) => { kind := .asterisk } :: ty.print
  | .procedure sig => { kind := .kwProc } :: sig.print
  | .object name => [.ident name]
  | .pointer none | .invalid | .table _ => []

def ProcSignature.print : ProcSignature → List Token
  | ⟨params, returntype⟩ =>
    { kind := .lparen } :: (commaSeparated (Params.print params) ++
      { kind := .rparen } :: returntype.print)

def Param.print : Param → List Token
  | ⟨type, ident, _⟩ => .ident ident :: { kind := .colon } :: type.print

def Params.print : List Param → List (List Token)
  | [] => []
  | param :: params => param.print :: Params.print params

end

/-- The tokens of a signature behind the name of a procedure. -/
def Ty.printSignature : Ty → List Token
  | .procedure sig => sig.print
  | _ => []

mutual

def AstNode.print : AstNode → List Token
  | .literal op _ => [op]
  | .grouping e => { kind := .lparen } :: (e.print ++ [{ kind := .rparen }])
  | .call op callee args =>
    callee.print ++ op :: (commaSeparated (Nodes.print args) ++ [{ kind := .rparen }])
  | .index op e i => e.print ++ op :: (i.print ++ [{ kind := .rbracket }])
  | .unaryop e op _ => op :: e.print
  | .binop lhs rhs op _ => lhs.print ++ op :: rhs.print
  | .assign op value target => target.print ++ op :: value.print
  | .array op values type _ =>
    op :: (commaSeparated (Nodes.print values) ++ { kind := .rbracket } :: type.print)
  | .block stmts _ => { kind := .lbrace } :: (Stmts.print stmts ++ [{ kind := .rbrace }])
  | .vardecl op ident init type _ =>
    op :: ident :: { kind := .colon } :: (type.print ++
      (OptNode.print [] [{ kind := .assign }] init ++ [{ kind := .semicolon }]))
  | .if_ op cond thenBody elseBody =>
    op :: (cond.print ++ (thenBody.print ++ OptNode.print [] [{ kind := .kwElse }] elseBody))
  | .while_ op cond body => op :: (cond.print ++ body.print)
  | .for_ op _ cond step body type ident init =>
    op :: ident :: { kind := .colon } :: (type.print ++ { kind := .assign } :: (init.print ++
      { kind := .comma } :: (cond.print ++ { kind := .comma } :: (step.print ++ body.print))))
  | .return_ op e => op :: (OptNode.print [] [] e ++ [{ kind := .semicolon }])
  | .proc op ident body type _ _ =>
    op :: ident :: (type.printSignature ++ OptNode.print [{ kind := .semicolon }] [] body)
  | .table .. => []

/-- An optional node, with what stands in its place or in front of it. -/
def OptNode.print (absent front : List Token) : Option AstNode → List Token
  | none => absent
  | some node => front ++ node.print

def Nodes.print : List AstNode → List (List Token)
  | [] => []
  | node :: nodes => node.print :: Nodes.print nodes

/-- A semicolon makes an expression a statement. -/
def Stmts.print : List AstNode → List Token
  | [] => []
  | stmt :: stmts =>
    stmt.print ++ ((if stmt.isStatement then [] else [{ kind := .semicolon }]) ++
      Stmts.print stmts)

end

/-! ## Lexemes -/

/-- A token without its position; of an identifier only its name is left, of punctuation and
keywords their kind. -/
def Token.symbol (t : Token) : Token :=
  match t.kind with
  | .literalIdent => { kind := .literalIdent, value := t.value }
  | .literalNumber | .literalString => { t with position := 0, len := 0 }
  | kind => { kind }

/-- The symbols of a sequence of tokens, without its commas. -/
def lexemes (ts : List Token) : List Token :=
  (ts.filter fun t => t.kind ≠ .comma).map Token.symbol

theorem Token.symbol_eq {t : Token}
    (h : t.kind ≠ .literalIdent ∧ t.kind ≠ .literalNumber ∧ t.kind ≠ .literalString) :
    t.symbol = { kind := t.kind } := by
  obtain ⟨h₁, h₂, h₃⟩ := h
  unfold Token.symbol
  split
  · exact absurd ‹_› h₁
  · exact absurd ‹_› h₂
  · exact absurd ‹_› h₃
  · rfl

theorem lexemes_append (ts us : List Token) : lexemes (ts ++ us) = lexemes ts ++ lexemes us := by
  simp [lexemes]

/-- Identifiers are shorter than the buffers for them. -/
def ShortIdents (ts : List Token) : Prop :=
  ∀ t ∈ ts, t.kind = .literalIdent → t.value.length < maxIdentLen

theorem strncpy_eq {n : Nat} {s : String} (h : s.length ≤ n) : strncpy n s = s := by
  rw [strncpy, List.take_of_length_le (by rwa [String.length_toList]), String.ofList_toList]

/-- The sequences of a language have the lexemes of `p`. -/
def Lexed (l : Language Token) (p : List Token) : Prop :=
  ∀ ts ∈ l, ShortIdents ts → lexemes ts = lexemes p

namespace Lexed

variable {l m : Language Token} {p q : List Token}

theorem mul (hl : Lexed l p) (hm : Lexed m q) : Lexed (l * m) (p ++ q) := by
  rintro _ ⟨ts, hts, us, hus, rfl⟩ hshort
  have hshort := List.forall_mem_append.mp hshort
  rw [lexemes_append, lexemes_append, hl ts hts hshort.1, hm us hus hshort.2]

theorem cons {t : Token} (hl : Lexed l [t]) (hm : Lexed m q) : Lexed (l * m) (t :: q) :=
  mul hl hm

theorem one : Lexed 1 [] := by
  rintro _ rfl _
  rfl

theorem singleton {t : Token} : Lexed {[t]} [t] := by
  rintro _ rfl _
  rfl

theorem zero : Lexed 0 p := nofun

theorem tokenOf {kind : TokenKind}
    (h : kind ≠ .literalIdent ∧ kind ≠ .literalNumber ∧ kind ≠ .literalString) :
    Lexed (tokenOf kind) [{ kind }] := by
  rintro _ ⟨t, rfl, rfl⟩ _
  have hsymbol : t.symbol = ({ kind := t.kind } : Token).symbol :=
    (Token.symbol_eq h).trans (Token.symbol_eq (t := { kind := t.kind }) h).symm
  by_cases hcomma : t.kind = .comma
  · simp [lexemes, hcomma]
  · simp only [lexemes, List.filter_cons, ne_eq, hcomma, not_false_eq_true, decide_true, if_true,
      List.filter_nil, List.map_cons, hsymbol, List.map_nil]

theorem identOf {n : Nat} {name : String} (hn : maxIdentLen ≤ n + 1) :
    Lexed (identOf n name) [.ident name] := by
  rintro _ ⟨t, hkind, rfl, rfl⟩ hshort
  have hlen := hshort t List.mem_cons_self hkind
  rw [strncpy_eq (by omega)]
  simp [lexemes, Token.symbol, hkind, Token.ident]

theorem onlyIf_mul {c : Prop} (hm : Lexed m q) : Lexed (onlyIf c * m) q := by
  rintro _ ⟨_, ⟨-, rfl⟩, us, hus, rfl⟩ hshort
  exact hm us hus hshort

/-- Commas are no lexemes. -/
theorem commas {loose : Bool} {ls : List (Language Token)} {ps : List (List Token)}
    (h : List.Forall₂ Lexed ls ps) : Lexed (commas loose ls) (commaSeparated ps) := by
  induction h with
  | nil => exact one
  | @cons l p ls ps hl hls ih =>
    have hsep : Lexed (Seron.tokenOf .comma + Seron.onlyIf (loose = true ∨ ls = [])) [] := by
      rintro ts (⟨t, hkind, rfl⟩ | ⟨-, rfl⟩) _
      · simp [lexemes, hkind]
      · rfl
    intro ts hts hshort
    have hlex := (hl.mul (hsep.mul ih)) ts hts hshort
    rw [hlex, List.nil_append, lexemes_append]
    cases ps with
    | nil => simp [commaSeparated, lexemes]
    | cons p' ps => simp [commaSeparated, List.intercalate_cons_cons, lexemes]

end Lexed

/-! ## What is read is what is printed -/

mutual

theorem Ty.lexed (loose : Bool) : ∀ ty : Ty, Lexed (ty.reads loose) ty.print
  | .int | .char | .long | .void => by
    simp only [Ty.reads, Ty.print]
    exact .tokenOf (by decide)
  | .pointer (some ty) => by
    rw [Ty.reads, Ty.print]
    exact .cons (.tokenOf (by decide)) (ty.lexed loose)
  | .procedure sig => by
    rw [Ty.reads, Ty.print]
    exact .cons (.tokenOf (by decide)) (sig.lexed loose)
  | .object name => by
    rw [Ty.reads, Ty.print]
    exact .identOf (by decide)
  | .pointer none | .invalid | .table _ => by
    rw [Ty.reads, Ty.print]
    exact .zero

theorem ProcSignature.lexed (loose : Bool) : ∀ sig : ProcSignature, Lexed (sig.reads loose) sig.print
  | ⟨params, returntype⟩ => by
    rw [ProcSignature.reads, ProcSignature.print]
    exact .onlyIf_mul (.cons (.tokenOf (by decide)) (.mul (.commas (Params.lexed loose params))
      (.cons (.tokenOf (by decide)) (returntype.lexed loose))))

theorem Param.lexed (loose : Bool) : ∀ param : Param, Lexed (param.reads loose) param.print
  | ⟨type, ident, offset⟩ => by
    rw [Param.reads, Param.print]
    exact .onlyIf_mul (.cons (.identOf (by decide)) (.cons (.tokenOf (by decide)) (type.lexed loose)))

theorem Params.lexed (loose : Bool) : ∀ params : List Param,
    List.Forall₂ Lexed (Params.reads loose params) (Params.print params)
  | [] => .nil
  | param :: params => .cons (param.lexed loose) (Params.lexed loose params)

end

theorem Ty.signature_lexed (loose : Bool) : ∀ ty : Ty,
    Lexed (ty.readsSignature loose) ty.printSignature
  | .procedure sig => sig.lexed loose
  | .int | .char | .long | .void | .pointer _ | .object _ | .invalid | .table _ => .zero

mutual

theorem AstNode.lexed (loose : Bool) : ∀ e : AstNode, Lexed (e.reads loose) e.print
  | .literal op kind => by
    rw [AstNode.reads, AstNode.print]
    exact .singleton
  | .grouping e => by
    rw [AstNode.reads, AstNode.print]
    exact .cons (.tokenOf (by decide)) (.mul (e.lexed loose) (.tokenOf (by decide)))
  | .call op callee args => by
    rw [AstNode.reads, AstNode.print]
    exact .mul (callee.lexed loose) (.cons .singleton (.mul (.commas (Nodes.lexed loose args))
      (.tokenOf (by decide))))
  | .index op e i => by
    rw [AstNode.reads, AstNode.print]
    exact .mul (e.lexed loose) (.cons .singleton (.mul (i.lexed loose) (.tokenOf (by decide))))
  | .unaryop e op kind => by
    rw [AstNode.reads, AstNode.print]
    exact .cons .singleton (e.lexed loose)
  | .binop lhs rhs op kind => by
    rw [AstNode.reads, AstNode.print]
    exact .mul (lhs.lexed loose) (.cons .singleton (rhs.lexed loose))
  | .assign op value target => by
    rw [AstNode.reads, AstNode.print]
    exact .mul (target.lexed loose) (.cons .singleton (value.lexed loose))
  | .array op values type offset => by
    rw [AstNode.reads, AstNode.print]
    exact .cons .singleton (.mul (.commas (Nodes.lexed loose values))
      (.cons (.tokenOf (by decide)) (type.lexed loose)))
  | .block stmts t => by
    rw [AstNode.reads, AstNode.print]
    exact .cons (.tokenOf (by decide)) (.mul (Stmts.lexed loose stmts) (.tokenOf (by decide)))
  | .vardecl op ident init type offset => by
    rw [AstNode.reads, AstNode.print]
    exact .cons .singleton (.cons .singleton (.cons (.tokenOf (by decide)) (.mul (type.lexed loose)
      (.mul (OptNode.lexed loose .one (.tokenOf (by decide)) init) (.tokenOf (by decide))))))
  | .if_ op cond thenBody elseBody => by
    rw [AstNode.reads, AstNode.print]
    exact .cons .singleton (.mul (cond.lexed loose) (.mul (thenBody.lexed loose)
      (OptNode.lexed loose .one (.tokenOf (by decide)) elseBody)))
  | .while_ op cond body => by
    rw [AstNode.reads, AstNode.print]
    exact .cons .singleton (.mul (cond.lexed loose) (body.lexed loose))
  | .for_ op decl cond step body type ident init => by
    rw [AstNode.reads, AstNode.print]
    exact .cons .singleton (.cons .singleton (.cons (.tokenOf (by decide)) (.mul (type.lexed loose)
      (.cons (.tokenOf (by decide)) (.mul (init.lexed loose) (.cons (.tokenOf (by decide)) (.mul (cond.lexed loose)
        (.cons (.tokenOf (by decide)) (.mul (step.lexed loose) (body.lexed loose))))))))))
  | .return_ op e => by
    rw [AstNode.reads, AstNode.print]
    exact .cons .singleton (.mul (OptNode.lexed loose .one .one e) (.tokenOf (by decide)))
  | .proc op ident body type t size => by
    rw [AstNode.reads, AstNode.print]
    exact .cons .singleton (.cons .singleton (.mul (type.signature_lexed loose)
      (OptNode.lexed loose (.tokenOf (by decide)) .one body)))
  | .table op ident type => by
    rw [AstNode.reads, AstNode.print]
    exact .zero

theorem OptNode.lexed (loose : Bool) {absent front : Language Token} {ps qs : List Token}
    (habsent : Lexed absent ps) (hfront : Lexed front qs) : ∀ node : Option AstNode,
    Lexed (OptNode.reads loose absent front node) (OptNode.print ps qs node)
  | none => by
    rw [OptNode.reads, OptNode.print]
    exact habsent
  | some node => by
    rw [OptNode.reads, OptNode.print]
    exact .mul hfront (node.lexed loose)

theorem Nodes.lexed (loose : Bool) : ∀ nodes : List AstNode,
    List.Forall₂ Lexed (Nodes.reads loose nodes) (Nodes.print nodes)
  | [] => .nil
  | node :: nodes => .cons (node.lexed loose) (Nodes.lexed loose nodes)

theorem Stmts.lexed (loose : Bool) : ∀ stmts : List AstNode,
    Lexed (Stmts.reads loose stmts) (Stmts.print stmts)
  | [] => .one
  | stmt :: stmts => by
    rw [Stmts.reads, Stmts.print]
    refine .mul (stmt.lexed loose) (.mul ?_ (Stmts.lexed loose stmts))
    split
    · exact .one
    · exact .tokenOf (by decide)

end

/-! ## Expressions -/

/-- Whenever `rule_expr` returns, it has consumed the tokens of the tree it returns, up to commas,
and in the tree every operand sits at its level. -/
theorem ruleExpr_consumes {fuel : Nat} {p q : Parser} {e : AstNode}
    (hsentinel : ∀ t ∈ p.toks, t.kind ≠ .sentinel) (hshort : ShortIdents p.toks)
    (h : ruleExpr (rules fuel) p = .ok e q) :
    ∃ ts, p.toks = ts ++ q.toks ∧ lexemes ts = lexemes e.print ∧
      Tree (fun _ => True) .expression e := by
  obtain ⟨ts, hts, htree, hreads⟩ :=
    ruleExpr_sound (rules_sound fuel) (C := fun _ => True) p e q hsentinel trivial h
  exact ⟨ts, hts, e.lexed true ts hreads fun t ht => hshort t (hts ▸ List.mem_append_left _ ht),
    htree⟩

/-- `-a[1] + f(2 3,) * b;` -/
def looseExpression : List Token :=
  [{ kind := .minus }, .ident "a", { kind := .lbracket }, .num 1, { kind := .rbracket },
    { kind := .plus }, .ident "f", { kind := .lparen }, .num 2, .num 3, { kind := .comma },
    { kind := .rparen }, { kind := .asterisk }, .ident "b", { kind := .semicolon }]

theorem ruleExpr_looseExpression :
    ∃ e q, ruleExpr (rules 20) { toks := looseExpression } = .ok e q :=
  Outcome.of_isOk (by decide +kernel)

theorem ruleExpr_consumes_looseExpression :
    ∃ e q, ruleExpr (rules 20) { toks := looseExpression } = .ok e q ∧
      ∃ ts, looseExpression = ts ++ q.toks ∧ lexemes ts = lexemes e.print ∧
        Tree (fun _ => True) .expression e := by
  obtain ⟨e, q, h⟩ := ruleExpr_looseExpression
  have hshort : ∀ t ∈ looseExpression, t.kind = .literalIdent → t.value.length < maxIdentLen := by
    decide
  exact ⟨e, q, h, ruleExpr_consumes (p := { toks := looseExpression }) (by decide) hshort h⟩

end Seron
