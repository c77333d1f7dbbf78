import Seron.Theory.Ebnf
import Seron.Verify.Limits
import Seron.Verify.ParserSound

/-! # The grammar of the rules

The EBNF above the rules of the parser, and two variants of it: every sequence of tokens of the
strict one is accepted by the rules, and every sequence they accept is one of the lenient one. The
variants differ only where the code does not follow its comments. -/

namespace Seron

open Ebnf Computability

/-! ## The grammar -/

/-- The nonterminals, one for each rule. A procedure type is `named` if it is parsed with a
name. -/
inductive Nonterminal where
  | expression | array | assign | logOr | logAnd | bitwiseOr | bitwiseAnd | equality | comparison
  | term | factor | unary | index | call | primary | grouping
  | arglist | param | paramlist | fieldlist | utilProc (named : Bool) | type

/-- A right-hand side over the kinds of tokens. -/
abbrev Rhs : Type := Ebnf Nonterminal TokenKind

def tok (kind : TokenKind) : Rhs := .terminal kind

def nt (n : Nonterminal) : Rhs := .nonterminal n

def oneOf (kind : TokenKind) (kinds : List TokenKind) : Rhs := .alts (tok kind) (kinds.map tok)

/-- `<x> ((kind | ...) <x>)*` -/
def chain (x : Nonterminal) (kind : TokenKind) (kinds : List TokenKind) : Rhs :=
  .seq (nt x) (.star (.seq (oneOf kind kinds) (nt x)))

/-- `(<x> ("," <x>)*)?` -/
def list (x : Nonterminal) : Rhs := .opt (.seq (nt x) (.star (.seq (tok .comma) (nt x))))

def prefixOp : Rhs := oneOf .ampersand [.asterisk, .bang, .minus]

/-- The name that a procedure type is parsed with. -/
def procName (named : Bool) : Rhs := if named then tok .literalIdent else .empty

/-- The comments above the rules. The suffixes of a call and of an index are optional; a character
literal is a number. -/
def documented : Nonterminal → Rhs
  | .expression => nt .assign
  | .array => .seqs [tok .lbracket, list .expression, tok .rbracket, nt .type]
  | .assign => .alt (.seqs [nt .logOr, tok .assign, nt .assign]) (nt .logOr)
  | .logOr => chain .logAnd .logOr []
  | .logAnd => chain .bitwiseOr .logAnd []
  | .bitwiseOr => chain .bitwiseAnd .pipe []
  | .bitwiseAnd => chain .equality .ampersand []
  | .equality => chain .comparison .eq [.neq]
  | .comparison => chain .term .lt [.ltEq, .gt, .gtEq]
  | .term => chain .factor .plus [.minus]
  | .factor => chain .unary .slash [.asterisk]
  | .unary => .alt (.seq prefixOp (nt .unary)) (nt .index)
  | .index => .seq (nt .call) (.opt (.seqs [tok .lbracket, nt .expression, tok .rbracket]))
  | .call => .seq (nt .primary) (.opt (nt .arglist))
  | .primary => .alts (tok .literalNumber) [tok .literalIdent, tok .literalString, nt .grouping]
  | .grouping => .seqs [tok .lparen, nt .expression, tok .rparen]
  | .arglist => .seqs [tok .lparen, list .expression, tok .rparen]
  | .param => .seqs [tok .literalIdent, tok .colon, nt .type]
  | .paramlist => .seqs [tok .lparen, list .param, tok .rparen]
  | .fieldlist => .seqs [tok .lbrace, list .param, tok .rbrace]
  | .utilProc named => .seqs [tok .kwProc, procName named, nt .paramlist, .opt (nt .type)]
  | .type => .alts (.seq (tok .asterisk) (nt .type))
      [tok .kwTypeInt, tok .kwTypeVoid, tok .kwTypeChar, nt (.utilProc false)]

/-- The types of the code: `long` and the name of a table are types as well. -/
def types : Rhs :=
  .alts (.seq (tok .asterisk) (nt .type)) [tok .kwTypeInt, tok .kwTypeVoid, tok .kwTypeChar,
    tok .kwTypeLong, tok .literalIdent, nt (.utilProc false)]

/-- A list of at most `n` elements. -/
def listUpTo (x : Nonterminal) : Nat → Rhs
  | 0 => .empty
  | n + 1 => .opt (.seq (nt x) (.upTo (.seq (tok .comma) (nt x)) n))

/-- An element of a list, with a comma behind it or not. -/
def looseItem (x : Nonterminal) : Rhs := .seq (nt x) (.opt (tok .comma))

/-- What the rules are sure to accept: one prefix operator, a return type in every procedure type,
and parameters and fields within the arrays they are stored in. -/
def strict : Nonterminal → Rhs
  | .expression => .alt (nt .assign) (nt .array)
  | .unary => .alt (.seq prefixOp (nt .index)) (nt .index)
  | .paramlist => .seqs [tok .lparen, listUpTo .param (maxParamCount - 1), tok .rparen]
  | .fieldlist => .seqs [tok .lbrace, listUpTo .param maxParamCount, tok .rbrace]
  | .utilProc named => .seqs [tok .kwProc, procName named, nt .paramlist, nt .type]
  | .type => types
  | n => documented n

/-- What they may accept: commas can be left out and end a list. -/
def lenient : Nonterminal → Rhs
  | .expression => .alt (nt .assign) (nt .array)
  | .array => .seqs [tok .lbracket, .star (looseItem .expression), tok .rbracket, nt .type]
  | .arglist => .seqs [tok .lparen, .star (looseItem .expression), tok .rparen]
  | .paramlist => .seqs [tok .lparen, .upTo (looseItem .param) maxParamCount, tok .rparen]
  | .fieldlist => .seqs [tok .lbrace, .star (looseItem .param), tok .rbrace]
  | .type => types
  | n => documented n

/-! ## The rules -/

/-- The rule for a nonterminal. A field list is read into an empty table. -/
def Nonterminal.rule (r : Rules) : Nonterminal → P Unit
  | .expression => discard (ruleExpr r)
  | .array => discard (ruleExprArray r)
  | .assign => discard (ruleExprAssign r)
  | .logOr => discard (ruleExprLogOr r)
  | .logAnd => discard (ruleExprLogAnd r)
  | .bitwiseOr => discard (ruleExprBitwiseOr r)
  | .bitwiseAnd => discard (ruleExprBitwiseAnd r)
  | .equality => discard (ruleExprEquality r)
  | .comparison => discard (ruleExprComparison r)
  | .term => discard (ruleExprTerm r)
  | .factor => discard (ruleExprFactor r)
  | .unary => discard (ruleExprUnary r)
  | .index => discard (ruleExprIndex r)
  | .call => discard (ruleExprCall r)
  | .primary => discard (ruleExprPrimary r)
  | .grouping => discard (ruleGrouping r)
  | .arglist => discard (ruleUtilArglist r)
  | .param => discard (ruleUtilParam r)
  | .paramlist => discard (ruleUtilParamlist r)
  | .fieldlist => discard (ruleUtilFieldlist r (freshTable 0))
  | .utilProc named => discard (ruleUtilProcType r named)
  | .type => discard (ruleUtilType r)

/-- The rule returns without a diagnostic, and has consumed the tokens. -/
def Consumed {α : Type} (x : P α) (p : Parser) (ts : List Token) : Prop :=
  ∃ a q, x p = .ok a q ∧ p.toks = ts ++ q.toks ∧ q.diags = p.diags ∧ q.errcount = p.errcount

/-- The expressions of a level. -/
def expressions (loose : Bool) (l : Level) : Language Token :=
  {ts | ∃ e, Reads (fun _ => True) loose l e ts}

def expressionLists (loose : Bool) : Language Token :=
  {ts | ∃ es, ReadsList (fun _ => True) loose es ts}

def signatures (loose : Bool) : Language Token :=
  {ts | ∃ sig : ProcSignature, ts ∈ sig.reads loose}

/-- The tokens from which a rule makes a tree, a list or a type. -/
def Nonterminal.reads (loose : Bool) : Nonterminal → Language Token
  | .expression => expressions loose .expression
  | .array => {ts | ∃ op values type, op.kind = .lbracket ∧
      (∀ e ∈ values, Tree (fun _ => True) .expression e) ∧
      ts ∈ (AstNode.array op values type 0).reads loose}
  | .assign => expressions loose .assign
  | .logOr => expressions loose (.binary 8)
  | .logAnd => expressions loose (.binary 7)
  | .bitwiseOr => expressions loose (.binary 6)
  | .bitwiseAnd => expressions loose (.binary 5)
  | .equality => expressions loose (.binary 4)
  | .comparison => expressions loose (.binary 3)
  | .term => expressions loose (.binary 2)
  | .factor => expressions loose (.binary 1)
  | .unary => expressions loose (.binary 0)
  | .index => expressions loose .index
  | .call => expressions loose .call
  | .primary => expressions loose .primary
  | .grouping => {ts | ∃ e, Tree (fun _ => True) .expression e ∧ ts ∈ (AstNode.grouping e).reads loose}
  | .arglist => tokenOf .lparen * (expressionLists loose * tokenOf .rparen)
  | .param => {ts | ∃ param : Param, ts ∈ param.reads loose}
  | .paramlist => {ts | ∃ params : List Param, params.length < maxParamCount ∧
      ts ∈ tokenOf .lparen * (commas loose (Params.reads loose params) * tokenOf .rparen)}
  | .fieldlist => {ts | ∃ fields : List Param, (loose = true ∨ fields.length ≤ maxParamCount) ∧
      ts ∈ tokenOf .lbrace * (commas loose (Params.reads loose fields) * tokenOf .rbrace)}
  | .utilProc named =>
    tokenOf .kwProc * ((if named then tokenOf .literalIdent else 1) * signatures loose)
  | .type => {ts | ∃ ty : Ty, ts ∈ ty.reads loose}

/-- The kinds of tokens that continue what a rule reads. -/
def Nonterminal.continued : Nonterminal → List TokenKind
  | .expression => Level.expression.continued
  | .assign => Level.assign.continued
  | .logOr => (Level.binary 8).continued
  | .logAnd => (Level.binary 7).continued
  | .bitwiseOr => (Level.binary 6).continued
  | .bitwiseAnd => (Level.binary 5).continued
  | .equality => (Level.binary 4).continued
  | .comparison => (Level.binary 3).continued
  | .term => (Level.binary 2).continued
  | .factor => (Level.binary 1).continued
  | .unary => (Level.binary 0).continued
  | .index => Level.index.continued
  | .call => Level.call.continued
  | _ => []

/-! ## What the rules accept -/

section
variable {r : Rules} {n : Nonterminal} {ts : List Token}

theorem ruleUtilFieldlist_sound (hr : r.Sound) {table : Table} {C : Token → Prop} :
    Consumes C (ruleUtilFieldlist r table) fun _ ts => ts ∈ Nonterminal.fieldlist.reads true := by
  refine .consume_skip fun op _ hop => .bind (Q := fun _ ts => ∃ fields : List Param,
    ts ∈ commas true (Params.reads true fields)) ?_ fun _ ts hts => .consume_skip fun t _ ht => ?_
  · generalize r.fuel = fuel
    induction fuel generalizing table with
    | zero => exact .never .outOfFuel
    | succ fuel ih =>
      refine .branch_one (.pure ⟨[], commas_nil⟩)
        (.weaken (.bind (ruleUtilParam_sound hr) fun param us hparam => ?_))
      show Consumes (fun _ => True) (nextField r fuel table param) _
      unfold nextField
      split
      · intro p a q _ _ h
        cases h
      · refine .bind .parserSkip fun _ sep hsep => (Consumes.weaken ih).imp ?_
        intro _ vs hvs
        obtain ⟨fields, hvs⟩ := hvs
        exact ⟨param :: fields, commas_cons hparam (hsep.imp id fun h => ⟨.inl rfl, h⟩) hvs⟩
  · obtain ⟨fields, hts⟩ := hts
    exact .pure ⟨fields, .inl rfl, cons_mem_mul (mem_tokenOf hop)
      (Language.append_mem_mul hts (mem_tokenOf ht))⟩

theorem ruleUtilProcType_reads (hr : r.Sound) {named : Bool} :
    Consumes (fun _ => True) (ruleUtilProcType r named) fun _ ts =>
      ts ∈ (Nonterminal.utilProc named).reads true := by
  refine (ruleUtilProcType_sound hr).imp fun a ts h => ?_
  obtain ⟨op, ident, type⟩ := a
  obtain ⟨sig, us, hop, -, hus, hts⟩ := h
  have hsig : us ∈ signatures true := ⟨sig, hus⟩
  cases named <;> cases ident
  · subst hts
    exact cons_mem_mul (mem_tokenOf hop) (Language.append_mem_mul Language.nil_mem_one hsig)
  · exact hts.elim
  · exact hts.elim
  · obtain ⟨hident, rfl⟩ := hts
    exact cons_mem_mul (mem_tokenOf hop) (cons_mem_mul (mem_tokenOf hident) hsig)

/-- A rule makes a tree, a list or a type from what it consumes. -/
theorem Nonterminal.rule_sound (hr : r.Sound) (n : Nonterminal) :
    Consumes (fun _ => True) (n.rule r) fun _ ts => ts ∈ n.reads true := by
  have level {l : Level} {x : P AstNode} (hx : Consumes (fun _ => True) x (Reads (fun _ => True) true l)) :
      Consumes (fun _ => True) (discard x) fun _ ts => ts ∈ expressions true l := hx.dropped
  have binary (n : Nat) : Consumes (fun _ => True) (discard (ruleExprBinary r n)) fun _ ts =>
      ts ∈ expressions true (.binary n) := level (ruleExprBinary_sound hr)
  cases n with
  | expression => exact level (ruleExpr_sound hr)
  | assign => exact level (ruleExprAssign_sound hr)
  | logOr => exact binary 8
  | logAnd => exact binary 7
  | bitwiseOr => exact binary 6
  | bitwiseAnd => exact binary 5
  | equality => exact binary 4
  | comparison => exact binary 3
  | term => exact binary 2
  | factor => exact binary 1
  | unary => exact binary 0
  | index => exact level (ruleExprIndex_sound hr)
  | call => exact level (ruleExprCall_sound hr)
  | primary => exact level (ruleExprPrimary_sound hr)
  | array =>
    refine (ruleExprArray_sound hr).dropped.imp fun _ ts h => ?_
    obtain ⟨_, op, values, type, rfl, h⟩ := h
    exact ⟨op, values, type, h⟩
  | grouping =>
    refine (ruleGrouping_sound hr).dropped.imp fun _ ts h => ?_
    obtain ⟨_, e, rfl, h⟩ := h
    exact ⟨e, h⟩
  | arglist =>
    refine (ruleUtilArglist_sound hr).dropped.imp fun _ ts h => ?_
    obtain ⟨es, op, us, t, -, hop, hes, ht, rfl⟩ := h
    exact cons_mem_mul (mem_tokenOf hop) (Language.append_mem_mul ⟨es, hes⟩ (mem_tokenOf ht))
  | param => exact (ruleUtilParam_sound hr).dropped
  | paramlist => exact (ruleUtilParamlist_sound hr).dropped
  | fieldlist =>
    refine (ruleUtilFieldlist_sound hr).dropped.imp fun _ ts h => ?_
    obtain ⟨_, h⟩ := h
    exact h
  | utilProc named =>
    refine (ruleUtilProcType_reads hr).dropped.imp fun _ ts h => ?_
    obtain ⟨_, h⟩ := h
    exact h
  | type => exact (ruleUtilType_sound hr).dropped

/-- A rule consumes what a tree, a list or a type is made from, in front of a token that does not
continue it. -/
theorem Nonterminal.rule_complete (hr : r.Complete fun _ => True) (hts : ts ∈ n.reads false)
    (hshort : ts.length < r.fuel) : Accepts (· ∉ n.continued) (n.rule r) ts () := by
  have hlen := Nat.le_of_lt hshort
  have whole {α : Type} {F : TokenKind → Prop} {x : P α} {a : α} (hx : Accepts (fun _ => True) x ts a) :
      Accepts F (discard x) ts () := hx.dropped.imp fun _ _ => trivial
  have binary {m : Nat} (hts : ts ∈ expressions false (.binary m)) :
      Accepts (Level.binary m).Stops (discard (ruleExprBinary r m)) ts () := by
    obtain ⟨e, he⟩ := hts
    exact (ruleExprBinary_complete hr he hlen).dropped
  cases n with
  | logOr | logAnd | bitwiseOr | bitwiseAnd | equality | comparison | term | factor | unary =>
    exact binary hts
  | expression =>
    obtain ⟨e, he⟩ := hts
    exact (ruleExpr_complete hr he hlen).dropped
  | assign =>
    obtain ⟨e, he⟩ := hts
    exact (ruleExprAssign_complete hr he hlen).dropped
  | index =>
    obtain ⟨e, he⟩ := hts
    exact (ruleExprIndex_complete hr he hlen).dropped
  | call =>
    obtain ⟨e, he⟩ := hts
    exact (ruleExprCall_complete hr he hlen).dropped
  | primary =>
    obtain ⟨e, he⟩ := hts
    exact (ruleExprPrimary_complete hr he hlen).dropped
  | array =>
    obtain ⟨op, values, type, hop, hvalues, hts⟩ := hts
    exact whole (ruleExprArray_complete hr hop hvalues hts hlen)
  | grouping =>
    obtain ⟨e, he, hts⟩ := hts
    rw [AstNode.reads] at hts
    obtain ⟨op, _, hop, ⟨us, hus, _, ⟨t, ht, rfl⟩, rfl⟩, rfl⟩ := mem_tokenOf_mul hts
    rw [List.length_cons, List.length_append] at hlen
    exact whole (ruleGrouping_complete hr hop ⟨he, hus⟩ ht (by omega))
  | arglist =>
    obtain ⟨op, _, hop, ⟨us, ⟨es, hes⟩, _, ⟨t, ht, rfl⟩, rfl⟩, rfl⟩ := mem_tokenOf_mul hts
    rw [List.length_cons, List.length_append] at hlen
    exact whole (ruleUtilArglist_complete hr hop hes ht (by omega))
  | param =>
    obtain ⟨param, hts⟩ := hts
    exact whole (ruleUtilParam_complete hr hts hshort)
  | paramlist =>
    obtain ⟨params, hparams, hts⟩ := hts
    exact whole (ruleUtilParamlist_complete hr hts hparams hlen)
  | fieldlist =>
    obtain ⟨fields, hfields, hts⟩ := hts
    exact whole (ruleUtilFieldlist_complete hr hts hlen (.inr ((Nat.zero_add _).le.trans
      (hfields.resolve_left (by simp)))))
  | utilProc named =>
    obtain ⟨op, _, hop, ⟨name, hname, us, ⟨sig, hus⟩, rfl⟩, rfl⟩ := mem_tokenOf_mul hts
    rw [List.length_cons, List.length_append] at hlen
    cases named with
    | true =>
      obtain ⟨ident, hident, rfl⟩ := hname
      have hident : ∀ t ∈ some ident, t.kind = .literalIdent := by simpa using hident
      exact whole (ruleUtilProcType_complete hr hop hident hus (by omega))
    | false =>
      obtain rfl := (Language.mem_one _).mp hname
      have hident : ∀ t ∈ (none : Option Token), t.kind = .literalIdent := by simp
      exact whole (ruleUtilProcType_complete hr hop hident hus (by omega))
  | type =>
    obtain ⟨ty, hts⟩ := hts
    exact whole (ruleUtilType_complete hr hts hlen)

end

/-! ## What the strict grammar derives -/

/-- The level of a chain of binary operators. -/
def Nonterminal.binary : Nat → Nonterminal
  | 0 => .unary
  | 1 => .factor
  | 2 => .term
  | 3 => .comparison
  | 4 => .equality
  | 5 => .bitwiseAnd
  | 6 => .bitwiseOr
  | 7 => .logAnd
  | _ => .logOr

section
variable {J : Nonterminal → Language Token} {n : Nat} {x : Nonterminal} {ts us : List Token}

theorem mem_oneOf {kind : TokenKind} {kinds : List TokenKind} :
    ts ∈ (oneOf kind kinds).language Token.kind J ↔ ∃ t, t.kind ∈ kind :: kinds ∧ ts = [t] := by
  induction kinds generalizing kind with
  | nil =>
    show (∃ t, t.kind = kind ∧ ts = [t]) ↔ _
    simp only [List.mem_singleton]
  | cons kind' kinds ih =>
    have hor : ts ∈ (oneOf kind (kind' :: kinds)).language Token.kind J ↔
        ts ∈ letter Token.kind kind ∨ ts ∈ (oneOf kind' kinds).language Token.kind J := Iff.rfl
    rw [hor, ih]
    constructor
    · intro h
      rcases h with ⟨t, ht, rfl⟩ | ⟨t, ht, rfl⟩
      · exact ⟨t, by simp [ht], rfl⟩
      · exact ⟨t, List.mem_cons_of_mem _ ht, rfl⟩
    · intro h
      obtain ⟨t, ht, rfl⟩ := h
      exact (List.mem_cons.mp ht).imp (fun h => mem_letter h) fun h => ⟨t, h, rfl⟩

theorem Nodes.reads_eq_map {loose : Bool} (es : List AstNode) :
    Nodes.reads loose es = es.map (AstNode.reads loose) := by
  induction es with
  | nil => rfl
  | cons e es ih => rw [Nodes.reads, ih, List.map_cons]

theorem Params.reads_eq_map {loose : Bool} (params : List Param) :
    Params.reads loose params = params.map (Param.reads loose) := by
  induction params with
  | nil => rfl
  | cons param params ih => rw [Params.reads, ih, List.map_cons]

/-- An element and at most `n` others behind commas. -/
theorem commas_of_upTo {α : Type} {f : α → Language Token} {Q : α → Prop}
    (hx : ∀ ts ∈ J x, ∃ a, Q a ∧ ts ∈ f a) {a : α} (ha : Q a) (hus : us ∈ f a)
    (hts : ts ∈ (upTo (.seq (tok .comma) (nt x)) n).language Token.kind J) :
    ∃ as : List α, as.length ≤ n ∧ (∀ b ∈ a :: as, Q b) ∧
      us ++ ts ∈ commas false ((a :: as).map f) := by
  induction n generalizing a us ts with
  | zero =>
    obtain rfl := (Language.mem_one _).mp hts
    exact ⟨[], Nat.le_refl _, List.forall_mem_singleton.mpr ha,
      commas_cons hus (.inr ⟨.inr rfl, rfl⟩) commas_nil⟩
  | succ n ih =>
    rcases hts with hts | ⟨_, ⟨sep, hsep, vs, hvs, rfl⟩, ws, hws, rfl⟩
    · obtain rfl := (Language.mem_one _).mp hts
      exact ⟨[], Nat.zero_le _, List.forall_mem_singleton.mpr ha,
        commas_cons hus (.inr ⟨.inr rfl, rfl⟩) commas_nil⟩
    · obtain ⟨b, hb, hvs⟩ := hx vs hvs
      obtain ⟨as, hlen, has, hmem⟩ := ih hb hvs hws
      refine ⟨b :: as, Nat.succ_le_succ hlen, List.forall_mem_cons.mpr ⟨ha, has⟩, ?_⟩
      dsimp only
      rw [List.append_assoc]
      exact commas_cons hus (.inl hsep) hmem

/-- A list of at most `n` elements. -/
theorem commas_of_listUpTo {α : Type} {f : α → Language Token} {Q : α → Prop}
    (hx : ∀ ts ∈ J x, ∃ a, Q a ∧ ts ∈ f a) (hts : ts ∈ (listUpTo x n).language Token.kind J) :
    ∃ as : List α, as.length ≤ n ∧ (∀ a ∈ as, Q a) ∧ ts ∈ commas false (as.map f) := by
  cases n with
  | zero =>
    obtain rfl := (Language.mem_one _).mp hts
    exact ⟨[], Nat.le_refl _, List.forall_mem_nil _, commas_nil⟩
  | succ n =>
    rcases hts with hts | ⟨us, hus, vs, hvs, rfl⟩
    · obtain rfl := (Language.mem_one _).mp hts
      exact ⟨[], Nat.zero_le _, List.forall_mem_nil _, commas_nil⟩
    · obtain ⟨a, ha, hus⟩ := hx us hus
      obtain ⟨as, hlen, has, hmem⟩ := commas_of_upTo hx ha hus hvs
      exact ⟨a :: as, Nat.succ_le_succ hlen, has, hmem⟩

theorem listUpTo_of_list (h : ts ∈ (list x).language Token.kind J) :
    ∃ n, ts ∈ (listUpTo x n).language Token.kind J := by
  rcases h with h | ⟨us, hus, vs, hvs, rfl⟩
  · exact ⟨0, h⟩
  · obtain ⟨n, hvs⟩ := exists_mem_upTo hvs
    exact ⟨n + 1, .inr (Language.append_mem_mul hus hvs)⟩

/-- A list of expressions. -/
theorem expressionLists_of_list
    (h : ts ∈ (list .expression).language Token.kind (Nonterminal.reads false)) :
    ts ∈ expressionLists false := by
  obtain ⟨n, h⟩ := listUpTo_of_list h
  obtain ⟨es, -, hes, hts⟩ := commas_of_listUpTo (fun ts h => h) h
  exact ⟨es, hes, by rwa [Nodes.reads_eq_map]⟩

end

/-- The rule of a binary level, and its operators. -/
theorem binary_chain {n : Nat} (h : n < 8) :
    ∃ kind kinds, binaryOps n = kind :: kinds ∧
      documented (.binary (n + 1)) = chain (.binary n) kind kinds := by
  match n with
  | 0 | 1 | 2 | 3 | 4 | 5 | 6 | 7 => exact ⟨_, _, rfl, rfl⟩

theorem binopFromToken_binaryOps {n : Nat} {k : TokenKind} (h : k ∈ binaryOps n) :
    ∃ kind, binopFromToken k = some kind := by
  match n with
  | 0 | 1 | 2 | 3 | 4 | 5 | 6 | 7 =>
    apply Option.isSome_iff_exists.mp
    revert k
    decide
  | n + 8 => cases h

/-- Chains of binary operators nest to the left. -/
theorem expressions_of_chain {J : Nonterminal → Language Token} {n : Nat} {x : Nonterminal}
    {kind : TokenKind} {kinds : List TokenKind} {ts : List Token}
    (hx : J x = expressions false (.binary n)) (hops : binaryOps n = kind :: kinds)
    (h : ts ∈ (chain x kind kinds).language Token.kind J) :
    ts ∈ expressions false (.binary (n + 1)) := by
  obtain ⟨us, hus, vs, hvs, rfl⟩ := h
  obtain ⟨e, he⟩ : us ∈ expressions false (.binary n) := hx ▸ hus
  replace he := he.imp .tighter
  clear hus
  apply kstar_induction (P := fun vs => ∀ us e, Reads (fun _ => True) false (.binary (n + 1)) e us →
    us ++ vs ∈ expressions false (.binary (n + 1))) hvs
  · intro us e he
    exact ⟨e, by rwa [List.append_nil]⟩
  · intro v w hv _ ih us e he
    obtain ⟨_, hop, vs, hvs, rfl⟩ := hv
    obtain ⟨op, hmem, rfl⟩ := mem_oneOf.mp hop
    obtain ⟨rhs, hrhs⟩ : vs ∈ expressions false (.binary n) := hx ▸ hvs
    rw [← hops] at hmem
    obtain ⟨kind, hkind⟩ := binopFromToken_binaryOps hmem
    have := ih _ _ (he.binop hmem hkind hrhs)
    simpa using this
  · exact he

section
variable {ts : List Token}

theorem unary_solved (h : ts ∈ (strict .unary).language Token.kind (Nonterminal.reads false)) :
    ts ∈ Nonterminal.unary.reads false := by
  rcases h with ⟨_, hop, us, ⟨e, he⟩, rfl⟩ | ⟨e, he⟩
  · obtain ⟨op, hmem, rfl⟩ := mem_oneOf.mp hop
    obtain ⟨kind, hkind⟩ : ∃ kind, unaryopFromToken op.kind = some kind := by
      apply Option.isSome_iff_exists.mp
      exact (by decide : ∀ k ∈ [TokenKind.ampersand, .asterisk, .bang, .minus],
        (unaryopFromToken k).isSome) _ hmem
    exact ⟨_, he.unaryop hkind⟩
  · exact ⟨e, he.imp .ofIndex⟩

theorem primary_solved (h : ts ∈ (strict .primary).language Token.kind (Nonterminal.reads false)) :
    ts ∈ Nonterminal.primary.reads false := by
  rcases h with ⟨op, hop, rfl⟩ | ⟨op, hop, rfl⟩ | ⟨op, hop, rfl⟩ | ⟨e, he, hts⟩
  · exact ⟨_, .literal (by rw [hop]; rfl)⟩
  · exact ⟨_, .literal (by rw [hop]; rfl)⟩
  · exact ⟨_, .literal (by rw [hop]; rfl)⟩
  · exact ⟨_, .grouping he, hts⟩

/-- The elements of a bounded list of parameters. -/
theorem params_of_listUpTo {n : Nat}
    (h : ts ∈ (listUpTo .param n).language Token.kind (Nonterminal.reads false)) :
    ∃ params : List Param, params.length ≤ n ∧ ts ∈ commas false (Params.reads false params) := by
  obtain ⟨params, hlen, -, hts⟩ := commas_of_listUpTo (Q := fun _ => True)
    (fun ts h => h.imp fun _ h => ⟨trivial, h⟩) h
  exact ⟨params, hlen, by rwa [Params.reads_eq_map]⟩

theorem utilProc_solved {named : Bool}
    (h : ts ∈ (strict (.utilProc named)).language Token.kind (Nonterminal.reads false)) :
    ts ∈ (Nonterminal.utilProc named).reads false := by
  obtain ⟨op, hop, _, ⟨name, hname, _, ⟨us, ⟨params, hparams, hus⟩, vs, ⟨type, hvs⟩, rfl⟩, rfl⟩,
    rfl⟩ := h
  refine Language.append_mem_mul hop (Language.append_mem_mul ?_ ⟨⟨params, type⟩, ?_⟩)
  · cases named <;> exact hname
  · rw [ProcSignature.reads]
    refine onlyIf_mul_mem hparams ?_
    simpa only [mul_assoc] using Language.append_mem_mul hus hvs

theorem type_solved (h : ts ∈ (strict .type).language Token.kind (Nonterminal.reads false)) :
    ts ∈ Nonterminal.type.reads false := by
  rcases h with ⟨star_, hstar, us, ⟨type, hus⟩, rfl⟩ | hts | hts | hts | hts | hts | hts
  · refine ⟨.pointer (some type), ?_⟩
    rw [Ty.reads]
    exact Language.append_mem_mul hstar hus
  · exact ⟨.int, by rw [Ty.reads]; exact hts⟩
  · exact ⟨.void, by rw [Ty.reads]; exact hts⟩
  · exact ⟨.char, by rw [Ty.reads]; exact hts⟩
  · exact ⟨.long, by rw [Ty.reads]; exact hts⟩
  · obtain ⟨t, ht, rfl⟩ := hts
    exact ⟨.object _, by rw [Ty.reads]; exact mem_identOf ht⟩
  · obtain ⟨op, hop, _, ⟨name, hname, us, ⟨sig, hus⟩, rfl⟩, rfl⟩ := hts
    obtain rfl := (Language.mem_one _).mp hname
    exact ⟨.procedure sig, by rw [Ty.reads]; exact Language.append_mem_mul hop hus⟩

end

/-- What the rules read solves the strict grammar. -/
theorem strict_solved (n : Nonterminal) :
    (strict n).language Token.kind (Nonterminal.reads false) ≤ n.reads false := by
  have binary {m : Nat} (hm : m < 8)
      (hreads : (Nonterminal.binary m).reads false = expressions false (.binary m)) :
      (documented (.binary (m + 1))).language Token.kind (Nonterminal.reads false) ≤
        expressions false (.binary (m + 1)) := by
    intro ts hts
    obtain ⟨kind, kinds, hops, hchain⟩ := binary_chain hm
    rw [hchain] at hts
    exact expressions_of_chain hreads hops hts
  intro ts hts
  cases n with
  | logOr => exact binary (by decide : 7 < 8) rfl hts
  | logAnd => exact binary (by decide : 6 < 8) rfl hts
  | bitwiseOr => exact binary (by decide : 5 < 8) rfl hts
  | bitwiseAnd => exact binary (by decide : 4 < 8) rfl hts
  | equality => exact binary (by decide : 3 < 8) rfl hts
  | comparison => exact binary (by decide : 2 < 8) rfl hts
  | term => exact binary (by decide : 1 < 8) rfl hts
  | factor => exact binary (by decide : 0 < 8) rfl hts
  | expression =>
    rcases hts with ⟨e, he⟩ | ⟨op, values, type, hop, hvalues, hts⟩
    · exact ⟨e, he.imp .ofAssign⟩
    · exact ⟨_, .array hop hvalues trivial, hts⟩
  | array =>
    obtain ⟨_, ⟨op, hop, rfl⟩, us, ⟨vs, hvs, _, ⟨_, hclose, ws, ⟨type, hws⟩, rfl⟩, rfl⟩, rfl⟩ := hts
    obtain ⟨values, hvalues, hvs⟩ := expressionLists_of_list hvs
    refine ⟨op, values, type, hop, hvalues, ?_⟩
    rw [AstNode.reads]
    exact Language.append_mem_mul mem_singleton
      (Language.append_mem_mul hvs (Language.append_mem_mul hclose hws))
  | assign =>
    rcases hts with ⟨us, ⟨target, htarget⟩, _, ⟨_, ⟨op, hop, rfl⟩, ws, ⟨value, hvalue⟩, rfl⟩, rfl⟩ |
      ⟨e, he⟩
    · exact ⟨_, htarget.assign hop hvalue⟩
    · exact ⟨e, he.imp .ofBinary⟩
  | unary => exact unary_solved hts
  | index =>
    obtain ⟨us, ⟨e, he⟩, vs, hvs | ⟨_, ⟨op, hop, rfl⟩, _, ⟨ws, ⟨i, hi⟩, _, ⟨t, ht, rfl⟩, rfl⟩, rfl⟩,
      rfl⟩ := hts
    · obtain rfl := (Language.mem_one _).mp hvs
      exact ⟨e, by simpa using he.imp .ofCall⟩
    · exact ⟨_, he.index hop hi ht⟩
  | call =>
    obtain ⟨us, ⟨e, he⟩, vs, hvs | ⟨_, ⟨op, hop, rfl⟩, _, ⟨ws, ⟨es, hes⟩, _, ⟨t, ht, rfl⟩, rfl⟩, rfl⟩,
      rfl⟩ := hts
    · obtain rfl := (Language.mem_one _).mp hvs
      exact ⟨e, by simpa using he.imp .ofPrimary⟩
    · exact ⟨_, he.call hop hes ht⟩
  | primary => exact primary_solved hts
  | grouping =>
    obtain ⟨open_, hopen, _, ⟨us, ⟨e, he⟩, close, hclose, rfl⟩, rfl⟩ := hts
    exact ⟨e, he.1, Language.append_mem_mul hopen (Language.append_mem_mul he.2 hclose)⟩
  | arglist =>
    obtain ⟨open_, hopen, _, ⟨us, hus, close, hclose, rfl⟩, rfl⟩ := hts
    exact Language.append_mem_mul hopen
      (Language.append_mem_mul (expressionLists_of_list hus) hclose)
  | param =>
    obtain ⟨_, ⟨ident, hident, rfl⟩, _, ⟨colon, hcolon, us, ⟨type, hus⟩, rfl⟩, rfl⟩ := hts
    refine ⟨⟨type, strncpy maxIdentLen ident.value, 0⟩, ?_⟩
    rw [Param.reads]
    exact onlyIf_mul_mem rfl (Language.append_mem_mul (mem_identOf hident)
      (Language.append_mem_mul hcolon hus))
  | paramlist =>
    obtain ⟨open_, hopen, _, ⟨us, hus, close, hclose, rfl⟩, rfl⟩ := hts
    obtain ⟨params, hlen, hus⟩ := params_of_listUpTo hus
    exact ⟨params, Nat.lt_of_le_pred (by decide) hlen,
      Language.append_mem_mul hopen (Language.append_mem_mul hus hclose)⟩
  | fieldlist =>
    obtain ⟨open_, hopen, _, ⟨us, hus, close, hclose, rfl⟩, rfl⟩ := hts
    obtain ⟨fields, hlen, hus⟩ := params_of_listUpTo hus
    exact ⟨fields, .inr hlen, Language.append_mem_mul hopen (Language.append_mem_mul hus hclose)⟩
  | utilProc named => exact utilProc_solved hts
  | type => exact type_solved hts

/-! ## What the lenient grammar derives -/

/-- The words of the lenient grammar. -/
abbrev derived (n : Nonterminal) : Language Token := words Token.kind lenient n

section
variable {x : Nonterminal} {ls : List (Language Token)} {ts : List Token}

theorem loose_mem_upTo {n : Nat} (hls : ∀ l ∈ ls, l ≤ derived x) (hn : ls.length ≤ n)
    (hts : ts ∈ commas true ls) : ts ∈ (upTo (looseItem x) n).language Token.kind derived := by
  induction ls generalizing n ts with
  | nil =>
    obtain rfl := (Language.mem_one _).mp hts
    exact nil_mem_upTo
  | cons l ls ih =>
    obtain ⟨n, rfl⟩ := Nat.exists_eq_succ_of_ne_zero (Nat.ne_of_gt (Nat.zero_lt_of_lt hn))
    obtain ⟨us, hus, _, ⟨sep, hsep, vs, hvs, rfl⟩, rfl⟩ := hts
    obtain ⟨hl, hls⟩ := List.forall_mem_cons.mp hls
    dsimp only
    rw [← List.append_assoc]
    refine append_mem_upTo (Language.append_mem_mul (hl hus) ?_) (ih hls (Nat.le_of_succ_le_succ hn) hvs)
    rcases hsep with hsep | ⟨-, rfl⟩
    · exact .inr hsep
    · exact .inl Language.nil_mem_one

theorem loose_le_star (hls : ∀ l ∈ ls, l ≤ derived x) :
    commas true ls ≤ (star (looseItem x)).language Token.kind derived :=
  fun _ hts => mem_star_of_upTo (loose_mem_upTo hls (Nat.le_refl _) hts)

end

/-- A rule derives what its right-hand side derives. -/
theorem rule_le (n : Nonterminal) : (lenient n).language Token.kind derived ≤ derived n :=
  fun _ hts => mem_words_iff.mpr hts

mutual

theorem Ty.reads_le : ∀ ty : Ty, ty.reads true ≤ derived .type
  | .int => by
    rw [Ty.reads]
    exact fun _ h => rule_le .type (.inr (.inl h))
  | .void => by
    rw [Ty.reads]
    exact fun _ h => rule_le .type (.inr (.inr (.inl h)))
  | .char => by
    rw [Ty.reads]
    exact fun _ h => rule_le .type (.inr (.inr (.inr (.inl h))))
  | .long => by
    rw [Ty.reads]
    exact fun _ h => rule_le .type (.inr (.inr (.inr (.inr (.inl h)))))
  | .object name => by
    rw [Ty.reads]
    intro ts h
    obtain ⟨t, ht, -, rfl⟩ := h
    exact rule_le .type (.inr (.inr (.inr (.inr (.inr (.inl (mem_letter ht)))))))
  | .pointer (some ty) => by
    rw [Ty.reads]
    intro ts h
    exact rule_le .type (.inl (mul_le_mul_right (ty.reads_le) _ h))
  | .procedure sig => by
    rw [Ty.reads]
    intro ts h
    refine rule_le .type (.inr (.inr (.inr (.inr (.inr (.inr (rule_le (.utilProc false) ?_)))))))
    refine mul_le_mul_right (le_trans ?_ (mul_le_mul_right sig.reads_le _)) _ h
    exact le_of_eq (one_mul _).symm
  | .pointer none | .invalid | .table _ => by
    rw [Ty.reads]
    exact fun _ h => h.elim

theorem ProcSignature.reads_le : ∀ sig : ProcSignature, sig.reads true ≤
    derived .paramlist * (nt .type).opt.language Token.kind derived
  | ⟨params, returntype⟩ => by
    rw [ProcSignature.reads]
    intro ts h
    obtain ⟨hlen, lparen, hl, _, ⟨us, hus, _, ⟨rparen, hr, vs, hvs, rfl⟩, rfl⟩, rfl⟩ :=
      mem_onlyIf_mul.mp h
    have hlist : lparen ++ (us ++ rparen) ∈ derived .paramlist := by
      refine rule_le .paramlist (Language.append_mem_mul hl (Language.append_mem_mul ?_ hr))
      refine loose_mem_upTo (Params.reads_le params) ?_ hus
      rw [Params.length_reads]
      exact Nat.le_of_lt hlen
    have hreturn : vs ∈ (nt .type).opt.language Token.kind derived :=
      .inr (returntype.reads_le hvs)
    have happend : lparen ++ (us ++ (rparen ++ vs)) = lparen ++ (us ++ rparen) ++ vs := by
      simp only [List.append_assoc]
    show lparen ++ (us ++ (rparen ++ vs)) ∈ _
    rw [happend]
    exact Language.append_mem_mul hlist hreturn

theorem Param.reads_le : ∀ param : Param, param.reads true ≤ derived .param
  | ⟨type, ident, offset⟩ => by
    rw [Param.reads]
    intro ts h
    obtain ⟨-, _, ⟨t, ht, -, rfl⟩, us, hus, rfl⟩ := mem_onlyIf_mul.mp h
    exact rule_le .param (Language.append_mem_mul (mem_letter ht)
      (mul_le_mul_right type.reads_le _ hus))

theorem Params.reads_le : ∀ params : List Param,
    ∀ l ∈ Params.reads true params, l ≤ derived .param
  | [] => by
    rw [Params.reads]
    exact List.forall_mem_nil _
  | param :: params => by
    rw [Params.reads]
    exact List.forall_mem_cons.mpr ⟨param.reads_le, Params.reads_le params⟩

end

theorem lenient_binary {n : Nat} (hn : n < 8) :
    lenient (.binary (n + 1)) = documented (.binary (n + 1)) := by
  match n with
  | 0 | 1 | 2 | 3 | 4 | 5 | 6 | 7 => rfl

/-- What the lenient grammar derives at a level. -/
def Level.derived : Level → Language Token
  | .primary => Seron.derived .primary
  | .call => Seron.derived .call
  | .index => Seron.derived .index
  | .binary n => Seron.derived (.binary n)
  | .assign => Seron.derived .assign
  | .expression => Seron.derived .expression
  | .statement | .block | .declaration | .program => ⊤

/-- The chain of a single operand. -/
theorem chain_single {n : Nat} {us : List Token} (hn : n < 8) (hus : us ∈ derived (.binary n)) :
    us ∈ derived (.binary (n + 1)) := by
  obtain ⟨kind, kinds, -, hchain⟩ := binary_chain hn
  rw [mem_words_iff, lenient_binary hn, hchain, ← List.append_nil us]
  exact Language.append_mem_mul hus (Language.nil_mem_kstar _)

/-- An operand more at the end of a chain. -/
theorem chain_snoc {n : Nat} {us vs : List Token} {op : Token} (hn : n < 8)
    (hus : us ∈ derived (.binary (n + 1))) (hop : op.kind ∈ binaryOps n)
    (hvs : vs ∈ derived (.binary n)) : us ++ op :: vs ∈ derived (.binary (n + 1)) := by
  obtain ⟨kind, kinds, hops, hchain⟩ := binary_chain hn
  rw [hops] at hop
  rw [mem_words_iff, lenient_binary hn, hchain] at hus ⊢
  obtain ⟨first, hfirst, rest, hrest, rfl⟩ := hus
  let l := (seq (oneOf kind kinds) (nt (.binary n))).language Token.kind derived
  have hlast : [op] ++ vs ∈ l := Language.append_mem_mul (mem_oneOf.mpr ⟨op, hop, rfl⟩) hvs
  have hle : l∗ * l ≤ l∗ := kstar_mul_le_kstar
  have hmore : rest ++ ([op] ++ vs) ∈ l∗ := hle (Language.append_mem_mul hrest hlast)
  show first ++ rest ++ op :: vs ∈ _
  rw [List.append_assoc]
  exact Language.append_mem_mul hfirst hmore

theorem Nodes.reads_le {es : List AstNode}
    (h : ∀ e ∈ es, e.reads true ≤ derived .expression) :
    ∀ l ∈ Nodes.reads true es, l ≤ derived .expression := by
  rw [Nodes.reads_eq_map]
  exact List.forall_mem_map.mpr h

theorem array_reads_le {op : Token} {values : List AstNode} {type : Ty} (hop : op.kind = .lbracket)
    (hvalues : ∀ e ∈ values, e.reads true ≤ derived .expression) :
    (AstNode.array op values type 0).reads true ≤ derived .array := by
  rw [AstNode.reads]
  intro ts hts
  obtain ⟨_, rfl, us, ⟨vs, hvs, _, ⟨close, hclose, ws, hws, rfl⟩, rfl⟩, rfl⟩ := hts
  exact rule_le .array (Language.append_mem_mul (mem_letter hop) (Language.append_mem_mul
    (loose_le_star (Nodes.reads_le hvalues) hvs) (Language.append_mem_mul hclose (type.reads_le hws))))

theorem grouping_reads_le {e : AstNode} (he : e.reads true ≤ derived .expression) :
    (AstNode.grouping e).reads true ≤ derived .grouping := by
  rw [AstNode.reads]
  intro ts hts
  obtain ⟨open_, hopen, _, ⟨us, hus, close, hclose, rfl⟩, rfl⟩ := hts
  exact rule_le .grouping
    (Language.append_mem_mul hopen (Language.append_mem_mul (he hus) hclose))

theorem arglist_le {es : List AstNode} {op t : Token} {ts : List Token} (hop : op.kind = .lparen)
    (hes : ∀ e ∈ es, e.reads true ≤ derived .expression)
    (hts : ts ∈ commas true (Nodes.reads true es)) (ht : t.kind = .rparen) :
    op :: (ts ++ [t]) ∈ derived .arglist :=
  rule_le .arglist (Language.append_mem_mul (mem_letter hop) (Language.append_mem_mul
    (loose_le_star (Nodes.reads_le hes) hts) (mem_letter ht)))

/-- The tokens of a tree are derived by the lenient grammar, at the level of the tree. -/
theorem Tree.reads_le {l : Level} {e : AstNode} (h : Tree (fun _ => True) l e) :
    e.reads true ≤ l.derived := by
  induction h with
  | @literal op kind h =>
    rw [AstNode.reads]
    intro ts hts
    obtain rfl : ts = [op] := hts
    have hfirst := literalFromToken_first h
    simp only [List.mem_cons, List.not_mem_nil, or_false] at hfirst
    refine rule_le .primary ?_
    rcases hfirst with h | h | h
    · exact .inl (mem_letter h)
    · exact .inr (.inl (mem_letter h))
    · exact .inr (.inr (.inl (mem_letter h)))
  | grouping _ ih =>
    exact fun ts hts => rule_le .primary (.inr (.inr (.inr (grouping_reads_le ih hts))))
  | ofPrimary _ ih =>
    intro ts hts
    have := Language.append_mem_mul (ih hts) (show [] ∈ (opt (nt .arglist)).language Token.kind
      derived from .inl Language.nil_mem_one)
    rw [List.append_nil] at this
    exact rule_le .call this
  | @call op callee args hop _ _ ih ihargs =>
    rw [AstNode.reads]
    intro ts hts
    obtain ⟨us, hus, _, ⟨_, rfl, _, ⟨vs, hvs, _, ⟨t, ht, rfl⟩, rfl⟩, rfl⟩, rfl⟩ := hts
    exact rule_le .call (Language.append_mem_mul (ih hus) (.inr (arglist_le hop ihargs hvs ht)))
  | ofCall _ ih =>
    intro ts hts
    have := Language.append_mem_mul (ih hts) (show [] ∈ (opt (seqs [tok .lbracket, nt .expression,
      tok .rbracket])).language Token.kind derived from .inl Language.nil_mem_one)
    rw [List.append_nil] at this
    exact rule_le .index this
  | @index op e i hop _ _ ihe ihi =>
    rw [AstNode.reads]
    intro ts hts
    obtain ⟨us, hus, _, ⟨_, rfl, _, ⟨vs, hvs, close, hclose, rfl⟩, rfl⟩, rfl⟩ := hts
    exact rule_le .index (Language.append_mem_mul (ihe hus) (.inr (Language.append_mem_mul
      (mem_letter hop) (Language.append_mem_mul (ihi hvs) hclose))))
  | ofIndex _ ih => exact fun ts hts => rule_le .unary (.inr (ih hts))
  | @unaryop op kind e hkind _ ih =>
    rw [AstNode.reads]
    intro ts hts
    obtain ⟨_, rfl, us, hus, rfl⟩ := hts
    have hprefix : [op] ∈ prefixOp.language Token.kind derived := by
      have hfirst := unaryopFromToken_first hkind
      simp only [List.mem_cons, List.not_mem_nil, or_false] at hfirst
      exact mem_oneOf.mpr ⟨op, by rcases hfirst with h | h | h | h <;> simp [h], rfl⟩
    exact rule_le .unary (.inl (Language.append_mem_mul hprefix
      (rule_le .unary (.inr (ih hus)))))
  | @tighter n e _ ih =>
    intro ts hts
    by_cases hn : n < 8
    · exact chain_single hn (ih hts)
    · -- there are no operators above this level
      obtain ⟨m, rfl⟩ : ∃ m, n = m + 8 := ⟨n - 8, by omega⟩
      exact ih hts
  | @binop n op kind lhs rhs hop _ _ _ ihl ihr =>
    rw [AstNode.reads]
    intro ts hts
    obtain ⟨us, hus, _, ⟨_, rfl, vs, hvs, rfl⟩, rfl⟩ := hts
    have hn : n < 8 := by
      by_contra hn
      obtain ⟨m, rfl⟩ := Nat.exists_eq_add_of_le (Nat.le_of_not_lt hn)
      rw [Nat.add_comm] at hop
      cases hop
    exact chain_snoc hn (ihl hus) hop (ihr hvs)
  | ofBinary _ ih => exact fun ts hts => rule_le .assign (.inr (ih hts))
  | @assign op value target hop _ _ ihv iht =>
    rw [AstNode.reads]
    intro ts hts
    obtain ⟨us, hus, _, ⟨_, rfl, vs, hvs, rfl⟩, rfl⟩ := hts
    exact rule_le .assign (.inl (Language.append_mem_mul (iht hus)
      (Language.append_mem_mul (mem_letter hop) (ihv hvs))))
  | ofAssign _ ih => exact fun ts hts => rule_le .expression (.inl (ih hts))
  | array hop _ _ ih => exact fun ts hts => rule_le .expression (.inr (array_reads_le hop ih hts))
  | exprstmt | blockstmt | vardecl | if_ | while_ | for_ | return_ | block | proc | program =>
    exact le_top

/-- What a rule reads is derived by the lenient grammar. -/
theorem Nonterminal.reads_le (n : Nonterminal) : n.reads true ≤ derived n := by
  have level {l : Level} : expressions true l ≤ l.derived := fun ts ⟨e, he, hts⟩ => he.reads_le hts
  cases n with
  | expression => exact level
  | assign => exact level
  | logOr => exact @level (.binary 8)
  | logAnd => exact @level (.binary 7)
  | bitwiseOr => exact @level (.binary 6)
  | bitwiseAnd => exact @level (.binary 5)
  | equality => exact @level (.binary 4)
  | comparison => exact @level (.binary 3)
  | term => exact @level (.binary 2)
  | factor => exact @level (.binary 1)
  | unary => exact @level (.binary 0)
  | index => exact level
  | call => exact level
  | primary => exact level
  | array =>
    intro ts hts
    obtain ⟨op, values, type, hop, hvalues, hts⟩ := hts
    exact array_reads_le hop (fun e he => (hvalues e he).reads_le) hts
  | grouping =>
    intro ts hts
    obtain ⟨e, he, hts⟩ := hts
    exact grouping_reads_le he.reads_le hts
  | arglist =>
    intro ts hts
    obtain ⟨_, ⟨op, hop, rfl⟩, _, ⟨us, ⟨es, hes, hus⟩, _, ⟨t, ht, rfl⟩, rfl⟩, rfl⟩ := hts
    exact arglist_le hop (fun e he => (hes e he).reads_le) hus ht
  | param =>
    intro ts hts
    obtain ⟨param, hts⟩ := hts
    exact param.reads_le hts
  | paramlist =>
    intro ts hts
    obtain ⟨params, hlen, lparen, hl, _, ⟨us, hus, rparen, hr, rfl⟩, rfl⟩ := hts
    refine rule_le .paramlist (Language.append_mem_mul hl (Language.append_mem_mul ?_ hr))
    refine loose_mem_upTo (Params.reads_le params) ?_ hus
    rw [Params.length_reads]
    exact Nat.le_of_lt hlen
  | fieldlist =>
    intro ts hts
    obtain ⟨fields, -, lbrace, hl, _, ⟨us, hus, rbrace, hr, rfl⟩, rfl⟩ := hts
    exact rule_le .fieldlist (Language.append_mem_mul hl (Language.append_mem_mul
      (loose_le_star (Params.reads_le fields) hus) hr))
  | utilProc named =>
    intro ts hts
    obtain ⟨proc, hproc, _, ⟨name, hname, us, ⟨sig, hus⟩, rfl⟩, rfl⟩ := hts
    refine rule_le (.utilProc named) (Language.append_mem_mul hproc
      (Language.append_mem_mul ?_ (sig.reads_le hus)))
    cases named <;> exact hname
  | type =>
    intro ts hts
    obtain ⟨ty, hts⟩ := hts
    exact ty.reads_le hts

/-- A sequence of tokens of the strict grammar is accepted by its rule, in front of a token that
does not continue it, and a sequence that is accepted is one of the lenient grammar. -/
theorem rules_between {fuel : Nat} {p : Parser} {ts rest : List Token} (n : Nonterminal)
    (htoks : p.toks = ts ++ rest) (hs : ∀ t ∈ p.toks, t.kind ≠ .sentinel) :
    (ts ∈ words Token.kind strict n → nextKind rest ∉ n.continued → ts.length < fuel →
        Consumed (n.rule (rules fuel)) p ts) ∧
      (Consumed (n.rule (rules fuel)) p ts → ts ∈ words Token.kind lenient n) := by
  refine ⟨fun hts hnext hfuel => ?_, fun h => ?_⟩
  · have hreads := words_le strict_solved n hts
    have hlen : ts.length < (rules fuel).fuel := by rwa [rules_fuel]
    obtain ⟨q, hq, hqtoks, hdiags, herr⟩ :=
      n.rule_complete (rules_complete _ fuel) hreads hlen p rest htoks hs hnext
    exact ⟨(), q, hq, by rw [htoks, hqtoks], hdiags, herr⟩
  · obtain ⟨_, q, hq, hqtoks, -⟩ := h
    obtain ⟨us, hus, hreads⟩ := n.rule_sound (rules_sound fuel) p _ q hs trivial hq
    obtain rfl := List.append_cancel_right (hqtoks.symm.trans hus)
    exact n.reads_le hreads

theorem mixedParamlist_strict : mixedParamlist ∈ words Token.kind strict .paramlist := by
  have hlong : [{ kind := .kwTypeLong }] ∈ words Token.kind strict .type :=
    mem_words_iff.mpr (.inr (.inr (.inr (.inr (.inl (mem_letter rfl))))))
  have hpointer : [{ kind := .asterisk }, { kind := .kwTypeLong }] ∈
      words Token.kind strict .type :=
    mem_words_iff.mpr (.inl (cons_mem_mul (kind_mem_tokenOf .asterisk) hlong))
  have hint : [{ kind := .kwTypeInt }] ∈ words Token.kind strict .type :=
    mem_words_iff.mpr (.inr (.inl (mem_letter rfl)))
  have hparam (name : String) {ts : List Token} (hts : ts ∈ words Token.kind strict .type) :
      Token.ident name :: { kind := .colon } :: ts ∈ words Token.kind strict .param :=
    have hname : [Token.ident name] ∈ tokenOf .literalIdent := mem_tokenOf rfl
    mem_words_iff.mpr (cons_mem_mul hname (cons_mem_mul (kind_mem_tokenOf .colon) hts))
  have hsecond : _ ∈ (upTo (.seq (tok .comma) (nt .param)) (maxParamCount - 2)).language Token.kind
      (words Token.kind strict) :=
    append_mem_upTo (cons_mem_mul (kind_mem_tokenOf .comma) (hparam "b" hint)) nil_mem_upTo
  have hlist : _ ∈ (listUpTo .param (maxParamCount - 1)).language Token.kind
      (words Token.kind strict) := .inr (Language.append_mem_mul (hparam "a" hpointer) hsecond)
  exact mem_words_iff.mpr (cons_mem_mul (kind_mem_tokenOf .lparen)
    (Language.append_mem_mul hlist (kind_mem_tokenOf .rparen)))

/-- The parameters `(a: *long, b: int)` in front of the end of the file. -/
theorem rules_between_mixedParamlist :
    Consumed (Nonterminal.paramlist.rule (rules 11)) { toks := mixedParamlist ++ [.eof] }
        mixedParamlist ∧
      mixedParamlist ∈ words Token.kind lenient .paramlist := by
  obtain ⟨haccept, hderive⟩ := @rules_between 11 { toks := mixedParamlist ++ [.eof] }
    mixedParamlist [.eof] .paramlist rfl (by decide)
  have hconsumed := haccept mixedParamlist_strict (by decide) (by decide)
  exact ⟨hconsumed, hderive hconsumed⟩

/-! ## The comments -/

/-- Operands count up and what stands between them counts down; `long` is none of the documented
tokens. -/
def operandWeight : TokenKind → Int
  | .literalIdent | .literalNumber | .literalString | .kwTypeLong => 1
  | .rparen | .rbracket | .rbrace | .kwTypeInt | .kwTypeChar | .kwTypeVoid => 0
  | _ => -1

/-- There is one operand more than separators in an expression, and as many in the other words. -/
def operandBound : Nonterminal → Int
  | .arglist | .param | .paramlist | .fieldlist | .utilProc _ | .type => 0
  | _ => 1

theorem documented_weight_le {n : Nonterminal} {ts : List Token}
    (h : ts ∈ words Token.kind documented n) : weight Token.kind operandWeight ts ≤ operandBound n := by
  apply Derives.weight_le _ h rfl
  intro n
  cases n with
  | utilProc named => cases named <;> decide
  | _ => decide

/-- A rule does not accept what it leaves by a jump. -/
theorem not_consumed {α : Type} {x : P α} {p : Parser} {ts : List Token}
    (h : (match x p with | .ok .. => true | _ => false) = false) : ¬ Consumed x p ts := by
  intro hx
  obtain ⟨a, q, hq, -⟩ := hx
  rw [hq] at h
  cases h

/-- The comments derive a single identifier. -/
theorem ident_documented {t : Token} (ht : t.kind = .literalIdent) :
    [t] ∈ words Token.kind documented .unary := by
  have hprimary : [t] ∈ words Token.kind documented .primary :=
    mem_words_iff.mpr (.inr (.inl (mem_letter ht)))
  have hcall : [t] ++ [] ∈ words Token.kind documented .call :=
    mem_words_iff.mpr (Language.append_mem_mul hprimary (.inl Language.nil_mem_one))
  have hindex : [t] ++ [] ++ [] ∈ words Token.kind documented .index :=
    mem_words_iff.mpr (Language.append_mem_mul hcall (.inl Language.nil_mem_one))
  exact mem_words_iff.mpr (.inr hindex)

theorem minus_documented {t : Token} {ts : List Token} (ht : t.kind = .minus)
    (hts : ts ∈ words Token.kind documented .unary) :
    t :: ts ∈ words Token.kind documented .unary :=
  mem_words_iff.mpr (.inl (cons_mem_mul (mem_oneOf.mpr ⟨t, by rw [ht]; decide, rfl⟩) hts))

/-- The code accepts the type `long` and arguments without a comma between them, which the comments
do not derive; they derive nested prefix operators and a procedure type without a return type, which
it does not accept. -/
theorem documented_differs :
    (Consumed (Nonterminal.type.rule (rules 9)) { toks := [{ kind := .kwTypeLong }, .eof] }
        [{ kind := .kwTypeLong }] ∧
      [{ kind := .kwTypeLong }] ∉ words Token.kind documented .type) ∧
    (Consumed (Nonterminal.arglist.rule (rules 9))
        { toks := [{ kind := .lparen }, .ident "a", .ident "b", { kind := .rparen }, .eof] }
        [{ kind := .lparen }, .ident "a", .ident "b", { kind := .rparen }] ∧
      [{ kind := .lparen }, .ident "a", .ident "b", { kind := .rparen }] ∉
        words Token.kind documented .arglist) ∧
    (¬ Consumed (Nonterminal.unary.rule (rules 9))
        { toks := [{ kind := .minus }, { kind := .minus }, .ident "a", .eof] }
        [{ kind := .minus }, { kind := .minus }, .ident "a"] ∧
      [{ kind := .minus }, { kind := .minus }, .ident "a"] ∈ words Token.kind documented .unary) ∧
    (¬ Consumed ((Nonterminal.utilProc false).rule (rules 9))
        { toks := [{ kind := .kwProc }, { kind := .lparen }, { kind := .rparen }, .eof] }
        [{ kind := .kwProc }, { kind := .lparen }, { kind := .rparen }] ∧
      [{ kind := .kwProc }, { kind := .lparen }, { kind := .rparen }] ∈
        words Token.kind documented (.utilProc false)) := by
  refine ⟨⟨⟨(), _, rfl, rfl, rfl, rfl⟩, fun h => ?_⟩, ⟨⟨(), _, rfl, rfl, rfl, rfl⟩, fun h => ?_⟩,
    ⟨not_consumed rfl, ?_⟩, ⟨not_consumed rfl, ?_⟩⟩
  · exact absurd (documented_weight_le h) (by decide)
  · exact absurd (documented_weight_le h) (by decide)
  · exact minus_documented rfl (minus_documented rfl (ident_documented rfl))
  · have hempty {l : Language Token} : [] ∈ 1 + l := .inl Language.nil_mem_one
    have hparams : [{ kind := .lparen }, { kind := .rparen }] ∈
        words Token.kind documented .paramlist :=
      mem_words_iff.mpr (cons_mem_mul (kind_mem_tokenOf _)
        (Language.append_mem_mul hempty (kind_mem_tokenOf _)))
    have hproc : [{ kind := .kwProc }, { kind := .lparen }, { kind := .rparen }] ∈
        tokenOf .kwProc * (1 * (words Token.kind documented .paramlist *
          (1 + words Token.kind documented .type))) :=
      cons_mem_mul (kind_mem_tokenOf _) (Language.append_mem_mul Language.nil_mem_one
        (Language.append_mem_mul hparams hempty))
    exact mem_words_iff.mpr hproc

end Seron
