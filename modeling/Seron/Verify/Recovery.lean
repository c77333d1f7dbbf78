import Seron.Verify.Progress

/-! # Recovery from errors

Where the jumps of panic mode go, and that the parser stops on every input. A jump that no
activation on the way takes ends the run of the model: its target has returned. -/

namespace Seron

/-! ## Where an `else` is looked for -/

/-- Behind the `else` the current token does not open a block, and panic mode finds a semicolon. -/
def ElseBroken (p : Parser) : Prop :=
  ∃ t ts, p.toks = t :: ts ∧ t.kind = .kwElse ∧ (ts.headD .eof).kind ∉ [TokenKind.lbrace, .eof] ∧
    Ahead [.semicolon] ts

/-- The first step returns, and behind it the state is reached. -/
def Then {α : Type} (x : P α) (R : α → Parser → Parser → Prop) (p q : Parser) : Prop :=
  ∃ a p', x p = .ok a p' ∧ R a p' q

section
variable (r : Rules) (S : Parser → Parser → Prop)

/-- From `p` the loop of `rule_stmt_block` reaches `rule_stmt_else` in `q`, where `S` is the same
for its statements. -/
inductive LoopReaches (me : Nat) : Nat → Parser → Parser → Prop
  | stmt {fuel : Nat} {p q : Parser} : parserMatchTokensVa p [.rbrace] = false →
    parserMatchTokensVa p [.eof] = false → S { p with ctxStmt := some me } q →
    LoopReaches me (fuel + 1) p q
  | next {fuel : Nat} {p p' q : Parser} {stmt : Option AstNode} :
    parserMatchTokensVa p [.rbrace] = false → parserMatchTokensVa p [.eof] = false →
    r.stmt { p with ctxStmt := some me } = .ok stmt p' → LoopReaches me fuel p' q →
    LoopReaches me (fuel + 1) p q
  | resumed {fuel : Nat} {p p' q : Parser} :
    parserMatchTokensVa p [.rbrace] = false → parserMatchTokensVa p [.eof] = false →
    r.stmt { p with ctxStmt := some me } = .jump (.stmt me) p' → LoopReaches me fuel p' q →
    LoopReaches me (fuel + 1) p q

def BodyReaches (p q : Parser) : Prop :=
  LoopReaches r S p.activations r.fuel { p with activations := p.activations + 1 } q

def BlockReaches : Parser → Parser → Prop :=
  Then (parserConsume .lbrace) fun _ => BodyReaches r S

def ElseReaches (p q : Parser) : Prop :=
  parserMatchTokensVa p [.kwElse] = true ∧ Then parserAdvance (fun _ => BlockReaches r S) p q

def IfReaches : Parser → Parser → Prop :=
  Then (parserConsume .kwIf) fun _ => Then r.expr fun _ p q =>
    BlockReaches r S p q ∨ Then (ruleStmtBlock r) (fun _ p q => q = p ∨ ElseReaches r S p q) p q

def WhileReaches : Parser → Parser → Prop :=
  Then (parserConsume .kwWhile) fun _ => Then r.expr fun _ => BlockReaches r S

def ForReaches : Parser → Parser → Prop :=
  Then (parserConsume .kwFor) fun _ => Then (parserConsume .literalIdent) fun _ =>
    Then (discard (parserConsume .colon)) fun _ => Then r.type fun _ =>
      Then (discard (parserConsume .assign)) fun _ => Then r.expr fun _ =>
        Then (discard (parserConsume .comma)) fun _ => Then r.expr fun _ =>
          Then (discard (parserConsume .comma)) fun _ => Then r.expr fun _ => BlockReaches r S

def StmtReaches (p q : Parser) : Prop :=
  match (parserPeek p).kind with
  | .lbrace => BlockReaches r S { p with ctx := .stmt } q
  | .kwIf => IfReaches r S { p with ctx := .stmt } q
  | .kwWhile => WhileReaches r S { p with ctx := .stmt } q
  | .kwFor => ForReaches r S { p with ctx := .stmt } q
  | _ => False

def ProcReaches : Parser → Parser → Prop :=
  Then (ruleUtilProcType r true) fun _ p q =>
    parserMatchTokensVa p [.semicolon] = false ∧ BlockReaches r S p q

def DeclReaches (p q : Parser) : Prop :=
  parserMatchTokensVa p [.kwProc] = true ∧ ProcReaches r S { p with ctx := .decl } q

/-- From `p` the loop of `rule_program` reaches `rule_stmt_else` in `q`. -/
inductive ProgramReaches : Nat → Bool → Parser → Parser → Prop
  | decl {fuel : Nat} {resumed : Bool} {p q : Parser} :
    (!resumed && parserMatchTokensVa p [.eof]) = false →
    DeclReaches r S { p with ctxDecl := true } q → ProgramReaches (fuel + 1) resumed p q
  | next {fuel : Nat} {resumed : Bool} {p p' q : Parser} {decl : AstNode} :
    (!resumed && parserMatchTokensVa p [.eof]) = false →
    ruleDecl r { p with ctxDecl := true } = .ok decl p' → ProgramReaches fuel false p' q →
    ProgramReaches (fuel + 1) resumed p q
  | resumed {fuel : Nat} {resumed : Bool} {p p' q : Parser} :
    (!resumed && parserMatchTokensVa p [.eof]) = false →
    ruleDecl r { p with ctxDecl := true } = .jump .decl p' → ProgramReaches fuel true p' q →
    ProgramReaches (fuel + 1) resumed p q

end

def stmtReaches : Nat → Parser → Parser → Prop
  | 0 => fun _ _ => False
  | fuel + 1 => StmtReaches (rules fuel) (stmtReaches fuel)

/-- While it parses the tokens, `rule_stmt_if` looks for an `else` in the state `q`. -/
def ParseReaches (fuel : Nat) (garbage : List Nat) (toks : List Token) (q : Parser) : Prop :=
  ProgramReaches (rules fuel) (stmtReaches fuel) fuel false { toks, garbage } q

/-! ## How statements end -/

/-- What changes in the state when a statement returns. -/
structure Passed (p q : Parser) : Prop where
  toks : q.toks <:+ p.toks
  ctx : p.ctx = .stmt → q.ctx = .stmt
  ctxDecl : q.ctxDecl = p.ctxDecl
  activations : p.activations ≤ q.activations
  errcount : p.errcount ≤ q.errcount
  /-- Each jump on the way has consumed a token. -/
  spent : q.errcount + q.toks.length ≤ p.errcount + p.toks.length

/-- What changes in the state when a jump leaves a statement. -/
structure Left (p : Parser) (target : JumpTarget) (q : Parser) : Prop where
  toks : q.toks <:+ p.toks
  ctx : p.ctx = .stmt → q.ctx = .stmt
  ctxDecl : q.ctxDecl = p.ctxDecl
  activations : p.activations ≤ q.activations
  errcount : p.errcount < q.errcount
  spent : q.errcount + q.toks.length ≤
    p.errcount + p.toks.length + (if target = .decl then 1 else 0)

/-- The buffer of the current context. -/
def Own (p : Parser) (target : JumpTarget) : Prop :=
  match p.ctx with
  | .decl => target = .decl
  | .stmt => ∃ a, p.ctxStmt = some a ∧ target = .stmt a

/-- Behind an `else` that is reached the block is missing. -/
def Breaks (R : Parser → Prop) : Prop := ∃ q, R q ∧ ElseBroken q

/-- Started in `p` the rule has this outcome, where `B` says whether it breaks: a jump goes to the
buffers in `own`, unless the rule breaks. Then it goes to an activation that was started later, and
nothing on the way takes it. -/
def Outcome.Nests {α : Type} (own : JumpTarget → Prop) (p : Parser) (n k : Nat) (B : Prop) :
    Outcome α → Prop
  | .ok _ q => Passed p q ∧ q.toks.length + k ≤ p.toks.length ∧ ¬ B
  | .jump target q => Left p target q ∧
    (own target ∧ ¬ B ∨ (∃ a, target = .stmt a ∧ p.activations ≤ a) ∧ B)
  | .exit _ => ¬ B
  | .panic _ => False
  | .undefined what => what = overflow ∧ ¬ B
  | .fuel => n ≤ p.toks.length

/-- How a rule that reaches `R` ends, started in the context `c`. -/
def Nests {α : Type} (c : ParserContext) (n k : Nat) (x : P α) (R : Parser → Parser → Prop) :
    Prop :=
  ∀ p, (∀ t ∈ p.toks, t.kind ≠ .sentinel) → p.ctx = c → Armed p →
    (x p).Nests (Own p) p n k (Breaks (R p))

variable {p q r : Parser} {target : JumpTarget}

theorem Passed.refl (p : Parser) : Passed p p :=
  ⟨List.suffix_rfl, id, rfl, Nat.le_refl _, Nat.le_refl _, Nat.le_refl _⟩

theorem Passed.trans (h : Passed p q) (h' : Passed q r) : Passed p r where
  toks := h'.toks.trans h.toks
  ctx := fun hp => h'.ctx (h.ctx hp)
  ctxDecl := h'.ctxDecl.trans h.ctxDecl
  activations := Nat.le_trans h.activations h'.activations
  errcount := Nat.le_trans h.errcount h'.errcount
  spent := Nat.le_trans h'.spent h.spent

theorem Advanced.passed (h : Advanced p q) : Passed p q where
  toks := h.toks
  ctx := fun hp => h.ctx.trans hp
  ctxDecl := h.ctxDecl
  activations := Nat.le_of_eq h.activations.symm
  errcount := Nat.le_of_eq h.errcount.symm
  spent := by rw [h.errcount]; exact Nat.add_le_add_left h.toks.length_le _

theorem Passed.left (h : Passed p q) (h' : Left q target r) : Left p target r where
  toks := h'.toks.trans h.toks
  ctx := fun hp => h'.ctx (h.ctx hp)
  ctxDecl := h'.ctxDecl.trans h.ctxDecl
  activations := Nat.le_trans h.activations h'.activations
  errcount := Nat.lt_of_le_of_lt h.errcount h'.errcount
  spent := Nat.le_trans h'.spent (Nat.add_le_add_right h.spent _)

theorem Recovered.left (h : Recovered p target q) : Left p target q where
  toks := h.toks
  ctx := fun hp => h.ctx.trans hp
  ctxDecl := h.ctxDecl
  activations := Nat.le_of_eq h.activations.symm
  errcount := by
    rw [h.errcount]
    exact Nat.lt_succ_self _
  spent := by
    have hlen := h.toks.length_le
    have htarget := h.target
    rw [h.errcount]
    split at htarget
    · rw [if_pos htarget.1]
      omega
    · obtain ⟨a, -, -, hlt⟩ := htarget
      omega

theorem Recovered.own (h : Recovered p target q) : Own p target := by
  have htarget := h.target
  unfold Own
  cases hctx : p.ctx with
  | decl =>
    rw [hctx] at htarget
    exact htarget.1
  | stmt =>
    rw [hctx] at htarget
    obtain ⟨a, hstmt, ha, -⟩ := htarget
    exact ⟨a, hstmt, ha⟩

theorem Advanced.own (h : Advanced p q) : Own q target ↔ Own p target := by
  unfold Own
  rw [h.ctx, h.ctxStmt]

theorem Passed.genuine (h : Passed p q) (hp : ∀ t ∈ p.toks, t.kind ≠ .sentinel) :
    ∀ t ∈ q.toks, t.kind ≠ .sentinel :=
  fun t ht => hp t (h.toks.mem ht)

namespace Outcome.Nests

variable {α β : Type} {own own' : JumpTarget → Prop} {n m k j i : Nat} {B B' : Prop}

theorem behind {o : Outcome α} (hpq : Passed p q) (hlen : q.toks.length + j ≤ p.toks.length)
    (h : o.Nests own q m k B) (hown : ∀ target, own target → own' target) (hB : B' ↔ B)
    (hn : n ≤ m + j) (hi : i ≤ k + j) : o.Nests own' p n i B' := by
  rw [← hB] at h
  cases o with
  | ok a r => exact ⟨hpq.trans h.1, by have := h.2.1; omega, h.2.2⟩
  | jump target r =>
    refine ⟨hpq.left h.1, ?_⟩
    rcases h.2 with ⟨htarget, hB'⟩ | ⟨⟨a, ha, hle⟩, hB'⟩
    · exact .inl ⟨hown target htarget, hB'⟩
    · exact .inr ⟨⟨a, ha, Nat.le_trans hpq.activations hle⟩, hB'⟩
  | exit _ => exact h
  | panic _ => exact h
  | undefined _ => exact h
  | fuel =>
    change m ≤ q.toks.length at h
    change n ≤ p.toks.length
    omega

/-- A rule, and what comes behind it when it returns. -/
theorem bind {x : P α} {f : α → P β} (hx : (x q).Nests own p n k B)
    (hf : ∀ a r, x q = .ok a r → Passed p r → r.toks.length + k ≤ p.toks.length → ¬ B →
      (f a r).Nests own p n i B) : ((x >>= f) q).Nests own p n i B := by
  cases hx' : x q with
  | ok a r =>
    rw [hx'] at hx
    rw [P.bind_apply_ok hx']
    exact hf a r hx' hx.1 hx.2.1 hx.2.2
  | _ =>
    rw [hx'] at hx
    simp only [Bind.bind, P.bind, hx']
    exact hx

theorem map {x : P α} {g : α → β} (h : (x q).Nests own p n k B) : ((g <$> x) q).Nests own p n k B :=
  bind h fun _ _ _ hpass hlen hB => ⟨hpass, hlen, hB⟩

end Outcome.Nests

theorem Then.breaks {α : Type} {x : P α} {R : α → Parser → Parser → Prop} {a : α}
    (h : x p = .ok a q) : Breaks (Then x R p) ↔ Breaks (R a q) := by
  constructor
  · rintro ⟨q', ⟨a', q'', hok, hR⟩, hbroken⟩
    cases h.symm.trans hok
    exact ⟨q', hR, hbroken⟩
  · rintro ⟨q', hR, hbroken⟩
    exact ⟨q', ⟨a, q, h, hR⟩, hbroken⟩

theorem Then.not_breaks {α : Type} {x : P α} {R : α → Parser → Parser → Prop}
    (h : ∀ a q, x p ≠ .ok a q) : ¬ Breaks (Then x R p) := by
  rintro ⟨q', ⟨a, q, hok, -⟩, -⟩
  exact h a q hok

/-- A rule below the statements, and a statement behind it. -/
theorem Concludes.bind_nests {α β : Type} {C : Token → Prop} {x : P α} {f : α → P β}
    {R : α → Parser → Parser → Prop} {n m k j l i : Nat} (hx : Concludes C m j x)
    {c : ParserContext} (hf : ∀ a, Nests c n k (f a) (R a)) (hl : l ≤ m) (hn : l ≤ n + j)
    (hi : i ≤ k + j) (htoks : ∀ t ∈ p.toks, t.kind ≠ .sentinel) (hC : C (parserPeek p))
    (hctx : p.ctx = c) (harmed : Armed p) :
    ((x >>= f) p).Nests (Own p) p l i (Breaks (Then x R p)) := by
  have hxp := hx p htoks hC
  cases hx' : x p with
  | ok a q =>
    rw [hx'] at hxp
    obtain ⟨hpq, hlen⟩ := hxp
    rw [P.bind_apply_ok hx']
    have hfits := hf a q (hpq.genuine htoks) (hpq.ctx.trans hctx) (hpq.armed.mpr harmed)
    exact hfits.behind hpq.passed hlen (fun _ => hpq.own.mp) (Then.breaks hx') hn hi
  | jump target q =>
    rw [hx'] at hxp
    simp only [Bind.bind, P.bind, hx']
    exact ⟨hxp.left, .inl ⟨hxp.own, Then.not_breaks (by simp [hx'])⟩⟩
  | exit _ =>
    simp only [Bind.bind, P.bind, hx']
    exact Then.not_breaks (by simp [hx'])
  | panic _ =>
    rw [hx'] at hxp
    exact hxp.elim
  | undefined _ =>
    rw [hx'] at hxp
    simp only [Bind.bind, P.bind, hx']
    exact ⟨hxp.resolve_right fun h => h.2 harmed, Then.not_breaks (by simp [hx'])⟩
  | fuel =>
    rw [hx'] at hxp
    simp only [Bind.bind, P.bind, hx']
    exact Nat.le_trans hl hxp

namespace Nests

variable {α β : Type} {n m k j : Nat} {c : ParserContext} {x : P α} {f : α → P β}
  {R : α → Parser → Parser → Prop}

/-- Behind a token that is consumed. -/
theorem seq (hx : Concludes (fun _ => True) (n + 1) 1 x) (hf : ∀ a, Nests c n 0 (f a) (R a)) :
    Nests c (n + 1) 1 (x >>= f) (Then x R) :=
  fun _ htoks => hx.bind_nests hf (Nat.le_refl _) (Nat.le_refl _) (Nat.le_refl _) htoks trivial

theorem then_ (hx : Concludes (fun _ => True) n 0 x) (hf : ∀ a, Nests c n k (f a) (R a)) :
    Nests c n k (x >>= f) (Then x R) :=
  fun _ htoks => hx.bind_nests hf (Nat.le_refl _) (Nat.le_refl _) (Nat.le_refl _) htoks trivial

theorem mono {R : Parser → Parser → Prop} (hx : Nests c m k x R) (hn : n ≤ m) (hj : j ≤ k) :
    Nests c n j x R :=
  fun p htoks hctx harmed => (hx p htoks hctx harmed).behind (j := 0) (.refl p)
    (Nat.le_refl _) (fun _ => id) Iff.rfl hn hj

theorem map {g : α → β} {R : Parser → Parser → Prop} (hx : Nests c n k x R) :
    Nests c n k (g <$> x) R :=
  fun p htoks hctx harmed => (hx p htoks hctx harmed).map

end Nests

/-! ## Blocks -/

/-- How the rules that are called recursively end, where the statements reach `S`. -/
structure Rules.Nest (r : Rules) (S : Parser → Parser → Prop) : Prop where
  advance : r.Advance
  stmt : ∀ p a, (∀ t ∈ p.toks, t.kind ≠ .sentinel) → p.ctxStmt = some a →
    (r.stmt p).Nests (· = .stmt a) p (r.fuel - 1) 1 (Breaks (S p))

theorem matches_false {kind : TokenKind} (htoks : ∀ t ∈ p.toks, t.kind ≠ .sentinel)
    (h : (parserPeek p).kind ≠ kind) : parserMatchTokensVa p [kind] = false := by
  rw [Bool.eq_false_iff, ne_eq, parserMatchTokensVa_eq_true, List.mem_singleton]
  exact not_or_intro h (parserPeek_ne_sentinel htoks)

theorem matches_true {kind : TokenKind} (h : (parserPeek p).kind = kind) :
    parserMatchTokensVa p [kind] = true :=
  parserMatchTokensVa_eq_true.mpr (.inl (List.mem_singleton.mpr h))

theorem kind_of_matches {kind : TokenKind} (htoks : ∀ t ∈ p.toks, t.kind ≠ .sentinel)
    (h : parserMatchTokensVa p [kind] = true) : (parserPeek p).kind = kind := by
  rw [parserMatchTokensVa_eq_true, List.mem_singleton] at h
  exact h.resolve_right (parserPeek_ne_sentinel htoks)

section
variable {rules : Rules} {S : Parser → Parser → Prop} {me fuel : Nat}

theorem LoopReaches.done (h : parserMatchTokensVa p [.rbrace] = true ∨
    parserMatchTokensVa p [.eof] = true) : ¬ Breaks (LoopReaches rules S me (fuel + 1) p) := by
  rintro ⟨q, hreach, -⟩
  cases hreach <;> simp_all

section
variable (hrbrace : parserMatchTokensVa p [.rbrace] = false)
  (heof : parserMatchTokensVa p [.eof] = false)

include hrbrace heof

/-- A block breaks in its next statement, or behind it. -/
theorem LoopReaches.breaks_ok {stmt : Option AstNode}
    (h : rules.stmt { p with ctxStmt := some me } = .ok stmt q) :
    Breaks (LoopReaches rules S me (fuel + 1) p) ↔
      Breaks (S { p with ctxStmt := some me }) ∨ Breaks (LoopReaches rules S me fuel q) := by
  constructor
  · rintro ⟨q', hreach, hbroken⟩
    cases hreach with
    | stmt _ _ h' => exact .inl ⟨q', h', hbroken⟩
    | next _ _ h' hnext =>
      cases h.symm.trans h'
      exact .inr ⟨q', hnext, hbroken⟩
    | resumed _ _ h' _ => cases h.symm.trans h'
  · rintro (⟨q', h', hbroken⟩ | ⟨q', hnext, hbroken⟩)
    · exact ⟨q', .stmt hrbrace heof h', hbroken⟩
    · exact ⟨q', .next hrbrace heof h hnext, hbroken⟩

theorem LoopReaches.breaks_resumed
    (h : rules.stmt { p with ctxStmt := some me } = .jump (.stmt me) q) :
    Breaks (LoopReaches rules S me (fuel + 1) p) ↔
      Breaks (S { p with ctxStmt := some me }) ∨ Breaks (LoopReaches rules S me fuel q) := by
  constructor
  · rintro ⟨q', hreach, hbroken⟩
    cases hreach with
    | stmt _ _ h' => exact .inl ⟨q', h', hbroken⟩
    | next _ _ h' _ => cases h.symm.trans h'
    | resumed _ _ h' hnext =>
      cases h.symm.trans h'
      exact .inr ⟨q', hnext, hbroken⟩
  · rintro (⟨q', h', hbroken⟩ | ⟨q', hnext, hbroken⟩)
    · exact ⟨q', .stmt hrbrace heof h', hbroken⟩
    · exact ⟨q', .resumed hrbrace heof h hnext, hbroken⟩

theorem LoopReaches.breaks_left
    (hok : ∀ stmt q, rules.stmt { p with ctxStmt := some me } ≠ .ok stmt q)
    (hjump : ∀ q, rules.stmt { p with ctxStmt := some me } ≠ .jump (.stmt me) q) :
    Breaks (LoopReaches rules S me (fuel + 1) p) ↔ Breaks (S { p with ctxStmt := some me }) := by
  constructor
  · rintro ⟨q', hreach, hbroken⟩
    cases hreach with
    | stmt _ _ h' => exact ⟨q', h', hbroken⟩
    | next _ _ h' _ => exact absurd h' (hok _ _)
    | resumed _ _ h' _ => exact absurd h' (hjump _)
  · rintro ⟨q', h', hbroken⟩
    exact ⟨q', .stmt hrbrace heof h', hbroken⟩

end

theorem Left.passed (h : Left p (.stmt me) q) : Passed p q where
  toks := h.toks
  ctx := h.ctx
  ctxDecl := h.ctxDecl
  activations := h.activations
  errcount := Nat.le_of_lt h.errcount
  spent := h.spent

/-- A jump to a statement has consumed a token. -/
theorem Left.length_lt (h : Left p (.stmt me) q) : q.toks.length < p.toks.length := by
  have hspent : q.errcount + q.toks.length ≤ p.errcount + p.toks.length := h.spent
  have herr := h.errcount
  omega

variable (hr : rules.Nest S)

include hr

/-- The loop takes the jumps to its own activation, and each of them has consumed a token. -/
theorem ruleStmtBlock_loop_nests {brace : Token} {stmts : List AstNode} (hfuel : fuel ≤ rules.fuel)
    (htoks : ∀ t ∈ p.toks, t.kind ≠ .sentinel) (hme : me < p.activations) :
    (ruleStmtBlock.loop rules brace me fuel stmts p).Nests (fun _ => False) p (fuel - 1) 0
      (Breaks (LoopReaches rules S me fuel p)) := by
  induction fuel generalizing p stmts with
  | zero => exact Nat.zero_le _
  | succ fuel ih =>
    have hpass : Passed p { p with ctxStmt := some me } :=
      ⟨List.suffix_rfl, id, rfl, Nat.le_refl _, Nat.le_refl _, Nat.le_refl _⟩
    have hstmt := hr.stmt { p with ctxStmt := some me } me htoks rfl
    -- behind a statement, or a jump to this activation, the loop goes on
    have hgoes {q : Parser} (stmts : List AstNode) (hq : Passed { p with ctxStmt := some me } q)
        (hlen : q.toks.length + 1 ≤ p.toks.length) {B : Prop}
        (hB : B ↔ Breaks (LoopReaches rules S me fuel q)) :
        (ruleStmtBlock.loop rules brace me fuel stmts q).Nests (fun _ => False) p fuel 0 B :=
      (ih (Nat.le_of_succ_le hfuel) (hq.genuine htoks)
        (Nat.lt_of_lt_of_le hme hq.activations)).behind
        (hpass.trans hq) hlen (fun _ => id) hB (by omega) (Nat.zero_le _)
    unfold ruleStmtBlock.loop
    dsimp only
    split
    · rename_i hrbrace
      exact ⟨hpass, Nat.le_refl _, LoopReaches.done (.inl hrbrace)⟩
    rename_i hrbrace
    split
    · rename_i heof
      exact LoopReaches.done (.inr heof)
    rename_i heof
    have hrbrace' : parserMatchTokensVa p [.rbrace] = false := Bool.eq_false_iff.mpr hrbrace
    have heof' : parserMatchTokensVa p [.eof] = false := Bool.eq_false_iff.mpr heof
    have hbreaks := @LoopReaches.breaks_left p rules S me fuel hrbrace' heof'
    cases hx : rules.stmt { p with ctxStmt := some me } with
    | ok stmt q =>
      rw [hx] at hstmt
      obtain ⟨hq, hlen, hB⟩ := hstmt
      refine hgoes _ hq hlen ?_
      rw [LoopReaches.breaks_ok hrbrace' heof' hx]
      exact or_iff_right hB
    | jump target q =>
      rw [hx] at hstmt
      obtain ⟨hq, ⟨rfl, hB⟩ | ⟨⟨a, rfl, ha⟩, hB⟩⟩ := hstmt
      · dsimp only
        rw [if_pos rfl]
        refine hgoes _ hq.passed hq.length_lt ?_
        rw [LoopReaches.breaks_resumed hrbrace' heof' hx]
        exact or_iff_right hB
      · have hne : a ≠ me := Nat.ne_of_gt (Nat.lt_of_lt_of_le hme ha)
        dsimp only
        rw [if_neg hne]
        refine ⟨hpass.left hq, .inr ⟨⟨a, rfl, ha⟩, ?_⟩⟩
        rw [hbreaks (by simp [hx]) (by simp [hx, hne])]
        exact hB
    | exit _ =>
      rw [hx] at hstmt
      exact fun h => hstmt ((hbreaks (by simp [hx]) (by simp [hx])).mp h)
    | panic _ =>
      rw [hx] at hstmt
      exact hstmt
    | undefined _ =>
      rw [hx] at hstmt
      exact ⟨hstmt.1, fun h => hstmt.2 ((hbreaks (by simp [hx]) (by simp [hx])).mp h)⟩
    | fuel =>
      rw [hx] at hstmt
      exact Nat.le_trans (Nat.le_sub_one_of_lt hfuel) hstmt

omit hr in
/-- The loop leaves its buffer behind, in front of the closing brace. -/
theorem ruleStmtBlock_loop_ok {brace : Token} {stmts ss : List AstNode}
    (h : ruleStmtBlock.loop rules brace me fuel stmts p = .ok ss q) :
    q.ctxStmt = some me ∧ parserMatchTokensVa q [.rbrace] = true := by
  induction fuel generalizing p stmts with
  | zero => cases h
  | succ fuel ih =>
    simp only [ruleStmtBlock.loop] at h
    split at h
    · rename_i hrbrace
      cases h
      exact ⟨rfl, hrbrace⟩
    · split at h
      · cases h
      · split at h
        · exact ih h
        · split at h
          · exact ih h
          · cases h
        all_goals cases h

/-- `rule_stmt_block` behind the opening brace. -/
def ruleStmtBlock.body (r : Rules) (brace : Token) : P AstNode := do
  let me ← fun p => .ok p.activations { p with activations := p.activations + 1 }
  let stmts ← ruleStmtBlock.loop r brace me r.fuel []
  discard parserAdvance
  pure (.block stmts none)

omit hr in
theorem ruleStmtBlock_eq :
    ruleStmtBlock rules = parserConsume .lbrace >>= ruleStmtBlock.body rules := rfl

omit hr in
theorem ruleStmtBlock_body_eq {brace : Token} : ruleStmtBlock.body rules brace p =
    (do
      let stmts ← ruleStmtBlock.loop rules brace p.activations rules.fuel []
      discard parserAdvance
      pure (.block stmts none) : P AstNode) { p with activations := p.activations + 1 } := rfl

/-- The block that has returned is a dead target from then on. -/
theorem ruleStmtBlock_body_nests {brace : Token} (htoks : ∀ t ∈ p.toks, t.kind ≠ .sentinel) :
    (ruleStmtBlock.body rules brace p).Nests (fun _ => False) p (rules.fuel - 1) 1
        (Breaks (BodyReaches rules S p)) ∧
      ∀ block q, ruleStmtBlock.body rules brace p = .ok block q →
        q.ctxStmt = some p.activations := by
  let p' : Parser := { p with activations := p.activations + 1 }
  have hpass : Passed p p' :=
    ⟨List.suffix_rfl, id, rfl, Nat.le_succ _, Nat.le_refl _, Nat.le_refl _⟩
  have hloop : (ruleStmtBlock.loop rules brace p.activations rules.fuel [] p').Nests _ p' _ _ _ :=
    ruleStmtBlock_loop_nests hr (Nat.le_refl _) htoks (Nat.lt_succ_self _)
  have hadvance {stmts : List AstNode} {q : Parser} (hpq : Passed p q)
      (h : ruleStmtBlock.loop rules brace p.activations rules.fuel [] p' = .ok stmts q) :
      ∃ t ts, q.toks = t :: ts ∧ parserAdvance q = .ok t { q with toks := ts } := by
    have hgenuine := hpq.genuine htoks
    have hkind := kind_of_matches hgenuine (ruleStmtBlock_loop_ok h).2
    rcases parserAdvance_cases (parserPeek_ne_sentinel hgenuine) with
      ⟨_, heof, _⟩ | ⟨t, ts, hts, _, hok⟩
    · exact absurd (hkind.symm.trans heof) (by simp)
    · exact ⟨t, ts, hts, hok⟩
  rw [ruleStmtBlock_body_eq]
  constructor
  · refine (hloop.behind (j := 0) hpass (Nat.le_refl _) (fun _ => id) Iff.rfl (Nat.le_refl _)
      (Nat.le_refl _)).bind fun stmts q hx hpq hlen hB => ?_
    obtain ⟨t, ts, hts, hok⟩ := hadvance hpq hx
    rw [P.bind_apply_ok (discard_ok hok)]
    refine ⟨hpq.trans (Advanced.tail hts).passed, ?_, hB⟩
    rw [hts] at hlen
    exact hlen
  · intro block q h
    obtain ⟨stmts, q', hx, h'⟩ := P.bind_ok.mp h
    obtain ⟨_, _, hdiscard, hpure⟩ := P.bind_ok.mp h'
    obtain ⟨-, rfl⟩ := P.pure_ok.mp hpure
    obtain ⟨_, _, hok, hunit⟩ := P.bind_ok.mp hdiscard
    obtain ⟨-, rfl⟩ := P.pure_ok.mp hunit
    obtain ⟨-, rfl⟩ := parserAdvance_tail hok
    exact (ruleStmtBlock_loop_ok hx).1

theorem ruleStmtBlock_nests {c : ParserContext} :
    Nests c rules.fuel 1 (ruleStmtBlock rules) (BlockReaches rules S) := by
  intro p htoks hctx harmed
  have hbody (brace : Token) :
      Nests c (rules.fuel - 1) 1 (ruleStmtBlock.body rules brace) (BodyReaches rules S) :=
    fun q hq _ _ => (ruleStmtBlock_body_nests hr hq).1.behind (j := 0) (.refl q) (Nat.le_refl _)
      (fun _ => False.elim) Iff.rfl (Nat.le_refl _) (Nat.le_refl _)
  have hconsume : Concludes (fun _ => True) rules.fuel 1 (parserConsume .lbrace) := .parserConsume
  exact hconsume.bind_nests hbody (Nat.le_refl _) (by omega) (Nat.le_succ _) htoks trivial hctx
    harmed

omit hr in
theorem ruleStmtBlock_ctxStmt {block : AstNode} (hr : rules.Nest S)
    (htoks : ∀ t ∈ p.toks, t.kind ≠ .sentinel) (h : ruleStmtBlock rules p = .ok block q) :
    q.ctxStmt = some p.activations := by
  rw [ruleStmtBlock_eq] at h
  obtain ⟨brace, p', hconsume, hbody⟩ := P.bind_ok.mp h
  obtain ⟨ts, hts, -, -, rfl⟩ := (parserConsume_ok (parserPeek_ne_sentinel htoks)).mp hconsume
  have hgenuine := (Advanced.tail hts).genuine htoks
  exact (ruleStmtBlock_body_nests hr hgenuine).2 _ _ hbody

/-! ## The block of an `else` -/

omit hr in
/-- Consuming something else than the current token in a statement. -/
theorem parserConsume_stmt {kind : TokenKind} {a : Nat} (htoks : ∀ t ∈ p.toks, t.kind ≠ .sentinel)
    (hctx : p.ctx = .stmt) (hstmt : p.ctxStmt = some a) (heof : (parserPeek p).kind ≠ .eof)
    (hkind : (parserPeek p).kind ≠ kind) :
    (∃ diags, ¬ Ahead [.semicolon] p.toks ∧ parserConsume kind p = .exit diags) ∨
      ∃ q, Ahead [.semicolon] p.toks ∧ parserConsume kind p = .jump (.stmt a) q ∧
        Recovered p (.stmt a) q := by
  have hsentinel := parserPeek_ne_sentinel htoks
  have h : parserConsume kind p = _ := matchToken_bind hsentinel
  rw [if_neg heof] at h
  have hexpect : parserExpectToken kind p = _ := matchToken_bind hsentinel
  rw [if_neg hkind] at hexpect
  let message := s!"Expected `{stringifyTokenkind kind}`"
  have hsync := @parserSync_stmt
    { p with diags := p.diags ++ [⟨some (parserPeek p), message⟩] } Unit a htoks hctx hstmt
  rcases hsync with ⟨diags, hahead, hexit⟩ | ⟨q, hahead, hjump, hq⟩
  · refine .inl ⟨diags, hahead, ?_⟩
    rw [h]
    exact bind_exit (hexpect.trans hexit)
  · refine .inr ⟨q, hahead, ?_, hq.toks, hq.ctx, hq.ctxDecl, hq.activations, hq.errcount, hq.target⟩
    rw [h]
    have hjump' : parserExpectToken kind p = .jump (.stmt a) q := hexpect.trans hjump
    simp only [Bind.bind, P.bind, hjump']

omit hr in
theorem parserConsume_eof {kind : TokenKind} (htoks : ∀ t ∈ p.toks, t.kind ≠ .sentinel)
    (heof : (parserPeek p).kind = .eof) : ∃ diags, parserConsume kind p = .exit diags := by
  have h : parserConsume kind p = _ := matchToken_bind (parserPeek_ne_sentinel htoks)
  rw [if_pos heof] at h
  rcases parserAdvance_cases (parserPeek_ne_sentinel htoks) with
    ⟨diags, -, hexit⟩ | ⟨t, ts, hts, hne, _⟩
  · exact ⟨diags, h.trans hexit⟩
  · rw [parserPeek, hts] at heof
    exact absurd heof hne

omit hr in
/-- The states that are reached behind the block of an `if`. -/
theorem ElseReaches.breaks : Breaks (fun q' => q' = q ∨ ElseReaches rules S q q') ↔
    ElseBroken q ∨ Breaks (ElseReaches rules S q) := by
  constructor
  · rintro ⟨q', rfl | hreach, hbroken⟩
    · exact .inl hbroken
    · exact .inr ⟨q', hreach, hbroken⟩
  · rintro (hbroken | ⟨q', hreach, hbroken⟩)
    · exact ⟨q, .inl rfl, hbroken⟩
    · exact ⟨q', .inr hreach, hbroken⟩

/-- A block in front of which the buffer is that of a block that has returned: panic mode jumps
to it if the brace is missing. -/
theorem ruleStmtBlock_dead {a k : Nat} (hpass : Passed p q)
    (hlen : q.toks.length + k ≤ p.toks.length) (htoks : ∀ t ∈ q.toks, t.kind ≠ .sentinel)
    (hctx : q.ctx = .stmt) (hstmt : q.ctxStmt = some a) (ha : p.activations ≤ a) :
    (ruleStmtBlock rules q).Nests (fun _ => False) p rules.fuel k
      ((parserPeek q).kind ∉ [TokenKind.lbrace, .eof] ∧ Ahead [.semicolon] q.toks ∨
        Breaks (BlockReaches rules S q)) := by
  rw [ruleStmtBlock_eq]
  by_cases hlbrace : (parserPeek q).kind = .lbrace
  · obtain ⟨t, ts, hts, hne⟩ : ∃ t ts, q.toks = t :: ts ∧ t.kind ≠ .eof := by
      rcases parserAdvance_cases (parserPeek_ne_sentinel htoks) with
        ⟨_, heof, _⟩ | ⟨t, ts, hts, hne, _⟩
      · exact absurd (hlbrace.symm.trans heof) (by simp)
      · exact ⟨t, ts, hts, hne⟩
    have ht : t.kind = .lbrace := by
      rw [parserPeek, hts] at hlbrace
      exact hlbrace
    have hconsume : parserConsume .lbrace q = .ok t { q with toks := ts } :=
      (parserConsume_ok (parserPeek_ne_sentinel htoks)).mpr ⟨ts, hts, hne, ht, rfl⟩
    have hq := Advanced.tail hts
    have hB : (parserPeek q).kind ∉ [TokenKind.lbrace, .eof] ∧ Ahead [.semicolon] q.toks ∨
        Breaks (BlockReaches rules S q) ↔ Breaks (BodyReaches rules S { q with toks := ts }) := by
      rw [← Then.breaks (R := fun _ => BodyReaches rules S) hconsume]
      refine or_iff_right fun h => h.1 ?_
      rw [hlbrace]
      exact List.mem_cons_self
    rw [P.bind_apply_ok hconsume]
    have hlen' : ts.length + (k + 1) ≤ p.toks.length := by
      rw [hts, List.length_cons] at hlen
      omega
    exact (ruleStmtBlock_body_nests hr (hq.genuine htoks)).1.behind (hpass.trans hq.passed) hlen'
      (fun _ => id) hB (by omega) (by omega)
  · have hnone (h : ∀ t p', parserConsume .lbrace q ≠ .ok t p') :
        ¬ Breaks (BlockReaches rules S q) := Then.not_breaks h
    by_cases heof : (parserPeek q).kind = .eof
    · obtain ⟨diags, hexit⟩ : ∃ diags, parserConsume .lbrace q = .exit diags :=
        parserConsume_eof htoks heof
      rw [bind_exit hexit]
      rintro (⟨hkind, -⟩ | hbreaks)
      · exact hkind (by simp [heof])
      · exact hnone (by simp [hexit]) hbreaks
    · have hkind : (parserPeek q).kind ∉ [TokenKind.lbrace, .eof] := by simp [hlbrace, heof]
      rcases parserConsume_stmt htoks hctx hstmt heof hlbrace with
        ⟨diags, hahead, hexit⟩ | ⟨q', hahead, hjump, hq'⟩
      · rw [bind_exit hexit]
        rintro (⟨-, h⟩ | hbreaks)
        · exact hahead h
        · exact hnone (by simp [hexit]) hbreaks
      · simp only [Bind.bind, P.bind, hjump]
        exact ⟨hpass.left hq'.left, .inr ⟨⟨a, rfl, ha⟩, .inl ⟨hkind, hahead⟩⟩⟩

/-- The buffer is that of a block that has returned, so it must not be used. -/
theorem ruleStmtElse_nests {a k : Nat} (hpass : Passed p q)
    (hlen : q.toks.length + k ≤ p.toks.length) (htoks : ∀ t ∈ q.toks, t.kind ≠ .sentinel)
    (hctx : q.ctx = .stmt) (hstmt : q.ctxStmt = some a) (ha : p.activations ≤ a) :
    (ruleStmtElse rules q).Nests (fun _ => False) p rules.fuel k
      (Breaks fun q' => q' = q ∨ ElseReaches rules S q q') := by
  rw [ElseReaches.breaks]
  have hsentinel := parserPeek_ne_sentinel htoks
  have h : ruleStmtElse rules q = _ := matchToken_bind hsentinel
  rw [h]
  by_cases helse : (parserPeek q).kind = .kwElse
  · rw [if_pos helse]
    rcases parserAdvance_cases hsentinel with ⟨_, heof, _⟩ | ⟨t, ts, hts, -, hadvance⟩
    · exact absurd (helse.symm.trans heof) (by simp)
    have ht : t.kind = .kwElse := by
      rw [parserPeek, hts] at helse
      exact helse
    have hq := Advanced.tail hts
    have hgenuine := hq.genuine htoks
    have hpeek : parserPeek { q with toks := ts } = ts.headD .eof := rfl
    have hbroken : ElseBroken q ↔
        (ts.headD .eof).kind ∉ [TokenKind.lbrace, .eof] ∧ Ahead [.semicolon] ts := by
      constructor
      · rintro ⟨_, _, hts', -, hbroken⟩
        obtain ⟨-, rfl⟩ := List.cons.inj (hts.symm.trans hts')
        exact hbroken
      · exact fun hbroken => ⟨t, ts, hts, ht, hbroken⟩
    have hreach : Breaks (ElseReaches rules S q) ↔
        Breaks (BlockReaches rules S { q with toks := ts }) := by
      rw [← Then.breaks (R := fun _ => BlockReaches rules S) hadvance]
      unfold Breaks ElseReaches
      simp only [matches_true helse, true_and]
    rw [P.bind_apply_ok (discard_ok hadvance), hbroken, hreach]
    have hlen' : ts.length + k ≤ p.toks.length := by
      rw [hts, List.length_cons] at hlen
      omega
    exact (ruleStmtBlock_dead hr (hpass.trans hq.passed) hlen' hgenuine hctx hstmt ha).map
  · rw [if_neg helse]
    refine ⟨hpass, hlen, ?_⟩
    rintro (⟨t, ts, hts, ht, -⟩ | ⟨q', ⟨hmatch, -⟩, -⟩)
    · rw [parserPeek, hts] at helse
      exact helse ht
    · exact helse (kind_of_matches htoks hmatch)

/-! ## Statements -/

omit hr in
theorem Breaks.or {R R' : Parser → Prop} : Breaks (fun q => R q ∨ R' q) ↔ Breaks R ∨ Breaks R' := by
  constructor
  · rintro ⟨q, h | h, hbroken⟩
    · exact .inl ⟨q, h, hbroken⟩
    · exact .inr ⟨q, h, hbroken⟩
  · rintro (⟨q, h, hbroken⟩ | ⟨q, h, hbroken⟩)
    · exact ⟨q, .inl h, hbroken⟩
    · exact ⟨q, .inr h, hbroken⟩

/-- The block of an `if`, and what is behind it. -/
theorem ruleStmtIf_behind {g : AstNode → Option AstNode → AstNode} :
    Nests .stmt rules.fuel 0
      (do let then_ ← ruleStmtBlock rules; let else_ ← ruleStmtElse rules; pure (g then_ else_))
      fun p q => BlockReaches rules S p q ∨
        Then (ruleStmtBlock rules) (fun _ p q => q = p ∨ ElseReaches rules S p q) p q := by
  intro p htoks hctx harmed
  have hblock := ruleStmtBlock_nests hr p htoks hctx harmed
  rw [Breaks.or]
  by_cases hx : ∃ then_ q, ruleStmtBlock rules p = .ok then_ q
  · obtain ⟨then_, q, hx⟩ := hx
    rw [hx] at hblock
    obtain ⟨hpass, hlen, hB⟩ := hblock
    have helse := ruleStmtElse_nests hr (k := 0) hpass (Nat.le_of_succ_le hlen)
      (hpass.genuine htoks) (hpass.ctx hctx) (ruleStmtBlock_ctxStmt hr htoks hx) (Nat.le_refl _)
    rw [P.bind_apply_ok hx, Then.breaks hx, or_iff_right hB]
    exact (helse.behind (j := 0) (.refl p) (Nat.le_refl _) (fun _ => False.elim) Iff.rfl
      (Nat.le_refl _) (Nat.le_refl _)).map
  · have hnone := Then.not_breaks (R := fun _ p q => q = p ∨ ElseReaches rules S p q)
      fun then_ q h => hx ⟨then_, q, h⟩
    rw [or_iff_left hnone]
    exact hblock.bind fun then_ q h => absurd ⟨then_, q, h⟩ hx

theorem ruleStmtIf_nests : Nests .stmt (rules.fuel + 1) 1 (ruleStmtIf rules) (IfReaches rules S) :=
  .seq .parserConsume fun _ => .then_ (.loose hr.advance.expr) fun _ => ruleStmtIf_behind hr

theorem ruleStmtWhile_nests :
    Nests .stmt (rules.fuel + 1) 1 (ruleStmtWhile rules) (WhileReaches rules S) :=
  .seq .parserConsume fun _ => .then_ (.loose hr.advance.expr) fun _ =>
    ((ruleStmtBlock_nests hr).mono (Nat.le_refl _) (Nat.zero_le _)).map

theorem ruleStmtFor_nests :
    Nests .stmt (rules.fuel + 1) 1 (ruleStmtFor rules) (ForReaches rules S) :=
  .seq .parserConsume fun _ => .then_ (.loose .parserConsume) fun _ =>
    .then_ (.loose (.dropped .parserConsume)) fun _ => .then_ (.loose hr.advance.type) fun _ =>
      .then_ (.loose (.dropped .parserConsume)) fun _ => .then_ (.loose hr.advance.expr) fun _ =>
        .then_ (.loose (.dropped .parserConsume)) fun _ => .then_ (.loose hr.advance.expr) fun _ =>
          .then_ (.loose (.dropped .parserConsume)) fun _ =>
            .then_ (.loose hr.advance.expr) fun _ =>
              ((ruleStmtBlock_nests hr).mono (Nat.le_refl _) (Nat.zero_le _)).map

omit hr in
/-- A statement without a block does not break. -/
theorem Nests.of_ends {α : Type} {x : P α} {c : ParserContext} {n k : Nat}
    (hx : Concludes (fun _ => True) n k x) : Nests c n k x fun _ _ => False := by
  intro p htoks _ harmed
  have hnone : ¬ Breaks fun _ => False := fun ⟨_, h, _⟩ => h
  have hfits := hx p htoks trivial
  cases hx' : x p with
  | ok a q =>
    rw [hx'] at hfits
    exact ⟨hfits.1.passed, hfits.2, hnone⟩
  | jump target q =>
    rw [hx'] at hfits
    exact ⟨hfits.left, .inl ⟨hfits.own, hnone⟩⟩
  | exit _ => exact hnone
  | panic _ =>
    rw [hx'] at hfits
    exact hfits
  | undefined _ =>
    rw [hx'] at hfits
    exact ⟨hfits.resolve_right fun h => h.2 harmed, hnone⟩
  | fuel =>
    rw [hx'] at hfits
    exact hfits

omit hr in
theorem ruleStmt_eq (htoks : ∀ t ∈ p.toks, t.kind ≠ .sentinel) : ruleStmt rules p =
    (match (parserPeek p).kind with
      | .lbrace => some <$> ruleStmtBlock rules
      | .kwVardecl => some <$> ruleStmtVardecl rules
      | .kwIf => some <$> ruleStmtIf rules
      | .kwWhile => some <$> ruleStmtWhile rules
      | .kwFor => some <$> ruleStmtFor rules
      | .kwReturn => some <$> ruleStmtReturn rules
      | _ => ruleExprstmt rules : P (Option AstNode)) { p with ctx := .stmt } := by
  have hsentinel : (parserPeek { p with ctx := .stmt }).kind ≠ .sentinel :=
    parserPeek_ne_sentinel htoks
  have h : ruleStmt rules p = _ := matchToken_bind hsentinel
  rw [h, matchToken_bind hsentinel, matchToken_bind hsentinel, matchToken_bind hsentinel,
    matchToken_bind hsentinel, matchToken_bind hsentinel]
  change _ = (match (parserPeek { p with ctx := .stmt }).kind with
      | .lbrace => some <$> ruleStmtBlock rules
      | .kwVardecl => some <$> ruleStmtVardecl rules
      | .kwIf => some <$> ruleStmtIf rules
      | .kwWhile => some <$> ruleStmtWhile rules
      | .kwFor => some <$> ruleStmtFor rules
      | .kwReturn => some <$> ruleStmtReturn rules
      | _ => ruleExprstmt rules : P (Option AstNode)) { p with ctx := .stmt }
  generalize (parserPeek { p with ctx := .stmt }).kind = kind
  cases kind <;> rfl

theorem ruleStmt_nests {a : Nat} (htoks : ∀ t ∈ p.toks, t.kind ≠ .sentinel)
    (hstmt : p.ctxStmt = some a) :
    (ruleStmt rules p).Nests (· = .stmt a) p rules.fuel 1 (Breaks (StmtReaches rules S p)) := by
  have hpass : Passed p { p with ctx := .stmt } :=
    ⟨List.suffix_rfl, fun _ => rfl, rfl, Nat.le_refl _, Nat.le_refl _, Nat.le_refl _⟩
  have hall {x : P (Option AstNode)} {R : Parser → Parser → Prop} {n : Nat}
      (hx : Nests .stmt n 1 x R) (hn : rules.fuel ≤ n)
      (hR : StmtReaches rules S p = R { p with ctx := .stmt }) :
      (x { p with ctx := .stmt }).Nests (· = .stmt a) p rules.fuel 1
        (Breaks (StmtReaches rules S p)) := by
    rw [hR]
    have harmed : Armed { p with ctx := .stmt } := by simp [Armed, hstmt]
    have hnests := hx { p with ctx := .stmt } htoks rfl harmed
    refine hnests.behind (j := 0) hpass (Nat.le_refl _) ?_ Iff.rfl hn (Nat.le_refl _)
    rintro target ⟨b, hb, rfl⟩
    cases hstmt.symm.trans hb
    rfl
  have hreach : StmtReaches rules S p = fun q => match (parserPeek p).kind with
    | .lbrace => BlockReaches rules S { p with ctx := .stmt } q
    | .kwIf => IfReaches rules S { p with ctx := .stmt } q
    | .kwWhile => WhileReaches rules S { p with ctx := .stmt } q
    | .kwFor => ForReaches rules S { p with ctx := .stmt } q
    | _ => False := rfl
  rw [ruleStmt_eq htoks]
  cases hkind : (parserPeek p).kind <;> rw [hkind] at hreach
  case lbrace => exact hall (ruleStmtBlock_nests hr).map (Nat.le_refl _) hreach
  case kwIf => exact hall (ruleStmtIf_nests hr).map (Nat.le_succ _) hreach
  case kwWhile => exact hall (ruleStmtWhile_nests hr).map (Nat.le_succ _) hreach
  case kwFor => exact hall (ruleStmtFor_nests hr).map (Nat.le_succ _) hreach
  case kwVardecl =>
    exact hall (Nests.of_ends (ruleStmtVardecl_ends hr.advance)).map (Nat.le_succ _) hreach
  case kwReturn =>
    exact hall (Nests.of_ends (ruleStmtReturn_ends hr.advance)).map (Nat.le_succ _) hreach
  all_goals exact hall (Nests.of_ends (ruleExprstmt_ends hr.advance)) (Nat.le_refl _) hreach

/-! ## Declarations -/

theorem ruleProcBody_nests {g : Option AstNode → AstNode} :
    Nests .decl rules.fuel 0 (do let body ← ruleProcBody rules; pure (g body))
      fun p q => parserMatchTokensVa p [.semicolon] = false ∧ BlockReaches rules S p q := by
  intro p htoks hctx harmed
  have hsentinel := parserPeek_ne_sentinel htoks
  have h : ruleProcBody rules p = _ := matchToken_bind hsentinel
  have hbody : (ruleProcBody rules p).Nests (Own p) p rules.fuel 0
      (Breaks fun q => parserMatchTokensVa p [.semicolon] = false ∧ BlockReaches rules S p q) := by
    rw [h]
    by_cases hsemicolon : (parserPeek p).kind = .semicolon
    · rw [if_pos hsemicolon]
      have hnone : ¬ Breaks fun q =>
          parserMatchTokensVa p [.semicolon] = false ∧ BlockReaches rules S p q := by
        rintro ⟨q, ⟨hmatch, -⟩, -⟩
        rw [matches_true hsemicolon] at hmatch
        cases hmatch
      rcases parserAdvance_cases hsentinel with ⟨_, heof, _⟩ | ⟨t, ts, hts, -, hadvance⟩
      · exact absurd (hsemicolon.symm.trans heof) (by simp)
      · rw [P.bind_apply_ok (discard_ok hadvance)]
        exact ⟨(Advanced.tail hts).passed, by rw [hts]; exact Nat.le_succ _, hnone⟩
    · rw [if_neg hsemicolon]
      have hblock := ((ruleStmtBlock_nests hr).mono (Nat.le_refl _) (Nat.zero_le _)).map (g := some)
        p htoks hctx harmed
      simp only [matches_false htoks hsemicolon, true_and]
      exact hblock
  exact hbody.map

omit hr in
theorem P.bind_assoc {α β γ : Type} (x : P α) (f : α → P β) (g : β → P γ) :
    (x >>= f) >>= g = x >>= fun a => f a >>= g := by
  funext p
  change P.bind (P.bind x f) g p = P.bind x (fun a => P.bind (f a) g) p
  unfold P.bind
  cases x p <;> rfl

/-- `rule_decl_proc` behind the type. -/
def ruleDeclProc.behind (r : Rules) : Token × Option Token × Ty → P AstNode
  | (op, ident, type) => do
    let body ← ruleProcBody r
    pure (.proc op (ident.getD .eof) body type none 0)

omit hr in
theorem ruleDeclProc_eq :
    ruleDeclProc rules = ruleUtilProcType rules true >>= ruleDeclProc.behind rules := rfl

/-- Behind `proc` the rest of the declaration has one token less. -/
theorem ruleDeclProc_nests {t : Token} {ts : List Token} (htoks : ∀ t ∈ p.toks, t.kind ≠ .sentinel)
    (hctx : p.ctx = .decl) (harmed : Armed p) (hts : p.toks = t :: ts) (ht : t.kind = .kwProc) :
    (ruleDeclProc rules p).Nests (Own p) { p with toks := ts } rules.fuel 0
      (Breaks (ProcReaches rules S p)) := by
  have hconsume : parserConsume .kwProc p = .ok t { p with toks := ts } :=
    (parserConsume_ok (parserPeek_ne_sentinel htoks)).mpr ⟨ts, hts, by simp [ht], ht, rfl⟩
  have hq := Advanced.tail hts
  have hrest (op : Token) : Nests .decl rules.fuel 0
      (ruleUtilProcType.behind rules true op >>= ruleDeclProc.behind rules)
      (Then (ruleUtilProcType.behind rules true op) fun _ p q =>
        parserMatchTokensVa p [.semicolon] = false ∧ BlockReaches rules S p q) :=
    .then_ (ruleUtilProcType_behind_ends hr.advance) fun _ => ruleProcBody_nests hr
  have hreach : Breaks (ProcReaches rules S p) ↔ Breaks (Then (ruleUtilProcType.behind rules true t)
      (fun _ p q => parserMatchTokensVa p [.semicolon] = false ∧ BlockReaches rules S p q)
      { p with toks := ts }) := by
    unfold Breaks ProcReaches Then
    rw [ruleUtilProcType_eq, P.bind_apply_ok hconsume]
  rw [ruleDeclProc_eq, ruleUtilProcType_eq, P.bind_assoc, P.bind_apply_ok hconsume]
  exact (hrest t _ (hq.genuine htoks) hctx harmed).behind (j := 0) (.refl _) (Nat.le_refl _)
    (fun _ => hq.own.mp) hreach (Nat.le_refl _) (Nat.le_refl _)

omit hr in
theorem ruleDecl_eq (htoks : ∀ t ∈ p.toks, t.kind ≠ .sentinel) : ruleDecl rules p =
    (match (parserPeek p).kind with
      | .kwProc => ruleDeclProc rules
      | .kwTable => ruleDeclTable rules
      | _ => do
        diagnosticLoc (← parserToken) "Expected declaration"
        parserSync : P AstNode) { p with ctx := .decl } := by
  have hsentinel : (parserPeek { p with ctx := .decl }).kind ≠ .sentinel :=
    parserPeek_ne_sentinel htoks
  have h : ruleDecl rules p = _ := matchToken_bind hsentinel
  rw [h, matchToken_bind hsentinel]
  change _ = (match (parserPeek { p with ctx := .decl }).kind with
      | .kwProc => ruleDeclProc rules
      | .kwTable => ruleDeclTable rules
      | _ => do
        diagnosticLoc (← parserToken) "Expected declaration"
        parserSync : P AstNode) { p with ctx := .decl }
  generalize (parserPeek { p with ctx := .decl }).kind = kind
  cases kind <;> rfl

/-- How a declaration ends, started in `p`: whether it returns or jumps, it has consumed a token. -/
structure DeclEnds (B : Prop) (n : Nat) (p : Parser) (o : Outcome AstNode) : Prop where
  nests : o.Nests (· = .decl) p n 1 B
  jump : ∀ target q, o = .jump target q → q.toks.length < p.toks.length

omit hr in
theorem DeclEnds.behind {B B' : Prop} {n : Nat} {o : Outcome AstNode} {t : Token} {ts : List Token}
    (hts : p.toks = t :: ts) (hctx : p.ctx = .decl)
    (h : o.Nests (Own p) { p with toks := ts } n 0 B)
    (hB : B' ↔ B) : DeclEnds B' n p o := by
  refine ⟨h.behind (j := 1) (Advanced.tail hts).passed (by rw [hts]; exact Nat.le_refl _) ?_ hB
    (Nat.le_succ _) (Nat.le_refl _), ?_⟩
  · intro target htarget
    rw [Own, hctx] at htarget
    exact htarget
  · rintro target q rfl
    rw [hts]
    exact Nat.lt_succ_of_le h.1.toks.length_le

omit hr in
theorem peek_cons {t : Token} {ts : List Token} (hts : p.toks = t :: ts) : parserPeek p = t := by
  rw [parserPeek, hts]
  rfl

omit hr in
theorem exists_cons {kind : TokenKind} (hkind : (parserPeek p).kind = kind) (hne : kind ≠ .eof) :
    ∃ t ts, p.toks = t :: ts ∧ t.kind = kind := by
  cases hts : p.toks with
  | nil =>
    rw [parserPeek, hts] at hkind
    exact absurd hkind.symm hne
  | cons t ts =>
    rw [peek_cons hts] at hkind
    exact ⟨t, ts, rfl, hkind⟩

omit hr in
/-- Panic mode skips what is no declaration. -/
theorem ruleDecl_other {B : Prop} {n : Nat} (htoks : ∀ t ∈ p.toks, t.kind ≠ .sentinel)
    (hctx : p.ctx = .decl) (harmed : Armed p)
    (hkind : (parserPeek p).kind ∉ [TokenKind.kwProc, .kwTable]) (hB : ¬ B) : DeclEnds B n p
      ((do diagnosticLoc (← parserToken) "Expected declaration"; parserSync : P AstNode) p) := by
  have hends : Concludes (fun _ => True) n 1
      (do diagnosticLoc (← parserToken) "Expected declaration"; parserSync : P AstNode) :=
    .token fun _ _ => .diagnostic .parserSync
  have hnests := Nests.of_ends hends p htoks hctx harmed
  refine ⟨hnests.behind (j := 0) (.refl p) (Nat.le_refl _) ?_ (iff_of_false hB fun ⟨_, h, _⟩ => h)
    (Nat.le_refl _) (Nat.le_refl _), fun target q hjump => ?_⟩
  · intro target htarget
    rw [Own, hctx] at htarget
    exact htarget
  · have hfits := hends p htoks trivial
    rw [hjump] at hfits
    have htarget := hfits.target
    rw [hctx] at htarget
    refine Nat.lt_of_le_of_ne hfits.toks.length_le fun hlen => hkind ?_
    have hsame := hfits.toks.eq_of_length hlen
    rw [parserPeek, ← hsame]
    exact htarget.2

theorem ruleDecl_nests (htoks : ∀ t ∈ p.toks, t.kind ≠ .sentinel) (hdecl : p.ctxDecl = true) :
    DeclEnds (Breaks (DeclReaches rules S p)) rules.fuel { p with ctx := .decl }
      (ruleDecl rules p) := by
  have harmed : Armed { p with ctx := .decl } := hdecl
  have hother (hne : (parserPeek p).kind ≠ .kwProc) : ¬ Breaks (DeclReaches rules S p) := by
    rintro ⟨q, ⟨hmatch, -⟩, -⟩
    exact hne (kind_of_matches htoks hmatch)
  rw [ruleDecl_eq htoks]
  cases hkind : (parserPeek p).kind
  case kwProc =>
    obtain ⟨t, ts, hts, ht⟩ := exists_cons hkind (by simp)
    have hproc := ruleDeclProc_nests hr (p := { p with ctx := .decl }) htoks rfl harmed hts ht
    refine .behind hts rfl hproc ?_
    unfold Breaks DeclReaches
    simp only [matches_true hkind, true_and]
  case kwTable =>
    obtain ⟨t, ts, hts, ht⟩ := exists_cons hkind (by simp)
    have hconsume : parserConsume .kwTable { p with ctx := .decl } =
        .ok t { p with ctx := .decl, toks := ts } :=
      (parserConsume_ok (p := { p with ctx := .decl }) (parserPeek_ne_sentinel htoks)).mpr
        ⟨ts, hts, by simp [ht], ht, rfl⟩
    have hq : Advanced { p with ctx := .decl } { p with ctx := .decl, toks := ts } := .tail hts
    have hbehind : Concludes (fun _ => True) rules.fuel 0 (ruleDeclTable.behind rules t) :=
      ruleDeclTable_behind_ends hr.advance
    have hrest := Nests.of_ends (c := .decl) hbehind { p with ctx := .decl, toks := ts }
      (hq.genuine htoks) rfl harmed
    have hB : Breaks (DeclReaches rules S p) ↔ Breaks fun _ => False :=
      iff_of_false (hother (by simp [hkind])) fun ⟨_, h, _⟩ => h
    dsimp only
    rw [ruleDeclTable_eq, P.bind_apply_ok hconsume]
    exact .behind hts rfl (hrest.behind (j := 0) (.refl _) (Nat.le_refl _) (fun _ => hq.own.mp) hB
      (Nat.le_refl _) (Nat.le_refl _)) Iff.rfl
  all_goals
    refine ruleDecl_other htoks rfl harmed ?_ (hother (by simp [hkind]))
    change (parserPeek p).kind ∉ _
    simp [hkind]

/-! ## Programs -/

section
variable {resumed : Bool} (hmore : (!resumed && parserMatchTokensVa p [.eof]) = false)

include hmore

omit hr in
/-- A program breaks in its next declaration, or behind it. -/
theorem ProgramReaches.breaks_ok {decl : AstNode}
    (h : ruleDecl rules { p with ctxDecl := true } = .ok decl q) :
    Breaks (ProgramReaches rules S (fuel + 1) resumed p) ↔
      Breaks (DeclReaches rules S { p with ctxDecl := true }) ∨
        Breaks (ProgramReaches rules S fuel false q) := by
  constructor
  · rintro ⟨q', hreach, hbroken⟩
    cases hreach with
    | decl _ h' => exact .inl ⟨q', h', hbroken⟩
    | next _ h' hnext =>
      cases h.symm.trans h'
      exact .inr ⟨q', hnext, hbroken⟩
    | resumed _ h' _ => cases h.symm.trans h'
  · rintro (⟨q', h', hbroken⟩ | ⟨q', hnext, hbroken⟩)
    · exact ⟨q', .decl hmore h', hbroken⟩
    · exact ⟨q', .next hmore h hnext, hbroken⟩

omit hr in
theorem ProgramReaches.breaks_resumed
    (h : ruleDecl rules { p with ctxDecl := true } = .jump .decl q) :
    Breaks (ProgramReaches rules S (fuel + 1) resumed p) ↔
      Breaks (DeclReaches rules S { p with ctxDecl := true }) ∨
        Breaks (ProgramReaches rules S fuel true q) := by
  constructor
  · rintro ⟨q', hreach, hbroken⟩
    cases hreach with
    | decl _ h' => exact .inl ⟨q', h', hbroken⟩
    | next _ h' _ => cases h.symm.trans h'
    | resumed _ h' hnext =>
      cases h.symm.trans h'
      exact .inr ⟨q', hnext, hbroken⟩
  · rintro (⟨q', h', hbroken⟩ | ⟨q', hnext, hbroken⟩)
    · exact ⟨q', .decl hmore h', hbroken⟩
    · exact ⟨q', .resumed hmore h hnext, hbroken⟩

omit hr in
theorem ProgramReaches.breaks_left
    (hok : ∀ decl q, ruleDecl rules { p with ctxDecl := true } ≠ .ok decl q)
    (hjump : ∀ q, ruleDecl rules { p with ctxDecl := true } ≠ .jump .decl q) :
    Breaks (ProgramReaches rules S (fuel + 1) resumed p) ↔
      Breaks (DeclReaches rules S { p with ctxDecl := true }) := by
  constructor
  · rintro ⟨q', hreach, hbroken⟩
    cases hreach with
    | decl _ h' => exact ⟨q', h', hbroken⟩
    | next _ h' _ => exact absurd h' (hok _ _)
    | resumed _ h' _ => exact absurd h' (hjump _)
  · rintro ⟨q', h', hbroken⟩
    exact ⟨q', .decl hmore h', hbroken⟩

end

/-- How the parse of `n` tokens ends: only if it breaks, a jump is left that nothing takes. -/
def Outcome.Settles {α : Type} (n fuel : Nat) (B : Prop) : Outcome α → Prop
  | .ok _ _ => ¬ B
  | .jump target _ => (∃ a, target = .stmt a) ∧ B
  | .exit _ => ¬ B
  | .panic _ => False
  | .undefined what => what = overflow ∧ ¬ B
  | .fuel => fuel ≤ n

/-- Each iteration consumes a token. -/
theorem ruleProgram_loop_settles {resumed : Bool} {decls : List AstNode}
    (hfuel : fuel ≤ rules.fuel) (htoks : ∀ t ∈ p.toks, t.kind ≠ .sentinel) :
    (ruleProgram.loop rules fuel resumed decls p).Settles p.toks.length fuel
      (Breaks (ProgramReaches rules S fuel resumed p)) := by
  induction fuel generalizing p resumed decls with
  | zero => exact Nat.zero_le _
  | succ fuel ih =>
    have hdecl := ruleDecl_nests hr (p := { p with ctxDecl := true }) htoks rfl
    -- behind a declaration, or a jump to the program, the loop goes on
    have hgoes {q : Parser} {resumed : Bool} {decls : List AstNode} (hq : q.toks <:+ p.toks)
        (hlen : q.toks.length < p.toks.length) {B : Prop}
        (hB : B ↔ Breaks (ProgramReaches rules S fuel resumed q)) :
        (ruleProgram.loop rules fuel resumed decls q).Settles p.toks.length (fuel + 1) B := by
      have hrest := @ih q resumed decls (Nat.le_of_succ_le hfuel) fun t ht => htoks t (hq.mem ht)
      rw [← hB] at hrest
      cases hx : ruleProgram.loop rules fuel resumed decls q with
      | fuel =>
        rw [hx] at hrest
        exact Nat.le_trans (Nat.succ_le_succ hrest) hlen
      | _ =>
        rw [hx] at hrest
        exact hrest
    unfold ruleProgram.loop
    split
    · rename_i hdone
      rintro ⟨q, hreach, -⟩
      cases hreach <;> simp_all
    rename_i hmore
    have hmore' : (!resumed && parserMatchTokensVa p [.eof]) = false := Bool.eq_false_iff.mpr hmore
    have hbreaks := @ProgramReaches.breaks_left p rules S fuel resumed hmore'
    cases hx : ruleDecl rules { p with ctxDecl := true } with
    | ok decl q =>
      rw [hx] at hdecl
      obtain ⟨hq, hlen, hB⟩ := hdecl.nests
      refine hgoes hq.toks hlen ?_
      rw [ProgramReaches.breaks_ok hmore' hx]
      exact or_iff_right hB
    | jump target q =>
      rw [hx] at hdecl
      obtain ⟨hq, ⟨rfl, hB⟩ | ⟨⟨a, rfl, -⟩, hB⟩⟩ := hdecl.nests
      · refine hgoes hq.toks (hdecl.jump _ q rfl) ?_
        rw [ProgramReaches.breaks_resumed hmore' hx]
        exact or_iff_right hB
      · refine ⟨⟨a, rfl⟩, ?_⟩
        rw [hbreaks (by simp [hx]) (by simp [hx])]
        exact hB
    | exit _ =>
      rw [hx] at hdecl
      exact fun h => hdecl.nests ((hbreaks (by simp [hx]) (by simp [hx])).mp h)
    | panic _ =>
      rw [hx] at hdecl
      exact hdecl.nests
    | undefined _ =>
      rw [hx] at hdecl
      exact ⟨hdecl.nests.1, fun h => hdecl.nests.2 ((hbreaks (by simp [hx]) (by simp [hx])).mp h)⟩
    | fuel =>
      rw [hx] at hdecl
      exact Nat.le_trans hfuel hdecl.nests

end

theorem rules_nest (fuel : Nat) : (rules fuel).Nest (stmtReaches fuel) := by
  induction fuel with
  | zero => exact ⟨rules_advance 0, fun _ _ _ _ => Nat.zero_le _⟩
  | succ fuel ih =>
    refine ⟨rules_advance (fuel + 1), fun p a htoks hstmt => ?_⟩
    have h := ruleStmt_nests ih htoks hstmt
    rw [rules_fuel_eq] at h
    exact h

/-! ## Jumps to activations that have returned -/

/-- What a jump that nothing on the way takes is called. -/
abbrev returned : String := "longjmp to an activation that has returned"

/-- Whether each jump of panic mode goes to an activation that has not returned, and that has filled
the buffer. -/
def Outcome.JumpsLive {α : Type} (o : Outcome α) : Prop :=
  o ≠ .undefined returned ∧ o ≠ .undefined unfilled

/-- How the parse of a file ends. -/
theorem parse_settles {toks : List Token} (htoks : ∀ t ∈ toks, t.kind ≠ .sentinel) (fuel : Nat)
    (garbage : List Nat) :
    (ruleProgram (rules fuel) { toks, garbage }).Settles toks.length fuel
      (Breaks (ParseReaches fuel garbage toks)) := by
  have h : (ruleProgram.loop (rules fuel) (rules fuel).fuel false [] { toks, garbage }).Settles
      toks.length _ _ :=
    ruleProgram_loop_settles (rules_nest fuel) (p := { toks, garbage }) (Nat.le_refl _) htoks
  rw [rules_fuel_eq] at h
  have heq : ruleProgram (rules fuel) { toks, garbage } =
      P.bind (ruleProgram.loop (rules fuel) (rules fuel).fuel false [])
        (fun decls => pure (.block decls none)) { toks, garbage } := rfl
  rw [rules_fuel_eq] at heq
  rw [heq]
  unfold P.bind
  cases hx : ruleProgram.loop (rules fuel) fuel false [] { toks, garbage } with
  | _ =>
    rw [hx] at h
    exact h

/-- Panic mode jumps to an activation that has returned if and only if `rule_stmt_if` meets an
`else` without a block: there the buffer is still that of the block in front of it. -/
theorem sync_live_iff {toks : List Token} (htoks : ∀ t ∈ toks, t.kind ≠ .sentinel) {fuel : Nat}
    (hfuel : toks.length < fuel) (garbage : List Nat) :
    (parse fuel garbage toks).JumpsLive ↔
      ∀ q, ParseReaches fuel garbage toks q → ¬ ElseBroken q := by
  have hsettles := parse_settles htoks fuel garbage
  have hlive (h : ¬ Breaks (ParseReaches fuel garbage toks)) :
      ∀ q, ParseReaches fuel garbage toks q → ¬ ElseBroken q :=
    fun q hreach hbroken => h ⟨q, hreach, hbroken⟩
  unfold parse
  cases hx : ruleProgram (rules fuel) { toks, garbage } with
  | ok root p =>
    rw [hx] at hsettles
    refine iff_of_true ?_ (hlive hsettles)
    dsimp only
    split <;> exact ⟨by simp, by simp⟩
  | jump target p =>
    rw [hx] at hsettles
    obtain ⟨-, q, hreach, hbroken⟩ := hsettles
    exact iff_of_false (fun h => h.1 rfl) fun h => h q hreach hbroken
  | exit _ =>
    rw [hx] at hsettles
    exact iff_of_true ⟨by simp, by simp⟩ (hlive hsettles)
  | panic _ =>
    rw [hx] at hsettles
    exact hsettles.elim
  | undefined what =>
    rw [hx] at hsettles
    obtain ⟨rfl, hB⟩ := hsettles
    have hreturned : overflow ≠ returned := by decide
    have hunfilled : overflow ≠ unfilled := by decide
    exact iff_of_true ⟨fun h => hreturned (Outcome.undefined.inj h),
      fun h => hunfilled (Outcome.undefined.inj h)⟩ (hlive hB)
  | fuel =>
    rw [hx] at hsettles
    exact absurd (Nat.lt_of_lt_of_le hfuel hsettles) (Nat.lt_irrefl _)

def Outcome.isUndefined {α : Type} (what : String) : Outcome α → Bool
  | .undefined what' => what' == what
  | _ => false

theorem Outcome.not_jumpsLive {α : Type} {o : Outcome α} (h : o.isUndefined returned = true) :
    ¬ o.JumpsLive := by
  cases o with
  | undefined what =>
    obtain rfl := beq_iff_eq.mp h
    exact fun hlive => hlive.1 rfl
  | _ => cases h

/-- `proc f() void { if x { } else` and what is behind it. -/
def elseTokens (rest : List TokenKind) : List Token :=
  [{ kind := .kwProc }, Token.ident "f", { kind := .lparen }, { kind := .rparen },
    { kind := .kwTypeVoid }, { kind := .lbrace }, { kind := .kwIf }, Token.ident "x",
    { kind := .lbrace }, { kind := .rbrace }, { kind := .kwElse }] ++
    rest.map fun kind => { kind := kind }

/-- `proc f() void { if x { } else ; }` -/
theorem else_without_block : ¬ (parse 14 [] (elseTokens [.semicolon, .rbrace])).JumpsLive :=
  Outcome.not_jumpsLive (by decide +kernel)

/-- `proc f() void { if x { } else { } }` -/
theorem sync_live_iff_else : (parse 15 [] (elseTokens [.lbrace, .rbrace, .rbrace])).JumpsLive ↔
    ∀ q, ParseReaches 15 [] (elseTokens [.lbrace, .rbrace, .rbrace]) q → ¬ ElseBroken q :=
  sync_live_iff (by decide +kernel) (by decide +kernel) []

end Seron
