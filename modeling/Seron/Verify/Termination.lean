import Seron.Verify.Recovery

/-! # The parser terminates

Every iteration of a loop consumes a token, also one that ends in a jump of panic mode, and between
two jumps a token is consumed. -/

namespace Seron

variable {p q : Parser}

/-! ## Loops -/

/-- In the state `p` the rest of an iteration leaves the loop, however often it may still iterate,
or the loop goes on with fewer than `n` tokens ahead. -/
def Goes {σ α : Type} (loop : Nat → σ → P α) (n : Nat) (rest : Nat → P α) (p : Parser) : Prop :=
  (∃ o, o ≠ .fuel ∧ ∀ fuel, rest fuel p = o) ∨
    ∃ s q, q.toks.length < n ∧ ∀ fuel, rest fuel p = loop fuel s q

/-- Every iteration of the loop that is not the last consumes a token. -/
def StepsAhead {σ α : Type} (loop : Nat → σ → P α) (p : Parser) : Prop :=
  ∀ s, Goes loop p.toks.length (fun fuel => loop (fuel + 1) s) p

namespace Goes

variable {σ α β : Type} {loop : Nat → σ → P α} {n : Nat}

/-- Nothing that is left out of fuel. -/
theorem leave {x : P α} (hx : Concludes (fun _ => True) (p.toks.length + 1) 0 x)
    (htoks : ∀ t ∈ p.toks, t.kind ≠ .sentinel) : Goes loop n (fun _ => x) p := by
  refine .inl ⟨x p, fun hfuel => ?_, fun _ => rfl⟩
  have hfits := hx p htoks trivial
  rw [hfuel] at hfits
  exact Nat.not_succ_le_self _ hfits

theorem again {s : σ} (h : p.toks.length < n) : Goes loop n (fun fuel => loop fuel s) p :=
  .inr ⟨s, p, h, fun _ => rfl⟩

theorem ite {c : Prop} [Decidable c] {x y : Nat → P α} (hx : Goes loop n x p)
    (hy : Goes loop n y p) : Goes loop n (fun fuel => if c then x fuel else y fuel) p := by
  split
  · exact hx
  · exact hy

theorem branch {kinds : List TokenKind} {x y : Nat → P α} (hx : Goes loop n x p)
    (hy : Goes loop n y p) : Goes loop n
      (fun fuel => parserMatchTokens kinds >>= fun b => if b = true then x fuel else y fuel) p :=
  ite (c := parserMatchTokensVa p kinds = true) hx hy

/-- Behind a step that consumes `j` tokens. -/
theorem bind {x : P β} {f : Nat → β → P α} {m j : Nat} (hx : Concludes (fun _ => True) m j x)
    (htoks : ∀ t ∈ p.toks, t.kind ≠ .sentinel) (hm : p.toks.length < m)
    (hf : ∀ a q, Advanced p q → q.toks.length + j ≤ p.toks.length →
      Goes loop n (fun fuel => f fuel a) q) : Goes loop n (fun fuel => x >>= f fuel) p := by
  have hfits := hx p htoks trivial
  cases hx' : x p with
  | ok a q =>
    rw [hx'] at hfits
    rcases hf a q hfits.1 hfits.2 with ⟨o, hne, ho⟩ | ⟨s, q', hlt, hq'⟩
    · exact .inl ⟨o, hne, fun fuel => (P.bind_apply_ok hx').trans (ho fuel)⟩
    · exact .inr ⟨s, q', hlt, fun fuel => (P.bind_apply_ok hx').trans (hq' fuel)⟩
  | fuel =>
    rw [hx'] at hfits
    exact absurd hm (Nat.not_lt_of_le hfits)
  | _ =>
    refine .inl ⟨(x >>= f 0) p, ?_, fun fuel => ?_⟩ <;> simp [Bind.bind, P.bind, hx']

theorem orPanic {o : Option β} {f : Nat → β → P α}
    (hf : ∀ a, Goes loop n (fun fuel => f fuel a) p) :
    Goes loop n (fun fuel => orPanic o >>= f fuel) p := by
  cases o with
  | none => exact .inl ⟨_, by simp, fun _ => rfl⟩
  | some a => exact hf a

end Goes

section
variable {r : Rules} (hr : r.Advance) (htoks : ∀ t ∈ p.toks, t.kind ≠ .sentinel)
  (hfuel : p.toks.length < r.fuel)

include hr htoks hfuel

theorem exprListLoop_steps {close : TokenKind} : StepsAhead (exprListLoop r close) p := by
  intro items
  refine .branch (.leave .pure htoks) (.bind hr.expr htoks hfuel fun item q hq hlen => ?_)
  refine .bind .parserSkip (hq.genuine htoks) (Nat.lt_succ_self _) fun _ q' _ hlen' => ?_
  exact .again (by omega)

theorem ruleUtilParamlist_loop_steps : StepsAhead (ruleUtilParamlist.loop r) p := by
  intro params
  refine .branch (.leave .pure htoks) ?_
  refine .bind (ruleUtilParam_ends hr) htoks (Nat.lt_succ_of_lt hfuel) fun param q hq hlen => ?_
  have hgenuine := hq.genuine htoks
  refine .ite (.leave (.token fun _ _ => .diagnostic .parserSync) hgenuine)
    (.bind .parserSkip hgenuine (Nat.lt_succ_self _) fun _ q' _ hlen' => ?_)
  exact .again (by omega)

theorem ruleUtilFieldlist_loop_steps : StepsAhead (ruleUtilFieldlist.loop r) p := by
  intro table
  refine .branch (.leave .pure htoks) ?_
  refine .bind (ruleUtilParam_ends hr) htoks (Nat.lt_succ_of_lt hfuel) fun field q hq hlen => ?_
  refine .ite (.inl ⟨.undefined overflow, by simp, fun _ => rfl⟩)
    (.bind .parserSkip (hq.genuine htoks) (Nat.lt_succ_self _) fun _ q' _ hlen' => ?_)
  exact .again (by omega)

omit hr in
theorem templBinop_loop_steps {rule : P AstNode} {kinds : List TokenKind}
    (hrule : Concludes (fun _ => True) (r.fuel + 1) 1 rule) :
    StepsAhead (templBinop.loop rule kinds) p := by
  intro lhs
  refine .branch (.bind .parserAdvance htoks (Nat.lt_succ_self _) fun op q hq hlen => ?_)
    (.leave .pure htoks)
  refine .bind hrule (hq.genuine htoks) (by omega) fun rhs q' _ hlen' => .orPanic fun kind => ?_
  exact .again (by omega)

end

section
variable {r : Rules} {S : Parser → Parser → Prop} (hr : r.Nest S)
  (htoks : ∀ t ∈ p.toks, t.kind ≠ .sentinel) (hfuel : p.toks.length < r.fuel)

include hr htoks hfuel

omit hfuel in
/-- Also an iteration that ends in a jump back to the loop consumes a token. -/
theorem ruleStmtBlock_loop_steps {brace : Token} {me : Nat} (hfuel : p.toks.length + 1 < r.fuel) :
    StepsAhead (ruleStmtBlock.loop r brace me) p := by
  intro stmts
  have hstmt := hr.stmt { p with ctxStmt := some me } me htoks rfl
  simp only [Goes, ruleStmtBlock.loop]
  split
  · exact .inl ⟨_, by simp, fun _ => rfl⟩
  split
  · exact .inl ⟨_, by simp [diagnosticExit], fun _ => rfl⟩
  cases hx : r.stmt { p with ctxStmt := some me } with
  | ok stmt q =>
    rw [hx] at hstmt
    exact .inr ⟨_, q, hstmt.2.1, fun _ => rfl⟩
  | jump target q =>
    rw [hx] at hstmt
    cases target with
    | decl => exact .inl ⟨.jump .decl q, by simp, fun _ => rfl⟩
    | stmt a =>
      by_cases ha : a = me
      · exact .inr ⟨stmts, q, hstmt.1.length_lt, fun _ => if_pos ha⟩
      · exact .inl ⟨.jump (.stmt a) q, by simp, fun _ => if_neg ha⟩
  | fuel =>
    rw [hx] at hstmt
    exact absurd hfuel (Nat.not_lt_of_le (Nat.sub_le_iff_le_add.mp hstmt))
  | _ => exact .inl ⟨_, by simp, fun _ => rfl⟩

theorem ruleProgram_loop_steps :
    StepsAhead (fun fuel (s : Bool × List AstNode) => ruleProgram.loop r fuel s.1 s.2) p := by
  intro ⟨resumed, decls⟩
  have hdecl := ruleDecl_nests hr (p := { p with ctxDecl := true }) htoks rfl
  simp only [Goes, ruleProgram.loop]
  split
  · exact .inl ⟨_, by simp, fun _ => rfl⟩
  cases hx : ruleDecl r { p with ctxDecl := true } with
  | ok decl q =>
    rw [hx] at hdecl
    exact .inr ⟨(false, decls ++ [decl]), q, hdecl.nests.2.1, fun _ => rfl⟩
  | jump target q =>
    rw [hx] at hdecl
    cases target with
    | decl => exact .inr ⟨(true, decls), q, hdecl.jump _ q rfl, fun _ => rfl⟩
    | stmt a => exact .inl ⟨.jump (.stmt a) q, by simp, fun _ => rfl⟩
  | fuel =>
    rw [hx] at hdecl
    exact absurd hfuel (Nat.not_lt_of_le hdecl.nests)
  | _ => exact .inl ⟨_, by simp, fun _ => rfl⟩

end

/-- The rules whose values are combined by binary operators. -/
def binopOperands (r : Rules) : List (P AstNode) :=
  [ruleExprUnary r, ruleExprFactor r, ruleExprTerm r, ruleExprComparison r, ruleExprEquality r,
    ruleExprBitwiseAnd r, ruleExprBitwiseOr r, ruleExprLogAnd r]

theorem binopOperands_ends {r : Rules} (hr : r.Advance) :
    ∀ rule ∈ binopOperands r, Concludes (fun _ => True) (r.fuel + 1) 1 rule := by
  have hunary : Concludes (fun _ => True) (r.fuel + 1) 1 (ruleExprUnary r) := ruleExprUnary_ends hr
  have hfactor := templBinop_ends (C := fun _ => True) hunary
    (by decide : ∀ kind ∈ [.slash, .asterisk], binopFromToken kind ≠ none)
  have hterm := templBinop_ends (C := fun _ => True) hfactor
    (by decide : ∀ kind ∈ [.plus, .minus], binopFromToken kind ≠ none)
  have hcomparison := templBinop_ends (C := fun _ => True) hterm
    (by decide : ∀ kind ∈ [.lt, .ltEq, .gt, .gtEq], binopFromToken kind ≠ none)
  have hequality := templBinop_ends (C := fun _ => True) hcomparison
    (by decide : ∀ kind ∈ [.eq, .neq], binopFromToken kind ≠ none)
  have hand := templBinop_ends (C := fun _ => True) hequality
    (by decide : ∀ kind ∈ [.ampersand], binopFromToken kind ≠ none)
  have hor := templBinop_ends (C := fun _ => True) hand
    (by decide : ∀ kind ∈ [.pipe], binopFromToken kind ≠ none)
  have hlogAnd := templBinop_ends (C := fun _ => True) hor
    (by decide : ∀ kind ∈ [.logAnd], binopFromToken kind ≠ none)
  simp only [binopOperands, List.forall_mem_cons]
  exact ⟨hunary, hfactor, hterm, hcomparison, hequality, hand, hor, hlogAnd, List.forall_mem_nil _⟩

/-- Every iteration of a loop that is not the last consumes a token. -/
structure LoopsAdvance (r : Rules) (p : Parser) : Prop where
  arglist : StepsAhead (exprListLoop r .rparen) p
  array : StepsAhead (exprListLoop r .rbracket) p
  paramlist : StepsAhead (ruleUtilParamlist.loop r) p
  fieldlist : StepsAhead (ruleUtilFieldlist.loop r) p
  binop : ∀ rule ∈ binopOperands r, ∀ kinds, StepsAhead (templBinop.loop rule kinds) p
  /-- The brace in front of the block is a token as well. -/
  block : p.toks.length + 1 < r.fuel → ∀ brace me, StepsAhead (ruleStmtBlock.loop r brace me) p
  program :
    StepsAhead (fun fuel (s : Bool × List AstNode) => ruleProgram.loop r fuel s.1 s.2) p

theorem rules_loopsAdvance {fuel : Nat} (htoks : ∀ t ∈ p.toks, t.kind ≠ .sentinel)
    (hfuel : p.toks.length < fuel) : LoopsAdvance (rules fuel) p := by
  have hr := rules_nest fuel
  rw [← rules_fuel_eq fuel] at hfuel
  refine ⟨exprListLoop_steps hr.advance htoks hfuel, exprListLoop_steps hr.advance htoks hfuel,
    ruleUtilParamlist_loop_steps hr.advance htoks hfuel,
    ruleUtilFieldlist_loop_steps hr.advance htoks hfuel, fun rule hrule kinds => ?_,
    fun hfuel' brace me => ruleStmtBlock_loop_steps hr htoks hfuel',
    ruleProgram_loop_steps hr htoks hfuel⟩
  exact templBinop_loop_steps htoks hfuel (binopOperands_ends hr.advance rule hrule)

/-! ## Jumps

The states in which panic mode jumps, in the order of the run. The loop that takes a jump notes it
down. -/

def behind {α : Type} (x : P α) (K : α → Parser → List Parser) (p : Parser) : List Parser :=
  match x p with
  | .ok a q => K a q
  | _ => []

section
variable (r : Rules) (J : Parser → List Parser)

def loopJumps (me : Nat) : Nat → Parser → List Parser
  | 0, _ => []
  | fuel + 1, p =>
    let p := { p with ctxStmt := some me }
    if parserMatchTokensVa p [.rbrace] then []
    else if parserMatchTokensVa p [.eof] then []
    else
      J p ++ match r.stmt p with
        | .ok _ p => loopJumps me fuel p
        | .jump (.stmt activation) p => if activation = me then p :: loopJumps me fuel p else []
        | _ => []

def blockJumps : Parser → List Parser :=
  behind (parserConsume .lbrace) fun _ p =>
    loopJumps r J p.activations r.fuel { p with activations := p.activations + 1 }

def elseJumps (p : Parser) : List Parser :=
  if parserMatchTokensVa p [.kwElse] then behind (discard parserAdvance) (fun _ => blockJumps r J) p
  else []

def ifJumps : Parser → List Parser :=
  behind (parserConsume .kwIf) fun _ => behind r.expr fun _ p =>
    blockJumps r J p ++ behind (ruleStmtBlock r) (fun _ => elseJumps r J) p

def whileJumps : Parser → List Parser :=
  behind (parserConsume .kwWhile) fun _ => behind r.expr fun _ => blockJumps r J

def forJumps : Parser → List Parser :=
  behind (parserConsume .kwFor) fun _ => behind (parserConsume .literalIdent) fun _ =>
    behind (discard (parserConsume .colon)) fun _ => behind r.type fun _ =>
      behind (discard (parserConsume .assign)) fun _ => behind r.expr fun _ =>
        behind (discard (parserConsume .comma)) fun _ => behind r.expr fun _ =>
          behind (discard (parserConsume .comma)) fun _ => behind r.expr fun _ => blockJumps r J

def stmtJumps (p : Parser) : List Parser :=
  match (parserPeek p).kind with
  | .lbrace => blockJumps r J { p with ctx := .stmt }
  | .kwIf => ifJumps r J { p with ctx := .stmt }
  | .kwWhile => whileJumps r J { p with ctx := .stmt }
  | .kwFor => forJumps r J { p with ctx := .stmt }
  | _ => []

def procJumps : Parser → List Parser :=
  behind (ruleUtilProcType r true) fun _ p =>
    if parserMatchTokensVa p [.semicolon] then [] else blockJumps r J p

def declJumps (p : Parser) : List Parser :=
  if parserMatchTokensVa p [.kwProc] then procJumps r J { p with ctx := .decl } else []

/-- The last jump is to an activation that has returned, if there is such a one. -/
def programJumps : Nat → Bool → Parser → List Parser
  | 0, _, _ => []
  | fuel + 1, resumed, p =>
    if !resumed && parserMatchTokensVa p [.eof] then []
    else
      declJumps r J { p with ctxDecl := true } ++ match ruleDecl r { p with ctxDecl := true } with
        | .ok _ p => programJumps fuel false p
        | .jump .decl p => p :: programJumps fuel true p
        | .jump (.stmt _) p => [p]
        | _ => []

end

def rulesJumps : Nat → Parser → List Parser
  | 0 => fun _ => []
  | fuel + 1 => stmtJumps (rules fuel) (rulesJumps fuel)

/-- The states in which panic mode jumps while the tokens are parsed. -/
def parseJumps (fuel : Nat) (garbage : List Nat) (toks : List Token) : List Parser :=
  programJumps (rules fuel) (rulesJumps fuel) fuel false { toks, garbage }

/-- From one state to the next a token has been consumed. -/
def Falling (l : List Parser) : Prop :=
  l.Pairwise fun q q' => q'.toks.length < q.toks.length

/-- A rule that is started with `n` tokens ahead and makes the jumps `l` has this outcome: tokens
are consumed in front of, between and behind the jumps, where `k` is what is consumed at least
between the last one and the return. -/
structure Outcome.Paced {α : Type} (n k : Nat) (l : List Parser) (o : Outcome α) : Prop where
  falling : Falling l
  start : ∀ q ∈ l, q.toks.length < n
  ok : ∀ a q', o = .ok a q' → q'.toks.length ≤ n ∧ ∀ q ∈ l, q'.toks.length + k ≤ q.toks.length
  jump : ∀ target q', o = .jump target q' →
    q'.toks.length ≤ n ∧ ∀ q ∈ l, q'.toks.length < q.toks.length

theorem Falling.append {l l' : List Parser} {n : Nat} (h : Falling l) (h' : Falling l')
    (hn : ∀ q ∈ l, n ≤ q.toks.length) (hn' : ∀ q ∈ l', q.toks.length < n) : Falling (l ++ l') :=
  List.pairwise_append.mpr
    ⟨h, h', fun q hq q' hq' => Nat.lt_of_lt_of_le (hn' q' hq') (hn q hq)⟩

namespace Outcome.Paced

variable {α β : Type} {n m k : Nat} {l l' : List Parser} {o : Outcome α}

theorem returns {a : α} (hq : q.toks.length ≤ n) : (Outcome.ok a q).Paced n k [] where
  falling := .nil
  start := List.forall_mem_nil _
  ok := by
    intro a' q' h
    cases h
    exact ⟨hq, List.forall_mem_nil _⟩
  jump := by simp

theorem leaves {target : JumpTarget} (hl : Falling l) (hn : ∀ q ∈ l, q.toks.length < n)
    (hq : q.toks.length ≤ n) (hall : ∀ q' ∈ l, q.toks.length < q'.toks.length) :
    (Outcome.jump target q : Outcome α).Paced n k l where
  falling := hl
  start := hn
  ok := by simp
  jump := by
    intro target' q' h
    cases h
    exact ⟨hq, hall⟩

/-- The run ends with the outcome. -/
theorem ends (hok : ∀ a q, o ≠ .ok a q) (hjump : ∀ target q, o ≠ .jump target q)
    (hl : Falling l) (hn : ∀ q ∈ l, q.toks.length < n) : o.Paced n k l where
  falling := hl
  start := hn
  ok := fun a q h => absurd h (hok a q)
  jump := fun target q h => absurd h (hjump target q)

theorem mono (h : o.Paced m k l) (hm : m ≤ n) : o.Paced n k l where
  falling := h.falling
  start := fun q hq => Nat.lt_of_lt_of_le (h.start q hq) hm
  ok := fun a q' hq' => ⟨Nat.le_trans (h.ok a q' hq').1 hm, (h.ok a q' hq').2⟩
  jump := fun target q' hq' => ⟨Nat.le_trans (h.jump target q' hq').1 hm, (h.jump target q' hq').2⟩

/-- Jumps that are made before. -/
theorem append (h : o.Paced m k l') (hl : Falling l) (hn : ∀ q ∈ l, q.toks.length < n)
    (hm : ∀ q ∈ l, m < q.toks.length) (hle : m ≤ n) (hk : k ≤ 1) : o.Paced n k (l ++ l') where
  falling := hl.append h.falling (fun q hq => Nat.le_of_lt (hm q hq)) h.start
  start := List.forall_mem_append.mpr
    ⟨hn, fun q hq => Nat.lt_of_lt_of_le (h.start q hq) hle⟩
  ok := by
    intro a q' hq'
    obtain ⟨hq, hall⟩ := h.ok a q' hq'
    refine ⟨Nat.le_trans hq hle, List.forall_mem_append.mpr ⟨fun q hmem => ?_, hall⟩⟩
    have hlt := hm q hmem
    omega
  jump := by
    intro target q' hq'
    obtain ⟨hq, hall⟩ := h.jump target q' hq'
    exact ⟨Nat.le_trans hq hle,
      List.forall_mem_append.mpr ⟨fun q hmem => Nat.lt_of_le_of_lt hq (hm q hmem), hall⟩⟩

/-- A jump right before, and others before that. -/
theorem resume (h : o.Paced q.toks.length 0 l') (hl : Falling l)
    (hn : ∀ q ∈ l, q.toks.length < n) (hm : ∀ q' ∈ l, q.toks.length < q'.toks.length)
    (hlt : q.toks.length < n)
    (hjump : ∀ target q', o = .jump target q' → q'.toks.length < q.toks.length) :
    o.Paced n 0 (l ++ q :: l') where
  falling := by
    refine List.pairwise_append.mpr ⟨hl, List.pairwise_cons.mpr ⟨h.start, h.falling⟩, ?_⟩
    intro q' hq'
    exact List.forall_mem_cons.mpr
      ⟨hm q' hq', fun q'' hq'' => Nat.lt_trans (h.start q'' hq'') (hm q' hq')⟩
  start := List.forall_mem_append.mpr
    ⟨hn, List.forall_mem_cons.mpr ⟨hlt, fun q' hq' => Nat.lt_trans (h.start q' hq') hlt⟩⟩
  ok := by
    intro a q' hq'
    obtain ⟨hle, hall⟩ := h.ok a q' hq'
    refine ⟨Nat.le_trans hle (Nat.le_of_lt hlt), List.forall_mem_append.mpr
      ⟨fun q'' hq'' => Nat.le_trans hle (Nat.le_of_lt (hm q'' hq'')), ?_⟩⟩
    exact List.forall_mem_cons.mpr ⟨hle, hall⟩
  jump := by
    intro target q' hq'
    have hlt' := hjump target q' hq'
    refine ⟨Nat.le_of_lt (Nat.lt_trans hlt' hlt), List.forall_mem_append.mpr
      ⟨fun q'' hq'' => Nat.lt_trans hlt' (hm q'' hq''), ?_⟩⟩
    exact List.forall_mem_cons.mpr ⟨hlt', (h.jump target q' hq').2⟩

/-- A rule, and what comes behind it when it returns, without a jump. -/
theorem bind {x : P α} {f : α → P β} (h : (x p).Paced n k l)
    (hok : ∀ a q b r, x p = .ok a q → f a q = .ok b r →
      r.toks.length ≤ q.toks.length ∧ r.toks.length + m ≤ q.toks.length + k)
    (hjump : ∀ a q target r, x p = .ok a q → f a q ≠ .jump target r) :
    ((x >>= f) p).Paced n m l := by
  refine ⟨h.falling, h.start, fun b r hr => ?_, fun target r hr => ?_⟩
  · obtain ⟨a, q, hx, hf⟩ := P.bind_ok.mp hr
    obtain ⟨hq, hall⟩ := h.ok a q hx
    obtain ⟨hle, hlt⟩ := hok a q b r hx hf
    refine ⟨Nat.le_trans hle hq, fun q' hq' => ?_⟩
    have := hall q' hq'
    omega
  · cases hx : x p with
    | ok a q =>
      rw [P.bind_apply_ok hx] at hr
      exact absurd hr (hjump a q target r hx)
    | jump target' q =>
      simp only [Bind.bind, P.bind, hx] at hr
      cases hr
      exact h.jump target r hx
    | _ => simp [Bind.bind, P.bind, hx] at hr

theorem map {x : P α} {g : α → β} (h : (x p).Paced n k l) : ((g <$> x) p).Paced n k l := by
  refine bind h (fun a q b r _ hf => ?_) fun a q target r _ => by simp [Function.comp]
  obtain ⟨-, rfl⟩ := P.pure_ok.mp hf
  exact ⟨Nat.le_refl _, Nat.le_refl _⟩

end Outcome.Paced

/-- A rule below the statements makes no jump that is taken in it. -/
theorem Concludes.paced {α : Type} {x : P α} {n k m : Nat} (hx : Concludes (fun _ => True) n k x)
    (htoks : ∀ t ∈ p.toks, t.kind ≠ .sentinel) : (x p).Paced p.toks.length m [] := by
  have hfits := hx p htoks trivial
  cases hx' : x p with
  | ok a q =>
    rw [hx'] at hfits
    exact .returns hfits.1.toks.length_le
  | jump target q =>
    rw [hx'] at hfits
    exact .leaves .nil (List.forall_mem_nil _) hfits.toks.length_le (List.forall_mem_nil _)
  | _ => exact .ends (by simp) (by simp) .nil (List.forall_mem_nil _)

/-- Wherever the rule is started, its outcome is paced, where `K` are the jumps it makes. -/
def Paces {α : Type} (k : Nat) (x : P α) (K : Parser → List Parser) : Prop :=
  ∀ p, (∀ t ∈ p.toks, t.kind ≠ .sentinel) → (x p).Paced p.toks.length k (K p)

namespace Paces

variable {α β : Type} {n k m : Nat}

/-- A rule below the statements, and a statement behind it. -/
theorem then_ {x : P α} {f : α → P β} {K : α → Parser → List Parser}
    (hx : Concludes (fun _ => True) n k x) (hf : ∀ a, Paces m (f a) (K a)) :
    Paces m (x >>= f) (behind x K) := by
  intro p htoks
  have hpaced := hx.paced (m := m) htoks
  have hfits := hx p htoks trivial
  unfold behind
  cases hx' : x p with
  | ok a q =>
    rw [hx'] at hfits
    rw [P.bind_apply_ok hx']
    exact (hf a q (hfits.1.genuine htoks)).mono hfits.1.toks.length_le
  | jump target q =>
    obtain ⟨hle, hlt⟩ := hpaced.jump target q hx'
    simp only [Bind.bind, P.bind, hx']
    exact .leaves .nil (List.forall_mem_nil _) hle hlt
  | _ =>
    simp only [Bind.bind, P.bind, hx']
    exact .ends (by simp) (by simp) .nil (List.forall_mem_nil _)

/-- A statement that consumes a token behind its last jump, and another one behind it. -/
theorem bind {x : P α} {f : α → P β} {K : Parser → List Parser} {K' : α → Parser → List Parser}
    (hx : Paces 1 x K) (hgenuine : ∀ p a q, (∀ t ∈ p.toks, t.kind ≠ .sentinel) → x p = .ok a q →
      ∀ t ∈ q.toks, t.kind ≠ .sentinel) (hf : ∀ a, Paces 1 (f a) (K' a)) :
    Paces 1 (x >>= f) fun p => K p ++ behind x K' p := by
  intro p htoks
  have hpaced := hx p htoks
  dsimp only
  unfold behind
  cases hx' : x p with
  | ok a q =>
    obtain ⟨hle, hlt⟩ := hpaced.ok a q hx'
    rw [P.bind_apply_ok hx']
    exact (hf a q (hgenuine p a q htoks hx')).append hpaced.falling hpaced.start hlt hle
      (Nat.le_refl _)
  | jump target q =>
    obtain ⟨hle, hlt⟩ := hpaced.jump target q hx'
    simp only [Bind.bind, P.bind, hx', List.append_nil]
    exact .leaves hpaced.falling hpaced.start hle hlt
  | _ =>
    simp only [Bind.bind, P.bind, hx', List.append_nil]
    exact .ends (by simp) (by simp) hpaced.falling hpaced.start

theorem map {x : P α} {g : α → β} {K : Parser → List Parser} (hx : Paces k x K) :
    Paces k (g <$> x) K := fun p htoks => (hx p htoks).map

theorem of_ends {x : P α} (hx : Concludes (fun _ => True) n k x) : Paces m x fun _ => [] :=
  fun _ htoks => hx.paced htoks

/-- Looking at the current token. -/
theorem branch {kind : TokenKind} {x y : P α} {K K' : Parser → List Parser} (hx : Paces k x K)
    (hy : Paces k y K') :
    Paces k (parserMatchToken kind >>= fun b => if b = true then x else y)
      fun p => if parserMatchTokensVa p [kind] then K p else K' p := by
  intro p htoks
  change ((if parserMatchTokensVa p [kind] = true then x else y) p).Paced _ _
    (if parserMatchTokensVa p [kind] = true then K p else K' p)
  split
  · exact hx p htoks
  · exact hy p htoks

theorem consume {kind : TokenKind} {f : Token → P α}
    {K : Token → Parser → List Parser} (hf : ∀ t, Paces m (f t) (K t)) :
    Paces m (parserConsume kind >>= f) (behind (parserConsume kind) K) :=
  .then_ (Concludes.parserConsume (n := 0)) hf

theorem skip {kind : TokenKind} {f : Unit → P α}
    {K : Unit → Parser → List Parser} (hf : ∀ u, Paces m (f u) (K u)) :
    Paces m (discard (parserConsume kind) >>= f) (behind (discard (parserConsume kind)) K) :=
  .then_ (.dropped (Concludes.parserConsume (n := 0))) hf

end Paces

/-- How the rules that are called recursively end, where the statements make the jumps `J`. -/
structure Rules.Paced (r : Rules) (S : Parser → Parser → Prop) (J : Parser → List Parser) :
    Prop where
  nest : r.Nest S
  stmt : Paces 1 r.stmt J

section
variable {r : Rules} {S : Parser → Parser → Prop} {J : Parser → List Parser} (hr : r.Paced S J)

include hr

theorem ruleStmtBlock_loop_paced {brace : Token} {me fuel : Nat} {stmts : List AstNode}
    (hfuel : fuel ≤ r.fuel) (htoks : ∀ t ∈ p.toks, t.kind ≠ .sentinel) (hme : me < p.activations) :
    (ruleStmtBlock.loop r brace me fuel stmts p).Paced p.toks.length 0
      (loopJumps r J me fuel p) := by
  induction fuel generalizing p stmts with
  | zero =>
    have hnil : ∀ q ∈ ([] : List Parser), q.toks.length < p.toks.length := List.forall_mem_nil _
    exact Outcome.Paced.ends (o := .fuel) (by simp) (by simp) .nil hnil
  | succ fuel ih =>
    have hnest := hr.nest.stmt { p with ctxStmt := some me } me htoks rfl
    have hstmt := hr.stmt { p with ctxStmt := some me } htoks
    simp only [ruleStmtBlock.loop, loopJumps]
    split
    · exact .returns (Nat.le_refl _)
    split
    · exact .ends (by simp [diagnosticExit]) (by simp [diagnosticExit]) .nil (List.forall_mem_nil _)
    cases hx : r.stmt { p with ctxStmt := some me } with
    | ok stmt q =>
      rw [hx] at hnest
      obtain ⟨hle, hlt⟩ := hstmt.ok stmt q hx
      exact (ih (Nat.le_of_succ_le hfuel) (hnest.1.genuine htoks)
        (Nat.lt_of_lt_of_le hme hnest.1.activations)).append hstmt.falling hstmt.start hlt hle
        (Nat.zero_le _)
    | jump target q =>
      rw [hx] at hnest
      obtain ⟨hle, hlt⟩ := hstmt.jump target q hx
      have hleaves : (Outcome.jump target q : Outcome (List AstNode)).Paced p.toks.length 0
          (J { p with ctxStmt := some me }) := .leaves hstmt.falling hstmt.start hle hlt
      cases target with
      | decl =>
        dsimp only
        rw [List.append_nil]
        exact hleaves
      | stmt a =>
        dsimp only
        split
        · rename_i ha
          obtain rfl := ha
          have hq : Left { p with ctxStmt := some a } (.stmt a) q := hnest.1
          have hgenuine := hq.passed.genuine htoks
          have hlive := Nat.lt_of_lt_of_le hme hq.activations
          have hnests : (ruleStmtBlock.loop r brace a fuel stmts q).Nests _ q _ _ _ :=
            ruleStmtBlock_loop_nests hr.nest (Nat.le_of_succ_le hfuel) hgenuine hlive
          refine (ih (Nat.le_of_succ_le hfuel) hgenuine hlive).resume hstmt.falling hstmt.start hlt
            hq.length_lt fun target' q' hq' => ?_
          rw [hq'] at hnests
          obtain ⟨hleft, ⟨h, -⟩ | ⟨⟨a', rfl, -⟩, -⟩⟩ := hnests
          · exact h.elim
          · exact hleft.length_lt
        · rw [List.append_nil]
          exact hleaves
    | _ =>
      dsimp only
      rw [List.append_nil]
      exact .ends (by simp) (by simp) hstmt.falling hstmt.start

omit hr in
theorem parserAdvance_bind_ne_jump {α : Type} {a : α} {target : JumpTarget} {q' : Parser} :
    (do discard parserAdvance; pure a : P α) q ≠ .jump target q' := by
  rcases parserAdvance_outcome with ⟨diags, hexit⟩ | ⟨t, q'', hok⟩
  · rw [bind_exit (discard_exit hexit)]
    simp
  · rw [P.bind_apply_ok (discard_ok hok)]
    simp [P.pure_apply]

theorem ruleStmtBlock_paces : Paces 1 (ruleStmtBlock r) (blockJumps r J) := by
  refine .consume fun brace p htoks => ?_
  have hloop : (ruleStmtBlock.loop r brace p.activations r.fuel []
      { p with activations := p.activations + 1 }).Paced p.toks.length 0 _ :=
    ruleStmtBlock_loop_paced hr (p := { p with activations := p.activations + 1 }) (Nat.le_refl _)
      htoks (Nat.lt_succ_self _)
  refine hloop.bind (fun stmts q block q' hx hf => ?_)
    fun stmts q target q' _ => parserAdvance_bind_ne_jump
  obtain ⟨_, _, hdiscard, hpure⟩ := P.bind_ok.mp hf
  obtain ⟨-, rfl⟩ := P.pure_ok.mp hpure
  obtain ⟨_, _, hok, hunit⟩ := P.bind_ok.mp hdiscard
  obtain ⟨-, rfl⟩ := P.pure_ok.mp hunit
  obtain ⟨hne, rfl⟩ := parserAdvance_tail hok
  have hpos := List.length_pos_iff.mpr hne
  simp only [List.length_tail]
  omega

theorem ruleStmtElse_paces : Paces 1 (ruleStmtElse r) (elseJumps r J) := by
  have hadvance : Concludes (fun _ => True) 0 1 (discard parserAdvance) := .dropped .parserAdvance
  have hnone : Concludes (fun _ => True) 0 0 (pure none : P (Option AstNode)) := .pure
  exact .branch (.then_ hadvance fun _ => (ruleStmtBlock_paces hr).map) (.of_ends hnone)

theorem ruleStmtBlock_genuine {block : AstNode} (htoks : ∀ t ∈ p.toks, t.kind ≠ .sentinel)
    (h : ruleStmtBlock r p = .ok block q) : ∀ t ∈ q.toks, t.kind ≠ .sentinel := by
  rw [ruleStmtBlock_eq] at h
  obtain ⟨brace, p', hconsume, hbody⟩ := P.bind_ok.mp h
  obtain ⟨ts, hts, -, -, rfl⟩ := (parserConsume_ok (parserPeek_ne_sentinel htoks)).mp hconsume
  have hgenuine := (Advanced.tail hts).genuine htoks
  have hnests : (ruleStmtBlock.body r brace _).Nests _ _ _ _ _ :=
    (ruleStmtBlock_body_nests hr.nest hgenuine).1
  rw [hbody] at hnests
  exact hnests.1.genuine hgenuine

/-- The block of an `if`, and what is behind it. -/
theorem ruleStmtIf_behind_paces {g : AstNode → Option AstNode → AstNode} :
    Paces 1 (do let then_ ← ruleStmtBlock r; let else_ ← ruleStmtElse r; pure (g then_ else_))
      fun p => blockJumps r J p ++ behind (ruleStmtBlock r) (fun _ => elseJumps r J) p := by
  refine .bind (ruleStmtBlock_paces hr) (fun p block q htoks h => ?_)
    fun _ => (ruleStmtElse_paces hr).map
  exact ruleStmtBlock_genuine hr htoks h

theorem ruleStmtIf_paces : Paces 1 (ruleStmtIf r) (ifJumps r J) :=
  .consume fun _ => .then_ hr.nest.advance.expr fun _ => ruleStmtIf_behind_paces hr

theorem ruleStmtWhile_paces : Paces 1 (ruleStmtWhile r) (whileJumps r J) :=
  .consume fun _ => .then_ hr.nest.advance.expr fun _ => (ruleStmtBlock_paces hr).map

theorem ruleStmtFor_paces : Paces 1 (ruleStmtFor r) (forJumps r J) :=
  .consume fun _ => .consume fun _ => .skip fun _ => .then_ hr.nest.advance.type fun _ =>
    .skip fun _ => .then_ hr.nest.advance.expr fun _ => .skip fun _ =>
      .then_ hr.nest.advance.expr fun _ => .skip fun _ => .then_ hr.nest.advance.expr fun _ =>
        (ruleStmtBlock_paces hr).map

theorem ruleStmt_paces : Paces 1 (ruleStmt r) (stmtJumps r J) := by
  intro p htoks
  have hall {x : P (Option AstNode)} {K : Parser → List Parser} (hx : Paces 1 x K)
      (hK : stmtJumps r J p = K { p with ctx := .stmt }) :
      (x { p with ctx := .stmt }).Paced p.toks.length 1 (stmtJumps r J p) := by
    rw [hK]
    exact hx { p with ctx := .stmt } htoks
  have hjumps : stmtJumps r J p = match (parserPeek p).kind with
    | .lbrace => blockJumps r J { p with ctx := .stmt }
    | .kwIf => ifJumps r J { p with ctx := .stmt }
    | .kwWhile => whileJumps r J { p with ctx := .stmt }
    | .kwFor => forJumps r J { p with ctx := .stmt }
    | _ => [] := rfl
  rw [ruleStmt_eq htoks]
  cases hkind : (parserPeek p).kind <;> rw [hkind] at hjumps
  case lbrace => exact hall (ruleStmtBlock_paces hr).map hjumps
  case kwIf => exact hall (ruleStmtIf_paces hr).map hjumps
  case kwWhile => exact hall (ruleStmtWhile_paces hr).map hjumps
  case kwFor => exact hall (ruleStmtFor_paces hr).map hjumps
  case kwVardecl => exact hall (Paces.of_ends (ruleStmtVardecl_ends hr.nest.advance)).map hjumps
  case kwReturn => exact hall (Paces.of_ends (ruleStmtReturn_ends hr.nest.advance)).map hjumps
  all_goals exact hall (.of_ends (ruleExprstmt_ends hr.nest.advance)) hjumps

theorem ruleProcBody_paces : Paces 1 (ruleProcBody r)
    fun p => if parserMatchTokensVa p [.semicolon] then [] else blockJumps r J p := by
  have hnone : Concludes (fun _ => True) 0 0
      (do discard parserAdvance; pure none : P (Option AstNode)) :=
    .then_ (.loose (.dropped .parserAdvance)) fun _ => .pure
  exact .branch (.of_ends hnone) (ruleStmtBlock_paces hr).map

theorem ruleDeclProc_paces : Paces 1 (ruleDeclProc r) (procJumps r J) := by
  rw [ruleDeclProc_eq]
  exact .then_ (ruleUtilProcType_ends hr.nest.advance) fun _ => (ruleProcBody_paces hr).map

theorem ruleDecl_paces : Paces 1 (ruleDecl r) (declJumps r J) := by
  intro p htoks
  have hall {x : P AstNode} {K : Parser → List Parser} (hx : Paces 1 x K)
      (hK : declJumps r J p = K { p with ctx := .decl }) :
      (x { p with ctx := .decl }).Paced p.toks.length 1 (declJumps r J p) := by
    rw [hK]
    exact hx { p with ctx := .decl } htoks
  have hnone (hkind : (parserPeek p).kind ≠ .kwProc) : declJumps r J p = [] := by
    unfold declJumps
    rw [matches_false htoks hkind]
    rfl
  have htable : Concludes (fun _ => True) r.fuel 0 (ruleDeclTable r) :=
    .then_ (.loose .parserConsume) fun _ => ruleDeclTable_behind_ends hr.nest.advance
  have hother : Concludes (fun _ => True) 0 0
      (do diagnosticLoc (← parserToken) "Expected declaration"; parserSync : P AstNode) :=
    .token fun _ _ => .diagnostic .parserSync
  rw [ruleDecl_eq htoks]
  cases hkind : (parserPeek p).kind
  case kwProc => exact hall (ruleDeclProc_paces hr) (if_pos (matches_true hkind))
  case kwTable => exact hall (.of_ends htable) (hnone (by simp [hkind]))
  all_goals exact hall (.of_ends hother) (hnone (by simp [hkind]))

/-- From one jump of the program to the next a token is consumed, and one before the first. -/
theorem programJumps_falling {fuel : Nat} {resumed : Bool}
    (htoks : ∀ t ∈ p.toks, t.kind ≠ .sentinel) :
    Falling (programJumps r J fuel resumed p) ∧
      ∀ q ∈ programJumps r J fuel resumed p, q.toks.length < p.toks.length := by
  induction fuel generalizing p resumed with
  | zero => exact ⟨.nil, List.forall_mem_nil _⟩
  | succ fuel ih =>
    have hpaced := ruleDecl_paces hr { p with ctxDecl := true } htoks
    have hdecl := ruleDecl_nests hr.nest (p := { p with ctxDecl := true }) htoks rfl
    unfold programJumps
    split
    · exact ⟨.nil, List.forall_mem_nil _⟩
    cases hx : ruleDecl r { p with ctxDecl := true } with
    | ok decl q =>
      rw [hx] at hdecl
      obtain ⟨hle, hlt⟩ := hpaced.ok decl q hx
      obtain ⟨hfalling, hall⟩ := @ih q false (hdecl.nests.1.genuine htoks)
      refine ⟨hpaced.falling.append hfalling (fun q' hq' => Nat.le_of_lt (hlt q' hq')) hall, ?_⟩
      exact List.forall_mem_append.mpr
        ⟨hpaced.start, fun q' hq' => Nat.lt_of_lt_of_le (hall q' hq') hle⟩
    | jump target q =>
      rw [hx] at hdecl
      have hlt : q.toks.length < p.toks.length := hdecl.jump target q rfl
      have hbefore := (hpaced.jump target q hx).2
      have hone {l : List Parser} (hl : Falling l)
          (hall : ∀ q' ∈ l, q'.toks.length < q.toks.length) :
          Falling (declJumps r J { p with ctxDecl := true } ++ q :: l) ∧
            ∀ q' ∈ declJumps r J { p with ctxDecl := true } ++ q :: l,
              q'.toks.length < p.toks.length := by
        have hcons : ∀ q' ∈ q :: l, q'.toks.length < q.toks.length + 1 :=
          List.forall_mem_cons.mpr
            ⟨Nat.lt_succ_self _, fun q' hq' => Nat.lt_succ_of_lt (hall q' hq')⟩
        refine ⟨hpaced.falling.append (List.pairwise_cons.mpr ⟨hall, hl⟩) hbefore hcons, ?_⟩
        exact List.forall_mem_append.mpr
          ⟨hpaced.start, fun q' hq' => Nat.lt_of_lt_of_le (hcons q' hq') hlt⟩
      cases target with
      | decl =>
        obtain ⟨hfalling, hall⟩ := @ih q true fun t ht => htoks t (hdecl.nests.1.toks.mem ht)
        exact hone hfalling hall
      | stmt a => exact hone .nil (List.forall_mem_nil _)
    | _ =>
      dsimp only
      rw [List.append_nil]
      exact ⟨hpaced.falling, hpaced.start⟩

end

theorem rules_paced (fuel : Nat) : (rules fuel).Paced (stmtReaches fuel) (rulesJumps fuel) := by
  induction fuel with
  | zero =>
    refine ⟨rules_nest 0, fun _ _ => ?_⟩
    exact Outcome.Paced.ends (o := .fuel) (by simp) (by simp) .nil (List.forall_mem_nil _)
  | succ fuel ih => exact ⟨rules_nest (fuel + 1), ruleStmt_paces ih⟩

/-! ## Every input -/

/-- `parse` returns or exits, or jumps to an activation that has returned, or overflows a table. -/
def Outcome.Stops {α : Type} : Outcome α → Prop
  | .ok _ _ => True
  | .exit _ => True
  | .undefined what => what = returned ∨ what = overflow
  | .jump _ _ => False
  | .panic _ => False
  | .fuel => False

/-- The parser terminates on every input: with more fuel than tokens it never runs out. Each loop
consumes a token in every iteration but the last, and a token is consumed between two jumps. -/
theorem parse_stops {toks : List Token} (htoks : ∀ t ∈ toks, t.kind ≠ .sentinel) {fuel : Nat}
    (hfuel : toks.length < fuel) (garbage : List Nat) :
    (parse fuel garbage toks).Stops ∧
      (∀ (n : Nat) (p : Parser), p.toks <:+ toks → p.toks.length < n → LoopsAdvance (rules n) p) ∧
        Falling (parseJumps fuel garbage toks) := by
  refine ⟨?_, fun n p hp hn => ?_, ?_⟩
  · have hsettles := parse_settles htoks fuel garbage
    unfold parse
    cases hx : ruleProgram (rules fuel) { toks, garbage } with
    | ok root p =>
      dsimp only
      split <;> trivial
    | jump target p => exact .inl rfl
    | exit diags => trivial
    | panic message =>
      rw [hx] at hsettles
      exact hsettles
    | undefined what =>
      rw [hx] at hsettles
      exact .inr hsettles.1
    | fuel =>
      rw [hx] at hsettles
      exact absurd hfuel (Nat.not_lt_of_le hsettles)
  · exact rules_loopsAdvance (fun t ht => htoks t (hp.mem ht)) hn
  · exact (programJumps_falling (rules_paced fuel) (p := { toks, garbage }) htoks).1

theorem parse_stops_else : (parse 15 [] (elseTokens [.lbrace, .rbrace, .rbrace])).Stops ∧
    (∀ (n : Nat) (p : Parser), p.toks <:+ elseTokens [.lbrace, .rbrace, .rbrace] →
      p.toks.length < n → LoopsAdvance (rules n) p) ∧
      Falling (parseJumps 15 [] (elseTokens [.lbrace, .rbrace, .rbrace])) :=
  parse_stops (by decide +kernel) (by decide +kernel) []

end Seron
