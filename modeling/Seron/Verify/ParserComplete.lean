import Seron.Verify.Lookahead

/-! # What the rules accept

A rule returns a tree when it is started at the tokens of the tree and the token behind them does
not continue it. Loops and recursive calls go as deep as there are tokens. -/

namespace Seron

/-! ## Lists -/

/-- The rules that are called recursively accept the shorter trees. -/
structure Rules.Complete (T : Ty → Prop) (r : Rules) : Prop where
  expr {e : AstNode} {ts : List Token} : Reads T false .expression e ts → ts.length < r.fuel →
    Accepts Level.expression.Stops r.expr ts e
  assign {e : AstNode} {ts : List Token} : Reads T false .assign e ts → ts.length < r.fuel →
    Accepts Level.assign.Stops r.assign ts e
  stmt {e : AstNode} {ts us : List Token} : Reads T false .statement e ts →
    us ∈ (if e.isStatement then 1 else tokenOf .semicolon : Language Token) →
    (ts ++ us).length < r.fuel → Accepts Level.statement.Stops r.stmt (ts ++ us) (some e)
  type {ty : Ty} {ts : List Token} : ts ∈ ty.reads false → ts.length < r.fuel →
    Accepts (fun _ => True) r.type ts ty

section
variable {T : Ty → Prop} {r : Rules} (hr : r.Complete T)

include hr

theorem exprListLoop_complete {close : TokenKind} (hclose : close ∈ [TokenKind.rparen, .rbracket])
    {es items : List AstNode} {ts : List Token} {fuel : Nat} (hes : ReadsList T false es ts)
    (hts : ts.length < r.fuel) (hfuel : es.length < fuel) :
    Accepts (· = close) (exprListLoop r close fuel items) ts (items ++ es) := by
  induction es generalizing fuel ts items with
  | nil =>
    obtain ⟨fuel, rfl⟩ := Nat.exists_eq_succ_of_ne_zero (Nat.ne_of_gt hfuel)
    obtain rfl : ts = [] := hes.2
    rw [List.append_nil]
    exact .matched_one (fun _ h => h) .pure
  | cons e es ih =>
    obtain ⟨fuel, rfl⟩ := Nat.exists_eq_succ_of_ne_zero (Nat.ne_of_gt (Nat.zero_lt_of_lt hfuel))
    obtain ⟨htrees, us, hus, _, ⟨sep, hsep, vs, hvs, rfl⟩, rfl⟩ := hes
    obtain ⟨he, hes⟩ := List.forall_mem_cons.mp htrees
    have hstarts : ∀ l ∈ Nodes.reads false es, ∀ ts ∈ l, Starts expressionFirst ts :=
      Nodes.starts hes
    obtain ⟨hfirst, hcomma, hstops⟩ := (by decide : ∀ k ∈ [TokenKind.rparen, .rbracket],
      k ∉ expressionFirst ∧ .comma ∉ k :: expressionFirst ∧
        ∀ k' ∈ [.comma, k], Level.expression.Stops k') close hclose
    simp only [List.length_append, List.length_cons] at hts hfuel
    have ih' := @ih (items ++ [e]) vs fuel ⟨hes, hvs⟩ (by omega) (Nat.lt_of_succ_lt_succ hfuel)
    rw [List.append_assoc, List.singleton_append] at ih'
    refine .unmatched_one (fun rest _ => ?_) (.bind (hr.expr ⟨he, hus⟩ (by omega))
      (fun rest hrest => hstops _ (separator_next hsep hvs hrest))
      (.bind (.parserSkip (hsep.imp id fun h => h.2) (by simp)) (fun rest hrest => ?_) ih'))
    · exact ne_of_mem_of_not_mem (he.starts (by simp) us hus).append.nextKind hfirst
    · exact ne_of_mem_of_not_mem (commas_next hstarts hvs hrest) hcomma

theorem ruleUtilArglist_complete {op t : Token} {es : List AstNode} {ts : List Token}
    (hop : op.kind = .lparen) (hes : ReadsList T false es ts) (ht : t.kind = .rparen)
    (hlen : ts.length < r.fuel) :
    Accepts (fun _ => True) (ruleUtilArglist r) (op :: (ts ++ [t])) es := by
  refine .consume_skip hop (by simp) (.bind (exprListLoop_complete hr (by decide) hes hlen ?_)
    (fun _ _ => ht) (.consume_skip ht (by simp) .pure))
  have hle := commas_length_le (Nodes.starts hes.1) hes.2
  rw [Nodes.length_reads] at hle
  exact Nat.lt_of_le_of_lt hle hlen

/-! ## Types -/

theorem ruleUtilParam_complete {param : Param} {ts : List Token} (h : ts ∈ param.reads false)
    (hlen : ts.length < r.fuel) : Accepts (fun _ => True) (ruleUtilParam r) ts param := by
  obtain ⟨type, ident, offset⟩ := param
  rw [Param.reads, mem_onlyIf_mul] at h
  obtain ⟨rfl, _, ⟨t, ht, rfl, rfl⟩, _, htype, rfl⟩ := h
  obtain ⟨t', us, ht', hus, rfl⟩ := mem_tokenOf_mul htype
  simp only [List.length_append, List.length_cons] at hlen
  exact .consume_bind ht (by simp) (.consume_skip ht' (by simp) ((hr.type hus (by omega)).bind_nil .pure))

theorem ruleUtilParamlist_loop_complete {new params : List Param} {ts : List Token} {fuel : Nat}
    (hnew : ts ∈ commas false (Params.reads false new))
    (hparams : (params ++ new).length < maxParamCount) (hlen : ts.length < r.fuel)
    (hfuel : new.length < fuel) :
    Accepts (· = .rparen) (ruleUtilParamlist.loop r fuel params) ts (params ++ new) := by
  induction new generalizing fuel ts params with
  | nil =>
    obtain ⟨fuel, rfl⟩ := Nat.exists_eq_succ_of_ne_zero (Nat.ne_of_gt hfuel)
    obtain rfl : ts = [] := hnew
    rw [List.append_nil]
    exact .matched_one (fun _ h => h) .pure
  | cons param new ih =>
    obtain ⟨fuel, rfl⟩ := Nat.exists_eq_succ_of_ne_zero (Nat.ne_of_gt (Nat.zero_lt_of_lt hfuel))
    obtain ⟨us, hus, _, ⟨sep, hsep, vs, hvs, rfl⟩, rfl⟩ := hnew
    have hstarts : ∀ l ∈ Params.reads false new, ∀ ts ∈ l, Starts [.literalIdent] ts :=
      Params.starts new
    simp only [List.length_append, List.length_cons] at hlen hfuel hparams
    have ih' := @ih (params ++ [param]) vs fuel hvs (by simp; omega) (by omega)
      (Nat.lt_of_succ_lt_succ hfuel)
    rw [List.append_assoc, List.singleton_append] at ih'
    refine .unmatched_one (fun rest _ => ?_) (.bind (ruleUtilParam_complete hr hus (by omega))
      (fun _ _ => trivial) ?_)
    · have hstart := Params.starts [param] _ List.mem_cons_self us hus
      exact ne_of_mem_of_not_mem hstart.append.nextKind (by decide)
    · dsimp only
      rw [if_neg (by simp; omega)]
      refine .bind (.parserSkip (hsep.imp id fun h => h.2) (by simp)) (fun rest hrest => ?_) ih'
      exact ne_of_mem_of_not_mem (commas_next hstarts hvs hrest) (by decide)

theorem ruleUtilParamlist_complete {params : List Param} {ts : List Token}
    (hts : ts ∈ tokenOf .lparen * (commas false (Params.reads false params) * tokenOf .rparen))
    (hparams : params.length < maxParamCount) (hlen : ts.length ≤ r.fuel) :
    Accepts (fun _ => True) (ruleUtilParamlist r) ts params := by
  obtain ⟨op, _, hop, ⟨us, hus, _, ⟨t, ht, rfl⟩, rfl⟩, rfl⟩ := mem_tokenOf_mul hts
  rw [List.length_cons, List.length_append] at hlen
  refine .consume_skip hop (by simp) (.bind (ruleUtilParamlist_loop_complete hr hus (by simpa using hparams)
    (by omega) ?_) (fun _ _ => ht) (.consume_skip ht (by simp) .pure))
  have hle := commas_length_le (Params.starts params) hus
  rw [Params.length_reads] at hle
  omega

theorem ruleUtilProcType_complete {op : Token} {ident : Option Token} {sig : ProcSignature}
    {ts : List Token} (hop : op.kind = .kwProc) (hident : ∀ t ∈ ident, t.kind = .literalIdent)
    (hts : ts ∈ sig.reads false) (hlen : ts.length ≤ r.fuel) :
    Accepts (fun _ => True) (ruleUtilProcType r ident.isSome) (op :: (ident.toList ++ ts))
      (op, ident, .procedure sig) := by
  obtain ⟨params, returntype⟩ := sig
  have hassoc : tokenOf .lparen * (commas false (Params.reads false params) *
      (tokenOf .rparen * returntype.reads false)) =
    tokenOf .lparen * (commas false (Params.reads false params) * tokenOf .rparen) *
      returntype.reads false := by simp only [mul_assoc]
  rw [ProcSignature.reads, mem_onlyIf_mul, hassoc] at hts
  obtain ⟨hparams, us, hus, vs, hvs, rfl⟩ := hts
  have hpos : Starts [.lparen] us := Starts.mul (Starts.tokenOf (by decide)) us hus
  replace hpos := hpos.length_pos
  dsimp only at hlen ⊢
  rw [List.length_append] at hlen
  have htail : Accepts (fun _ => True) (do
      let params ← ruleUtilParamlist r
      let returntype ← r.type
      pure (op, ident, Ty.procedure { params, returntype })) (us ++ vs)
      (op, ident, Ty.procedure ⟨params, returntype⟩) :=
    .bind (ruleUtilParamlist_complete hr hus hparams (by omega)) (fun _ _ => trivial)
      ((hr.type hvs (by omega)).bind_nil .pure)
  cases ident with
  | none => exact .consume_bind hop (by simp) htail
  | some ident =>
    have hname : Accepts (fun _ => True) (some <$> parserConsume .literalIdent) [ident]
      (some ident) := (Accepts.parserConsume (hident ident rfl) (by simp)).map
    exact .consume_bind hop (by simp) (.bind hname (fun _ _ => trivial) htail)

omit hr in
theorem ruleUtilType_keyword {t : Token}
    (h : t.kind ∈ [TokenKind.kwTypeInt, .kwTypeChar, .kwTypeLong, .kwTypeVoid]) :
    Accepts (fun _ => True) (ruleUtilType r) [t] (typeFromTokenKeyword t.kind) := by
  obtain ⟨hasterisk, hproc, hident, htype, heof⟩ := (by decide :
    ∀ k ∈ [TokenKind.kwTypeInt, .kwTypeChar, .kwTypeLong, .kwTypeVoid],
      k ≠ .asterisk ∧ k ≠ .kwProc ∧ k ≠ .literalIdent ∧
        k ∈ [TokenKind.kwTypeInt, .kwTypeChar, .kwTypeLong, .kwTypeVoid, .asterisk] ∧
        k ≠ .eof) _ h
  exact .token (.unmatched_one (fun _ _ => hasterisk) (.unmatched_one (fun _ _ => hproc)
    (.unmatched_one (fun _ _ => hident) (.matched (fun _ _ => htype)
      (.advance_bind heof .pure)))))

theorem ruleUtilType_complete {ty : Ty} {ts : List Token} (hts : ts ∈ ty.reads false)
    (hlen : ts.length ≤ r.fuel) : Accepts (fun _ => True) (ruleUtilType r) ts ty := by
  cases ty with
  | int | char | long | void =>
    rw [Ty.reads] at hts
    obtain ⟨t, ht, rfl⟩ := hts
    have h := ruleUtilType_keyword (r := r) (t := t) (by rw [ht]; decide)
    rwa [ht] at h
  | pointer pointee =>
    cases pointee with
    | none => rw [Ty.reads] at hts; cases hts
    | some ty =>
      rw [Ty.reads] at hts
      obtain ⟨t, us, ht, hus, rfl⟩ := mem_tokenOf_mul hts
      exact .token (.matched_one (fun _ _ => ht) (.advance_skip (by rw [ht]; decide)
        ((hr.type hus hlen).bind_nil .pure)))
  | procedure sig =>
    rw [Ty.reads] at hts
    obtain ⟨t, us, ht, hus, rfl⟩ := mem_tokenOf_mul hts
    have hproc : t.kind ≠ .asterisk := by rw [ht]; decide
    have hnone : ∀ t ∈ (none : Option Token), t.kind = .literalIdent := by simp
    exact .token (.unmatched_one (fun _ _ => hproc) (.matched_one (fun _ _ => ht)
      ((ruleUtilProcType_complete hr ht hnone hus (Nat.le_of_succ_le hlen)).bind_nil .pure)))
  | object name =>
    rw [Ty.reads] at hts
    obtain ⟨t, ht, rfl, rfl⟩ := hts
    have hasterisk : t.kind ≠ .asterisk := by rw [ht]; decide
    have hproc : t.kind ≠ .kwProc := by rw [ht]; decide
    exact .token (.unmatched_one (fun _ _ => hasterisk) (.unmatched_one (fun _ _ => hproc)
      (.matched_one (fun _ _ => ht) (.advance_skip (by rw [ht]; decide) .pure))))
  | invalid | table => rw [Ty.reads] at hts; cases hts

/-! ## Expressions -/

theorem ruleGrouping_complete {e : AstNode} {op t : Token} {ts : List Token}
    (hop : op.kind = .lparen) (he : Reads T false .expression e ts) (ht : t.kind = .rparen)
    (hlen : ts.length < r.fuel) :
    Accepts (fun _ => True) (ruleGrouping r) (op :: (ts ++ [t])) (.grouping e) := by
  refine .consume_skip hop (by simp) (.unmatched_one (fun rest _ => ?_) (.bind (hr.expr he hlen)
    (fun _ _ => .of_eq ht (by decide)) (.consume_skip ht (by simp) .pure)))
  exact ne_of_mem_of_not_mem (he.1.starts (by simp) ts he.2).append.nextKind (by decide)

theorem ruleExprPrimary_complete {e : AstNode} {ts : List Token}
    (he : Reads T false .primary e ts) (hlen : ts.length ≤ r.fuel) :
    Accepts Level.primary.Stops (ruleExprPrimary r) ts e := by
  obtain ⟨he, hts⟩ := he
  cases he with
  | @literal op kind h =>
    rw [AstNode.reads] at hts
    obtain rfl : ts = [op] := hts
    have hfirst := literalFromToken_first h
    exact .token (.matched (fun _ _ => hfirst) (.orPanic_bind h (.advance_skip
      (ne_of_mem_of_not_mem hfirst (by decide)) .pure)))
  | @grouping e he =>
    rw [AstNode.reads] at hts
    obtain ⟨op, _, hop, ⟨us, hus, _, ⟨t, ht, rfl⟩, rfl⟩, rfl⟩ := mem_tokenOf_mul hts
    simp only [List.length_cons, List.length_append] at hlen
    have hliteral : op.kind ∉ [TokenKind.literalNumber, .literalIdent, .literalString] := by
      rw [hop]; decide
    exact .token (.unmatched (fun _ _ => hliteral) (.matched_one (fun _ _ => hop)
      ((ruleGrouping_complete hr hop ⟨he, hus⟩ ht (by omega)).imp fun _ _ => trivial)))

theorem ruleExprCall_complete {e : AstNode} {ts : List Token}
    (he : Reads T false .call e ts) (hlen : ts.length ≤ r.fuel) :
    Accepts Level.call.Stops (ruleExprCall r) ts e := by
  obtain ⟨he, hts⟩ := he
  cases he with
  | ofPrimary he =>
    exact .bind_nil ((ruleExprPrimary_complete hr ⟨he, hts⟩ hlen).imp
      fun _ h => h.mono (List.nil_subset _)) (.unmatched_one (fun _ h => h.ne (by decide)) .pure)
  | @call op callee args hop he hargs =>
    rw [AstNode.reads] at hts
    obtain ⟨us, hus, _, htail, rfl⟩ := hts
    obtain ⟨_, ⟨vs, hvs, _, ⟨t, ht, rfl⟩, rfl⟩, rfl⟩ := mem_singleton_mul htail
    simp only [List.length_cons, List.length_append] at hlen
    refine .bind (ruleExprPrimary_complete hr ⟨he, hus⟩ (by omega)) (fun _ _ => List.not_mem_nil)
      (.matched_one (fun _ _ => hop) (.token ?_))
    exact ((ruleUtilArglist_complete hr hop ⟨hargs, hvs⟩ ht (by omega)).imp
      fun _ _ => trivial).bind_nil .pure

theorem ruleExprIndex_complete {e : AstNode} {ts : List Token}
    (he : Reads T false .index e ts) (hlen : ts.length ≤ r.fuel) :
    Accepts Level.index.Stops (ruleExprIndex r) ts e := by
  obtain ⟨he, hts⟩ := he
  cases he with
  | ofCall he =>
    exact .bind_nil ((ruleExprCall_complete hr ⟨he, hts⟩ hlen).imp
      fun _ h => h.mono (by decide)) (.unmatched_one (fun _ h => h.ne (by decide)) .pure)
  | @index op e i hop he hi =>
    rw [AstNode.reads] at hts
    obtain ⟨us, hus, _, htail, rfl⟩ := hts
    obtain ⟨_, ⟨vs, hvs, _, ⟨t, ht, rfl⟩, rfl⟩, rfl⟩ := mem_singleton_mul htail
    simp only [List.length_cons, List.length_append] at hlen
    exact .bind (ruleExprCall_complete hr ⟨he, hus⟩ (by omega)) (fun _ _ => .of_eq hop (by decide))
      (.matched_one (fun _ _ => hop) (.consume_bind hop (by simp) (.bind (hr.expr ⟨hi, hvs⟩ (by omega))
        (fun _ _ => .of_eq ht (by decide)) (.consume_skip ht (by simp) .pure))))

theorem ruleExprUnary_complete {e : AstNode} {ts : List Token}
    (he : Reads T false (.binary 0) e ts) (hlen : ts.length ≤ r.fuel) :
    Accepts (Level.binary 0).Stops (ruleExprUnary r) ts e := by
  obtain ⟨he, hts⟩ := he
  cases he with
  | ofIndex he =>
    refine .unmatched (fun rest _ => ?_) ((ruleExprIndex_complete hr ⟨he, hts⟩ hlen).imp
      fun _ h => h.mono (by decide))
    exact fun h => absurd (he.starts (by simp) ts hts).nextKind ((by decide : ∀ k ∈ [TokenKind.minus, .bang, .ampersand,
      .asterisk], k ∉ Level.index.first) _ h)
  | @unaryop op kind e hkind he =>
    rw [AstNode.reads] at hts
    obtain ⟨us, hus, rfl⟩ := mem_singleton_mul hts
    have hfirst := unaryopFromToken_first hkind
    exact .matched (fun _ _ => hfirst) (.advance_bind (ne_of_mem_of_not_mem hfirst (by decide))
      (.orPanic_bind hkind (((ruleExprIndex_complete hr ⟨he, hus⟩ (Nat.le_of_succ_le hlen)).imp
        fun _ h => h.mono (by decide)).bind_nil .pure)))

omit hr in
/-- An operator of a level does not continue the tighter ones. -/
theorem binaryOps_stops {n : Nat} {k : TokenKind} (h : k ∈ binaryOps n) :
    (Level.binary n).Stops k ∧ k ≠ .eof ∧ k ≠ .sentinel := by
  match n with
  | 0 | 1 | 2 | 3 | 4 | 5 | 6 | 7 => revert k; decide
  | n + 8 => cases h

omit hr in
/-- The loop of a binary level goes on behind a tree of the level. -/
theorem templBinop_complete {n : Nat} {e : AstNode} {ts : List Token}
    (hrule : ∀ {e : AstNode} {ts : List Token}, Reads T false (.binary n) e ts →
      ts.length ≤ r.fuel → Accepts (Level.binary n).Stops (ruleExprBinary r n) ts e)
    (he : Reads T false (.binary (n + 1)) e ts) (hlen : ts.length ≤ r.fuel) :
    ∃ count, count < ts.length ∧ ∀ fuel us e' F, Accepts F
      (templBinop.loop (ruleExprBinary r n) (binaryOps n) fuel e) us e' →
      (∀ rest, F (nextKind rest) → (Level.binary n).Stops (nextKind (us ++ rest))) →
      Accepts F (templBinop (fuel + count) (ruleExprBinary r n) (binaryOps n)) (ts ++ us) e' := by
  obtain ⟨he, hts⟩ := he
  generalize hl : Level.binary (n + 1) = l at he
  induction he generalizing ts with
  | tighter he =>
    obtain rfl := Nat.succ.inj (Level.binary.inj hl)
    refine ⟨0, (he.starts (by simp) ts hts).length_pos, fun fuel us e' F hloop hnext => ?_⟩
    exact .bind (hrule ⟨he, hts⟩ hlen) hnext hloop
  | @binop m op kind lhs rhs hop hkind hlhs hrhs ih =>
    obtain rfl := Nat.succ.inj (Level.binary.inj hl)
    rw [AstNode.reads] at hts
    obtain ⟨us, hus, _, htail, rfl⟩ := hts
    obtain ⟨vs, hvs, rfl⟩ := mem_singleton_mul htail
    simp only [List.length_cons, List.length_append] at hlen ⊢
    obtain ⟨count, hcount, hlhs'⟩ := ih (by omega) hus rfl
    refine ⟨count + 1, by omega, fun fuel ws e' F hloop hnext => ?_⟩
    have h := hlhs' (fuel + 1) (op :: (vs ++ ws)) e' F (.matched (fun _ _ => hop)
      (.advance_bind (binaryOps_stops hop).2.1 (.bind (hrule ⟨hrhs, hvs⟩ (by omega)) hnext
        (.orPanic_bind hkind hloop)))) fun _ _ => (binaryOps_stops hop).1
    rw [Nat.add_assoc, Nat.add_comm 1] at h
    simpa using h
  | _ => cases hl

theorem ruleExprBinary_complete {n : Nat} {e : AstNode} {ts : List Token}
    (he : Reads T false (.binary n) e ts) (hlen : ts.length ≤ r.fuel) :
    Accepts (Level.binary n).Stops (ruleExprBinary r n) ts e := by
  induction n generalizing e ts with
  | zero => exact ruleExprUnary_complete hr he hlen
  | succ n ih =>
    obtain ⟨count, hcount, h⟩ := templBinop_complete ih he hlen
    obtain ⟨fuel, hfuel⟩ := Nat.exists_eq_add_of_lt (Nat.lt_of_lt_of_le hcount hlen)
    have hstop : ∀ k, (Level.binary (n + 1)).Stops k → k ∉ binaryOps n := fun k hk hmem =>
      hk (List.mem_append_right _ (List.mem_append_right _ hmem))
    have hsub : (Level.binary n).continued ⊆ (Level.binary (n + 1)).continued := by
      intro k hk
      simp only [Level.continued, operatorsBelow, ← List.append_assoc]
      exact List.mem_append_left _ hk
    have h' := h (fuel + 1) [] e (Level.binary (n + 1)).Stops
      (.unmatched (fun _ hk => hstop _ hk) .pure) fun _ hk => hk.mono hsub
    rw [List.append_nil] at h'
    have heq : fuel + 1 + count = r.fuel := by omega
    rwa [heq] at h'

theorem ruleExprAssign_complete {e : AstNode} {ts : List Token}
    (he : Reads T false .assign e ts) (hlen : ts.length ≤ r.fuel) :
    Accepts Level.assign.Stops (ruleExprAssign r) ts e := by
  obtain ⟨he, hts⟩ := he
  cases he with
  | ofBinary he =>
    exact .bind_nil ((ruleExprBinary_complete hr ⟨he, hts⟩ hlen).imp
      fun _ h => h.mono (by decide)) (.unmatched_one (fun _ h => h.ne (by decide)) .pure)
  | @assign op value target hop hvalue htarget =>
    rw [AstNode.reads] at hts
    obtain ⟨us, hus, _, htail, rfl⟩ := hts
    obtain ⟨vs, hvs, rfl⟩ := mem_singleton_mul htail
    simp only [List.length_cons, List.length_append] at hlen
    exact .bind (ruleExprBinary_complete hr ⟨htarget, hus⟩ (by omega)) (fun _ _ => .of_eq hop (by decide))
      (.matched_one (fun _ _ => hop) (.advance_bind (by rw [hop]; decide)
        ((hr.assign ⟨hvalue, hvs⟩ (by omega)).bind_nil .pure)))

theorem ruleExprArray_complete {op : Token} {values : List AstNode} {type : Ty} {ts : List Token}
    (hop : op.kind = .lbracket) (hvalues : ∀ e ∈ values, Tree T .expression e)
    (hts : ts ∈ (AstNode.array op values type 0).reads false) (hlen : ts.length ≤ r.fuel) :
    Accepts (fun _ => True) (ruleExprArray r) ts (.array op values type 0) := by
  rw [AstNode.reads] at hts
  obtain ⟨_, ⟨us, hus, _, htail, rfl⟩, rfl⟩ := mem_singleton_mul hts
  obtain ⟨t, vs, ht, hvs, rfl⟩ := mem_tokenOf_mul htail
  simp only [List.length_cons, List.length_append] at hlen
  have hle := commas_length_le (Nodes.starts hvalues) hus
  rw [Nodes.length_reads] at hle
  exact .consume_bind hop (by simp) (.bind (exprListLoop_complete hr (by decide) ⟨hvalues, hus⟩ (by omega)
    (by omega)) (fun _ _ => ht) (.consume_skip ht (by simp) ((hr.type hvs (by omega)).bind_nil .pure)))

theorem ruleExpr_complete {e : AstNode} {ts : List Token}
    (he : Reads T false .expression e ts) (hlen : ts.length ≤ r.fuel) :
    Accepts Level.expression.Stops (ruleExpr r) ts e := by
  obtain ⟨he, hts⟩ := he
  cases he with
  | ofAssign he =>
    refine .unmatched_one (fun rest _ => ?_) (ruleExprAssign_complete hr ⟨he, hts⟩ hlen)
    exact ne_of_mem_of_not_mem (he.starts (by simp) ts hts).nextKind (by decide)
  | array hop hvalues htype =>
    refine .matched_one (fun rest _ => ?_) ((ruleExprArray_complete hr hop hvalues hts hlen).imp
      fun _ _ => trivial)
    rw [AstNode.reads] at hts
    obtain ⟨us, -, rfl⟩ := mem_singleton_mul hts
    exact hop

/-! ## Statements -/

omit hr in
theorem ruleStmtBlock_loop_close {brace : Token} {me fuel : Nat} {stmts : List AstNode} :
    Accepts (· = .rbrace) (ruleStmtBlock.loop r brace me (fuel + 1) stmts) [] stmts := by
  intro p rest htoks _ hrest
  have hmatch : parserMatchTokensVa { p with ctxStmt := some me } [.rbrace] = true :=
    parserMatchTokensVa_eq_true.mpr (.inl (List.mem_singleton.mpr (by
      rw [parserPeek, htoks]; exact hrest)))
  refine ⟨{ p with ctxStmt := some me }, ?_, htoks, rfl, rfl⟩
  simp only [ruleStmtBlock.loop, hmatch, if_true]

omit hr in
theorem ruleStmtBlock_loop_step {brace : Token} {me fuel : Nat} {stmts stmts' : List AstNode}
    {stmt : Option AstNode} {ts us : List Token} {F G : TokenKind → Prop}
    (hstart : Starts Level.statement.first ts) (hstmt : Accepts F r.stmt ts stmt)
    (hnext : ∀ rest, G (nextKind rest) → F (nextKind (us ++ rest)))
    (hloop : Accepts G (ruleStmtBlock.loop r brace me fuel (stmts ++ stmt.toList)) us stmts') :
    Accepts G (ruleStmtBlock.loop r brace me (fuel + 1) stmts) (ts ++ us) stmts' := by
  have hiter : Accepts G (do
      fun p => .ok () { p with ctxStmt := some me }
      let stmt ← r.stmt
      ruleStmtBlock.loop r brace me fuel (stmts ++ stmt.toList)) (ts ++ us) stmts' :=
    .effect (fun _ => ⟨rfl, rfl, rfl⟩) fun _ => .bind hstmt hnext hloop
  intro p rest htoks hs hG
  obtain ⟨q, hq, h⟩ := hiter p rest htoks hs hG
  have hmatch {kind : TokenKind} (hkind : kind ∉ Level.statement.first) :
      parserMatchTokensVa { p with ctxStmt := some me } [kind] = false := by
    obtain ⟨t, ts', rfl, ht⟩ := hstart
    have hpeek : parserPeek { p with ctxStmt := some me } = t := by rw [parserPeek, htoks]; rfl
    have hsentinel : t.kind ≠ .sentinel := hs t (by rw [htoks]; exact List.mem_cons_self)
    rw [Bool.eq_false_iff, ne_eq, parserMatchTokensVa_eq_true, hpeek, List.mem_singleton]
    exact not_or.mpr ⟨ne_of_mem_of_not_mem ht hkind, hsentinel⟩
  obtain ⟨_, _, heffect, hq⟩ := P.bind_ok.mp hq
  cases heffect
  obtain ⟨stmt', p', hstmt', hq⟩ := P.bind_ok.mp hq
  have hrbrace : TokenKind.rbrace ∉ Level.statement.first := by decide
  have heof : TokenKind.eof ∉ Level.statement.first := by decide
  refine ⟨q, ?_, h⟩
  simp only [ruleStmtBlock.loop, hmatch hrbrace, hmatch heof, hstmt', hq]
  rfl

omit hr in
/-- Behind a statement another one begins, or the block ends. -/
theorem stmts_next {stmts : List AstNode} {ts rest : List Token}
    (hstmts : ∀ s ∈ stmts, Tree T .statement s) (hts : ts ∈ Stmts.reads false stmts)
    (hrest : nextKind rest = .rbrace) : Level.statement.Stops (nextKind (ts ++ rest)) := by
  cases stmts with
  | nil =>
    obtain rfl : ts = [] := hts
    exact .of_eq hrest (by decide)
  | cons stmt stmts =>
    have hstart := Starts.mul ((hstmts stmt List.mem_cons_self).starts (by simp)) ts hts
    exact (by decide : ∀ k ∈ Level.statement.first, Level.statement.Stops k) _ hstart.nextKind

theorem ruleStmtBlock_loop_complete {brace : Token} {me fuel : Nat} {stmts new : List AstNode}
    {ts : List Token} (hnew : ∀ s ∈ new, Tree T .statement s) (hts : ts ∈ Stmts.reads false new)
    (hlen : ts.length < r.fuel) (hfuel : ts.length < fuel) :
    Accepts (· = .rbrace) (ruleStmtBlock.loop r brace me fuel stmts) ts (stmts ++ new) := by
  induction new generalizing fuel ts stmts with
  | nil =>
    obtain ⟨fuel, rfl⟩ := Nat.exists_eq_succ_of_ne_zero (Nat.ne_of_gt (Nat.zero_lt_of_lt hfuel))
    obtain rfl : ts = [] := hts
    rw [List.append_nil]
    exact ruleStmtBlock_loop_close
  | cons stmt new ih =>
    obtain ⟨fuel, rfl⟩ := Nat.exists_eq_succ_of_ne_zero (Nat.ne_of_gt (Nat.zero_lt_of_lt hfuel))
    obtain ⟨us, hus, _, ⟨vs, hvs, ws, hws, rfl⟩, rfl⟩ := hts
    obtain ⟨hstmt, hnew⟩ := List.forall_mem_cons.mp hnew
    have hstart := hstmt.starts (by simp) us hus
    have hpos := hstart.length_pos
    simp only [List.length_append] at hlen hfuel
    have ih' : Accepts (· = .rbrace) (ruleStmtBlock.loop r brace me fuel (stmts ++ [stmt])) ws
        (stmts ++ [stmt] ++ new) := ih hnew hws (by omega) (by omega)
    rw [List.append_assoc, List.singleton_append] at ih'
    have hlen' : (us ++ vs).length < r.fuel := by rw [List.length_append]; omega
    have hloop := ruleStmtBlock_loop_step hstart.append (hr.stmt ⟨hstmt, hus⟩ hvs hlen')
      (fun rest hrest => stmts_next hnew hws hrest) ih'
    rwa [List.append_assoc] at hloop

theorem ruleStmtBlock_complete {b : AstNode} {ts : List Token} (hb : Reads T false .block b ts)
    (hlen : ts.length ≤ r.fuel) : Accepts (fun _ => True) (ruleStmtBlock r) ts b := by
  obtain ⟨hb, hts⟩ := hb
  cases hb with
  | block hstmts =>
    rw [AstNode.reads] at hts
    obtain ⟨op, _, hop, ⟨us, hus, _, ⟨t, ht, rfl⟩, rfl⟩, rfl⟩ := mem_tokenOf_mul hts
    simp only [List.length_cons, List.length_append] at hlen
    refine .consume_bind hop (by simp) (.effect (fun _ => ⟨rfl, rfl, rfl⟩) fun me => ?_)
    exact .bind (ruleStmtBlock_loop_complete hr hstmts hus (by omega) (by omega)) (fun _ _ => ht)
      (.advance_skip (by rw [ht]; decide) .pure)

/-- An expression, or a semicolon in its place. -/
theorem unlessSemicolon_complete {value : Option AstNode} {ts : List Token}
    (hvalue : ∀ e ∈ value, Tree T .expression e) (hts : ts ∈ OptNode.reads false 1 1 value)
    (hlen : ts.length < r.fuel) :
    Accepts (· = .semicolon) (unlessToken .semicolon r.expr) ts value := by
  cases value with
  | none =>
    obtain rfl : ts = [] := hts
    exact .matched_one (fun _ h => h) .pure
  | some e =>
    obtain ⟨_, rfl, us, hus, rfl⟩ := hts
    have he := hvalue e rfl
    refine .unmatched_one (fun rest _ => ?_) ((hr.expr ⟨he, hus⟩ hlen).imp
      fun _ h => .of_eq h (by decide)).map
    exact ne_of_mem_of_not_mem (he.starts (by simp) us hus).nextKind (by decide)

theorem ruleExprstmt_complete {e : AstNode} {t : Token} {ts : List Token}
    (he : Reads T false .expression e ts) (ht : t.kind = .semicolon) (hlen : ts.length < r.fuel) :
    Accepts (fun _ => True) (ruleExprstmt r) (ts ++ [t]) (some e) := by
  have hvalue : ∀ e' ∈ some e, Tree T .expression e' := by
    rintro _ ⟨⟩
    exact he.1
  have hts : ts ∈ OptNode.reads false 1 1 (some e) :=
    Language.append_mem_mul Language.nil_mem_one he.2
  exact .bind (unlessSemicolon_complete hr hvalue hts hlen) (fun _ _ => ht)
    (.consume_skip ht (by simp) .pure)

theorem ruleStmtReturn_complete {op : Token} {value : Option AstNode} {ts : List Token}
    (hop : op.kind = .kwReturn) (hvalue : ∀ e ∈ value, Tree T .expression e)
    (hts : ts ∈ (AstNode.return_ op value).reads false) (hlen : ts.length ≤ r.fuel) :
    Accepts (fun _ => True) (ruleStmtReturn r) ts (.return_ op value) := by
  rw [AstNode.reads] at hts
  obtain ⟨_, ⟨us, hus, _, ⟨t, ht, rfl⟩, rfl⟩, rfl⟩ := mem_singleton_mul hts
  simp only [List.length_cons, List.length_append] at hlen
  exact .consume_bind hop (by simp) (.bind (unlessSemicolon_complete hr hvalue hus (by omega))
    (fun _ _ => ht) (.consume_skip ht (by simp) .pure))

/-- The initialiser of a variable, or a semicolon in its place. -/
theorem initialiser_complete {init : Option AstNode} {ts : List Token}
    (hinit : ∀ e ∈ init, Tree T .expression e)
    (hts : ts ∈ OptNode.reads false 1 (tokenOf .assign) init) (hlen : ts.length < r.fuel) :
    Accepts (· = .semicolon) (unlessToken .semicolon do
      discard (parserConsume .assign)
      r.expr) ts init := by
  cases init with
  | none =>
    obtain rfl : ts = [] := hts
    exact .matched_one (fun _ h => h) .pure
  | some e =>
    obtain ⟨t, us, ht, hus, rfl⟩ := mem_tokenOf_mul hts
    rw [List.length_cons] at hlen
    have hexpr := hr.expr ⟨hinit e rfl, hus⟩ (by omega)
    exact .unmatched_first ht (by simp) (.map (.consume_skip ht (by simp)
      (hexpr.imp fun _ h => .of_eq h (by decide))))

theorem ruleStmtVardecl_complete {op ident : Token} {init : Option AstNode} {type : Ty}
    {ts : List Token} (hop : op.kind = .kwVardecl) (hident : ident.kind = .literalIdent)
    (hinit : ∀ e ∈ init, Tree T .expression e)
    (hts : ts ∈ (AstNode.vardecl op ident init type 0).reads false) (hlen : ts.length ≤ r.fuel) :
    Accepts (fun _ => True) (ruleStmtVardecl r) ts (.vardecl op ident init type 0) := by
  rw [AstNode.reads] at hts
  obtain ⟨_, htail, rfl⟩ := mem_singleton_mul hts
  obtain ⟨_, htail', rfl⟩ := mem_singleton_mul htail
  obtain ⟨colon, _, hcolon, ⟨us, hus, _, ⟨vs, hvs, _, ⟨t, ht, rfl⟩, rfl⟩, rfl⟩, rfl⟩ :=
    mem_tokenOf_mul htail'
  simp only [List.length_cons, List.length_append] at hlen
  exact .consume_bind hop (by simp) (.consume_bind hident (by simp) (.consume_skip hcolon (by simp)
    (.bind (hr.type hus (by omega)) (fun _ _ => trivial)
      (.bind (initialiser_complete hr hinit hvs (by omega)) (fun _ _ => ht)
        (.consume_skip ht (by simp) .pure)))))

theorem ruleStmtWhile_complete {op : Token} {cond body : AstNode} {ts : List Token}
    (hop : op.kind = .kwWhile) (hcond : Tree T .expression cond) (hbody : Tree T .block body)
    (hts : ts ∈ (AstNode.while_ op cond body).reads false) (hlen : ts.length ≤ r.fuel) :
    Accepts (fun _ => True) (ruleStmtWhile r) ts (.while_ op cond body) := by
  rw [AstNode.reads] at hts
  obtain ⟨_, ⟨us, hus, vs, hvs, rfl⟩, rfl⟩ := mem_singleton_mul hts
  simp only [List.length_cons, List.length_append] at hlen
  exact .consume_bind hop (by simp) (.bind (hr.expr ⟨hcond, hus⟩ (by omega))
    (fun _ _ => (hbody.starts (by simp) vs hvs).block_stops)
    ((ruleStmtBlock_complete hr ⟨hbody, hvs⟩ (by omega)).bind_nil .pure))

theorem ruleStmtElse_complete {elseBody : Option AstNode} {ts : List Token}
    (helse : ∀ b ∈ elseBody, Tree T .block b)
    (hts : ts ∈ OptNode.reads false 1 (tokenOf .kwElse) elseBody) (hlen : ts.length ≤ r.fuel) :
    Accepts Level.statement.Stops (ruleStmtElse r) ts elseBody := by
  cases elseBody with
  | none =>
    obtain rfl : ts = [] := hts
    exact .unmatched_one (fun _ h => h.ne (by decide)) .pure
  | some b =>
    obtain ⟨t, us, ht, hus, rfl⟩ := mem_tokenOf_mul hts
    exact .matched_first ht (.advance_skip (by rw [ht]; decide) (.map
      ((ruleStmtBlock_complete hr ⟨helse b rfl, hus⟩ (Nat.le_of_succ_le hlen)).imp
        fun _ _ => trivial)))

theorem ruleStmtIf_complete {op : Token} {cond thenBody : AstNode} {elseBody : Option AstNode}
    {ts : List Token} (hop : op.kind = .kwIf) (hcond : Tree T .expression cond)
    (hthen : Tree T .block thenBody) (helse : ∀ b ∈ elseBody, Tree T .block b)
    (hts : ts ∈ (AstNode.if_ op cond thenBody elseBody).reads false) (hlen : ts.length ≤ r.fuel) :
    Accepts Level.statement.Stops (ruleStmtIf r) ts (.if_ op cond thenBody elseBody) := by
  rw [AstNode.reads] at hts
  obtain ⟨_, ⟨us, hus, _, ⟨vs, hvs, ws, hws, rfl⟩, rfl⟩, rfl⟩ := mem_singleton_mul hts
  simp only [List.length_cons, List.length_append] at hlen
  exact .consume_bind hop (by simp) (.bind (hr.expr ⟨hcond, hus⟩ (by omega))
    (fun _ _ => (hthen.starts (by simp) vs hvs).append.block_stops) (.bind (ruleStmtBlock_complete hr ⟨hthen, hvs⟩ (by omega))
      (fun _ _ => trivial) ((ruleStmtElse_complete hr helse hws (by omega)).bind_nil .pure)))

theorem ruleStmtFor_complete {op ident : Token} {cond step body init : AstNode} {type : Ty}
    {ts : List Token} (hop : op.kind = .kwFor) (hident : ident.kind = .literalIdent)
    (hinit : Tree T .expression init) (hcond : Tree T .expression cond)
    (hstep : Tree T .expression step) (hbody : Tree T .block body)
    (hts : ts ∈ (AstNode.for_ op none cond step body type ident init).reads false)
    (hlen : ts.length ≤ r.fuel) :
    Accepts (fun _ => True) (ruleStmtFor r) ts
      (.for_ op none cond step body type ident init) := by
  rw [AstNode.reads] at hts
  obtain ⟨_, hts₁, rfl⟩ := mem_singleton_mul hts
  obtain ⟨_, hts₂, rfl⟩ := mem_singleton_mul hts₁
  obtain ⟨colon, _, hcolon, ⟨us, hus, _, hts₃, rfl⟩, rfl⟩ := mem_tokenOf_mul hts₂
  obtain ⟨assign, _, hassign, ⟨vs, hvs, _, hts₄, rfl⟩, rfl⟩ := mem_tokenOf_mul hts₃
  obtain ⟨comma, _, hcomma, ⟨ws, hws, _, hts₅, rfl⟩, rfl⟩ := mem_tokenOf_mul hts₄
  obtain ⟨comma', _, hcomma', ⟨xs, hxs, ys, hys, rfl⟩, rfl⟩ := mem_tokenOf_mul hts₅
  simp only [List.length_cons, List.length_append] at hlen
  refine .consume_bind hop (by simp) (.consume_bind hident (by simp) (.consume_skip hcolon (by simp)
    (.bind (hr.type hus (by omega)) (fun _ _ => trivial) (.consume_skip hassign (by simp) ?_))))
  refine .bind (hr.expr ⟨hinit, hvs⟩ (by omega)) (fun _ _ => .of_eq hcomma (by decide))
    (.consume_skip hcomma (by simp) (.bind (hr.expr ⟨hcond, hws⟩ (by omega))
      (fun _ _ => .of_eq hcomma' (by decide)) (.consume_skip hcomma' (by simp) ?_)))
  exact .bind (hr.expr ⟨hstep, hxs⟩ (by omega))
    (fun _ _ => (hbody.starts (by simp) ys hys).block_stops)
    ((ruleStmtBlock_complete hr ⟨hbody, hys⟩ (by omega)).bind_nil .pure)

/-- The tokens of a statement, with the semicolon that makes an expression one. -/
theorem ruleStmt_complete {e : AstNode} {ts us : List Token} (he : Reads T false .statement e ts)
    (hus : us ∈ (if e.isStatement then 1 else tokenOf .semicolon : Language Token))
    (hlen : (ts ++ us).length ≤ r.fuel) :
    Accepts Level.statement.Stops (ruleStmt r) (ts ++ us) (some e) := by
  obtain ⟨he, hts⟩ := he
  have alone (h : e.isStatement = true) : ts ++ us = ts := by
    rw [if_pos h] at hus
    obtain rfl : us = [] := hus
    exact List.append_nil ts
  have anywhere {x : P (Option AstNode)} {e : Option AstNode} {ts : List Token}
      (h : Accepts (fun _ => True) x ts e) : Accepts Level.statement.Stops x ts e :=
    h.imp fun _ _ => trivial
  refine .effect (fun _ => ⟨rfl, rfl, rfl⟩) fun _ => ?_
  cases he with
  | exprstmt he =>
    have hstmt : ¬ e.isStatement = true := fun h => by
      rcases he.isStatement h with h | h | h <;> cases h
    rw [if_neg hstmt] at hus
    obtain ⟨t, ht, rfl⟩ := hus
    rw [List.length_append, List.length_singleton] at hlen
    have hstart := he.starts (by simp) ts hts
    have first {kind : TokenKind} (h : kind ∉ expressionFirst) (rest : List Token)
        (_ : Level.statement.Stops (nextKind rest)) : nextKind (ts ++ [t] ++ rest) ≠ kind :=
      ne_of_mem_of_not_mem hstart.append.nextKind h
    exact .unmatched_one (first (by decide)) (.unmatched_one (first (by decide))
      (.unmatched_one (first (by decide)) (.unmatched_one (first (by decide))
        (.unmatched_one (first (by decide)) (.unmatched_one (first (by decide))
          (anywhere (ruleExprstmt_complete hr ⟨he, hts⟩ ht (by omega))))))))
  | blockstmt he =>
    have hstmt : e.isStatement = true := by cases he; rfl
    rw [alone hstmt] at hlen ⊢
    have hstart := he.starts (by simp) ts hts
    exact .matched_one (fun _ _ => List.mem_singleton.mp hstart.nextKind)
      (anywhere (ruleStmtBlock_complete hr ⟨he, hts⟩ hlen).map)
  | vardecl hop hident htype hinit =>
    rw [alone rfl] at hlen ⊢
    have h := ruleStmtVardecl_complete hr hop hident hinit hts hlen
    rw [AstNode.reads] at hts
    obtain ⟨_, -, rfl⟩ := mem_singleton_mul hts
    exact .unmatched_first hop (by simp) (.matched_first hop (anywhere h.map))
  | if_ hop hcond hthen helse =>
    rw [alone rfl] at hlen ⊢
    have h := ruleStmtIf_complete hr hop hcond hthen helse hts hlen
    rw [AstNode.reads] at hts
    obtain ⟨_, -, rfl⟩ := mem_singleton_mul hts
    exact .unmatched_first hop (by simp) (.unmatched_first hop (by simp) (.matched_first hop h.map))
  | while_ hop hcond hbody =>
    rw [alone rfl] at hlen ⊢
    have h := ruleStmtWhile_complete hr hop hcond hbody hts hlen
    rw [AstNode.reads] at hts
    obtain ⟨_, -, rfl⟩ := mem_singleton_mul hts
    exact .unmatched_first hop (by simp) (.unmatched_first hop (by simp) (.unmatched_first hop (by simp)
      (.matched_first hop (anywhere h.map))))
  | for_ hop hident htype hinit hcond hstep hbody =>
    rw [alone rfl] at hlen ⊢
    have h := ruleStmtFor_complete hr hop hident hinit hcond hstep hbody hts hlen
    rw [AstNode.reads] at hts
    obtain ⟨_, -, rfl⟩ := mem_singleton_mul hts
    exact .unmatched_first hop (by simp) (.unmatched_first hop (by simp) (.unmatched_first hop (by simp)
      (.unmatched_first hop (by simp) (.matched_first hop (anywhere h.map)))))
  | return_ hop hvalue =>
    rw [alone rfl] at hlen ⊢
    have h := ruleStmtReturn_complete hr hop hvalue hts hlen
    rw [AstNode.reads] at hts
    obtain ⟨_, -, rfl⟩ := mem_singleton_mul hts
    exact .unmatched_first hop (by simp) (.unmatched_first hop (by simp) (.unmatched_first hop (by simp)
      (.unmatched_first hop (by simp) (.unmatched_first hop (by simp)
        (.matched_first hop (anywhere h.map))))))

/-! ## Declarations -/

theorem ruleProcBody_complete {body : Option AstNode} {ts : List Token}
    (hbody : ∀ b ∈ body, Tree T .block b)
    (hts : ts ∈ OptNode.reads false (tokenOf .semicolon) 1 body) (hlen : ts.length ≤ r.fuel) :
    Accepts (fun _ => True) (ruleProcBody r) ts body := by
  cases body with
  | none =>
    obtain ⟨t, ht, rfl⟩ := hts
    exact .matched_first ht (.advance_skip (by rw [ht]; decide) .pure)
  | some b =>
    obtain ⟨_, rfl, us, hus, rfl⟩ := hts
    have hb := hbody b rfl
    refine .unmatched_one (fun rest _ => ?_) (ruleStmtBlock_complete hr ⟨hb, hus⟩ hlen).map
    exact ne_of_mem_of_not_mem (hb.starts (by simp) us hus).nextKind (by decide)

theorem ruleDecl_complete {d : AstNode} {ts : List Token} (hd : Reads T false .declaration d ts)
    (hlen : ts.length ≤ r.fuel) : Accepts (fun _ => True) (ruleDecl r) ts d := by
  obtain ⟨hd, hts⟩ := hd
  cases hd with
  | @proc op ident body sig hop hident htype hbody =>
    rw [AstNode.reads] at hts
    obtain ⟨_, hts₁, rfl⟩ := mem_singleton_mul hts
    obtain ⟨_, ⟨us, hus, vs, hvs, rfl⟩, rfl⟩ := mem_singleton_mul hts₁
    simp only [List.length_cons, List.length_append] at hlen
    have hname : ∀ t ∈ some ident, t.kind = .literalIdent := by
      rintro _ ⟨⟩
      exact hident
    have htype := ruleUtilProcType_complete hr hop hname hus (by omega)
    exact .effect (fun _ => ⟨rfl, rfl, rfl⟩) fun _ => .matched_first hop (.bind htype
      (fun _ _ => trivial) ((ruleProcBody_complete hr hbody hvs (by omega)).bind_nil .pure))

omit hr in
theorem ruleProgram_loop_end {fuel : Nat} {decls : List AstNode} :
    Accepts (· = .eof) (ruleProgram.loop r (fuel + 1) false decls) [] decls := by
  intro p rest htoks _ hrest
  have hmatch : parserMatchTokensVa p [.eof] = true :=
    parserMatchTokensVa_eq_true.mpr (.inl (List.mem_singleton.mpr (by
      rw [parserPeek, htoks]; exact hrest)))
  refine ⟨p, ?_, htoks, rfl, rfl⟩
  simp [ruleProgram.loop, hmatch]

omit hr in
theorem ruleProgram_loop_step {fuel : Nat} {decls decls' : List AstNode} {d : AstNode}
    {ts us : List Token} {G : TokenKind → Prop} (hstart : Starts Level.declaration.first ts)
    (hd : Accepts (fun _ => True) (ruleDecl r) ts d)
    (hloop : Accepts G (ruleProgram.loop r fuel false (decls ++ [d])) us decls') :
    Accepts G (ruleProgram.loop r (fuel + 1) false decls) (ts ++ us) decls' := by
  have hiter : Accepts G (do
      fun p => .ok () { p with ctxDecl := true }
      let d ← ruleDecl r
      ruleProgram.loop r fuel false (decls ++ [d])) (ts ++ us) decls' :=
    .effect (fun _ => ⟨rfl, rfl, rfl⟩) fun _ => .bind hd (fun _ _ => trivial) hloop
  intro p rest htoks hs hG
  obtain ⟨q, hq, h⟩ := hiter p rest htoks hs hG
  have hmatch : parserMatchTokensVa p [.eof] = false := by
    obtain ⟨t, ts', rfl, ht⟩ := hstart
    have hpeek : parserPeek p = t := by rw [parserPeek, htoks]; rfl
    have hsentinel : t.kind ≠ .sentinel := hs t (by rw [htoks]; exact List.mem_cons_self)
    rw [Bool.eq_false_iff, ne_eq, parserMatchTokensVa_eq_true, hpeek, List.mem_singleton]
    exact not_or.mpr ⟨ne_of_mem_of_not_mem ht (by decide), hsentinel⟩
  obtain ⟨_, _, heffect, hq⟩ := P.bind_ok.mp hq
  cases heffect
  obtain ⟨d', p', hd', hq⟩ := P.bind_ok.mp hq
  refine ⟨q, ?_, h⟩
  simp only [ruleProgram.loop, hmatch, hd', hq]
  rfl

/-- The tokens of the declarations, one after the other. -/
theorem ruleProgram_loop_complete {decls new : List AstNode} {ts : List Token} {fuel : Nat}
    (hnew : ∀ d ∈ new, Tree T .declaration d) (hts : ts ∈ (new.map (AstNode.reads false)).prod)
    (hlen : ts.length ≤ r.fuel) (hfuel : ts.length < fuel) :
    Accepts (· = .eof) (ruleProgram.loop r fuel false decls) ts (decls ++ new) := by
  induction new generalizing fuel ts decls with
  | nil =>
    obtain ⟨fuel, rfl⟩ := Nat.exists_eq_succ_of_ne_zero (Nat.ne_of_gt (Nat.zero_lt_of_lt hfuel))
    obtain rfl : ts = [] := hts
    rw [List.append_nil]
    exact ruleProgram_loop_end
  | cons d new ih =>
    obtain ⟨fuel, rfl⟩ := Nat.exists_eq_succ_of_ne_zero (Nat.ne_of_gt (Nat.zero_lt_of_lt hfuel))
    rw [List.map_cons, List.prod_cons] at hts
    obtain ⟨us, hus, vs, hvs, rfl⟩ := hts
    obtain ⟨hd, hnew⟩ := List.forall_mem_cons.mp hnew
    have hstart := hd.starts (by simp) us hus
    have hpos := hstart.length_pos
    simp only [List.length_append] at hlen hfuel
    have ih' : Accepts (· = .eof) (ruleProgram.loop r fuel false (decls ++ [d])) vs
        (decls ++ [d] ++ new) := ih hnew hvs (by omega) (by omega)
    rw [List.append_assoc, List.singleton_append] at ih'
    exact ruleProgram_loop_step hstart (ruleDecl_complete hr ⟨hd, hus⟩ (by omega)) ih'

theorem ruleProgram_complete {decls : List AstNode} {ts : List Token}
    (hdecls : ∀ d ∈ decls, Tree T .declaration d)
    (hts : ts ∈ (decls.map (AstNode.reads false)).prod) (hlen : ts.length < r.fuel) :
    Accepts (· = .eof) (ruleProgram r) ts (.block decls none) := by
  have hloop : Accepts (· = .eof) (ruleProgram.loop r r.fuel false []) ts ([] ++ decls) :=
    ruleProgram_loop_complete hr hdecls hts (Nat.le_of_lt hlen) hlen
  exact hloop.bind_nil .pure

end

/-! ## All rules -/

theorem rules_fuel (fuel : Nat) : (rules fuel).fuel = fuel := by
  cases fuel <;> rfl

theorem rules_complete (T : Ty → Prop) (fuel : Nat) : (rules fuel).Complete T := by
  induction fuel with
  | zero => exact ⟨fun _ h => absurd h (Nat.not_lt_zero _), fun _ h => absurd h (Nat.not_lt_zero _),
      fun _ _ h => absurd h (Nat.not_lt_zero _), fun _ h => absurd h (Nat.not_lt_zero _)⟩
  | succ fuel ih =>
    have le {n : Nat} (h : n < (rules (fuel + 1)).fuel) : n ≤ (rules fuel).fuel := by
      rw [rules_fuel]
      exact Nat.le_of_lt_succ h
    exact ⟨fun he h => ruleExpr_complete ih he (le h),
      fun he h => ruleExprAssign_complete ih he (le h),
      fun he hus h => ruleStmt_complete ih he hus (le h),
      fun hts h => ruleUtilType_complete ih hts (le h)⟩

/-- A program is parsed from its tokens and the end of the file. -/
theorem parse_complete {T : Ty → Prop} {decls : List AstNode} {ts : List Token} {fuel : Nat}
    (hdecls : ∀ d ∈ decls, Tree T .declaration d)
    (hts : ts ∈ (decls.map (AstNode.reads false)).prod) (hs : ∀ t ∈ ts, t.kind ≠ .sentinel)
    (hfuel : ts.length < fuel) (garbage : List Nat) :
    ∃ p, parse fuel garbage (ts ++ [.eof]) = .ok (.block decls none) p ∧ p.toks = [.eof] ∧
      p.diags = [] := by
  have hlen : ts.length < (rules fuel).fuel := by
    rw [rules_fuel]
    exact hfuel
  have hsentinel : ∀ t ∈ ts ++ [Token.eof], t.kind ≠ .sentinel :=
    List.forall_mem_append.mpr ⟨hs, by simp [Token.eof]⟩
  obtain ⟨p, hp, hptoks, hdiags, herr⟩ := ruleProgram_complete (rules_complete T fuel) hdecls hts
    hlen { toks := ts ++ [.eof], garbage } [.eof] rfl hsentinel rfl
  refine ⟨p, ?_, hptoks, hdiags⟩
  simp only [parse, hp, herr]
  rfl

end Seron
