import Seron.Verify.Primitives
import Seron.Verify.Reading
import Seron.Verify.Shape

/-! # What the rules consume

Whenever a rule for expressions, types or lists returns, the tokens it consumed are tokens of the
tree it returns, and this is a tree of the level of the rule. -/

namespace Seron

/-! ## Consumed tokens -/

/-- Whenever the rule returns, started at a token that satisfies `C`, it has consumed tokens that
satisfy `Q`. The sentinel never comes from the lexer. -/
def Consumes {α : Type} (C : Token → Prop) (x : P α) (Q : α → List Token → Prop) : Prop :=
  ∀ p a q, (∀ t ∈ p.toks, t.kind ≠ .sentinel) → C (parserPeek p) → x p = .ok a q →
    ∃ ts, p.toks = ts ++ q.toks ∧ Q a ts

namespace Consumes

variable {α β : Type} {C : Token → Prop} {x y : P α} {f : α → P β} {Q : α → List Token → Prop}
  {R : β → List Token → Prop}

theorem weaken (hx : Consumes (fun _ => True) x Q) : Consumes C x Q :=
  fun p a q htoks _ h => hx p a q htoks trivial h

theorem imp {Q' : α → List Token → Prop} (hx : Consumes C x Q) (h : ∀ a ts, Q a ts → Q' a ts) :
    Consumes C x Q' := by
  intro p a q htoks hC hok
  obtain ⟨ts, hts, hQ⟩ := hx p a q htoks hC hok
  exact ⟨ts, hts, h a ts hQ⟩

theorem pure {a : α} (h : Q a []) : Consumes C (Pure.pure a : P α) Q := by
  intro p b q _ _ hb
  obtain ⟨rfl, rfl⟩ := P.pure_ok.mp hb
  exact ⟨[], rfl, h⟩

theorem bind (hx : Consumes C x Q)
    (hf : ∀ a ts, Q a ts → Consumes (fun _ => True) (f a) fun b us => R b (ts ++ us)) :
    Consumes C (x >>= f) R := by
  intro p b r htoks hC h
  obtain ⟨a, q, ha, hb⟩ := P.bind_ok.mp h
  obtain ⟨ts, hts, hQ⟩ := hx p a q htoks hC ha
  have htoks' : ∀ t ∈ q.toks, t.kind ≠ .sentinel := fun t ht =>
    htoks t (hts ▸ List.mem_append_right _ ht)
  obtain ⟨us, hus, hR⟩ := hf a ts hQ q b r htoks' trivial hb
  exact ⟨ts ++ us, by rw [hts, hus, List.append_assoc], hR⟩

theorem map {g : α → β} (hx : Consumes C x Q) (h : ∀ a ts, Q a ts → R (g a) ts) :
    Consumes C (g <$> x) R :=
  bind hx fun a ts hQ => pure (by simpa using h a ts hQ)

theorem dropped (hx : Consumes C x Q) : Consumes C (discard x) fun _ ts => ∃ a, Q a ts :=
  map hx fun a _ hQ => ⟨a, hQ⟩

/-- A rule that never returns. -/
theorem never (h : Returns x fun _ => False) : Consumes C x Q :=
  fun p a q _ _ hok => (h p a q hok).elim

/-- The current token is known from then on. -/
theorem token {f : Token → P β} (hf : ∀ t, C t → Consumes (fun t' => t' = t ∧ C t') (f t) R) :
    Consumes C (parserToken >>= f) R := by
  intro p b r htoks hC h
  obtain ⟨t, q, ht, hb⟩ := P.bind_ok.mp h
  cases ht
  exact hf _ hC p b r htoks ⟨rfl, hC⟩ hb

theorem branch {kinds : List TokenKind} (hx : Consumes (fun t => C t ∧ t.kind ∈ kinds) x Q)
    (hy : Consumes (fun t => C t ∧ t.kind ∉ kinds) y Q) :
    Consumes C (parserMatchTokens kinds >>= fun b => if b = true then x else y) Q := by
  intro p a q htoks hC h
  rw [matchTokens_bind (parserPeek_ne_sentinel htoks)] at h
  split at h
  · rename_i hmem
    exact hx p a q htoks ⟨hC, hmem⟩ h
  · rename_i hmem
    exact hy p a q htoks ⟨hC, hmem⟩ h

theorem branch_one {kind : TokenKind} (hx : Consumes (fun t => C t ∧ t.kind = kind) x Q)
    (hy : Consumes (fun t => C t ∧ t.kind ≠ kind) y Q) :
    Consumes C (parserMatchToken kind >>= fun b => if b = true then x else y) Q :=
  branch (fun p a q htoks hC => hx p a q htoks ⟨hC.1, List.mem_singleton.mp hC.2⟩)
    fun p a q htoks hC => hy p a q htoks ⟨hC.1, fun h => hC.2 (List.mem_singleton.mpr h)⟩

/-- The current token is consumed, unless it is the end. -/
theorem parserAdvance : Consumes C parserAdvance fun t ts => C t ∧ ts = [t] := by
  intro p t q htoks hC h
  obtain ⟨ts, htoks', -, rfl⟩ := parserAdvance_ok (parserPeek_ne_sentinel htoks) |>.mp h
  exact ⟨[t], htoks', by simpa [parserPeek, htoks'] using hC, rfl⟩

theorem parserConsume {kind : TokenKind} :
    Consumes C (parserConsume kind) fun t ts => C t ∧ t.kind = kind ∧ ts = [t] := by
  intro p t q htoks hC h
  obtain ⟨ts, htoks', -, hkind, rfl⟩ := parserConsume_ok (parserPeek_ne_sentinel htoks) |>.mp h
  exact ⟨[t], htoks', by simpa [parserPeek, htoks'] using hC, hkind, rfl⟩

theorem parserSkip {kind : TokenKind} :
    Consumes C (parserSkip kind) fun _ ts => ts ∈ tokenOf kind + 1 := by
  refine branch_one ?_ (pure (.inr rfl))
  exact parserConsume.dropped.imp fun _ ts ⟨t, _, hkind, hts⟩ => .inl ⟨t, hkind, hts⟩

theorem advance_bind {f : Token → P β}
    (hf : ∀ t, C t → Consumes (fun _ => True) (f t) fun b us => R b (t :: us)) :
    Consumes C (Seron.parserAdvance >>= f) R :=
  bind parserAdvance fun t _ ⟨ht, hts⟩ => by
    subst hts
    exact hf t ht

theorem advance_skip {f : Unit → P β}
    (hf : ∀ t, C t → Consumes (fun _ => True) (f ()) fun b us => R b (t :: us)) :
    Consumes C (discard Seron.parserAdvance >>= f) R :=
  bind parserAdvance.dropped fun _ _ ⟨t, ht, hts⟩ => by
    subst hts
    exact hf t ht

theorem consume_bind {kind : TokenKind} {f : Token → P β}
    (hf : ∀ t, C t → t.kind = kind →
      Consumes (fun _ => True) (f t) fun b us => R b (t :: us)) :
    Consumes C (Seron.parserConsume kind >>= f) R :=
  bind parserConsume fun t _ ⟨hC, ht, hts⟩ => by
    subst hts
    exact hf t hC ht

theorem consume_skip {kind : TokenKind} {f : Unit → P β}
    (hf : ∀ t, C t → t.kind = kind →
      Consumes (fun _ => True) (f ()) fun b us => R b (t :: us)) :
    Consumes C (discard (Seron.parserConsume kind) >>= f) R :=
  bind parserConsume.dropped fun _ _ ⟨t, hC, ht, hts⟩ => by
    subst hts
    exact hf t hC ht

theorem orPanic_bind {o : Option α}
    (hf : ∀ a, o = some a → Consumes C (f a) R) : Consumes C (orPanic o >>= f) R := by
  intro p b q htoks hC h
  obtain ⟨a, p', ha, hb⟩ := P.bind_ok.mp h
  cases o with
  | none => cases ha
  | some a' =>
    obtain ⟨rfl, rfl⟩ := P.pure_ok.mp ha
    exact hf _ rfl _ _ _ htoks hC hb

end Consumes

/-- What the rules that are called recursively consume. -/
structure Rules.Sound (r : Rules) : Prop where
  expr : Consumes (fun _ => True) r.expr (Reads (fun _ => True) true .expression)
  assign : Consumes (fun _ => True) r.assign (Reads (fun _ => True) true .assign)
  type : Consumes (fun _ => True) r.type fun ty ts => ts ∈ ty.reads true

section
variable {r : Rules} (hr : r.Sound) {C : Token → Prop}

include hr

/-! ## Lists -/

theorem exprListLoop_sound {close : TokenKind} {fuel : Nat} {items : List AstNode} :
    Consumes C (exprListLoop r close fuel items) fun es ts =>
      ∃ new, es = items ++ new ∧ ReadsList (fun _ => True) true new ts := by
  induction fuel generalizing items C with
  | zero => exact .never .outOfFuel
  | succ fuel ih =>
    refine .branch_one (.pure ⟨[], by simp, .nil⟩) (.weaken (.bind hr.expr fun e ts he => ?_))
    refine .bind .parserSkip fun _ sep hsep => ih.imp ?_
    rintro es us ⟨new, rfl, hnew⟩
    exact ⟨e :: new, by simp, .cons he (hsep.imp id fun h => ⟨.inl rfl, h⟩) hnew⟩

theorem ruleUtilArglist_sound : Consumes C (ruleUtilArglist r) fun args us =>
    ∃ op ts t, C op ∧ op.kind = .lparen ∧ ReadsList (fun _ => True) true args ts ∧ t.kind = .rparen ∧
      us = op :: (ts ++ [t]) := by
  refine .consume_skip fun op hC hop => .bind (exprListLoop_sound hr) ?_
  rintro _ ts ⟨args, rfl, hargs⟩
  exact .consume_skip fun t _ ht => .pure ⟨op, ts, t, hC, hop, hargs, ht, rfl⟩

/-! ## Types -/

theorem ruleUtilParam_sound :
    Consumes C (ruleUtilParam r) fun param ts => ts ∈ param.reads true := by
  refine .consume_bind fun t _ ht => .consume_skip fun t' _ ht' => .bind hr.type fun ty ts hty => ?_
  refine .pure ?_
  rw [List.append_nil, Param.reads]
  exact onlyIf_mul_mem rfl (cons_mem_mul (mem_identOf ht) (cons_mem_mul (mem_tokenOf ht') hty))

theorem ruleUtilParamlist_loop_sound {fuel : Nat} {params : List Param}
    (h : params.length < maxParamCount) :
    Consumes C (ruleUtilParamlist.loop r fuel params) fun ps ts =>
      ∃ new, ps = params ++ new ∧ ps.length < maxParamCount ∧
        ts ∈ commas true (Params.reads true new) := by
  induction fuel generalizing params C with
  | zero => exact .never .outOfFuel
  | succ fuel ih =>
    refine .branch_one (.pure ⟨[], by simp, h, commas_nil⟩)
      (.bind (ruleUtilParam_sound hr) fun param ts hparam => ?_)
    dsimp only
    split
    · exact .never (.skip fun _ => .skip fun _ => .parserSync)
    · rename_i hlength
      refine .bind .parserSkip fun _ sep hsep => (ih (Nat.lt_of_not_le hlength)).imp ?_
      rintro ps us ⟨new, rfl, hlt, hnew⟩
      exact ⟨param :: new, by simp, hlt,
        commas_cons hparam (hsep.imp id fun h => ⟨.inl rfl, h⟩) hnew⟩

theorem ruleUtilParamlist_sound : Consumes C (ruleUtilParamlist r) fun params us =>
    params.length < maxParamCount ∧
      us ∈ tokenOf .lparen * (commas true (Params.reads true params) * tokenOf .rparen) := by
  refine .consume_skip fun op _ hop => .bind (ruleUtilParamlist_loop_sound hr (by decide)) ?_
  rintro _ ts ⟨params, rfl, hlength, hparams⟩
  exact .consume_skip fun t _ ht => .pure ⟨hlength, cons_mem_mul (mem_tokenOf hop)
    (Language.append_mem_mul hparams (mem_tokenOf ht))⟩

/-- The operator token, the name of a procedure that is named, and the signature. -/
theorem ruleUtilProcType_sound {named : Bool} :
    Consumes C (ruleUtilProcType r named) fun a us => ∃ sig ts, a.1.kind = .kwProc ∧
      a.2.2 = .procedure sig ∧ ts ∈ sig.reads true ∧
      match named, a.2.1 with
      | true, some ident => ident.kind = .literalIdent ∧ us = a.1 :: ident :: ts
      | false, none => us = a.1 :: ts
      | _, _ => False := by
  have sig {params : List Param} {ret : Ty} {ts us : List Token}
      (h : params.length < maxParamCount ∧
        ts ∈ tokenOf .lparen * (commas true (Params.reads true params) * tokenOf .rparen))
      (hret : us ∈ ret.reads true) : ts ++ us ∈ ProcSignature.reads true ⟨params, ret⟩ := by
    rw [ProcSignature.reads]
    refine onlyIf_mul_mem h.1 ?_
    simpa only [mul_assoc] using Language.append_mem_mul h.2 hret
  refine .consume_bind fun op _ hop => ?_
  cases named with
  | true =>
    refine .bind (Q := fun a ts => ∃ ident, a = some ident ∧ ident.kind = .literalIdent ∧
      ts = [ident]) (.map .parserConsume fun t ts ht => ⟨t, rfl, ht.2⟩) ?_
    rintro _ _ ⟨ident, rfl, hident, rfl⟩
    refine .bind (ruleUtilParamlist_sound hr) fun params ts hparams =>
      .bind hr.type fun ret us hret => ?_
    exact .pure ⟨_, ts ++ us, hop, rfl, sig hparams hret, hident, by simp⟩
  | false =>
    refine .bind (Q := fun a ts => a = none ∧ ts = []) (.pure ⟨rfl, rfl⟩) ?_
    rintro _ _ ⟨rfl, rfl⟩
    refine .bind (ruleUtilParamlist_sound hr) fun params ts hparams =>
      .bind hr.type fun ret us hret => ?_
    exact .pure ⟨_, ts ++ us, hop, rfl, sig hparams hret, by simp⟩

omit hr in
theorem typeFromTokenKeyword_reads {loose : Bool} {t : Token}
    (h : t.kind ∈ [TokenKind.kwTypeInt, .kwTypeChar, .kwTypeLong, .kwTypeVoid]) :
    [t] ∈ (typeFromTokenKeyword t.kind).reads loose := by
  simp only [List.mem_cons, List.not_mem_nil, or_false] at h
  rcases h with h | h | h | h <;> simp only [h, typeFromTokenKeyword, Ty.reads] <;>
    exact mem_tokenOf h

theorem ruleUtilType_sound : Consumes C (ruleUtilType r) fun ty ts => ts ∈ ty.reads true := by
  refine .token fun tok _ => .branch_one ?_ (.branch_one ?_ (.branch_one ?_ (.branch ?_
    (.never (.skip fun _ => .parserSync)))))
  · refine .advance_skip fun t ht => .bind hr.type fun ty ts hty => .pure ?_
    rw [Ty.reads, List.append_nil]
    exact cons_mem_mul (mem_tokenOf ht.2) hty
  · refine .bind (ruleUtilProcType_sound hr) ?_
    rintro ⟨op, ident, ty⟩ us ⟨sig, ts, hop, rfl, hts, hus⟩
    cases ident with
    | some ident => cases hus
    | none =>
      subst hus
      refine .pure ?_
      rw [Ty.reads, List.append_nil]
      exact cons_mem_mul (mem_tokenOf hop) hts
  · refine .advance_skip ?_
    rintro t ⟨⟨⟨⟨rfl, -⟩, -⟩, -⟩, ht⟩
    refine .pure ?_
    rw [Ty.reads]
    exact mem_identOf ht
  · refine .advance_bind ?_
    rintro t ⟨⟨⟨⟨-, hasterisk⟩, -⟩, -⟩, ht⟩
    refine .pure (typeFromTokenKeyword_reads ?_)
    simpa [hasterisk] using ht

/-! ## Expressions -/

theorem ruleGrouping_sound : Consumes C (ruleGrouping r) fun e ts =>
    ∃ e', e = .grouping e' ∧ Tree (fun _ => True) .expression e' ∧ ts ∈ e.reads true := by
  refine .consume_skip fun op _ hop => .branch_one
    (.never (.skip fun _ => .skip fun _ => .parserSync))
    (.weaken (.bind hr.expr fun e ts he => .consume_skip fun t _ ht => .pure ?_))
  exact ⟨e, rfl, he.1, (Reads.grouping hop he ht).2⟩

theorem ruleExprPrimary_sound : Consumes C (ruleExprPrimary r) (Reads (fun _ => True) true .primary) := by
  refine .token fun tok _ => .branch ?_ (.branch_one ((ruleGrouping_sound hr).imp ?_)
    (.never (.skip fun _ => .parserSync)))
  · refine .orPanic_bind fun kind hkind => .advance_skip ?_
    rintro t ⟨⟨rfl, -⟩, -⟩
    exact .pure (.literal hkind)
  · rintro _ ts ⟨e, rfl, he, hts⟩
    exact ⟨.grouping he, hts⟩

theorem ruleExprCall_sound : Consumes C (ruleExprCall r) (Reads (fun _ => True) true .call) := by
  refine .bind (ruleExprPrimary_sound hr) fun e ts he => .branch_one ?_ (.pure ?_)
  · refine .token fun op _ => .bind (ruleUtilArglist_sound hr) ?_
    rintro args _ ⟨op', us, t, ⟨rfl, -⟩, hop, hargs, ht, rfl⟩
    exact .pure (by simpa using he.call hop hargs ht)
  · simpa using he.imp .ofPrimary

theorem ruleExprIndex_sound : Consumes C (ruleExprIndex r) (Reads (fun _ => True) true .index) := by
  refine .bind (ruleExprCall_sound hr) fun e ts he => .branch_one ?_ (.pure ?_)
  · refine .consume_bind fun op _ hop => .bind hr.expr fun i us hi => .consume_skip fun t _ ht => ?_
    exact .pure (by simpa using he.index hop hi ht)
  · simpa using he.imp .ofCall

theorem ruleExprUnary_sound : Consumes C (ruleExprUnary r) (Reads (fun _ => True) true (.binary 0)) := by
  refine .branch ?_ ((ruleExprIndex_sound hr).imp fun e ts he => he.imp .ofIndex)
  refine .advance_bind fun op _ => .orPanic_bind fun kind hkind => ?_
  exact .bind (ruleExprIndex_sound hr) fun e ts he => .pure (by simpa using he.unaryop hkind)

theorem ruleExprBinary_sound {n : Nat} :
    Consumes C (ruleExprBinary r n) (Reads (fun _ => True) true (.binary n)) := by
  induction n generalizing C with
  | zero => exact ruleExprUnary_sound hr
  | succ n ih =>
    refine .bind ih fun lhs ts htight => ?_
    have hlhs := htight.imp .tighter
    clear htight
    generalize r.fuel = fuel
    induction fuel generalizing lhs ts with
    | zero => exact .never .outOfFuel
    | succ fuel ihloop =>
      refine .branch ?_ (.pure (by simpa using hlhs))
      refine .advance_bind fun op hop => .bind ih fun rhs us hrhs =>
        .orPanic_bind fun kind hkind => ?_
      exact (ihloop _ _ (hlhs.binop hop.2 hkind hrhs)).imp fun e vs he => by simpa using he

theorem ruleExprAssign_sound : Consumes C (ruleExprAssign r) (Reads (fun _ => True) true .assign) := by
  refine .bind (ruleExprBinary_sound hr (n := 8)) fun e ts he => .branch_one ?_ (.pure ?_)
  · refine .advance_bind fun op hop => .bind hr.assign fun value us hvalue => ?_
    exact .pure (by simpa using he.assign hop.2 hvalue)
  · simpa using he.imp .ofBinary

theorem ruleExprArray_sound : Consumes C (ruleExprArray r) fun e ts =>
    ∃ op values type, e = .array op values type 0 ∧ op.kind = .lbracket ∧
      (∀ e ∈ values, Tree (fun _ => True) .expression e) ∧ ts ∈ e.reads true := by
  refine .consume_bind fun op _ hop => .bind (exprListLoop_sound hr) ?_
  rintro _ ts ⟨values, rfl, hvalues⟩
  refine .consume_skip fun t _ ht => .bind hr.type fun ty us hty => .pure ?_
  refine ⟨op, _, ty, rfl, hop, hvalues.1, ?_⟩
  simpa using (Reads.array hop hvalues ht (T := fun _ => True) trivial hty).2

theorem ruleExpr_sound : Consumes C (ruleExpr r) (Reads (fun _ => True) true .expression) := by
  refine .branch_one ((ruleExprArray_sound hr).imp ?_)
    ((ruleExprAssign_sound hr).imp fun _ _ he => he.imp .ofAssign)
  rintro _ ts ⟨op, values, type, rfl, hop, hvalues, hts⟩
  exact ⟨.array hop hvalues trivial, hts⟩

end

theorem rules_sound (fuel : Nat) : (rules fuel).Sound := by
  induction fuel with
  | zero => exact ⟨.never .outOfFuel, .never .outOfFuel, .never .outOfFuel⟩
  | succ fuel ih => exact ⟨ruleExpr_sound ih, ruleExprAssign_sound ih, ruleUtilType_sound ih⟩

end Seron
