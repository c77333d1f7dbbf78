import Seron.Fields
import Seron.Verify.ParserComplete
import Seron.Verify.Progress
import Seron.Verify.Shape

/-! # Limits of lists

The loops for the parameters of a procedure and for the fields of a table store into arrays of the
same size. The one checks its counter behind the store and gives up one parameter too early, the
other one neither checks its counter nor sets it to zero. -/

namespace Seron

/-! ## Reaching another point of a rule -/

/-- Started at `ts`, the rule consumes them without a diagnostic and goes on as `y`. -/
def Leads {α : Type} (F : TokenKind → Prop) (x y : P α) (ts : List Token) : Prop :=
  ∀ p rest, p.toks = ts ++ rest → (∀ t ∈ p.toks, t.kind ≠ .sentinel) → F (nextKind rest) →
    ∃ q, x p = y q ∧ q.toks = rest ∧ q.diags = p.diags

namespace Leads

variable {α β : Type} {F G : TokenKind → Prop} {x : P α} {y : P β} {f : α → P β}
  {ts us : List Token} {a : α} {kind : TokenKind}

theorem refl : Leads F y y [] := fun p _ htoks _ _ => ⟨p, rfl, htoks, rfl⟩

/-- What comes behind a rule that accepts its tokens. -/
theorem bind (hx : Accepts F x ts a) (hnext : ∀ rest, G (nextKind rest) → F (nextKind (us ++ rest)))
    (hf : Leads G (f a) y us) : Leads G (x >>= f) y (ts ++ us) := by
  intro p rest htoks hs hG
  rw [List.append_assoc] at htoks
  obtain ⟨q, hq, hqtoks, hdiags, -⟩ := hx p (us ++ rest) htoks hs (hnext rest hG)
  have hs' : ∀ t ∈ q.toks, t.kind ≠ .sentinel := fun t ht =>
    hs t (htoks ▸ List.mem_append_right _ (hqtoks ▸ ht))
  obtain ⟨r, hr, hrtoks, hdiags'⟩ := hf q rest hqtoks hs' hG
  exact ⟨r, (P.bind_apply_ok hq).trans hr, hrtoks, hdiags'.trans hdiags⟩

theorem unmatched_one {x y z : P α}
    (h : ∀ rest, F (nextKind rest) → nextKind (ts ++ rest) ≠ kind) (hy : Leads F y z ts) :
    Leads F (parserMatchToken kind >>= fun b => if b = true then x else y) z ts := by
  intro p rest htoks hs hF
  have hpeek : (parserPeek p).kind ∉ [kind] := by
    rw [parserPeek, htoks]
    exact fun hmem => h rest hF (List.mem_singleton.mp hmem)
  rw [parserMatchToken, matchTokens_bind (parserPeek_ne_sentinel hs), if_neg hpeek]
  exact hy p rest htoks hs hF

/-- The rest of a rule comes behind both. -/
theorem andThen {x y : P α} {f : α → P β} (h : Leads F x y ts) : Leads F (x >>= f) (y >>= f) ts := by
  intro p rest htoks hs hF
  obtain ⟨q, hq, hrest⟩ := h p rest htoks hs hF
  refine ⟨q, ?_, hrest⟩
  show P.bind x f p = P.bind y f q
  simp only [P.bind, hq]

end Leads

/-! ## One more element -/

/-- One round of a loop over parameters, in front of one. -/
theorem leads_param {α : Type} {r : Rules} {T : Ty → Prop} (hr : r.Complete T)
    {close : TokenKind} (hclose : close ≠ .literalIdent) {param : Param} {us : List Token}
    (hus : us ∈ param.reads false) (hlen : us.length < r.fuel) {done : P α} {f : Param → P α}
    {y : P α} {vs : List Token} {F : TokenKind → Prop} (hf : Leads F (f param) y vs) :
    Leads F (parserMatchToken close >>= fun b => if b = true then done else ruleUtilParam r >>= f) y
      (us ++ vs) := by
  apply Leads.unmatched_one
  · intro rest _
    have hstart := Params.starts [param] _ List.mem_cons_self us hus
    rw [List.append_assoc]
    exact ne_of_mem_of_not_mem hstart.nextKind (by simpa using hclose)
  · exact Leads.bind (ruleUtilParam_complete hr hus hlen) (fun _ _ => trivial) hf

/-! ## Too many parameters -/

/-- What is printed in front of the parameter behind the last one that is allowed. -/
def tooManyMessage : String := s!"Procedures may not have more than {maxParamCount} parameters!"

/-- The end of the loop when the counter has reached the limit. -/
def tooManyParams : P (List Param) := do
  diagnosticLoc (← parserToken) tooManyMessage
  parserSync

variable {T : Ty → Prop} {r : Rules} {ts rest : List Token} {fuel : Nat} {p : Parser}

/-- The loop gives up when it has stored as many parameters as there may be. -/
theorem ruleUtilParamlist_loop_exceeds (hr : r.Complete T) {new params : List Param}
    (hnew : ts ∈ commas false (Params.reads false new)) (hparams : params.length < maxParamCount)
    (hmany : maxParamCount ≤ (params ++ new).length) (hlen : ts.length < r.fuel)
    (hfuel : new.length < fuel) :
    ∃ us vs, ts = us ++ vs ∧ Starts [.literalIdent] us ∧
      Leads (fun _ => True) (ruleUtilParamlist.loop r fuel params) tooManyParams us := by
  induction new generalizing fuel ts params with
  | nil =>
    rw [List.append_nil] at hmany
    omega
  | cons param new ih =>
    obtain ⟨fuel, rfl⟩ := Nat.exists_eq_succ_of_ne_zero (Nat.ne_of_gt (Nat.zero_lt_of_lt hfuel))
    obtain ⟨us, hus, _, ⟨sep, hsep, vs, hvs, rfl⟩, rfl⟩ := hnew
    have hstart : Starts [.literalIdent] us := Params.starts [param] _ List.mem_cons_self us hus
    simp only [List.length_append, List.length_cons] at hlen hfuel hmany
    by_cases hlimit : params.length + 1 < maxParamCount
    · obtain ⟨us', vs', rfl, hstart', hloop⟩ := @ih vs fuel (params ++ [param]) hvs
        (by simpa using hlimit) (by simp; omega) (by omega) (Nat.lt_of_succ_lt_succ hfuel)
      refine ⟨us ++ (sep ++ us'), vs', by simp, hstart.append, ?_⟩
      refine leads_param hr (by simp) hus (by omega) ?_
      dsimp only
      rw [if_neg (by simp; omega)]
      refine .bind (.parserSkip (hsep.imp id fun h => h.2) (by simp)) (fun rest _ => ?_) hloop
      exact ne_of_mem_of_not_mem hstart'.nextKind (by decide)
    · refine ⟨us, sep ++ vs, rfl, hstart, ?_⟩
      have h : Leads (fun _ => True) (ruleUtilParamlist.loop r (fuel + 1) params) tooManyParams
          (us ++ []) := by
        refine leads_param hr (by simp) hus (by omega) ?_
        dsimp only
        rw [if_pos (by simp; omega)]
        exact .refl
      rwa [List.append_nil] at h

/-- Panic mode takes what comes behind it along. -/
theorem parserSync_bind {α β : Type} (f : α → P β) (p : Parser) :
    ((parserSync : P α) >>= f) p = (parserSync : P β) p := by
  cases hctx : p.ctx with
  | decl =>
    simp only [Bind.bind, P.bind, parserSync_declEq hctx]
    cases parserRecoverDecl { p with errcount := p.errcount + 1 } with
    | ok _ q =>
      simp only [longjmpDecl]
      cases q.ctxDecl <;> rfl
    | _ => rfl
  | stmt =>
    simp only [Bind.bind, P.bind, parserSync_stmtEq hctx]
    cases parserRecoverStmt { p with errcount := p.errcount + 1 } with
    | ok _ q =>
      simp only [longjmpStmt]
      cases q.ctxStmt <;> rfl
    | _ => rfl

/-- The list of parameters between its parentheses. -/
def paramlist (params : List Param) : Language Token :=
  tokenOf .lparen * (commas false (Params.reads false params) * tokenOf .rparen)

/-- The list is read, and these are the parameters. -/
def ReadsParams (r : Rules) (params : List Param) (rest : List Token) (p : Parser) : Prop :=
  ∃ q, ruleUtilParamlist r p = .ok params q ∧ q.toks = rest ∧ q.diags = p.diags

/-- The rule reports that there are too many parameters and goes into panic mode. -/
def TooMany (r : Rules) (p : Parser) : Prop :=
  ∃ q : Parser, q.toks <:+ p.toks ∧ ruleUtilParamlist r p = (parserSync : P (List Param))
    { q with diags := p.diags ++ [⟨some (parserPeek q), tooManyMessage⟩] }

theorem ruleUtilParamlist_exceeds (hr : r.Complete T) {params : List Param}
    (hts : ts ∈ paramlist params) (hmany : maxParamCount ≤ params.length)
    (hlen : ts.length ≤ r.fuel) (htoks : p.toks = ts ++ rest)
    (hs : ∀ t ∈ p.toks, t.kind ≠ .sentinel) : TooMany r p := by
  obtain ⟨op, _, hop, ⟨us, hus, _, ⟨t, ht, rfl⟩, rfl⟩, rfl⟩ := mem_tokenOf_mul hts
  rw [List.length_cons, List.length_append] at hlen
  have hcount := commas_length_le (Params.starts params) hus
  rw [Params.length_reads] at hcount
  obtain ⟨us', vs, rfl, -, hloop⟩ := @ruleUtilParamlist_loop_exceeds _ _ _ r.fuel hr _ [] hus
    (by decide) hmany (by omega) (by omega)
  have hlead : Leads (fun _ => True) (ruleUtilParamlist r) (do
      let params ← tooManyParams
      discard (parserConsume .rparen)
      pure params) (op :: us') :=
    .bind (F := fun _ => True) (Accepts.parserConsume hop (by simp)).dropped (fun _ _ => trivial)
      hloop.andThen
  have htoks' : p.toks = (op :: us') ++ (vs ++ (t :: rest)) := by simp [htoks]
  obtain ⟨q, hq, hqtoks, hdiags⟩ := hlead p _ htoks' hs trivial
  refine ⟨q, ⟨op :: us', by rw [hqtoks, htoks']⟩, ?_⟩
  rw [hq, ← hdiags]
  exact parserSync_bind _ _

/-! ## The stores of parameters -/

/-- `sig->params[sig->params_count++] = param`, with a check of the index. -/
def storeParam (params : List Param) (param : Param) : P (List Param) :=
  if params.length < maxParamCount then pure (params ++ [param])
  else fun _ => .undefined "store behind the parameters of a procedure"

/-- The loop of `rule_util_paramlist` with that check. -/
def boundedParamlist.loop (r : Rules) : Nat → List Param → P (List Param)
  | 0, _ => outOfFuel
  | fuel + 1, params => do
    if ← parserMatchToken .rparen then pure params
    else
      let param ← ruleUtilParam r
      let params ← storeParam params param
      if params.length ≥ maxParamCount then tooManyParams
      else
        parserSkip .comma
        boundedParamlist.loop r fuel params

def boundedParamlist (r : Rules) : P (List Param) := do
  discard (parserConsume .lparen)
  let params ← boundedParamlist.loop r r.fuel []
  discard (parserConsume .rparen)
  pure params

/-- The index of a store is always that of a parameter. -/
theorem loop_eq_bounded (r : Rules) {params : List Param} (h : params.length < maxParamCount) :
    ruleUtilParamlist.loop r fuel params = boundedParamlist.loop r fuel params := by
  induction fuel generalizing params with
  | zero => rfl
  | succ fuel ih =>
    unfold ruleUtilParamlist.loop boundedParamlist.loop
    congr 1
    funext close
    congr 1
    congr 1
    funext param
    have hstore : storeParam params param = pure (params ++ [param]) := if_pos h
    have hpure (f : List Param → P (List Param)) :
        (pure (params ++ [param]) >>= f : P (List Param)) = f (params ++ [param]) := rfl
    rw [hstore, hpure]
    dsimp only
    by_cases hlimit : (params ++ [param]).length ≥ maxParamCount
    · rw [if_pos hlimit, if_pos hlimit]
      rfl
    · rw [if_neg hlimit, if_neg hlimit, ih (Nat.lt_of_not_le hlimit)]

theorem ruleUtilParamlist_eq_bounded (r : Rules) : ruleUtilParamlist r = boundedParamlist r := by
  unfold ruleUtilParamlist boundedParamlist
  rw [loop_eq_bounded r (by decide)]

theorem paramlist_short {params : List Param} (hts : ts ∈ paramlist params)
    (hfuel : ts.length ≤ fuel) (htoks : p.toks = ts ++ rest)
    (hs : ∀ t ∈ p.toks, t.kind ≠ .sentinel) (hlt : params.length < maxParamCount) :
    ReadsParams (rules fuel) params rest p := by
  have hr : (rules fuel).Complete fun _ => True := rules_complete _ fuel
  have hlen : ts.length ≤ (rules fuel).fuel := by rwa [rules_fuel]
  obtain ⟨q, hq, hqtoks, hdiags, -⟩ :=
    ruleUtilParamlist_complete hr hts hlt hlen p rest htoks hs trivial
  exact ⟨q, hq, hqtoks, hdiags⟩

theorem paramlist_long {params : List Param} (hts : ts ∈ paramlist params)
    (hfuel : ts.length ≤ fuel) (htoks : p.toks = ts ++ rest)
    (hs : ∀ t ∈ p.toks, t.kind ≠ .sentinel) (hle : maxParamCount ≤ params.length) :
    TooMany (rules fuel) p ∧ ¬ ReadsParams (rules fuel) params rest p := by
  have hr : (rules fuel).Complete fun _ => True := rules_complete _ fuel
  have hlen : ts.length ≤ (rules fuel).fuel := by rwa [rules_fuel]
  obtain ⟨q, hq, heq⟩ := ruleUtilParamlist_exceeds hr hts hle hlen htoks hs
  refine ⟨⟨q, hq, heq⟩, ?_⟩
  rintro ⟨q', hok, -⟩
  exact Returns.parserSync (Q := fun _ => False) _ _ _ (heq.symm.trans hok)

/-- A list is read if it has fewer parameters than the array has room for, one with as many is
rejected like a longer one, and no store is behind the array. -/
theorem paramlist_limit_iff {params : List Param} (hts : ts ∈ paramlist params)
    (hfuel : ts.length ≤ fuel) (htoks : p.toks = ts ++ rest)
    (hs : ∀ t ∈ p.toks, t.kind ≠ .sentinel) :
    ((ReadsParams (rules fuel) params rest p ↔ params.length ≤ maxParamCount) ∧
        (maxParamCount < params.length → TooMany (rules fuel) p) ∧
        ∀ p', ruleUtilParamlist (rules fuel) p' = boundedParamlist (rules fuel) p') ↔
      params.length ≠ maxParamCount := by
  have hshort := paramlist_short hts hfuel htoks hs
  have hlong := paramlist_long hts hfuel htoks hs
  constructor
  · rintro ⟨hiff, -⟩ heq
    exact (hlong (Nat.le_of_eq heq.symm)).2 (hiff.mpr (Nat.le_of_eq heq))
  · intro hne
    refine ⟨⟨fun hread => ?_, fun hle => hshort (Nat.lt_of_le_of_ne hle hne)⟩,
      fun hlt => (hlong (Nat.le_of_lt hlt)).1, fun p' => by rw [ruleUtilParamlist_eq_bounded]⟩
    by_contra hlt
    exact (hlong (Nat.le_of_not_le hlt)).2 hread

/-- The parameter `x: int`, and its tokens with a comma. -/
def intParam : Param := { type := .int, ident := "x" }

def intParamTokens : List Token :=
  [.ident "x", { kind := .colon }, { kind := .kwTypeInt }, { kind := .comma }]

/-- A number of such parameters. -/
def intParams (n : Nat) : List Token := (List.replicate n intParamTokens).flatten

theorem intParams_reads (n : Nat) :
    intParams n ∈ commas false (Params.reads false (List.replicate n intParam)) := by
  induction n with
  | zero => exact commas_nil
  | succ n ih =>
    have hparam : [.ident "x", { kind := .colon }, { kind := .kwTypeInt }] ∈
        intParam.reads false := by
      have hident : [Token.ident "x"] ∈ identOf maxIdentLen "x" := ⟨_, rfl, by decide, rfl⟩
      have htype : [({ kind := .kwTypeInt } : Token)] ∈ Ty.reads false .int := by
        rw [Ty.reads]
        exact kind_mem_tokenOf _
      rw [intParam, Param.reads]
      exact onlyIf_mul_mem rfl (cons_mem_mul hident (cons_mem_mul (kind_mem_tokenOf _) htype))
    exact commas_cons hparam (.inl (kind_mem_tokenOf _)) ih

theorem intParams_length (n : Nat) : (intParams n).length = 4 * n := by
  simp [intParams, intParamTokens, Nat.mul_comm]

theorem intParams_genuine (n : Nat) : ∀ t ∈ intParams n, t.kind ≠ .sentinel := by
  intro t ht
  obtain ⟨ts, hts, ht⟩ := List.mem_flatten.mp ht
  rw [List.eq_of_mem_replicate hts] at ht
  have hall : ∀ t ∈ intParamTokens, t.kind ≠ .sentinel := by decide
  exact hall t ht

/-- The parameters between parentheses. -/
def intParamlist (n : Nat) : List Token :=
  { kind := .lparen } :: (intParams n ++ [{ kind := .rparen }])

theorem intParamlist_reads (n : Nat) :
    intParamlist n ∈ paramlist (List.replicate n intParam) := by
  exact cons_mem_mul (kind_mem_tokenOf _)
    (Language.append_mem_mul (intParams_reads n) (kind_mem_tokenOf _))

theorem intParamlist_genuine (n : Nat) : ∀ t ∈ intParamlist n, t.kind ≠ .sentinel := by
  intro t ht
  simp only [intParamlist, List.mem_cons, List.mem_append, List.not_mem_nil, or_false] at ht
  rcases ht with rfl | ht | rfl
  · simp
  · exact intParams_genuine n t ht
  · simp

/-- The parameters `a: *long, b: int`. -/
def mixedParams : List Param :=
  [{ type := .pointer (some .long), ident := "a" }, { type := .int, ident := "b" }]

def mixedParamTokens : List Token :=
  [.ident "a", { kind := .colon }, { kind := .asterisk }, { kind := .kwTypeLong }, { kind := .comma },
    .ident "b", { kind := .colon }, { kind := .kwTypeInt }]

theorem mixedParams_reads : mixedParamTokens ∈ commas false (Params.reads false mixedParams) := by
  have hpointer : [{ kind := .asterisk }, { kind := .kwTypeLong }] ∈
      Ty.reads false (.pointer (some .long)) :=
    cons_mem_mul (kind_mem_tokenOf .asterisk) (kind_mem_tokenOf .kwTypeLong)
  have hint : [{ kind := .kwTypeInt }] ∈ Ty.reads false .int := kind_mem_tokenOf .kwTypeInt
  have hparam (name : String) {type : Ty} {us : List Token} (hname : strncpy maxIdentLen name = name)
      (hus : us ∈ Ty.reads false type) : Token.ident name :: { kind := .colon } :: us ∈
        Param.reads false { type, ident := name } :=
    have hident : [Token.ident name] ∈ identOf maxIdentLen name := ⟨_, rfl, hname, rfl⟩
    onlyIf_mul_mem rfl (cons_mem_mul hident (cons_mem_mul (kind_mem_tokenOf .colon) hus))
  exact commas_cons (hparam "a" (by decide) hpointer) (.inl (kind_mem_tokenOf .comma))
    (commas_cons (hparam "b" (by decide) hint) (.inr (mem_onlyIf (.inr rfl))) commas_nil)

/-- `(a: *long, b: int)` -/
def mixedParamlist : List Token := { kind := .lparen } :: (mixedParamTokens ++ [{ kind := .rparen }])

theorem mixedParamlist_reads : mixedParamlist ∈ paramlist mixedParams :=
  cons_mem_mul (kind_mem_tokenOf .lparen)
    (Language.append_mem_mul mixedParams_reads (kind_mem_tokenOf .rparen))

/-- Two parameters are read, and 256 are too many. -/
theorem paramlist_limit_iff_mixedParams :
    mixedParamlist ∈ paramlist mixedParams ∧
      ReadsParams (rules 10) mixedParams [] { toks := mixedParamlist } ∧
      intParamlist 256 ∈ paramlist (List.replicate 256 intParam) ∧
      TooMany (rules 1026) { toks := intParamlist 256 } := by
  have hfuel : mixedParamlist.length ≤ 10 := by decide
  have htoks : ({ toks := mixedParamlist } : Parser).toks = mixedParamlist ++ [] := rfl
  have hread := (paramlist_limit_iff mixedParamlist_reads hfuel htoks (by decide)).mpr (by decide)
  have hfuel' : (intParamlist 256).length ≤ 1026 := by
    simp [intParamlist, intParams_length]
  have htoks' : ({ toks := intParamlist 256 } : Parser).toks = intParamlist 256 ++ [] :=
    (List.append_nil _).symm
  have hcount : (List.replicate 256 intParam).length = 256 := List.length_replicate
  have hlong := (paramlist_limit_iff (intParamlist_reads 256) hfuel' htoks'
    (intParamlist_genuine 256)).mpr (by rw [hcount]; decide)
  exact ⟨mixedParamlist_reads, hread.1.mpr (by decide), intParamlist_reads 256,
    hlong.2.1 (by rw [hcount]; decide)⟩

/-- As many parameters as the limit are one too many. -/
theorem limit_rejected :
    intParamlist 255 ∈ paramlist (List.replicate 255 intParam) ∧
      (List.replicate 255 intParam).length ≤ maxParamCount ∧
      TooMany (rules 1022) { toks := intParamlist 255 } ∧
      ¬ ReadsParams (rules 1022) (List.replicate 255 intParam) [] { toks := intParamlist 255 } := by
  have hlist := intParamlist_reads 255
  have hlen : (intParamlist 255).length ≤ 1022 := by
    simp [intParamlist, intParams_length]
  have hcount : (List.replicate 255 intParam).length = maxParamCount := List.length_replicate
  have htoks : ({ toks := intParamlist 255 } : Parser).toks = intParamlist 255 ++ [] :=
    (List.append_nil _).symm
  exact ⟨hlist, Nat.le_of_eq hcount,
    paramlist_long hlist hlen htoks (intParamlist_genuine 255) (Nat.le_of_eq hcount.symm)⟩

/-! ## The fields of a table -/

/-- The store behind the array of the fields. -/
def overrun : P Table := fun _ => .undefined "store behind the fields of a table"

/-- The list of fields between its braces. -/
def fieldlist (fields : List Param) : Language Token :=
  tokenOf .lbrace * (commas false (Params.reads false fields) * tokenOf .rbrace)

/-- The table with some more fields. -/
def Table.push (table : Table) (fields : List Param) : Table :=
  { fields := table.fields ++ fields, fieldCount := table.fieldCount + fields.length }

/-- The loop behind a field that has been read. -/
def nextField (r : Rules) (fuel : Nat) (table : Table) (field : Param) : P Table :=
  if table.fieldCount ≥ maxParamCount then overrun
  else do
    parserSkip .comma
    ruleUtilFieldlist.loop r fuel (table.push [field])

theorem ruleUtilFieldlist_loop_complete (hr : r.Complete T) {new : List Param} {table : Table}
    (hnew : ts ∈ commas false (Params.reads false new))
    (hfields : new = [] ∨ table.fieldCount + new.length ≤ maxParamCount)
    (hlen : ts.length < r.fuel) (hfuel : new.length < fuel) :
    Accepts (· = .rbrace) (ruleUtilFieldlist.loop r fuel table) ts (table.push new) := by
  induction new generalizing fuel ts table with
  | nil =>
    obtain ⟨fuel, rfl⟩ := Nat.exists_eq_succ_of_ne_zero (Nat.ne_of_gt hfuel)
    obtain rfl : ts = [] := hnew
    have hpush : table.push [] = table := by
      cases table
      simp [Table.push]
    rw [hpush]
    exact .matched_one (fun _ h => h) .pure
  | cons param new ih =>
    obtain ⟨fuel, rfl⟩ := Nat.exists_eq_succ_of_ne_zero (Nat.ne_of_gt (Nat.zero_lt_of_lt hfuel))
    obtain ⟨us, hus, _, ⟨sep, hsep, vs, hvs, rfl⟩, rfl⟩ := hnew
    have hstarts : ∀ l ∈ Params.reads false new, ∀ ts ∈ l, Starts [.literalIdent] ts :=
      Params.starts new
    replace hfields := hfields.resolve_left (List.cons_ne_nil _ _)
    simp only [List.length_append, List.length_cons] at hlen hfuel hfields
    have hcount : (table.push [param]).fieldCount = table.fieldCount + 1 := rfl
    have ih' := @ih vs fuel (table.push [param]) hvs (.inr (by omega)) (by omega)
      (Nat.lt_of_succ_lt_succ hfuel)
    have hpush : (table.push [param]).push new = table.push (param :: new) := by
      simp [Table.push, Nat.add_assoc, Nat.add_comm 1]
    rw [hpush] at ih'
    refine .unmatched_one (fun rest _ => ?_) (.bind (ruleUtilParam_complete hr hus (by omega))
      (fun _ _ => trivial) ?_)
    · have hstart := Params.starts [param] _ List.mem_cons_self us hus
      exact ne_of_mem_of_not_mem hstart.append.nextKind (by decide)
    · show Accepts (· = .rbrace) (nextField r fuel table param) (sep ++ vs) _
      rw [nextField, if_neg (by omega)]
      refine .bind (.parserSkip (hsep.imp id fun h => h.2) (by simp)) (fun rest hrest => ?_) ih'
      exact ne_of_mem_of_not_mem (commas_next hstarts hvs hrest) (by decide)

/-- The loop stores behind the array when its counter has reached the limit. -/
theorem ruleUtilFieldlist_loop_overruns (hr : r.Complete T) {new : List Param} {table : Table}
    (hnew : ts ∈ commas false (Params.reads false new)) (hne : new ≠ [])
    (hmany : maxParamCount < table.fieldCount + new.length) (hlen : ts.length < r.fuel)
    (hfuel : new.length < fuel) :
    ∃ us vs, ts = us ++ vs ∧ Starts [.literalIdent] us ∧
      Leads (fun _ => True) (ruleUtilFieldlist.loop r fuel table) overrun us := by
  induction new generalizing fuel ts table with
  | nil => exact absurd rfl hne
  | cons param new ih =>
    obtain ⟨fuel, rfl⟩ := Nat.exists_eq_succ_of_ne_zero (Nat.ne_of_gt (Nat.zero_lt_of_lt hfuel))
    obtain ⟨us, hus, _, ⟨sep, hsep, vs, hvs, rfl⟩, rfl⟩ := hnew
    have hstart : Starts [.literalIdent] us := Params.starts [param] _ List.mem_cons_self us hus
    simp only [List.length_append, List.length_cons] at hlen hfuel hmany
    by_cases hlimit : table.fieldCount < maxParamCount
    · have hnew : new ≠ [] := by
        rintro rfl
        simp only [List.length_nil] at hmany
        omega
      have hcount : (table.push [param]).fieldCount = table.fieldCount + 1 := rfl
      obtain ⟨us', vs', rfl, hstart', hloop⟩ := @ih vs fuel (table.push [param]) hvs hnew (by omega)
        (by omega) (Nat.lt_of_succ_lt_succ hfuel)
      refine ⟨us ++ (sep ++ us'), vs', by simp, hstart.append, ?_⟩
      refine leads_param hr (by simp) hus (by omega) ?_
      show Leads (fun _ => True) (nextField r fuel table param) overrun (sep ++ us')
      rw [nextField, if_neg (Nat.not_le_of_lt hlimit)]
      refine .bind (.parserSkip (hsep.imp id fun h => h.2) (by simp)) (fun rest _ => ?_) hloop
      exact ne_of_mem_of_not_mem hstart'.nextKind (by decide)
    · refine ⟨us, sep ++ vs, rfl, hstart, ?_⟩
      have h : Leads (fun _ => True) (ruleUtilFieldlist.loop r (fuel + 1) table) overrun
          (us ++ []) := by
        refine leads_param hr (by simp) hus (by omega) ?_
        show Leads (fun _ => True) (nextField r fuel table param) overrun []
        rw [nextField, if_pos (Nat.le_of_not_lt hlimit)]
        exact .refl
      rwa [List.append_nil] at h

/-! ## Declared tables -/

section
variable {op ident : Token} {fields : List Param}

/-- What the counter of the fresh table holds. -/
def counter (p : Parser) : Nat := p.garbage.headD 0

/-- A table before its fields are read. -/
def freshTable (count : Nat) : Table := { fields := [], fieldCount := count }

theorem ruleUtilFieldlist_complete (hr : r.Complete T) {table : Table}
    (hts : ts ∈ fieldlist fields) (hlen : ts.length ≤ r.fuel)
    (hfits : fields = [] ∨ table.fieldCount + fields.length ≤ maxParamCount) :
    Accepts (fun _ => True) (ruleUtilFieldlist r table) ts (table.push fields) := by
  obtain ⟨op, _, hop, ⟨us, hus, _, ⟨t, ht, rfl⟩, rfl⟩, rfl⟩ := mem_tokenOf_mul hts
  rw [List.length_cons, List.length_append] at hlen
  have hcount := commas_length_le (Params.starts fields) hus
  rw [Params.length_reads] at hcount
  exact .consume_skip hop (by simp) (.bind (ruleUtilFieldlist_loop_complete hr hus hfits (by omega)
    (by omega)) (fun _ _ => ht) (.consume_skip ht (by simp) .pure))

theorem ruleUtilFieldlist_overruns (hr : r.Complete T) {table : Table}
    (hts : ts ∈ fieldlist fields) (hlen : ts.length ≤ r.fuel) (hne : fields ≠ [])
    (hmany : maxParamCount < table.fieldCount + fields.length) (htoks : p.toks = ts ++ rest)
    (hs : ∀ t ∈ p.toks, t.kind ≠ .sentinel) :
    ruleUtilFieldlist r table p = .undefined "store behind the fields of a table" := by
  obtain ⟨op, _, hop, ⟨us, hus, _, ⟨t, ht, rfl⟩, rfl⟩, rfl⟩ := mem_tokenOf_mul hts
  rw [List.length_cons, List.length_append] at hlen
  have hcount := commas_length_le (Params.starts fields) hus
  rw [Params.length_reads] at hcount
  obtain ⟨us', vs, rfl, -, hloop⟩ := @ruleUtilFieldlist_loop_overruns _ _ _ r.fuel hr _ table hus
    hne hmany (by omega) (by omega)
  have hlead : Leads (fun _ => True) (ruleUtilFieldlist r table) (do
      let table ← overrun
      discard (parserConsume .rbrace)
      pure table) (op :: us') :=
    .bind (F := fun _ => True) (Accepts.parserConsume hop (by simp)).dropped (fun _ _ => trivial)
      hloop.andThen
  have htoks' : p.toks = (op :: us') ++ (vs ++ (t :: rest)) := by simp [htoks]
  obtain ⟨q, hq, -⟩ := hlead p _ htoks' hs trivial
  exact hq

/-- The rule up to the fields. -/
theorem ruleDeclTable_start (hop : op.kind = .kwTable) (hident : ident.kind = .literalIdent)
    (htoks : p.toks = op :: ident :: (ts ++ rest)) (hs : ∀ t ∈ p.toks, t.kind ≠ .sentinel) :
    ∃ q, q.toks = ts ++ rest ∧ (∀ t ∈ q.toks, t.kind ≠ .sentinel) ∧
      ruleDeclTable r p = (ruleUtilFieldlist r (freshTable (counter p)) >>=
        fun table => pure (.table op ident (.table table)) : P AstNode) q := by
  let p₁ : Parser := { p with toks := ident :: (ts ++ rest) }
  let p₂ : Parser := { p with toks := ts ++ rest }
  have hs₁ : ∀ t ∈ p₁.toks, t.kind ≠ .sentinel := fun t ht =>
    hs t (htoks ▸ List.mem_cons_of_mem _ ht)
  have hs₂ : ∀ t ∈ p₂.toks, t.kind ≠ .sentinel := fun t ht =>
    hs₁ t (List.mem_cons_of_mem _ ht)
  have h₁ : parserConsume .kwTable p = .ok op p₁ :=
    (parserConsume_ok (parserPeek_ne_sentinel hs)).mpr ⟨_, htoks, by rw [hop]; simp, hop, rfl⟩
  have h₂ : parserConsume .literalIdent p₁ = .ok ident p₂ :=
    (parserConsume_ok (parserPeek_ne_sentinel hs₁)).mpr
      ⟨_, rfl, by rw [hident]; simp, hident, rfl⟩
  refine ⟨{ p₂ with garbage := p.garbage.tail }, rfl, hs₂, ?_⟩
  rw [ruleDeclTable, P.bind_apply_ok h₁, P.bind_apply_ok h₂]
  rfl

/-- The fields are stored, behind whatever the counter counts already, if they fit. -/
theorem ruleDeclTable_fits (hr : r.Complete T) (hop : op.kind = .kwTable)
    (hident : ident.kind = .literalIdent) (hts : ts ∈ fieldlist fields) (hlen : ts.length ≤ r.fuel)
    (htoks : p.toks = op :: ident :: (ts ++ rest)) (hs : ∀ t ∈ p.toks, t.kind ≠ .sentinel)
    (hfits : fields = [] ∨ counter p + fields.length ≤ maxParamCount) :
    ∃ q, ruleDeclTable r p =
      .ok (.table op ident (.table ((freshTable (counter p)).push fields))) q := by
  obtain ⟨q, hqtoks, hqs, hq⟩ := ruleDeclTable_start (r := r) hop hident htoks hs
  obtain ⟨q', hok, -⟩ := @ruleUtilFieldlist_complete _ _ _ _ hr (freshTable (counter p)) hts hlen
    hfits q rest hqtoks hqs trivial
  exact ⟨q', by rw [hq, P.bind_apply_ok hok]; rfl⟩

/-- The counter runs behind the array if they do not fit. -/
theorem ruleDeclTable_overruns (hr : r.Complete T) (hop : op.kind = .kwTable)
    (hident : ident.kind = .literalIdent) (hts : ts ∈ fieldlist fields) (hlen : ts.length ≤ r.fuel)
    (htoks : p.toks = op :: ident :: (ts ++ rest)) (hs : ∀ t ∈ p.toks, t.kind ≠ .sentinel)
    (hne : fields ≠ []) (hmany : maxParamCount < counter p + fields.length) :
    ruleDeclTable r p = .undefined "store behind the fields of a table" := by
  obtain ⟨q, hqtoks, hqs, hq⟩ := ruleDeclTable_start (r := r) hop hident htoks hs
  have hundefined := @ruleUtilFieldlist_overruns _ _ _ _ _ _ hr (freshTable (counter p)) hts hlen
    hne hmany hqtoks hqs
  rw [hq]
  simp only [Bind.bind, P.bind, hundefined]

end

/-! ## Reading the fields -/

variable {fields : List Param} {table : Table}

/-- The table has these fields, each can be read, and no loop reads others. -/
structure Recorded (fields : List Param) (table : Table) : Prop where
  count : table.fieldCount = fields.length
  field : ∀ i (h : i < fields.length), table.field i = .ok fields[i]
  printed : ∃ texts, printFields table = .ok texts
  measured : ∀ what, tableSize table ≠ .error (.undefined what)

theorem field_push {i : Nat} (h : i < fields.length) (hlen : fields.length ≤ maxParamCount) :
    ((freshTable 0).push fields).field i = .ok fields[i] := by
  have hfields : ((freshTable 0).push fields).fields = fields := rfl
  have hcount : ((freshTable 0).push fields).fieldCount = fields.length := Nat.zero_add _
  unfold Table.field
  simp only [hfields, hcount, Nat.sub_self, Nat.sub_zero, Nat.not_lt_zero, if_false,
    if_neg (Nat.not_le_of_lt (Nat.lt_of_lt_of_le h hlen)), List.getElem?_eq_getElem h]

theorem mapM_ok {α β ε : Type} {f : α → Except ε β} {l : List α} (h : ∀ a ∈ l, ∃ b, f a = .ok b) :
    ∃ bs, l.mapM f = .ok bs := by
  induction l with
  | nil => exact ⟨[], rfl⟩
  | cons a l ih =>
    obtain ⟨⟨b, hb⟩, hl⟩ := List.forall_mem_cons.mp h
    obtain ⟨bs, hbs⟩ := ih hl
    rw [List.mapM_cons, hb, hbs]
    exact ⟨_, rfl⟩

/-- Printing reads no field but those that are counted. -/
theorem printFields_ok (h : ∀ i < table.fieldCount, ∃ field, table.field i = .ok field) :
    ∃ texts, printFields table = .ok texts := by
  apply mapM_ok
  intro i hi
  obtain ⟨field, hfield⟩ := h i (List.mem_range.mp hi)
  rw [hfield]
  exact ⟨_, rfl⟩

/-- Measuring fails at most at the type of a field. -/
theorem tableSize_defined (h : ∀ i < table.fieldCount, ∃ field, table.field i = .ok field)
    (what : String) : tableSize table ≠ .error (.undefined what) := by
  have step {l : List Nat} (hl : ∀ i ∈ l, ∃ field, table.field i = .ok field) (size : Int) :
      l.foldlM (fun size i => do
        let field ← table.field i
        let fieldSize ← typePrimitiveSize field.type.kind
        pure (size + fieldSize)) size ≠ .error (.undefined what) := by
    induction l generalizing size with
    | nil => simp [pure, Except.pure]
    | cons i l ih =>
      obtain ⟨⟨field, hfield⟩, hl⟩ := List.forall_mem_cons.mp hl
      rw [List.foldlM_cons, hfield]
      cases hsize : typePrimitiveSize field.type.kind with
      | ok fieldSize =>
        have hok : (Except.ok field >>= fun field => do
            let fieldSize ← typePrimitiveSize field.type.kind
            pure (size + fieldSize) : Except Failure Int) = .ok (size + fieldSize) :=
          Except.bind_ok.mpr ⟨field, rfl, Except.bind_ok.mpr ⟨fieldSize, hsize, rfl⟩⟩
        rw [hok]
        exact ih hl (size + fieldSize)
      | error e =>
        intro herr
        have he : e = .undefined what := by
          rw [← Except.error.injEq (α := Int)]
          simpa [bind, Except.bind, hsize] using herr
        subst he
        cases hkind : field.type.kind <;> simp [hkind, typePrimitiveSize] at hsize
  exact step (fun i hi => h i (List.mem_range.mp hi)) 0

/-- Garbage in the counter is what comes between a table and its fields. -/
theorem recorded_push_iff {count : Nat}
    (hfits : fields = [] ∨ count + fields.length ≤ maxParamCount) :
    Recorded fields ((freshTable count).push fields) ↔ count = 0 := by
  constructor
  · intro h
    have hcount : count + fields.length = fields.length := h.count
    omega
  · rintro rfl
    have hlen : fields.length ≤ maxParamCount := by
      rcases hfits with rfl | hle
      · exact Nat.zero_le _
      · omega
    have hcount : ((freshTable 0).push fields).fieldCount = fields.length := Nat.zero_add _
    have hfield : ∀ i < ((freshTable 0).push fields).fieldCount,
        ∃ field, ((freshTable 0).push fields).field i = .ok field :=
      fun i hi => ⟨_, field_push (hcount ▸ hi) hlen⟩
    exact ⟨hcount, fun i hi => field_push hi hlen, printFields_ok hfield,
      tableSize_defined hfield⟩

/-! ## Tables as they are declared -/

/-- There is a diagnostic that was not there before. -/
def Outcome.Reports {α : Type} (p : Parser) : Outcome α → Prop
  | .exit diags => p.diags.length < diags.length
  | .jump _ q => p.diags.length < q.diags.length
  | _ => False

/-- The declaration yields the table, or a diagnostic if there are too many fields. -/
def TableKept (r : Rules) (p : Parser) (op ident : Token) (fields : List Param) : Prop :=
  (∃ table q, ruleDeclTable r p = .ok (.table op ident (.table table)) q ∧ Recorded fields table) ∨
    maxParamCount < fields.length ∧ (ruleDeclTable r p).Reports p

/-- A table is recorded if the memory it gets happens to hold a zero in the place of its counter,
and if its fields fit the array. Otherwise garbage is counted as fields, or a field is stored behind
the array; nothing is ever reported. -/
theorem table_recorded_iff {op ident : Token} (hop : op.kind = .kwTable)
    (hident : ident.kind = .literalIdent) (hts : ts ∈ fieldlist fields) (hfuel : ts.length ≤ fuel)
    (htoks : p.toks = op :: ident :: (ts ++ rest)) (hs : ∀ t ∈ p.toks, t.kind ≠ .sentinel) :
    TableKept (rules fuel) p op ident fields ↔
      p.garbage.headD 0 = 0 ∧ fields.length ≤ maxParamCount := by
  have hr : (rules fuel).Complete fun _ => True := rules_complete _ fuel
  have hlen : ts.length ≤ (rules fuel).fuel := by rwa [rules_fuel]
  by_cases hfits : fields = [] ∨ counter p + fields.length ≤ maxParamCount
  · obtain ⟨q, hok⟩ := ruleDeclTable_fits hr hop hident hts hlen htoks hs hfits
    have hle : fields.length ≤ maxParamCount := by
      rcases hfits with rfl | hle
      · exact Nat.zero_le _
      · omega
    have hkept : TableKept (rules fuel) p op ident fields ↔
        Recorded fields ((freshTable (counter p)).push fields) := by
      rw [TableKept, hok]
      constructor
      · rintro (⟨table, q', heq, h⟩ | ⟨-, h⟩)
        · cases heq
          exact h
        · exact h.elim
      · intro h
        exact .inl ⟨_, q, rfl, h⟩
    rw [hkept, recorded_push_iff hfits]
    exact (and_iff_left hle).symm
  · obtain ⟨hne, hmany⟩ := not_or.mp hfits
    have hundefined :=
      ruleDeclTable_overruns hr hop hident hts hlen htoks hs hne (Nat.lt_of_not_le hmany)
    refine iff_of_false ?_ ?_
    · rw [TableKept, hundefined]
      rintro (⟨table, q', heq, -⟩ | ⟨-, h⟩)
      · cases heq
      · exact h
    · rintro ⟨hzero, hle⟩
      have hcounter : counter p = 0 := hzero
      omega

/-- The fields between braces, and a declaration of a table with them. -/
def intFieldlist (n : Nat) : List Token :=
  { kind := .lbrace } :: (intParams n ++ [{ kind := .rbrace }])

def intTable (n : Nat) : List Token :=
  { kind := .kwTable } :: .ident "t" :: (intFieldlist n ++ [])

theorem intFieldlist_reads (n : Nat) :
    intFieldlist n ∈ fieldlist (List.replicate n intParam) := by
  exact cons_mem_mul (kind_mem_tokenOf _)
    (Language.append_mem_mul (intParams_reads n) (kind_mem_tokenOf _))

theorem intTable_genuine (n : Nat) : ∀ t ∈ intTable n, t.kind ≠ .sentinel := by
  intro t ht
  simp only [intTable, intFieldlist, List.append_nil, List.mem_cons, List.mem_append,
    List.not_mem_nil, or_false] at ht
  rcases ht with rfl | rfl | rfl | ht | rfl
  · simp
  · simp [Token.ident]
  · simp
  · exact intParams_genuine n t ht
  · simp

/-- `{a: *long, b: int}` -/
def mixedFieldlist : List Token := { kind := .lbrace } :: (mixedParamTokens ++ [{ kind := .rbrace }])

theorem table_recorded_iff_mixedFields :
    mixedFieldlist ∈ fieldlist mixedParams ∧
      TableKept (rules 10) { toks := { kind := .kwTable } :: .ident "t" :: mixedFieldlist }
        { kind := .kwTable } (.ident "t") mixedParams := by
  have hlist : mixedFieldlist ∈ fieldlist mixedParams := cons_mem_mul (kind_mem_tokenOf .lbrace)
    (Language.append_mem_mul mixedParams_reads (kind_mem_tokenOf .rbrace))
  have hfuel : mixedFieldlist.length ≤ 10 := by decide
  have htoks : ({ toks := { kind := .kwTable } :: .ident "t" :: mixedFieldlist } : Parser).toks =
      { kind := .kwTable } :: .ident "t" :: (mixedFieldlist ++ []) := rfl
  exact ⟨hlist, (table_recorded_iff rfl rfl hlist hfuel htoks (by decide)).mpr (by decide)⟩

/-- With a one in the place of its counter a table of one field has two, and the last one of 256
fields is stored behind the array. -/
theorem table_not_recorded :
    (∃ q, ruleDeclTable (rules 10) { toks := intTable 1, garbage := [1] } =
      .ok (.table { kind := .kwTable } (.ident "t") (.table ⟨[intParam], 2⟩)) q) ∧
      ruleDeclTable (rules 1026) { toks := intTable 256 } =
        .undefined "store behind the fields of a table" := by
  have hr (fuel : Nat) : (rules fuel).Complete fun _ => True := rules_complete _ fuel
  constructor
  · have hlen : (intFieldlist 1).length ≤ (rules 10).fuel := by
      rw [rules_fuel]
      decide
    have htoks : ({ toks := intTable 1, garbage := [1] } : Parser).toks =
        { kind := .kwTable } :: .ident "t" :: (intFieldlist 1 ++ []) := rfl
    exact ruleDeclTable_fits (hr 10) rfl rfl (intFieldlist_reads 1) hlen htoks (intTable_genuine 1)
      (.inr (by decide))
  · have hlen : (intFieldlist 256).length ≤ (rules 1026).fuel := by
      rw [rules_fuel]
      simp [intFieldlist, intParams_length]
    have htoks : ({ toks := intTable 256 } : Parser).toks =
        { kind := .kwTable } :: .ident "t" :: (intFieldlist 256 ++ []) := rfl
    have hcount : (List.replicate 256 intParam).length = 256 := List.length_replicate
    have hne : List.replicate 256 intParam ≠ [] := by
      intro hnil
      rw [hnil] at hcount
      cases hcount
    refine ruleDeclTable_overruns (hr 1026) rfl rfl (intFieldlist_reads 256) hlen htoks
      (intTable_genuine 256) hne ?_
    rw [hcount]
    decide

end Seron
