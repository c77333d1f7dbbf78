import Seron.Verify.Primitives

/-! # How the rules end

A rule below the statements either moves ahead in the input, or stops the compiler, or makes one
jump of panic mode, to the buffer of the current context. With fuel for the tokens in front of it
the model never cuts it off. -/

namespace Seron

/-! ## What changes in the state -/

/-- Between the states only tokens have been consumed. -/
structure Advanced (p q : Parser) : Prop where
  toks : q.toks <:+ p.toks
  ctx : q.ctx = p.ctx
  ctxStmt : q.ctxStmt = p.ctxStmt
  ctxDecl : q.ctxDecl = p.ctxDecl
  activations : q.activations = p.activations
  errcount : q.errcount = p.errcount

/-- Between the states panic mode has gone to the next statement or declaration. -/
structure Recovered (p : Parser) (target : JumpTarget) (q : Parser) : Prop where
  toks : q.toks <:+ p.toks
  ctx : q.ctx = p.ctx
  ctxDecl : q.ctxDecl = p.ctxDecl
  activations : q.activations = p.activations
  errcount : q.errcount = p.errcount + 1
  target : match p.ctx with
    | .decl => target = .decl ∧ (parserPeek q).kind ∈ [TokenKind.kwProc, .kwTable]
    | .stmt => ∃ a, p.ctxStmt = some a ∧ target = .stmt a ∧ q.toks.length < p.toks.length

/-- The buffer of the current context has been filled. -/
def Armed (p : Parser) : Prop :=
  match p.ctx with
  | .decl => p.ctxDecl = true
  | .stmt => p.ctxStmt ≠ none

variable {p q r : Parser} {target : JumpTarget}

theorem Advanced.refl (p : Parser) : Advanced p p := ⟨List.suffix_rfl, rfl, rfl, rfl, rfl, rfl⟩

theorem Advanced.trans (h : Advanced p q) (h' : Advanced q r) : Advanced p r where
  toks := h'.toks.trans h.toks
  ctx := h'.ctx.trans h.ctx
  ctxStmt := h'.ctxStmt.trans h.ctxStmt
  ctxDecl := h'.ctxDecl.trans h.ctxDecl
  activations := h'.activations.trans h.activations
  errcount := h'.errcount.trans h.errcount

theorem Advanced.recovered (h : Advanced p q) (h' : Recovered q target r) :
    Recovered p target r := by
  obtain ⟨htoks, hctx, hdecl, hact, herr, htarget⟩ := h'
  refine ⟨htoks.trans h.toks, hctx.trans h.ctx, hdecl.trans h.ctxDecl, hact.trans h.activations,
    ?_, ?_⟩
  · rw [herr, h.errcount]
  · rw [h.ctx, h.ctxStmt] at htarget
    split at htarget
    · exact htarget
    · obtain ⟨a, hstmt, ha, hlt⟩ := htarget
      exact ⟨a, hstmt, ha, Nat.lt_of_lt_of_le hlt h.toks.length_le⟩

theorem Advanced.armed (h : Advanced p q) : Armed q ↔ Armed p := by
  unfold Armed
  rw [h.ctx, h.ctxStmt, h.ctxDecl]

theorem Advanced.genuine (h : Advanced p q) (hp : ∀ t ∈ p.toks, t.kind ≠ .sentinel) :
    ∀ t ∈ q.toks, t.kind ≠ .sentinel :=
  fun t ht => hp t (h.toks.mem ht)

/-! ## How rules end -/

/-- What a `longjmp` to a buffer without contents is called. -/
abbrev unfilled : String := "longjmp to a buffer no setjmp filled"

/-- What a field behind the last one of a table is called. -/
abbrev overflow : String := "store behind the fields of a table"

/-- Started in `p`, the rule has this outcome: it consumes at least `k` tokens when it returns, and
is cut off only if there are at least `n` tokens. -/
def Outcome.Fits {α : Type} (p : Parser) (n k : Nat) : Outcome α → Prop
  | .ok _ q => Advanced p q ∧ q.toks.length + k ≤ p.toks.length
  | .jump target q => Recovered p target q
  | .exit _ => True
  | .panic _ => False
  | .undefined what => what = overflow ∨ what = unfilled ∧ ¬ Armed p
  | .fuel => n ≤ p.toks.length

/-- How the rule ends, started at a token that satisfies `C`. -/
def Concludes {α : Type} (C : Token → Prop) (n k : Nat) (x : P α) : Prop :=
  ∀ p, (∀ t ∈ p.toks, t.kind ≠ .sentinel) → C (parserPeek p) → (x p).Fits p n k

theorem Outcome.Fits.behind {α : Type} {o : Outcome α} {n m k j l : Nat} (hpq : Advanced p q)
    (hlen : q.toks.length + j ≤ p.toks.length) (h : o.Fits q m k) (hn : n ≤ m + j)
    (hl : l ≤ k + j) : o.Fits p n l := by
  cases o with
  | ok a r => exact ⟨hpq.trans h.1, by have := h.2; omega⟩
  | jump target r => exact hpq.recovered h
  | exit _ => trivial
  | panic _ => exact h
  | undefined what => exact h.imp_right (.imp_right (mt hpq.armed.mpr))
  | fuel =>
    change m ≤ q.toks.length at h
    change n ≤ p.toks.length
    omega

namespace Concludes

variable {α β : Type} {C : Token → Prop} {n m k : Nat} {x y : P α} {f : α → P β}

theorem weaken (hx : Concludes (fun _ => True) n k x) : Concludes C n k x :=
  fun p htoks _ => hx p htoks trivial

/-- With fewer tokens allowed, and fewer consumed. -/
theorem mono {j : Nat} (hx : Concludes C m k x) (hn : n ≤ m) (hj : j ≤ k) : Concludes C n j x :=
  fun p htoks hC => (hx p htoks hC).behind (j := 0) (.refl p) (Nat.le_refl _) hn hj

/-- What consumes a token consumes none at least. -/
theorem loose (hx : Concludes C n k x) : Concludes C n 0 x :=
  hx.mono (Nat.le_refl _) (Nat.zero_le _)

theorem pure {a : α} : Concludes C n 0 (Pure.pure a : P α) :=
  fun p _ _ => ⟨.refl p, Nat.le_refl _⟩

/-- Behind a step that consumes `j` tokens, so many fewer are left to the rest. -/
theorem bind {j l : Nat} (hx : Concludes C m j x) (hf : ∀ a, Concludes (fun _ => True) n k (f a))
    (hm : l ≤ m) (hn : l ≤ n + j) {i : Nat} (hi : i ≤ k + j) : Concludes C l i (x >>= f) := by
  intro p htoks hC
  have hxp := hx p htoks hC
  cases hx' : x p with
  | ok a q =>
    rw [hx'] at hxp
    rw [P.bind_apply_ok hx']
    exact (hf a q (hxp.1.genuine htoks) trivial).behind hxp.1 hxp.2 hn hi
  | fuel =>
    rw [hx'] at hxp
    simp only [Bind.bind, P.bind, hx']
    exact Nat.le_trans hm hxp
  | _ =>
    rw [hx'] at hxp
    simp only [Bind.bind, P.bind, hx']
    exact hxp

/-- A rule that consumes a token, and what follows it. -/
theorem seq (hx : Concludes C (n + 1) 1 x) (hf : ∀ a, Concludes (fun _ => True) n 0 (f a)) :
    Concludes C (n + 1) 1 (x >>= f) :=
  bind hx hf (Nat.le_refl _) (Nat.le_refl _) (Nat.le_refl _)

/-- A rule that need not consume a token, and what follows it. -/
theorem then_ (hx : Concludes C n 0 x) (hf : ∀ a, Concludes (fun _ => True) n k (f a)) :
    Concludes C n k (x >>= f) :=
  bind hx hf (Nat.le_refl _) (Nat.le_refl _) (Nat.le_refl _)

theorem ite {c : Prop} [Decidable c] (hx : Concludes C n k x) (hy : Concludes C n k y) :
    Concludes C n k (if c then x else y) := by
  split
  · exact hx
  · exact hy

theorem map {g : α → β} (hx : Concludes C n k x) : Concludes C n k (g <$> x) :=
  bind (k := 0) (n := n) hx (fun _ => pure) (Nat.le_refl _) (Nat.le_add_right _ _)
    (Nat.le_add_left _ _)

theorem dropped (hx : Concludes C n k x) : Concludes C n k (discard x) := map hx

/-- The current token is known from then on. -/
theorem token {f : Token → P β} (hf : ∀ t, C t → Concludes (fun t' => t' = t ∧ C t') n k (f t)) :
    Concludes C n k (parserToken >>= f) :=
  fun p htoks hC => hf (parserPeek p) hC p htoks ⟨rfl, hC⟩

theorem branch {kinds : List TokenKind} (hx : Concludes (fun t => C t ∧ t.kind ∈ kinds) n k x)
    (hy : Concludes (fun t => C t ∧ t.kind ∉ kinds) n k y) :
    Concludes C n k (parserMatchTokens kinds >>= fun b => if b = true then x else y) := by
  intro p htoks hC
  rw [matchTokens_bind (parserPeek_ne_sentinel htoks)]
  split
  · exact hx p htoks ⟨hC, by assumption⟩
  · exact hy p htoks ⟨hC, by assumption⟩

theorem branch_one {kind : TokenKind} (hx : Concludes (fun t => C t ∧ t.kind = kind) n k x)
    (hy : Concludes (fun t => C t ∧ t.kind ≠ kind) n k y) :
    Concludes C n k (parserMatchToken kind >>= fun b => if b = true then x else y) := by
  intro p htoks hC
  rw [matchToken_bind (parserPeek_ne_sentinel htoks)]
  split
  · exact hx p htoks ⟨hC, by assumption⟩
  · exact hy p htoks ⟨hC, by assumption⟩

end Concludes

/-! ## The primitives -/

/-- At the end of the file the compiler exits; anywhere else a token is consumed. -/
theorem parserAdvance_cases (hsentinel : (parserPeek p).kind ≠ .sentinel) :
    (∃ diags, (parserPeek p).kind = .eof ∧ parserAdvance p = .exit diags) ∨
      ∃ t ts, p.toks = t :: ts ∧ t.kind ≠ .eof ∧ parserAdvance p = .ok t { p with toks := ts } := by
  by_cases heof : (parserPeek p).kind = .eof
  · have h : parserAdvance p = _ := matchToken_bind hsentinel
    rw [if_pos heof] at h
    exact .inl ⟨_, heof, h⟩
  · cases htoks : p.toks with
    | nil => simp [parserPeek, htoks, Token.eof] at heof
    | cons t ts =>
      rw [parserPeek, htoks] at heof
      exact .inr ⟨t, ts, rfl, heof, (parserAdvance_ok hsentinel).mpr ⟨ts, htoks, heof, rfl⟩⟩

/-- A token of one of the kinds comes before the end of the file. -/
def Ahead (kinds : List TokenKind) (ts : List Token) : Prop :=
  ∃ skipped t rest, ts = skipped ++ t :: rest ∧ t.kind ∈ kinds ∧ ∀ u ∈ skipped, u.kind ≠ .eof

theorem Ahead.cons_iff {kinds : List TokenKind} {t : Token} {ts : List Token}
    (ht : t.kind ∉ kinds) : Ahead kinds (t :: ts) ↔ t.kind ≠ .eof ∧ Ahead kinds ts := by
  constructor
  · rintro ⟨skipped, u, rest, hts, hu, hskipped⟩
    cases skipped with
    | nil =>
      obtain ⟨rfl, -⟩ := List.cons.inj hts
      exact absurd hu ht
    | cons v skipped =>
      obtain ⟨rfl, hrest⟩ := List.cons.inj hts
      obtain ⟨hv, hskipped⟩ := List.forall_mem_cons.mp hskipped
      exact ⟨hv, skipped, u, rest, hrest, hu, hskipped⟩
  · rintro ⟨hne, skipped, u, rest, rfl, hu, hskipped⟩
    exact ⟨t :: skipped, u, rest, rfl, hu, List.forall_mem_cons.mpr ⟨hne, hskipped⟩⟩

theorem discard_ok {α : Type} {x : P α} {a : α} (h : x p = .ok a q) : discard x p = .ok () q :=
  P.bind_apply_ok h

theorem discard_exit {α : Type} {x : P α} {diags : List Diagnostic} (h : x p = .exit diags) :
    discard x p = .exit diags := by
  change P.bind x _ p = _
  simp only [P.bind, h]

theorem bind_exit {α β : Type} {x : P α} {f : α → P β} {diags : List Diagnostic}
    (h : x p = .exit diags) : (x >>= f) p = .exit diags := by
  change P.bind x f p = _
  simp only [P.bind, h]

/-- The loop of the recovery functions stops at the first token of the kinds. -/
theorem parserSkipTo_cases {kinds : List TokenKind} (htoks : ∀ t ∈ p.toks, t.kind ≠ .sentinel)
    (heof : .eof ∉ kinds) :
    (∃ diags, ¬ Ahead kinds p.toks ∧ parserSkipTo kinds p.toks p = .exit diags) ∨
      ∃ t ts, Ahead kinds p.toks ∧ t :: ts <:+ p.toks ∧ t.kind ∈ kinds ∧
        parserSkipTo kinds p.toks p = .ok () { p with toks := t :: ts } := by
  induction hts : p.toks generalizing p with
  | nil =>
    have hpeek : (parserPeek p).kind = .eof := by
      rw [parserPeek, hts]
      rfl
    have hsentinel : (parserPeek p).kind ≠ .sentinel := by simp [hpeek]
    have h : parserSkipTo kinds [] p = _ := matchTokens_bind hsentinel
    rw [hpeek, if_neg heof] at h
    rcases parserAdvance_cases hsentinel with ⟨diags, -, hexit⟩ | ⟨t, ts, hp, _⟩
    · refine .inl ⟨diags, ?_, ?_⟩
      · rintro ⟨skipped, t, rest, hnil, -⟩
        exact absurd hnil (by simp)
      · rw [h, discard_exit hexit]
    · exact absurd (hts.symm.trans hp) (by simp)
  | cons t ts ih =>
    have hpeek : parserPeek p = t := by
      rw [parserPeek, hts]
      rfl
    have hsentinel := parserPeek_ne_sentinel htoks
    have h : parserSkipTo kinds (t :: ts) p = _ := matchTokens_bind hsentinel
    rw [hpeek] at h hsentinel
    by_cases hkind : t.kind ∈ kinds
    · rw [if_pos hkind] at h
      refine .inr
        ⟨t, ts, ⟨[], t, ts, rfl, hkind, List.forall_mem_nil _⟩, List.suffix_rfl, hkind, ?_⟩
      rw [h, ← hts]
      rfl
    · rw [if_neg hkind] at h
      rw [h, Ahead.cons_iff hkind]
      rcases parserAdvance_cases (parserPeek_ne_sentinel htoks) with
        ⟨diags, heof', hexit⟩ | ⟨u, us, hp, hne, hok⟩
      · exact .inl ⟨diags, fun hahead => hahead.1 (hpeek ▸ heof'), bind_exit (discard_exit hexit)⟩
      · obtain ⟨rfl, rfl⟩ := List.cons.inj (hts.symm.trans hp)
        have htoks' : ∀ t ∈ ts, t.kind ≠ .sentinel := fun t ht =>
          htoks t (hts ▸ List.mem_cons_of_mem _ ht)
        rw [P.bind_apply_ok (discard_ok hok)]
        rcases @ih { p with toks := ts } htoks' rfl with
          ⟨diags, hahead, hskip⟩ | ⟨v, vs, hahead, hsuffix, hv, hskip⟩
        · exact .inl ⟨diags, fun h => hahead h.2, hskip⟩
        · exact .inr ⟨v, vs, ⟨hne, hahead⟩, hsuffix.trans (List.suffix_cons _ _), hv, hskip⟩

theorem parserAdvance_eq : parserAdvance p =
    if parserMatchTokensVa p [.eof] = true then
      diagnosticExit none "Unexpected end of file. (please finish your code)" p
    else .ok (parserPeek p) { p with toks := p.toks.tail } :=
  P.apply_ite

theorem parserAdvance_tail {t : Token} (h : parserAdvance p = .ok t q) :
    p.toks ≠ [] ∧ q = { p with toks := p.toks.tail } := by
  rw [parserAdvance_eq] at h
  split at h
  · cases h
  · rename_i heof
    cases h
    refine ⟨fun hnil => heof ?_, rfl⟩
    rw [parserMatchTokensVa_eq_true, parserPeek, hnil]
    exact .inl List.mem_cons_self

theorem parserAdvance_outcome :
    (∃ diags, parserAdvance p = .exit diags) ∨ ∃ t q, parserAdvance p = .ok t q := by
  rw [parserAdvance_eq]
  split
  · exact .inl ⟨_, rfl⟩
  · exact .inr ⟨_, _, rfl⟩

theorem Advanced.tail {t : Token} {ts : List Token} (h : p.toks = t :: ts) :
    Advanced p { p with toks := ts } where
  toks := ⟨[t], h.symm⟩
  ctx := rfl
  ctxStmt := rfl
  ctxDecl := rfl
  activations := rfl
  errcount := rfl

namespace Concludes

variable {α β : Type} {C : Token → Prop} {n k : Nat} {x y : P α} {f : α → P β}
  {kind : TokenKind} {kinds : List TokenKind}

theorem parserAdvance : Concludes C n 1 parserAdvance := by
  intro p htoks _
  rcases parserAdvance_cases (parserPeek_ne_sentinel htoks) with ⟨_, _, h⟩ | ⟨t, ts, hts, _, h⟩
  · rw [h]
    trivial
  · rw [h]
    exact ⟨.tail hts, by rw [hts]; exact Nat.le_refl _⟩

/-- The token that is consumed is the current one. -/
theorem advance_bind {f : Token → P β} (hf : ∀ t, C t → Concludes (fun _ => True) n 0 (f t)) :
    Concludes C (n + 1) 1 (Seron.parserAdvance >>= f) := by
  intro p htoks hC
  rcases parserAdvance_cases (parserPeek_ne_sentinel htoks) with ⟨_, _, h⟩ | ⟨t, ts, hts, _, h⟩
  · simp only [Bind.bind, P.bind, h]
    trivial
  · rw [P.bind_apply_ok h]
    have hpq : Advanced p { p with toks := ts } := .tail hts
    rw [parserPeek, hts] at hC
    exact (hf t hC _ (hpq.genuine htoks) trivial).behind hpq (by rw [hts]; exact Nat.le_refl _)
      (Nat.le_refl _) (Nat.le_refl _)

end Concludes

/-- Behind the next semicolon, if there is one. -/
theorem parserRecoverStmt_cases (htoks : ∀ t ∈ p.toks, t.kind ≠ .sentinel) :
    (∃ diags, ¬ Ahead [.semicolon] p.toks ∧ parserRecoverStmt p = .exit diags) ∨
      ∃ ts, Ahead [.semicolon] p.toks ∧ ts <:+ p.toks ∧ ts.length < p.toks.length ∧
        parserRecoverStmt p = .ok () { p with toks := ts } := by
  rcases @parserSkipTo_cases p [.semicolon] htoks (by simp) with
    ⟨diags, hahead, hskip⟩ | ⟨t, ts, hahead, hsuffix, ht, hskip⟩
  · exact .inl ⟨diags, hahead, bind_exit hskip⟩
  · have hkind : t.kind = .semicolon := List.mem_singleton.mp ht
    have hadvance : parserAdvance { p with toks := t :: ts } = .ok t { p with toks := ts } :=
      (parserAdvance_ok (by simp [parserPeek, hkind])).mpr ⟨ts, rfl, by simp [hkind], rfl⟩
    exact .inr ⟨ts, hahead, (List.suffix_cons _ _).trans hsuffix, hsuffix.length_le,
      (P.bind_apply_ok hskip).trans (discard_ok hadvance)⟩

theorem longjmpStmt_some {α : Type} {a : Nat} (h : p.ctxStmt = some a) :
    (longjmpStmt : P α) p = .jump (.stmt a) p := by
  unfold longjmpStmt
  rw [h]

theorem longjmpStmt_none {α : Type} (h : p.ctxStmt = none) :
    (longjmpStmt : P α) p = .undefined unfilled := by
  unfold longjmpStmt
  rw [h]

theorem parserSync_declEq {α : Type} (h : p.ctx = .decl) : (parserSync : P α) p =
    (do parserRecoverDecl; longjmpDecl : P α) { p with errcount := p.errcount + 1 } := by
  unfold parserSync
  dsimp only
  split
  · rfl
  · rename_i hctx
    cases h.symm.trans hctx

theorem parserSync_stmtEq {α : Type} (h : p.ctx = .stmt) : (parserSync : P α) p =
    (do parserRecoverStmt; longjmpStmt : P α) { p with errcount := p.errcount + 1 } := by
  unfold parserSync
  dsimp only
  split
  · rename_i hctx
    cases h.symm.trans hctx
  · rfl

/-- In a statement with a semicolon ahead, panic mode jumps to the buffer filled last. -/
theorem parserSync_stmt {α : Type} {a : Nat} (htoks : ∀ t ∈ p.toks, t.kind ≠ .sentinel)
    (hctx : p.ctx = .stmt) (hstmt : p.ctxStmt = some a) :
    (∃ diags, ¬ Ahead [.semicolon] p.toks ∧ (parserSync : P α) p = .exit diags) ∨
      ∃ q, Ahead [.semicolon] p.toks ∧ (parserSync : P α) p = .jump (.stmt a) q ∧
        Recovered p (.stmt a) q := by
  rw [parserSync_stmtEq hctx]
  rcases @parserRecoverStmt_cases { p with errcount := p.errcount + 1 } htoks with
    ⟨diags, hahead, hrecover⟩ | ⟨ts, hahead, hsuffix, hlt, hrecover⟩
  · exact .inl ⟨diags, hahead, bind_exit hrecover⟩
  · refine .inr ⟨_, hahead, (P.bind_apply_ok hrecover).trans (longjmpStmt_some hstmt), hsuffix,
      rfl, rfl, rfl, rfl, ?_⟩
    rw [hctx]
    exact ⟨a, hstmt, rfl, hlt⟩

/-- Panic mode ends in a jump to the next statement or declaration, if there is one before the
end of the file. -/
theorem parserSync_cases {α : Type} (htoks : ∀ t ∈ p.toks, t.kind ≠ .sentinel) :
    (∃ diags, (parserSync : P α) p = .exit diags) ∨
      (∃ target q, (parserSync : P α) p = .jump target q ∧ Recovered p target q) ∨
      (parserSync : P α) p = .undefined unfilled ∧ ¬ Armed p := by
  let p' : Parser := { p with errcount := p.errcount + 1 }
  cases hctx : p.ctx with
  | decl =>
    rw [parserSync_declEq hctx]
    rcases @parserSkipTo_cases p' [.kwProc, .kwTable] htoks (by simp) with
      ⟨diags, -, hskip⟩ | ⟨t, ts, -, hsuffix, ht, hskip⟩
    · exact .inl ⟨diags, bind_exit hskip⟩
    · have hskip' : parserRecoverDecl p' = .ok () { p' with toks := t :: ts } := hskip
      rw [P.bind_apply_ok hskip']
      by_cases hdecl : p.ctxDecl = true
      · refine .inr (.inl ⟨.decl, { p' with toks := t :: ts }, if_pos hdecl, hsuffix, rfl, rfl, rfl,
          rfl, ?_⟩)
        rw [hctx]
        exact ⟨rfl, ht⟩
      · exact .inr (.inr ⟨if_neg hdecl, by simp [Armed, hctx, hdecl]⟩)
  | stmt =>
    cases hstmt : p.ctxStmt with
    | some a =>
      rcases parserSync_stmt htoks hctx hstmt with ⟨diags, -, h⟩ | ⟨q, -, h, hq⟩
      · exact .inl ⟨diags, h⟩
      · exact .inr (.inl ⟨.stmt a, q, h, hq⟩)
    | none =>
      rw [parserSync_stmtEq hctx]
      rcases @parserRecoverStmt_cases p' htoks with ⟨diags, -, h⟩ | ⟨ts, -, -, -, h⟩
      · exact .inl ⟨diags, bind_exit h⟩
      · exact .inr (.inr ⟨(P.bind_apply_ok h).trans (longjmpStmt_none hstmt),
          by simp [Armed, hctx, hstmt]⟩)

namespace Concludes

variable {α β : Type} {C : Token → Prop} {n k : Nat} {x y : P α} {f : α → P β}
  {kind : TokenKind} {kinds : List TokenKind}

theorem parserSync : Concludes C n k (parserSync : P α) := by
  intro p htoks _
  rcases @parserSync_cases p α htoks with ⟨diags, h⟩ | ⟨target, q, h, hq⟩ | ⟨h, hp⟩
  · rw [h]
    trivial
  · rw [h]
    exact hq
  · rw [h]
    exact .inr ⟨rfl, hp⟩

theorem diagnostic {token : Token} {message : String} {y : P α} (hy : Concludes C n k y) :
    Concludes C n k (do diagnosticLoc token message; y) := by
  intro p htoks hC
  have hpq : Advanced p { p with diags := p.diags ++ [⟨some token, message⟩] } :=
    ⟨List.suffix_rfl, rfl, rfl, rfl, rfl, rfl⟩
  have hfits := hy { p with diags := p.diags ++ [⟨some token, message⟩] } htoks hC
  exact hfits.behind (j := 0) hpq (Nat.le_refl _) (Nat.le_refl _) (Nat.le_refl _)

theorem parserExpectToken : Concludes C n 0 (parserExpectToken kind) :=
  branch_one pure (token fun _ _ => diagnostic parserSync)

/-- A token is consumed, unless panic mode is entered. -/
theorem parserConsume : Concludes C n 1 (parserConsume kind) :=
  branch_one parserAdvance (then_ (weaken parserExpectToken) fun _ => parserAdvance)

theorem parserSkip : Concludes C n 0 (parserSkip kind) :=
  branch_one parserConsume.dropped.loose pure

theorem consume_bind {f : Token → P β} (hf : ∀ t, Concludes (fun _ => True) n 0 (f t)) :
    Concludes C (n + 1) 1 (Seron.parserConsume kind >>= f) :=
  seq parserConsume hf

theorem consume_skip {f : Unit → P β} (hf : ∀ u, Concludes (fun _ => True) n 0 (f u)) :
    Concludes C (n + 1) 1 (discard (Seron.parserConsume kind) >>= f) :=
  seq parserConsume.dropped hf

theorem orPanic_bind {o : Option α} (ho : ∀ p : Parser, C (parserPeek p) → o ≠ none)
    (hf : ∀ a, Concludes C n k (f a)) : Concludes C n k (orPanic o >>= f) := by
  intro p htoks hC
  cases o with
  | none => exact absurd rfl (ho p hC)
  | some a => exact hf a p htoks hC

end Concludes

/-! ## Lists, parameters and types -/

/-- How the rules that are called recursively end. -/
structure Rules.Advance (r : Rules) : Prop where
  expr : Concludes (fun _ => True) r.fuel 1 r.expr
  assign : Concludes (fun _ => True) r.fuel 1 r.assign
  type : Concludes (fun _ => True) r.fuel 1 r.type

section
variable {r : Rules} (hr : r.Advance) {C : Token → Prop}

include hr

theorem exprListLoop_ends {close : TokenKind} {fuel : Nat} {items : List AstNode}
    (hfuel : fuel ≤ r.fuel) : Concludes C fuel 0 (exprListLoop r close fuel items) := by
  induction fuel generalizing items C with
  | zero => exact fun p _ _ => Nat.zero_le _
  | succ fuel ih =>
    refine .branch_one .pure (.loose (.seq (.mono (.weaken hr.expr) hfuel (Nat.le_refl _))
      fun item => .then_ .parserSkip fun _ => ih (Nat.le_of_succ_le hfuel)))

theorem ruleUtilArglist_ends : Concludes C (r.fuel + 1) 1 (ruleUtilArglist r) :=
  .consume_skip fun _ => .then_ (exprListLoop_ends hr (Nat.le_refl _)) fun _ =>
    .then_ (.loose (.dropped .parserConsume)) fun _ => .pure

theorem ruleUtilParam_ends : Concludes C (r.fuel + 1) 1 (ruleUtilParam r) :=
  .consume_bind fun _ => .then_ (.loose (.dropped .parserConsume)) fun _ =>
    .then_ (.loose hr.type) fun _ => .pure

theorem ruleUtilParamlist_loop_ends {fuel : Nat} {params : List Param} (hfuel : fuel ≤ r.fuel) :
    Concludes C fuel 0 (ruleUtilParamlist.loop r fuel params) := by
  induction fuel generalizing params C with
  | zero => exact fun p _ _ => Nat.zero_le _
  | succ fuel ih =>
    refine .branch_one .pure (.loose (.seq
      (.mono (ruleUtilParam_ends hr) (Nat.le_succ_of_le hfuel) (Nat.le_refl _)) fun param => ?_))
    dsimp only
    split
    · exact .token fun _ _ => .diagnostic .parserSync
    · exact .then_ .parserSkip fun _ => ih (Nat.le_of_succ_le hfuel)

theorem ruleUtilParamlist_ends : Concludes C (r.fuel + 1) 1 (ruleUtilParamlist r) :=
  .consume_skip fun _ => .then_ (ruleUtilParamlist_loop_ends hr (Nat.le_refl _)) fun _ =>
    .then_ (.loose (.dropped .parserConsume)) fun _ => .pure

theorem ruleUtilFieldlist_loop_ends {fuel : Nat} {table : Table} (hfuel : fuel ≤ r.fuel) :
    Concludes C fuel 0 (ruleUtilFieldlist.loop r fuel table) := by
  induction fuel generalizing table C with
  | zero => exact fun p _ _ => Nat.zero_le _
  | succ fuel ih =>
    refine .branch_one .pure (.loose (.seq
      (.mono (ruleUtilParam_ends hr) (Nat.le_succ_of_le hfuel) (Nat.le_refl _)) fun field =>
        .ite ?_ ?_))
    · exact fun _ _ _ => .inl rfl
    · exact .then_ .parserSkip fun _ => ih (Nat.le_of_succ_le hfuel)

theorem ruleUtilFieldlist_ends {table : Table} :
    Concludes C (r.fuel + 1) 1 (ruleUtilFieldlist r table) :=
  .consume_skip fun _ => .then_ (ruleUtilFieldlist_loop_ends hr (Nat.le_refl _)) fun _ =>
    .then_ (.loose (.dropped .parserConsume)) fun _ => .pure

/-- `rule_util_proc_type` behind `proc`. -/
def ruleUtilProcType.behind (r : Rules) (named : Bool) (op : Token) :
    P (Token × Option Token × Ty) := do
  let ident ← (if named then some <$> parserConsume .literalIdent else pure none)
  let params ← ruleUtilParamlist r
  let returntype ← r.type
  pure (op, ident, .procedure { params, returntype })

omit hr in
theorem ruleUtilProcType_eq {named : Bool} : ruleUtilProcType r named =
    parserConsume .kwProc >>= ruleUtilProcType.behind r named := rfl

theorem ruleUtilProcType_behind_ends {named : Bool} {op : Token} :
    Concludes C r.fuel 0 (ruleUtilProcType.behind r named op) := by
  refine .then_ ?_ fun ident => .then_
    (.mono (ruleUtilParamlist_ends hr) (Nat.le_succ _) (Nat.zero_le _)) fun params =>
      .then_ (.loose hr.type) fun _ => .pure
  cases named with
  | true => exact .loose (.map .parserConsume)
  | false => exact .pure

theorem ruleUtilProcType_ends {named : Bool} :
    Concludes C (r.fuel + 1) 1 (ruleUtilProcType r named) :=
  .consume_bind fun _ => ruleUtilProcType_behind_ends hr

theorem ruleUtilType_ends : Concludes C (r.fuel + 1) 1 (ruleUtilType r) := by
  refine .token fun tok _ => .branch_one ?_ (.branch_one ?_ (.branch_one ?_ (.branch ?_ ?_)))
  · exact .seq (.dropped .parserAdvance) fun _ => .then_ (.loose hr.type) fun _ => .pure
  · exact .bind (ruleUtilProcType_ends hr) (fun _ => .pure) (Nat.le_refl _) (Nat.le_refl _)
      (Nat.le_refl _)
  · exact .seq (.dropped .parserAdvance) fun _ => .pure
  · exact .advance_bind fun _ _ => .pure
  · exact .diagnostic .parserSync

/-! ## Expressions -/

theorem ruleGrouping_ends : Concludes C (r.fuel + 1) 1 (ruleGrouping r) :=
  .consume_skip fun _ => .branch_one (.token fun _ _ => .diagnostic .parserSync)
    (.then_ (.loose (.weaken hr.expr)) fun _ => .then_ (.loose (.dropped .parserConsume)) fun _ =>
      .pure)

theorem ruleExprPrimary_ends : Concludes C (r.fuel + 1) 1 (ruleExprPrimary r) := by
  refine .token fun tok _ =>
    .branch ?_ (.branch_one (ruleGrouping_ends hr) (.diagnostic .parserSync))
  refine .orPanic_bind (fun p hp => ?_) fun kind => .seq (.dropped .parserAdvance) fun _ => .pure
  obtain ⟨⟨rfl, -⟩, hkind⟩ := hp
  simp only [List.mem_cons, List.not_mem_nil, or_false] at hkind
  rcases hkind with h | h | h <;> simp [literalFromToken, h]

theorem ruleExprCall_ends : Concludes C (r.fuel + 1) 1 (ruleExprCall r) := by
  refine .seq (ruleExprPrimary_ends hr) fun node => .branch_one (.token fun op _ => ?_) .pure
  exact .then_ (.mono (ruleUtilArglist_ends hr) (Nat.le_succ _) (Nat.zero_le _)) fun _ => .pure

theorem ruleExprIndex_ends : Concludes C (r.fuel + 1) 1 (ruleExprIndex r) := by
  refine .seq (ruleExprCall_ends hr) fun node => .branch_one ?_ .pure
  exact .then_ (.loose .parserConsume) fun op => .then_ (.loose hr.expr) fun index =>
    .then_ (.loose (.dropped .parserConsume)) fun _ => .pure

theorem ruleExprUnary_ends : Concludes C (r.fuel + 1) 1 (ruleExprUnary r) := by
  refine .branch (.advance_bind fun op hop => ?_) (ruleExprIndex_ends hr)
  refine .orPanic_bind (fun p _ => ?_) fun kind =>
    .then_ (.mono (ruleExprIndex_ends hr) (Nat.le_succ _) (Nat.zero_le _)) fun _ => .pure
  have hkind := hop.2
  simp only [List.mem_cons, List.not_mem_nil, or_false] at hkind
  rcases hkind with h | h | h | h <;> simp [unaryopFromToken, h]

omit hr in
theorem templBinop_ends {rule : P AstNode} {kinds : List TokenKind}
    (hrule : Concludes (fun _ => True) (r.fuel + 1) 1 rule)
    (hkinds : ∀ kind ∈ kinds, binopFromToken kind ≠ none) :
    Concludes C (r.fuel + 1) 1 (templBinop r.fuel rule kinds) := by
  have hloop (fuel : Nat) (hfuel : fuel ≤ r.fuel) (lhs : AstNode) :
      Concludes (fun _ => True) fuel 0 (templBinop.loop rule kinds fuel lhs) := by
    induction fuel generalizing lhs with
    | zero => exact fun p _ _ => Nat.zero_le _
    | succ fuel ih =>
      refine .branch (.loose (.advance_bind fun op hop => .then_
        (.mono hrule (Nat.le_succ_of_le (Nat.le_of_succ_le hfuel)) (Nat.zero_le _)) fun rhs => ?_))
        .pure
      exact .orPanic_bind (fun _ _ => hkinds _ hop.2) fun kind => ih (Nat.le_of_succ_le hfuel) _
  exact .seq (.weaken hrule) fun lhs => hloop r.fuel (Nat.le_refl _) lhs

theorem ruleExprLogOr_ends : Concludes C (r.fuel + 1) 1 (ruleExprLogOr r) :=
  templBinop_ends (templBinop_ends (templBinop_ends (templBinop_ends (templBinop_ends
    (templBinop_ends (templBinop_ends (templBinop_ends (ruleExprUnary_ends hr) (by decide))
      (by decide)) (by decide)) (by decide)) (by decide)) (by decide)) (by decide)) (by decide)

theorem ruleExprAssign_ends : Concludes C (r.fuel + 1) 1 (ruleExprAssign r) := by
  refine .seq (ruleExprLogOr_ends hr) fun expr => .branch_one ?_ .pure
  exact .then_ (.loose .parserAdvance) fun op => .then_ (.loose hr.assign) fun _ => .pure

theorem ruleExprArray_ends : Concludes C (r.fuel + 1) 1 (ruleExprArray r) :=
  .consume_bind fun _ => .then_ (exprListLoop_ends hr (Nat.le_refl _)) fun _ =>
    .then_ (.loose (.dropped .parserConsume)) fun _ => .then_ (.loose hr.type) fun _ => .pure

theorem ruleExpr_ends : Concludes C (r.fuel + 1) 1 (ruleExpr r) :=
  .branch_one (ruleExprArray_ends hr) (ruleExprAssign_ends hr)

/-- `rule_decl_table` behind `table`. -/
def ruleDeclTable.behind (r : Rules) (op : Token) : P AstNode := do
  let ident ← parserConsume .literalIdent
  let table ← arenaAllocTable
  let table ← ruleUtilFieldlist r table
  pure (.table op ident (.table table))

omit hr in
theorem ruleDeclTable_eq :
    ruleDeclTable r = parserConsume .kwTable >>= ruleDeclTable.behind r := rfl

theorem ruleDeclTable_behind_ends {op : Token} :
    Concludes C r.fuel 0 (ruleDeclTable.behind r op) := by
  have halloc : Concludes (fun _ => True) r.fuel 0 arenaAllocTable :=
    fun p _ _ => ⟨⟨List.suffix_rfl, rfl, rfl, rfl, rfl, rfl⟩, Nat.le_refl _⟩
  exact .then_ (.loose .parserConsume) fun ident => .then_ halloc fun table =>
    .then_ (.mono (ruleUtilFieldlist_ends hr) (Nat.le_succ _) (Nat.zero_le _)) fun _ => .pure

/-! ## Statements without a block -/

omit hr in
theorem unlessToken_ends {α : Type} {x : P α} {kind : TokenKind} {n : Nat}
    (hx : Concludes (fun _ => True) n 0 x) : Concludes C n 0 (unlessToken kind x) :=
  .branch_one .pure (.map (.weaken hx))

theorem ruleExprstmt_ends : Concludes C r.fuel 1 (ruleExprstmt r) :=
  .then_ (unlessToken_ends (.loose hr.expr)) fun _ =>
    .bind (.dropped .parserConsume) (fun _ => .pure) (Nat.le_refl _) (Nat.le_succ _) (Nat.le_refl _)

theorem ruleStmtVardecl_ends : Concludes C (r.fuel + 1) 1 (ruleStmtVardecl r) :=
  .consume_bind fun _ => .then_ (.loose .parserConsume) fun _ =>
    .then_ (.loose (.dropped .parserConsume)) fun _ => .then_ (.loose hr.type) fun _ =>
      .then_ (unlessToken_ends (.then_ (.loose (.dropped .parserConsume)) fun _ => .loose hr.expr))
        fun _ => .then_ (.loose (.dropped .parserConsume)) fun _ => .pure

theorem ruleStmtReturn_ends : Concludes C (r.fuel + 1) 1 (ruleStmtReturn r) :=
  .consume_bind fun _ => .then_ (unlessToken_ends (.loose hr.expr)) fun _ =>
    .then_ (.loose (.dropped .parserConsume)) fun _ => .pure

end

theorem rules_fuel_eq (fuel : Nat) : (rules fuel).fuel = fuel := by
  cases fuel <;> rfl

theorem rules_advance (fuel : Nat) : (rules fuel).Advance := by
  induction fuel with
  | zero =>
    exact ⟨fun _ _ _ => Nat.zero_le _, fun _ _ _ => Nat.zero_le _, fun _ _ _ => Nat.zero_le _⟩
  | succ fuel ih =>
    have hexpr := @ruleExpr_ends _ ih fun _ => True
    have hassign := @ruleExprAssign_ends _ ih fun _ => True
    have htype := @ruleUtilType_ends _ ih fun _ => True
    rw [rules_fuel_eq] at hexpr hassign htype
    exact ⟨hexpr, hassign, htype⟩

end Seron
