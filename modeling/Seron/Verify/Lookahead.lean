import Mathlib
import Seron.Verify.Primitives
import Seron.Verify.Reading

/-! # Lookahead

What it means for a rule to accept a sequence of tokens in front of others, and with which tokens
the trees of each level begin and are continued. -/

namespace Seron

/-! ## Accepted tokens -/

/-- The kind of the token a rule sees at the end of the tokens it consumes. -/
def nextKind (rest : List Token) : TokenKind := (rest.headD .eof).kind

/-- Started at `ts`, with a token behind them whose kind satisfies `F`, the rule consumes them and
returns `a`, without a diagnostic. -/
def Accepts {α : Type} (F : TokenKind → Prop) (x : P α) (ts : List Token) (a : α) : Prop :=
  ∀ p rest, p.toks = ts ++ rest → (∀ t ∈ p.toks, t.kind ≠ .sentinel) → F (nextKind rest) →
    ∃ q, x p = .ok a q ∧ q.toks = rest ∧ q.diags = p.diags ∧ q.errcount = p.errcount

namespace Accepts

variable {α β : Type} {F G : TokenKind → Prop} {x y : P α} {f : α → P β} {ts us : List Token}
  {a : α} {b : β} {t : Token} {kind : TokenKind} {kinds : List TokenKind}

theorem imp (hx : Accepts F x ts a) (h : ∀ k, G k → F k) : Accepts G x ts a :=
  fun p rest htoks hs hG => hx p rest htoks hs (h _ hG)

theorem pure : Accepts F (Pure.pure a) [] a := fun p _ htoks _ _ => ⟨p, rfl, htoks, rfl, rfl⟩

/-- The first step ends in front of the tokens of the second one. -/
theorem bind (hx : Accepts F x ts a) (hnext : ∀ rest, G (nextKind rest) → F (nextKind (us ++ rest)))
    (hf : Accepts G (f a) us b) : Accepts G (x >>= f) (ts ++ us) b := by
  intro p rest htoks hs hG
  rw [List.append_assoc] at htoks
  obtain ⟨q, hq, hqtoks, hdiags, herr⟩ := hx p (us ++ rest) htoks hs (hnext rest hG)
  have hs' : ∀ t ∈ q.toks, t.kind ≠ .sentinel := fun t ht =>
    hs t (htoks ▸ List.mem_append_right _ (hqtoks ▸ ht))
  obtain ⟨r, hr, hrtoks, hdiags', herr'⟩ := hf q rest hqtoks hs' hG
  exact ⟨r, P.bind_ok.mpr ⟨a, q, hq, hr⟩, hrtoks, hdiags'.trans hdiags, herr'.trans herr⟩

/-- The second step consumes nothing. -/
theorem bind_nil (hx : Accepts F x ts a) (hf : Accepts F (f a) [] b) :
    Accepts F (x >>= f) ts b := by
  have h : Accepts F (x >>= f) (ts ++ []) b := bind hx (fun _ h => h) hf
  rwa [List.append_nil] at h

theorem map {g : α → β} (hx : Accepts F x ts a) : Accepts F (g <$> x) ts (g a) :=
  hx.bind_nil pure

theorem dropped (hx : Accepts F x ts a) : Accepts F (discard x) ts () := hx.map

/-- A choice is made by the first token. -/
theorem matched (h : ∀ rest, F (nextKind rest) → nextKind (ts ++ rest) ∈ kinds)
    (hx : Accepts F x ts a) :
    Accepts F (parserMatchTokens kinds >>= fun b => if b = true then x else y) ts a := by
  intro p rest htoks hs hF
  have hpeek : (parserPeek p).kind ∈ kinds := by
    rw [parserPeek, htoks]
    exact h rest hF
  rw [matchTokens_bind (parserPeek_ne_sentinel hs), if_pos hpeek]
  exact hx p rest htoks hs hF

theorem unmatched (h : ∀ rest, F (nextKind rest) → nextKind (ts ++ rest) ∉ kinds)
    (hy : Accepts F y ts a) :
    Accepts F (parserMatchTokens kinds >>= fun b => if b = true then x else y) ts a := by
  intro p rest htoks hs hF
  have hpeek : (parserPeek p).kind ∉ kinds := by
    rw [parserPeek, htoks]
    exact h rest hF
  rw [matchTokens_bind (parserPeek_ne_sentinel hs), if_neg hpeek]
  exact hy p rest htoks hs hF

theorem matched_one (h : ∀ rest, F (nextKind rest) → nextKind (ts ++ rest) = kind)
    (hx : Accepts F x ts a) :
    Accepts F (parserMatchToken kind >>= fun b => if b = true then x else y) ts a :=
  matched (fun rest hF => List.mem_singleton.mpr (h rest hF)) hx

theorem unmatched_one (h : ∀ rest, F (nextKind rest) → nextKind (ts ++ rest) ≠ kind)
    (hy : Accepts F y ts a) :
    Accepts F (parserMatchToken kind >>= fun b => if b = true then x else y) ts a :=
  unmatched (fun rest hF hmem => h rest hF (List.mem_singleton.mp hmem)) hy

theorem matched_first (ht : t.kind = kind) (hx : Accepts F x (t :: ts) a) :
    Accepts F (parserMatchToken kind >>= fun b => if b = true then x else y) (t :: ts) a :=
  matched_one (fun _ _ => ht) hx

theorem unmatched_first {kind' : TokenKind} (ht : t.kind = kind') (hne : kind' ≠ kind)
    (hy : Accepts F y (t :: ts) a) :
    Accepts F (parserMatchToken kind >>= fun b => if b = true then x else y) (t :: ts) a :=
  unmatched_one (fun _ _ h => hne (ht.symm.trans h)) hy

/-- The current token as a value. -/
theorem token {f : Token → P β} (hf : Accepts F (f t) (t :: ts) b) :
    Accepts F (parserToken >>= f) (t :: ts) b := by
  intro p rest htoks hs hF
  have hpeek : parserPeek p = t := by rw [parserPeek, htoks]; rfl
  obtain ⟨q, hq, h⟩ := hf p rest htoks hs hF
  exact ⟨q, P.bind_ok.mpr ⟨t, p, by rw [← hpeek]; rfl, hq⟩, h⟩

theorem parserAdvance (ht : t.kind ≠ .eof) : Accepts F parserAdvance [t] t := by
  intro p rest htoks hs hF
  exact ⟨{ p with toks := rest }, (parserAdvance_ok (parserPeek_ne_sentinel hs)).mpr
    ⟨rest, htoks, ht, rfl⟩, rfl, rfl, rfl⟩

theorem parserConsume (ht : t.kind = kind) (hkind : kind ≠ .eof) :
    Accepts F (parserConsume kind) [t] t := by
  intro p rest htoks hs hF
  exact ⟨{ p with toks := rest }, (parserConsume_ok (parserPeek_ne_sentinel hs)).mpr
    ⟨rest, htoks, ht ▸ hkind, ht, rfl⟩, rfl, rfl, rfl⟩

/-- A token in front. -/
theorem advance_bind {f : Token → P β} (ht : t.kind ≠ .eof) (hf : Accepts G (f t) us b) :
    Accepts G (Seron.parserAdvance >>= f) (t :: us) b :=
  bind (F := fun _ => True) (parserAdvance ht) (fun _ _ => trivial) hf

theorem advance_skip {f : Unit → P β} (ht : t.kind ≠ .eof) (hf : Accepts G (f ()) us b) :
    Accepts G (discard Seron.parserAdvance >>= f) (t :: us) b :=
  bind (F := fun _ => True) (parserAdvance ht).dropped (fun _ _ => trivial) hf

theorem consume_bind {f : Token → P β} (ht : t.kind = kind) (hkind : kind ≠ .eof)
    (hf : Accepts G (f t) us b) :
    Accepts G (Seron.parserConsume kind >>= f) (t :: us) b :=
  bind (F := fun _ => True) (parserConsume ht hkind) (fun _ _ => trivial) hf

theorem consume_skip {f : Unit → P β} (ht : t.kind = kind) (hkind : kind ≠ .eof)
    (hf : Accepts G (f ()) us b) :
    Accepts G (discard (Seron.parserConsume kind) >>= f) (t :: us) b :=
  bind (F := fun _ => True) (parserConsume ht hkind).dropped (fun _ _ => trivial) hf

theorem orPanic_bind {o : Option α} (ho : o = some a) (hf : Accepts F (f a) ts b) :
    Accepts F (orPanic o >>= f) ts b := by
  subst ho
  exact hf

/-- Bookkeeping that leaves the tokens and the diagnostics alone. -/
theorem effect {g : Parser → α} {k : Parser → Parser}
    (hk : ∀ p, (k p).toks = p.toks ∧ (k p).diags = p.diags ∧ (k p).errcount = p.errcount)
    (hf : ∀ a, Accepts F (f a) ts b) : Accepts F ((fun p => .ok (g p) (k p) : P α) >>= f) ts b := by
  intro p rest htoks hs hF
  obtain ⟨hktoks, hkdiags, hkerr⟩ := hk p
  obtain ⟨q, hq, hqtoks, hdiags, herr⟩ :=
    hf (g p) (k p) rest (hktoks.trans htoks) (hktoks ▸ hs) hF
  exact ⟨q, P.bind_ok.mpr ⟨g p, k p, rfl, hq⟩, hqtoks, hdiags.trans hkdiags, herr.trans hkerr⟩

/-- A comma that may be left out in front of another token. -/
theorem parserSkip {sep : List Token} (h : sep ∈ tokenOf kind ∨ sep = []) (hkind : kind ≠ .eof) : Accepts (· ≠ kind) (parserSkip kind) sep () := by
  rcases h with ⟨t, ht, rfl⟩ | rfl
  · exact matched_one (fun _ _ => ht) (parserConsume ht hkind).dropped
  · exact unmatched_one (fun _ h => h) pure

end Accepts

/-! ## First and next tokens -/

/-- The tokens begin with one of the kinds. -/
def Starts (kinds : List TokenKind) (ts : List Token) : Prop :=
  ∃ t us, ts = t :: us ∧ t.kind ∈ kinds

theorem Starts.nextKind {kinds : List TokenKind} {ts rest : List Token} (h : Starts kinds ts) :
    nextKind (ts ++ rest) ∈ kinds := by
  obtain ⟨t, us, rfl, ht⟩ := h
  exact ht

theorem Starts.append {kinds : List TokenKind} {ts us : List Token} (h : Starts kinds ts) :
    Starts kinds (ts ++ us) := by
  obtain ⟨t, vs, rfl, ht⟩ := h
  exact ⟨t, vs ++ us, rfl, ht⟩

theorem Starts.mono {kinds kinds' : List TokenKind} {ts : List Token} (h : Starts kinds ts)
    (hsub : kinds ⊆ kinds') : Starts kinds' ts := by
  obtain ⟨t, us, rfl, ht⟩ := h
  exact ⟨t, us, rfl, hsub ht⟩

theorem Starts.length_pos {kinds : List TokenKind} {ts : List Token} (h : Starts kinds ts) :
    0 < ts.length := by
  obtain ⟨t, us, rfl, -⟩ := h
  exact Nat.succ_pos _

theorem Starts.mul {kinds : List TokenKind} {l m : Language Token}
    (h : ∀ ts ∈ l, Starts kinds ts) : ∀ ts ∈ l * m, Starts kinds ts := by
  rintro _ ⟨ts, hts, us, -, rfl⟩
  exact (h ts hts).append

theorem Starts.tokenOf {kinds : List TokenKind} {kind : TokenKind} (h : kind ∈ kinds) :
    ∀ ts ∈ tokenOf kind, Starts kinds ts := by
  rintro _ ⟨t, rfl, rfl⟩
  exact ⟨t, [], rfl, h⟩

theorem Starts.token {kinds : List TokenKind} {t : Token} (h : t.kind ∈ kinds) :
    ∀ ts ∈ ({[t]} : Language Token), Starts kinds ts := by
  rintro _ rfl
  exact ⟨t, [], rfl, h⟩

def primaryFirst : List TokenKind := [.literalNumber, .literalIdent, .literalString, .lparen]

def unaryFirst : List TokenKind := primaryFirst ++ [.minus, .bang, .ampersand, .asterisk]

def expressionFirst : List TokenKind := unaryFirst ++ [.lbracket]

/-- The kinds of tokens with which the trees of a level begin. -/
def Level.first : Level → List TokenKind
  | .primary | .call | .index => primaryFirst
  | .binary _ | .assign => unaryFirst
  | .expression => expressionFirst
  | .statement => expressionFirst ++ [.lbrace, .kwVardecl, .kwIf, .kwWhile, .kwFor, .kwReturn]
  | .block => [.lbrace]
  | .declaration => [.kwProc]
  | .program => []

/-- The operators of the binary levels below `n`. -/
def operatorsBelow : Nat → List TokenKind
  | 0 => []
  | n + 1 => operatorsBelow n ++ binaryOps n

/-- The kinds of tokens that continue a tree of a level. -/
def Level.continued : Level → List TokenKind
  | .primary => []
  | .call => [.lparen]
  | .index => [.lparen, .lbracket]
  | .binary n => [.lparen, .lbracket] ++ operatorsBelow n
  | .assign | .expression => [.lparen, .lbracket] ++ operatorsBelow 8 ++ [.assign]
  | .statement => [.kwElse]
  | .block | .declaration | .program => []

/-- The next token does not continue a tree of the level. -/
def Level.Stops (l : Level) (k : TokenKind) : Prop := k ∉ l.continued

instance {l : Level} {k : TokenKind} : Decidable (l.Stops k) :=
  inferInstanceAs (Decidable (k ∉ l.continued))

theorem Level.Stops.mono {l l' : Level} {k : TokenKind} (h : l.Stops k)
    (hsub : l'.continued ⊆ l.continued) : l'.Stops k :=
  fun hk => h (hsub hk)

theorem Level.Stops.ne {l : Level} {k kind : TokenKind} (h : l.Stops k)
    (hkind : kind ∈ l.continued) : k ≠ kind :=
  fun hk => h (hk ▸ hkind)

theorem Level.Stops.of_eq {l : Level} {k kind : TokenKind} (h : k = kind)
    (hkind : l.Stops kind) : l.Stops k :=
  h ▸ hkind

theorem literalFromToken_first {t : Token} {kind : LiteralKind}
    (h : literalFromToken t.kind = some kind) :
    t.kind ∈ [TokenKind.literalNumber, .literalIdent, .literalString] := by
  generalize t.kind = k at h
  cases k <;> simp [literalFromToken] at h ⊢

theorem unaryopFromToken_first {t : Token} {kind : UnaryOpKind}
    (h : unaryopFromToken t.kind = some kind) :
    t.kind ∈ [TokenKind.minus, .bang, .ampersand, .asterisk] := by
  generalize t.kind = k at h
  cases k <;> simp [unaryopFromToken] at h ⊢

theorem Tree.starts {T : Ty → Prop} {loose : Bool} {l : Level} {e : AstNode} (h : Tree T l e)
    (hl : l ≠ .program) : ∀ ts ∈ e.reads loose, Starts l.first ts := by
  have mono {l l' : Level} {e : AstNode} (h : ∀ ts ∈ e.reads loose, Starts l.first ts)
      (hsub : l.first ⊆ l'.first) : ∀ ts ∈ e.reads loose, Starts l'.first ts :=
    fun ts hts => (h ts hts).mono hsub
  induction h with
  | literal h =>
    rw [AstNode.reads]
    refine Starts.token ?_
    have := literalFromToken_first h
    simp only [List.mem_cons, List.not_mem_nil, or_false] at this
    rcases this with h | h | h <;> rw [h] <;> decide
  | grouping _ ih =>
    rw [AstNode.reads]
    exact Starts.mul (Starts.tokenOf (by decide))
  | ofPrimary _ ih | ofCall _ ih => exact ih nofun
  | ofIndex _ ih => exact mono (ih nofun) (by decide)
  | call _ _ _ ih | index _ _ _ ih =>
    rw [AstNode.reads]
    exact Starts.mul (ih nofun)
  | unaryop h =>
    rw [AstNode.reads]
    refine Starts.mul (Starts.token ?_)
    exact List.mem_append_right _ (unaryopFromToken_first h)
  | tighter _ ih | ofBinary _ ih => exact ih nofun
  | binop _ _ _ _ ih =>
    rw [AstNode.reads]
    exact Starts.mul (ih nofun)
  | assign _ _ _ _ ih =>
    rw [AstNode.reads]
    exact Starts.mul (ih nofun)
  | ofAssign _ ih => exact mono (ih nofun) (by decide)
  | exprstmt _ ih => exact mono (ih nofun) (by decide)
  | blockstmt _ ih => exact mono (ih nofun) (by decide)
  | block =>
    rw [AstNode.reads]
    exact Starts.mul (Starts.tokenOf (by decide))
  | program => exact absurd rfl hl
  | array hop | vardecl hop | if_ hop | while_ hop | for_ hop | return_ hop | proc hop =>
    rw [AstNode.reads]
    exact Starts.mul (Starts.token (by rw [hop]; decide))

/-- A block does not continue the expression before it. -/
theorem Starts.block_stops {ts rest : List Token} (h : Starts Level.block.first ts) :
    Level.expression.Stops (Seron.nextKind (ts ++ rest)) :=
  (by decide : ∀ k ∈ Level.block.first, Level.expression.Stops k) _ h.nextKind

/-- An expression is not a statement of its own. -/
theorem Tree.isStatement {T : Ty → Prop} {l : Level} {e : AstNode} (h : Tree T l e)
    (he : e.isStatement = true) : l = .statement ∨ l = .block ∨ l = .program := by
  induction h <;> simp_all [AstNode.isStatement]

theorem Nodes.starts {T : Ty → Prop} {loose : Bool} {es : List AstNode}
    (h : ∀ e ∈ es, Tree T .expression e) :
    ∀ l ∈ Nodes.reads loose es, ∀ ts ∈ l, Starts expressionFirst ts := by
  induction es with
  | nil => exact List.forall_mem_nil _
  | cons e es ih =>
    obtain ⟨he, hes⟩ := List.forall_mem_cons.mp h
    exact List.forall_mem_cons.mpr ⟨he.starts nofun, ih hes⟩

theorem Nodes.length_reads {loose : Bool} (es : List AstNode) :
    (Nodes.reads loose es).length = es.length := by
  induction es with
  | nil => rfl
  | cons e es ih => exact congrArg Nat.succ ih

theorem Params.starts {loose : Bool} (params : List Param) :
    ∀ l ∈ Params.reads loose params, ∀ ts ∈ l, Starts [.literalIdent] ts := by
  induction params with
  | nil => exact List.forall_mem_nil _
  | cons param params ih =>
    refine List.forall_mem_cons.mpr ⟨fun ts hts => ?_, ih⟩
    obtain ⟨type, ident, offset⟩ := param
    rw [Param.reads, mem_onlyIf_mul] at hts
    obtain ⟨-, _, ⟨t, ht, -, rfl⟩, us, -, rfl⟩ := hts
    exact ⟨t, us, rfl, List.mem_singleton.mpr ht⟩

theorem Params.length_reads {loose : Bool} (params : List Param) :
    (Params.reads loose params).length = params.length := by
  induction params with
  | nil => rfl
  | cons param params ih => exact congrArg Nat.succ ih

section
variable {first : List TokenKind} {close : TokenKind} {loose : Bool} {ls : List (Language Token)}
  {sep ts rest : List Token}

/-- Behind a comma an element begins, or the list ends. -/
theorem commas_next (hls : ∀ l ∈ ls, ∀ ts ∈ l, Starts first ts) (hts : ts ∈ commas loose ls)
    (hrest : nextKind rest = close) : nextKind (ts ++ rest) ∈ close :: first := by
  cases ls with
  | nil =>
    obtain rfl : ts = [] := hts
    exact List.mem_cons.mpr (.inl hrest)
  | cons l ls =>
    have := Starts.mul (hls l List.mem_cons_self) ts hts
    exact List.mem_cons_of_mem _ this.nextKind

/-- Behind an element there is a comma, or the list ends. -/
theorem separator_next (hsep : sep ∈ tokenOf .comma + onlyIf (false = true ∨ ls = []))
    (hts : ts ∈ commas loose ls) (hrest : nextKind rest = close) :
    nextKind ((sep ++ ts) ++ rest) ∈ [.comma, close] := by
  rcases hsep with ⟨t, ht, rfl⟩ | ⟨h | rfl, rfl⟩
  · exact List.mem_cons.mpr (.inl ht)
  · cases h
  · obtain rfl : ts = [] := hts
    exact List.mem_cons_of_mem _ (List.mem_singleton.mpr hrest)

theorem commas_length_le (hls : ∀ l ∈ ls, ∀ ts ∈ l, Starts first ts) (hts : ts ∈ commas loose ls) :
    ls.length ≤ ts.length := by
  induction ls generalizing ts with
  | nil => exact Nat.zero_le _
  | cons l ls ih =>
    obtain ⟨us, hus, _, ⟨sep, -, vs, hvs, rfl⟩, rfl⟩ := hts
    obtain ⟨hl, hls⟩ := List.forall_mem_cons.mp hls
    have hus := (hl us hus).length_pos
    have hvs := ih hls hvs
    simp only [List.length_append, List.length_cons]
    omega

end

end Seron
