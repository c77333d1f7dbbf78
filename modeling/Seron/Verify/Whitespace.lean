import Seron.Verify.Spelling

/-! # Whitespace

A token does not depend on what follows it, as long as that does not go on with the token. Blanks
and comments never do, so they may be put between two tokens. -/

namespace Seron

/-! ## What may follow a token -/

/-- The bytes of the characters with which a gap begins. -/
def separators : List UInt8 := 35 :: blanks

/-- What ends in front of `src` also ends in front of `src'`, unless it goes on over separators. -/
def Delimits (src src' : List UInt8) : Prop :=
  ∀ p : UInt8 → Bool, (∀ c ∈ separators, p c = false) → RunEnds p src → RunEnds p src'

theorem Delimits.refl (src : List UInt8) : Delimits src src := fun _ _ h => h

theorem Gap.head {n : Nat} {gap : List UInt8} (h : Gap n gap) : ∀ c ∈ gap.head?, c ∈ separators := by
  intro c hc
  cases h with
  | nil => cases hc
  | blank hblank =>
    cases hc
    exact List.mem_cons_of_mem _ (blank_cases hblank)
  | comment hhash =>
    cases hc
    rw [eq_of_ofUInt8 hhash]
    decide

/-- A gap may be put anywhere. -/
theorem Gap.delimits {n : Nat} {gap : List UInt8} (h : Gap n gap) (before src : List UInt8) :
    Delimits (before ++ src) (before ++ (gap ++ src)) := by
  intro p hp hends c hc
  cases before with
  | cons b before => exact hends c hc
  | nil =>
    cases gap with
    | nil => exact hends c hc
    | cons g gap => exact hp c (h.head c hc)

/-! ## Tokens -/

/-- The token does not change when something else follows it, nor does its place matter. -/
def Rescans (scan : Token → List UInt8 → LexOutcome (List UInt8)) : Prop :=
  ∀ position tok src₀ src, scan { kind := .invalid, position } src₀ = .ok tok src →
    ∃ rest, src₀ = rest ++ src ∧ ∀ src' position', Delimits src src' →
      scan { kind := .invalid, position := position' } (rest ++ src') =
        .ok { tok with position := position' } src'

theorem tokenizeSingle_rescans {kind : TokenKind} :
    Rescans fun tok src => tokenizeSingle tok src kind := by
  intro position tok src₀ src h
  cases h
  exact ⟨[], rfl, fun _ _ _ => rfl⟩

theorem tokenizeDouble_rescans {first second : TokenKind} {cond : Char}
    (hcond : ∀ c ∈ separators, (Char.ofUInt8 c == cond) = false) :
    Rescans fun tok src => tokenizeDouble tok src first cond second := by
  have single {src' : List UInt8} (hends : RunEnds (fun c => Char.ofUInt8 c = cond) src')
      (tok : Token) : tokenizeDouble tok src' first cond second =
        .ok { tok with kind := first } src' := by
    cases src' with
    | nil => rfl
    | cons c src' => rw [tokenizeDouble, if_neg (by simpa using hends c rfl)]
  intro position tok src₀ src h
  have hp : ∀ c ∈ separators, decide (Char.ofUInt8 c = cond) = false := by simpa using hcond
  cases src₀ with
  | nil =>
    cases h
    have hnil : RunEnds (fun c => Char.ofUInt8 c = cond) [] := by simp [RunEnds]
    exact ⟨[], rfl, fun src' _ hsrc => single (hsrc _ hp hnil) _⟩
  | cons c rest =>
    simp only [tokenizeDouble] at h
    split at h
    · rename_i hc
      cases h
      refine ⟨[c], rfl, fun src' _ _ => ?_⟩
      simp only [List.singleton_append, tokenizeDouble, if_pos hc]
    · rename_i hc
      cases h
      refine ⟨[], rfl, fun src' _ hsrc => single (hsrc _ hp ?_) _⟩
      intro c' hc'
      cases hc'
      simpa using hc

theorem tokenizeChar_rescans : Rescans tokenizeChar := by
  intro position tok src₀ src h
  match src₀, h with
  | [c], h =>
    simp only [tokenizeChar] at h
    split at h <;> cases h
  | c :: quote :: src₀, h =>
    simp only [tokenizeChar] at h
    split at h
    · cases h
    · rename_i hascii
      split at h
      · cases h
      · rename_i hquote
        cases h
        refine ⟨[c, quote], rfl, fun src' _ _ => ?_⟩
        simp only [List.cons_append, List.nil_append, tokenizeChar, if_neg hascii, if_neg hquote]

theorem tokenizeString_rescans : Rescans tokenizeString := by
  intro position tok src₀ src h
  cases hloop : tokenizeString.loop src₀ with
  | none => simp [tokenizeString, hloop] at h
  | some src₁ =>
    obtain ⟨s, quote, rest, rfl, rfl, hquote, hs⟩ := tokenizeString_loop_some hloop
    obtain rfl := eq_of_ofUInt8 hquote
    rw [show ('"').toUInt8 = 34 from rfl, tokenizeString_content hs] at h
    cases h
    refine ⟨s ++ [34], by simp; rfl, fun src' position' _ => ?_⟩
    rw [List.append_assoc]
    exact tokenizeString_content hs

theorem runEnds_dropWhile (p : UInt8 → Bool) (src : List UInt8) : RunEnds p (src.dropWhile p) := by
  intro c hc
  have h := List.head?_dropWhile_not p src
  rw [Option.mem_def.mp hc] at h
  simpa using h

/-- The scan of a name, when it succeeds. -/
theorem tokenizeIdent_ok {tok tok' : Token} {c : UInt8} {src₀ src : List UInt8}
    (h : tokenizeIdent tok c src₀ = .ok tok' src) :
    ∃ rest, src₀ = rest ++ src ∧ (∀ c ∈ rest, isIdentTail c = true) ∧ RunEnds isIdentTail src ∧
      (c :: rest).length ≤ maxIdentLen := by
  have hsrc : src₀ = src₀.takeWhile isIdentTail ++ src₀.dropWhile isIdentTail :=
    List.takeWhile_append_dropWhile.symm
  have hlen := @length_between src₀ (src₀.dropWhile isIdentTail) c _ hsrc
  have hrest : src = src₀.dropWhile isIdentTail ∧
      ¬ (c :: src₀).length - (src₀.dropWhile isIdentTail).length > maxIdentLen := by
    simp only [tokenizeIdent] at h
    split at h
    · cases h
    · rename_i hshort
      split at h <;> cases h <;> exact ⟨rfl, hshort⟩
  obtain ⟨rfl, hshort⟩ := hrest
  refine ⟨_, hsrc, fun c hc => ?_, runEnds_dropWhile isIdentTail src₀, ?_⟩
  · exact List.mem_takeWhile_imp hc
  · rw [hlen] at hshort
    exact Nat.le_of_not_lt hshort

theorem getKeyword_append {name src : List UInt8} (hsrc : RunEnds isIdentTail src) :
    getKeyword (name ++ src) = getKeyword name := by
  have hmatch : ∀ kw ∈ keywords, matchKw (name ++ src) kw.1 = matchKw name kw.1 := by
    intro kw hkw
    rw [Bool.eq_iff_iff, matchKw, matchKw, List.isPrefixOf_iff_prefix, List.isPrefixOf_iff_prefix]
    exact keyword_prefix_append hsrc hkw
  rw [getKeyword, getKeyword, List.find?_congr hmatch]

theorem isIdentTail_separators : ∀ c ∈ separators, isIdentTail c = false :=
  none_of_all rfl

theorem isNumberTail_separators : ∀ c ∈ separators, isNumberTail c = false :=
  none_of_all rfl

/-- The suffix of a number is what stands behind its digits, up to the end of the number. -/
theorem numberSuffix_ends {src : List UInt8} (h : RunEnds isdigit src) :
    src = bytes (suffix (numberSuffix src).1) ++ (numberSuffix src).2 ∧
      NumberEnds (numberSuffix src).1 (numberSuffix src).2 := by
  cases src with
  | nil => exact ⟨rfl, fun _ => by simp [RunEnds, numberSuffix]⟩
  | cons c src =>
    have hlong : bytes (suffix .long) = ['L'.toUInt8] := rfl
    have hchar : bytes (suffix .char) = ['B'.toUInt8] := rfl
    have hint : bytes (suffix .int) = ['I'.toUInt8] := rfl
    rw [numberSuffix]
    split
    · rename_i hc
      obtain rfl := eq_of_ofUInt8 hc
      exact ⟨by rw [hlong]; rfl, fun hany => by cases hany⟩
    · rename_i hc
      obtain rfl := eq_of_ofUInt8 hc
      exact ⟨by rw [hchar]; rfl, fun hany => by cases hany⟩
    · rename_i hc
      obtain rfl := eq_of_ofUInt8 hc
      exact ⟨by rw [hint]; rfl, fun hany => by cases hany⟩
    · rename_i hL hB hI
      refine ⟨rfl, fun _ c' hc' => ?_⟩
      cases hc'
      simp only [isNumberTail, h c rfl, Bool.false_or, decide_eq_false_iff_not, List.mem_cons,
        List.not_mem_nil, or_false, not_or]
      exact ⟨hL, hB, hI⟩

/-- The scan of a number, when it succeeds. -/
theorem tokenizeNumber_ok {behind : List UInt8} {tok tok' : Token} {c : UInt8}
    {src₀ src : List UInt8} (h : tokenizeNumber behind tok c src₀ = .ok tok' src) :
    ∃ rest numberType, src₀ = rest ++ bytes (suffix numberType) ++ src ∧
      (∀ c ∈ rest, isdigit c = true) ∧ NumberEnds numberType src ∧
      (c :: rest ++ bytes (suffix numberType)).length ≤ maxNumberLiteralLen := by
  obtain ⟨hsuffix, hends⟩ := numberSuffix_ends (runEnds_dropWhile isdigit src₀)
  have hrest : src = (numberSuffix (src₀.dropWhile isdigit)).2 ∧
      ¬ (c :: src₀).length - (numberSuffix (src₀.dropWhile isdigit)).2.length >
        maxNumberLiteralLen := by
    simp only [tokenizeNumber] at h
    split at h
    · cases h
    · rename_i hshort
      cases h
      exact ⟨rfl, hshort⟩
  obtain ⟨rfl, hshort⟩ := hrest
  have hsrc : src₀ = src₀.takeWhile isdigit ++
      bytes (suffix (numberSuffix (src₀.dropWhile isdigit)).1) ++
        (numberSuffix (src₀.dropWhile isdigit)).2 := by
    rw [List.append_assoc, ← hsuffix, List.takeWhile_append_dropWhile]
  refine ⟨_, _, hsrc, fun c hc => List.mem_takeWhile_imp hc, hends, ?_⟩
  rw [@length_between src₀ _ c _ hsrc] at hshort
  exact Nat.le_of_not_lt hshort

theorem tokenize_rescans {behind : List UInt8} {c : UInt8} :
    Rescans fun tok src => tokenize behind tok c src := by
  by_cases hword : isdigit c = true ∨ isIdentHead c = true
  · intro position tok src₀ src h
    have hscan : tokenize behind { kind := .invalid, position } c src₀ = .ok tok src := h
    rw [tokenize_default hword] at hscan
    split at hscan
    · rename_i hdigit
      obtain ⟨rest, numberType, rfl, hrest, hends, hshort⟩ := tokenizeNumber_ok hscan
      have hall : ∀ d ∈ c :: rest, isdigit d = true := List.forall_mem_cons.mpr ⟨hdigit, hrest⟩
      have hread := @tokenize_number behind src rest { kind := .invalid, position } c numberType
        hall hends hshort
      dsimp only at h
      rw [hread] at h
      cases h
      refine ⟨rest ++ bytes (suffix numberType), rfl, fun src' position' hsrc => ?_⟩
      exact tokenize_number hall (fun hany => hsrc _ isNumberTail_separators (hends hany)) hshort
    · split at hscan
      · rename_i hhead
        obtain ⟨rest, rfl, hrest, hends, hshort⟩ := tokenizeIdent_ok hscan
        have hread := @tokenize_name behind src rest { kind := .invalid, position } c hhead hrest
          hends hshort
        dsimp only at h
        rw [hread] at h
        cases h
        refine ⟨rest, rfl, fun src' position' hsrc => ?_⟩
        have hends' := hsrc _ isIdentTail_separators hends
        dsimp only
        rw [tokenize_name hhead hrest hends' hshort, getKeyword_append hends,
          getKeyword_append hends']
      · cases hscan
  · intro position tok src₀ src h
    unfold tokenize at h ⊢
    split at h
    case h_22 =>
      dsimp only at h
      rw [if_neg (not_or.mp hword).1, if_neg (not_or.mp hword).2] at h
      cases h
    all_goals
      simp only
      first
        | exact tokenizeSingle_rescans position tok src₀ src h
        | exact tokenizeDouble_rescans (none_of_all rfl) position tok src₀ src h
        | exact tokenizeChar_rescans position tok src₀ src h
        | exact tokenizeString_rescans position tok src₀ src h

/-! ## Calls -/

/-- A call that makes a token makes it anywhere, and whatever follows it. -/
theorem lexerNextFrom_rescans {behind src₀ : List UInt8} {position : Nat} {tok : Token}
    {lex : Lexer} (h : lexerNextFrom behind src₀ position = .ok tok lex) (hkind : tok.kind ≠ .eof) :
    ∃ front, src₀ = front ++ lex.src ∧ lex.behind = behind ∧
      ∀ src' position', Delimits lex.src src' → ∃ tok' lex',
        lexerNextFrom behind (front ++ src') position' = .ok tok' lex' ∧ lex'.src = src' ∧
          lex'.behind = behind ∧ tok'.placeless = tok.placeless := by
  obtain ⟨n, gap, rest, rfl, hgap, hrest⟩ := exists_gap src₀
  obtain ⟨blanks, -, hnext⟩ := @Gap.next n behind gap rest position hgap
  rw [hnext] at h
  rcases hrest with hahead | htruncated
  · match rest, hahead with
    | [], _ =>
      cases h
      exact absurd rfl hkind
    | c :: src, ⟨hblank, hc⟩ =>
      rw [lexerNextFrom, if_neg (by simp [hblank]), if_neg hc] at h
      split at h
      · rename_i tok₁ src₁ htok
        cases h
        obtain ⟨rest, rfl, hrescan⟩ := tokenize_rescans _ _ _ _ htok
        refine ⟨gap ++ c :: rest, by simp, rfl, fun src' position' hsrc => ?_⟩
        obtain ⟨blanks', -, hnext'⟩ := @Gap.next n behind gap (c :: (rest ++ src')) position' hgap
        have hread : tokenize behind { kind := .invalid, position := position' + blanks' } c
          (rest ++ src') = .ok { tok with position := position' + blanks' } src' :=
            hrescan src' (position' + blanks') hsrc
        rw [List.append_assoc, List.cons_append, hnext', lexerNextFrom, if_neg (by simp [hblank]),
          if_neg hc, hread]
        exact ⟨_, _, rfl, rfl, rfl, rfl⟩
      · cases h
      · cases h
  · rw [htruncated.next] at h
    cases h

/-- A call reaches the end of the file if there is nothing but a gap in front of it. -/
theorem lexerNextFrom_eof {behind src : List UInt8} {position : Nat} {tok : Token} {lex : Lexer}
    (h : lexerNextFrom behind src position = .ok tok lex) (hkind : tok.kind = .eof) :
    tok.placeless = Token.eof ∧ ∀ position', ∃ tok' lex',
      lexerNextFrom behind src position' = .ok tok' lex' ∧ tok'.kind = .eof ∧
        tok'.placeless = Token.eof := by
  obtain ⟨n, gap, rest, rfl, hgap, hrest⟩ := exists_gap src
  obtain ⟨blanks, -, hnext⟩ := @Gap.next n behind gap rest position hgap
  rw [hnext] at h
  rcases hrest with hahead | htruncated
  · match rest, hahead with
    | [], _ =>
      cases h
      refine ⟨rfl, fun position' => ?_⟩
      obtain ⟨blanks', -, hnext'⟩ := @Gap.next n behind gap [] position' hgap
      exact ⟨_, _, hnext', rfl, rfl⟩
    | c :: src, ⟨hblank, hc⟩ =>
      rw [lexerNextFrom, if_neg (by simp [hblank]), if_neg hc] at h
      split at h
      · rename_i tok₁ src₁ htok
        cases h
        obtain ⟨-, -, -, -, hproper⟩ := tokenize_scans rfl _ _ htok
        rw [hkind] at hproper
        exact absurd hproper (by decide)
      · cases h
      · cases h
  · rw [htruncated.next] at h
    cases h

/-! ## Sequences of calls -/

theorem collectTokens_ok {fuel : Nat} {lex : Lexer} {toks : List Token}
    (h : lexerCollectTokens fuel lex = some toks) : ∃ fuel' tok lex', fuel = fuel' + 1 ∧
      lexerNext lex = .ok tok lex' ∧ (tok.kind = .eof ∧ toks = [tok] ∨
        tok.kind ≠ .eof ∧ ∃ rest, lexerCollectTokens fuel' lex' = some rest ∧ toks = tok :: rest) := by
  cases fuel with
  | zero => cases h
  | succ fuel =>
    rw [lexerCollectTokens] at h
    split at h
    · rename_i tok lex' hnext
      split at h
      · rename_i hkind
        cases h
        exact ⟨fuel, tok, lex', rfl, hnext, .inl ⟨hkind, rfl⟩⟩
      · rename_i hkind
        obtain ⟨rest, hrest, rfl⟩ := Option.map_eq_some_iff.mp h
        exact ⟨fuel, tok, lex', rfl, hnext, .inr ⟨hkind, rest, hrest, rfl⟩⟩
    · cases h
    · cases h

theorem collectTokens_eof {fuel : Nat} {lex lex' : Lexer} {tok : Token}
    (h : lexerNext lex = .ok tok lex') (hkind : tok.kind = .eof) :
    lexerCollectTokens (fuel + 1) lex = some [tok] := by
  rw [lexerCollectTokens, h]
  exact if_pos hkind

theorem collectTokens_cons {fuel : Nat} {lex lex' : Lexer} {tok : Token} {rest : List Token}
    (h : lexerNext lex = .ok tok lex') (hkind : tok.kind ≠ .eof)
    (hrest : lexerCollectTokens fuel lex' = some rest) :
    lexerCollectTokens (fuel + 1) lex = some (tok :: rest) := by
  rw [lexerCollectTokens, h]
  dsimp only
  rw [if_neg hkind, hrest]
  rfl

theorem kind_of_placeless {tok tok' : Token} (h : tok'.placeless = tok.placeless) :
    tok'.kind = tok.kind := by
  have hkind : tok'.placeless.kind = tok.placeless.kind := congrArg Token.kind h
  exact hkind

/-- The tokens that are collected do not depend on the position. -/
theorem collectTokens_placeless {behind src : List UInt8} {position fuel : Nat} {toks : List Token}
    (h : lexerCollectTokens fuel { src, position, behind } = some toks) (position' : Nat) :
    ∃ toks', lexerCollectTokens fuel { src, position := position', behind } = some toks' ∧
      toks'.map Token.placeless = toks.map Token.placeless := by
  induction fuel generalizing src position position' toks with
  | zero => cases h
  | succ fuel ih =>
    obtain ⟨fuel', tok, lex, hfuel, hnext, hrest⟩ := collectTokens_ok h
    obtain rfl := Nat.succ.inj hfuel
    rcases hrest with ⟨hkind, rfl⟩ | ⟨hkind, rest, hrest, rfl⟩
    · obtain ⟨hplace, heof⟩ := lexerNextFrom_eof hnext hkind
      obtain ⟨tok', lex', hnext', hkind', hplace'⟩ := heof position'
      refine ⟨[tok'], collectTokens_eof hnext' hkind', ?_⟩
      rw [List.map_singleton, List.map_singleton, hplace, hplace']
    · obtain ⟨front, rfl, rfl, hrescan⟩ := lexerNextFrom_rescans hnext hkind
      obtain ⟨tok', lex', hnext', hsrc', hbehind', hplace⟩ :=
        hrescan lex.src position' (.refl lex.src)
      obtain ⟨rest', hrest', hmap⟩ := ih hrest lex'.position
      refine ⟨tok' :: rest', collectTokens_cons hnext' ?_ ?_, ?_⟩
      · rwa [kind_of_placeless hplace]
      · rw [← hrest', ← hsrc', ← hbehind']
      · rw [List.map_cons, List.map_cons, hplace, hmap]

theorem collectTokens_gap {behind gap src : List UInt8} {n position fuel : Nat} (hgap : Gap n gap) :
    ∃ position', lexerCollectTokens fuel { src := gap ++ src, position, behind } =
      lexerCollectTokens fuel { src, position := position', behind } := by
  obtain ⟨blanks, -, hnext⟩ := @Gap.next n behind gap src position hgap
  refine ⟨position + blanks, ?_⟩
  cases fuel with
  | zero => rfl
  | succ fuel => simp only [lexerCollectTokens, lexerNext, hnext]

/-- A gap behind any of the tokens leaves them all as they are. -/
theorem Produces.collectTokens_gap {lex lex' : Lexer} {before toks : List Token} {gap : List UInt8}
    {n fuel : Nat} (hsplit : Produces lex before lex') (hgap : Gap n gap)
    (h : lexerCollectTokens fuel lex = some toks) :
    ∃ front, lex.src = front ++ lex'.src ∧ ∀ position, ∃ toks',
      lexerCollectTokens fuel { src := front ++ (gap ++ lex'.src), position, behind := lex.behind } =
        some toks' ∧ toks'.map Token.placeless = toks.map Token.placeless := by
  induction hsplit generalizing fuel toks with
  | @nil lex =>
    refine ⟨[], rfl, fun position => ?_⟩
    obtain ⟨position', hcollect⟩ :=
      @Seron.collectTokens_gap lex.behind gap lex.src n position fuel hgap
    rw [List.nil_append, hcollect]
    exact collectTokens_placeless h position'
  | @cons lex lex₁ lex' tok before hnext hkind _ ih =>
    obtain ⟨fuel', tok', lex₁', rfl, hnext', hrest⟩ := collectTokens_ok h
    rw [hnext] at hnext'
    cases hnext'
    obtain ⟨heof, -⟩ | ⟨-, rest, hrest, rfl⟩ := hrest
    · exact absurd heof hkind
    obtain ⟨front₁, hsrc₁, hbehind₁, hrescan⟩ := lexerNextFrom_rescans hnext hkind
    obtain ⟨front, hsrc, hcollect⟩ := ih hrest
    refine ⟨front₁ ++ front, by rw [hsrc₁, hsrc, List.append_assoc], fun position => ?_⟩
    have hdelimits := hgap.delimits front lex'.src
    rw [← hsrc] at hdelimits
    obtain ⟨tok', lex₂, hnext₂, hsrc₂, hbehind₂, hplace⟩ := hrescan _ position hdelimits
    obtain ⟨rest', hrest', hmap⟩ := hcollect lex₂.position
    refine ⟨tok' :: rest', ?_, ?_⟩
    · rw [List.append_assoc]
      refine collectTokens_cons hnext₂ ?_ ?_
      · rwa [kind_of_placeless hplace]
      · rw [← hrest', ← hsrc₂, hbehind₁, ← hbehind₂]
    · rw [List.map_cons, List.map_cons, hplace, hmap]

/-- Layout is insignificant: blanks and comments behind a token change no token, but for the
positions. -/
theorem layout_insignificant {a b gap behind : List UInt8} {n fuel : Nat} {toks before : List Token}
    {lex : Lexer} (h : lexerCollectTokens fuel (lexerInit (a ++ b) behind) = some toks)
    (hsplit : Produces (lexerInit (a ++ b) behind) before lex) (hb : lex.src = b)
    (hgap : Gap n gap) :
    ∃ toks', lexerCollectTokens fuel (lexerInit (a ++ (gap ++ b)) behind) = some toks' ∧
      toks'.map Token.placeless = toks.map Token.placeless := by
  obtain ⟨front, hsrc, hcollect⟩ := hsplit.collectTokens_gap hgap h
  subst hb
  obtain rfl := List.append_cancel_right hsrc
  exact hcollect 0

theorem layout_insignificant_assign : ∃ toks',
    lexerCollectTokens 5 (lexerInit (bytes "x" ++ (bytes " #\n" ++ bytes "=1")) []) = some toks' ∧
      toks'.map Token.placeless = [Token.ident "x", { kind := .assign },
        { kind := .literalNumber, numberType := .any, number := 1 }, Token.eof] := by
  have hcollect : lexerCollectTokens 5 (lexerInit (bytes "x" ++ bytes "=1") []) =
      some [Token.ident "x", { kind := .assign, position := 1 },
        { kind := .literalNumber, numberType := .any, number := 1, position := 2 },
        { kind := .eof, position := 3 }] := rfl
  have hsplit : Produces (lexerInit (bytes "x" ++ bytes "=1") []) [Token.ident "x"]
      ⟨bytes "=1", 1, []⟩ := .cons (by rfl) (by decide) .nil
  have hgap : Gap 2 (bytes " #\n") := .blank (by decide)
    (@Gap.comment 0 35 10 [] [] (by decide) (List.forall_mem_nil _) (by decide) .nil)
  exact layout_insignificant hcollect hsplit rfl hgap

end Seron
