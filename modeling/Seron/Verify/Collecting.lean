import Seron.Collect
import Seron.Verify.Locations
import Seron.Verify.Whitespace

/-! # Collected tokens

The two passes of `lexer_collect_tokens` agree with the stream of tokens, and with each other,
unless one of them finds the value of `TOK_EOF` in a token that no one has written yet. -/

namespace Seron

theorem toInt_eq_eof {kind : TokenKind} : kind.toInt = TokenKind.eof.toInt ↔ kind = .eof := by
  cases kind <;> decide

/-! ## The memory behind the numbers -/

section
variable {behind src src' : List UInt8} {tok tok' : Token} {c : UInt8} {position : Nat}

/-- What is behind the array of `tokenize_number` decides about the value of a number only. -/
theorem tokenize_behind (h : tokenize behind tok c src = .ok tok' src') (behind' : List UInt8) :
    ∃ number, tokenize behind' tok c src = .ok { tok' with number } src' := by
  by_cases hdigit : isdigit c = true
  · rw [tokenize_default (.inl hdigit), if_pos hdigit] at h ⊢
    simp only [tokenizeNumber] at h ⊢
    split at h
    · cases h
    · rename_i hshort
      cases h
      exact ⟨_, if_neg hshort⟩
  · have hsame : tokenize behind' tok c src = tokenize behind tok c src := by
      unfold tokenize
      simp only [if_neg hdigit]
    exact ⟨tok'.number, hsame.trans h⟩

theorem lexerNextFrom_behind {lex : Lexer} (h : lexerNextFrom behind src position = .ok tok lex)
    (behind' : List UInt8) : ∃ number, lexerNextFrom behind' src position =
      .ok { tok with number } { lex with behind := behind' } := by
  obtain ⟨n, gap, rest, rfl, hgap, hrest⟩ := exists_gap src
  obtain ⟨blanks, hlength, hnext⟩ := @Gap.next n behind gap rest position hgap
  obtain ⟨blanks', hlength', hnext'⟩ := @Gap.next n behind' gap rest position hgap
  have hblanks : blanks' = blanks := by omega
  subst hblanks
  rw [hnext] at h
  rw [hnext']
  rcases hrest with hahead | htruncated
  · match rest, hahead with
    | [], _ =>
      cases h
      exact ⟨0, rfl⟩
    | c :: src, ⟨hblank, hc⟩ =>
      rw [lexerNextFrom, if_neg (by simp [hblank]), if_neg hc] at h ⊢
      split at h
      · rename_i tok' src' htok
        cases h
        obtain ⟨number, htok'⟩ := tokenize_behind htok behind'
        exact ⟨number, by rw [htok']⟩
      · cases h
      · cases h
  · rw [htruncated.next] at h
    cases h

end

section
variable {fuel : Nat} {lex : Lexer} {toks : List Token}

theorem collectTokens_behind (h : lexerCollectTokens fuel lex = some toks) (behind : List UInt8) :
    ∃ toks', lexerCollectTokens fuel { lex with behind } = some toks' ∧
      toks'.length = toks.length := by
  induction fuel generalizing lex toks with
  | zero => cases h
  | succ fuel ih =>
    obtain ⟨fuel', tok, lex', hfuel, hnext, hrest⟩ := collectTokens_ok h
    obtain rfl := Nat.succ.inj hfuel
    obtain ⟨number, hnext'⟩ := lexerNextFrom_behind hnext behind
    rcases hrest with ⟨hkind, rfl⟩ | ⟨hkind, rest, hrest, rfl⟩
    · exact ⟨_, collectTokens_eof hnext' hkind, rfl⟩
    · obtain ⟨rest', hrest', hlength⟩ := ih hrest
      exact ⟨_, collectTokens_cons hnext' hkind hrest', congrArg (· + 1) hlength⟩

/-- The end of the file is the last of the tokens and comes up only once. -/
def EndsOnce (toks : List Token) : Prop :=
  ∃ init last, toks = init ++ [last] ∧ last.kind = .eof ∧ ∀ tok ∈ init, tok.kind ≠ .eof

theorem collectTokens_endsOnce (h : lexerCollectTokens fuel lex = some toks) : EndsOnce toks := by
  induction fuel generalizing lex toks with
  | zero => cases h
  | succ fuel ih =>
    obtain ⟨fuel', tok, lex', hfuel, -, hrest⟩ := collectTokens_ok h
    obtain rfl := Nat.succ.inj hfuel
    rcases hrest with ⟨hkind, rfl⟩ | ⟨hkind, rest, hrest, rfl⟩
    · exact ⟨[], tok, rfl, hkind, List.forall_mem_nil _⟩
    · obtain ⟨init, last, rfl, hlast, hinit⟩ := ih hrest
      exact ⟨tok :: init, last, rfl, hlast, List.forall_mem_cons.mpr ⟨hkind, hinit⟩⟩

/-! ## The two loops -/

theorem lexerNextOrExit_ok {lex' : Lexer} {tok : Token} (h : lexerNext lex = .ok tok lex') :
    lexerNextOrExit lex = .ok (tok, lex') := by
  rw [lexerNextOrExit, h]

/-- From a token that is not the end of the file, the first loop counts the tokens. -/
theorem getTokencount_loop {n tokencount : Nat} {kind : BitVec 32}
    (h : lexerCollectTokens n lex = some toks) (hkind : kind ≠ TokenKind.eof.toInt)
    (hfuel : toks.length < fuel) :
    getTokencount.loop fuel kind lex tokencount = .ok (tokencount + toks.length) := by
  induction fuel generalizing n lex toks kind tokencount with
  | zero => cases hfuel
  | succ fuel ih =>
    obtain ⟨n, tok, lex', -, hnext, hrest⟩ := collectTokens_ok h
    have hstep : getTokencount.loop (fuel + 1) kind lex tokencount =
        getTokencount.loop fuel tok.kind.toInt lex' (tokencount + 1) := by
      rw [getTokencount.loop, if_neg hkind, lexerNextOrExit_ok hnext]
      rfl
    rw [hstep]
    rcases hrest with ⟨heof, rfl⟩ | ⟨hne, rest, hrest, rfl⟩
    · have hne := Nat.ne_of_gt (Nat.lt_of_succ_lt_succ hfuel)
      obtain ⟨fuel, rfl⟩ := Nat.exists_eq_succ_of_ne_zero hne
      rw [getTokencount.loop, if_pos (toInt_eq_eof.mpr heof)]
      rfl
    · rw [ih hrest (mt toInt_eq_eof.mp hne) (Nat.lt_of_succ_lt_succ hfuel), List.length_cons]
      congr 1
      omega

/-- From a token that is not the end of the file, the second loop stores the tokens, as far as
there is room. -/
theorem lexerCollectTokens_loop {n cap : Nat} {kind : BitVec 32} {tokens : List Token}
    (h : lexerCollectTokens n lex = some toks) (hkind : kind ≠ TokenKind.eof.toInt)
    (hfuel : toks.length < fuel) :
    Source.lexerCollectTokens.loop cap fuel kind lex tokens =
      if tokens.length + toks.length ≤ cap then .ok (tokens ++ toks)
      else .error (.undefined "store behind the tokens") := by
  induction fuel generalizing n lex toks kind tokens with
  | zero => cases hfuel
  | succ fuel ih =>
    obtain ⟨n, tok, lex', -, hnext, hrest⟩ := collectTokens_ok h
    have hstep : Source.lexerCollectTokens.loop cap (fuel + 1) kind lex tokens =
        if tokens.length < cap then
          Source.lexerCollectTokens.loop cap fuel tok.kind.toInt lex' (tokens ++ [tok])
        else .error (.undefined "store behind the tokens") := by
      rw [Source.lexerCollectTokens.loop, if_neg hkind, lexerNextOrExit_ok hnext]
      rfl
    rw [hstep]
    rcases hrest with ⟨heof, rfl⟩ | ⟨hne, rest, hrest, rfl⟩
    · have hne := Nat.ne_of_gt (Nat.lt_of_succ_lt_succ hfuel)
      obtain ⟨fuel, rfl⟩ := Nat.exists_eq_succ_of_ne_zero hne
      rw [Source.lexerCollectTokens.loop, if_pos (toInt_eq_eof.mpr heof)]
      rfl
    · rw [ih hrest (mt toInt_eq_eof.mp hne) (Nat.lt_of_succ_lt_succ hfuel)]
      simp only [List.length_append, List.length_cons, List.length_nil, List.append_assoc,
        List.singleton_append]
      by_cases hroom : tokens.length < cap
      · rw [if_pos hroom]
        congr 1
        exact propext (by omega)
      · rw [if_neg hroom, if_neg (by omega)]

end

/-! ## The two passes -/

/-- The number of tokens agrees with the array, which holds the stream of tokens. -/
def Collected (m : Malloc) (src : Source) (counting frame : StackFrame) (toks : List Token) :
    Prop :=
  ∀ fuel, toks.length < fuel → getTokencount fuel src counting = .ok toks.length ∧
    src.lexerCollectTokens m fuel counting frame = .ok toks ∧ EndsOnce toks

/-- The bytes that are asked for have room for all tokens iff there is memory for them. -/
theorem le_room_iff (m : Malloc) {n : Nat} (hn : 0 < n) :
    n ≤ Source.tokenRoom m n ↔ m.room (n * sizeofToken) = true := by
  have hsize : 0 < sizeofToken := by decide
  unfold Source.tokenRoom
  dsimp only
  constructor
  · intro hle
    split at hle
    · rename_i hroom
      have hmul := (Nat.le_div_iff_mul_le hsize).mp hle
      rwa [Nat.le_antisymm (Nat.mod_le _ _) hmul] at hroom
    · omega
  · intro hroom
    have hbounded := m.bounded hroom
    rw [Nat.mod_eq_of_lt (by omega), if_pos hroom, Nat.mul_div_cancel n hsize]

/-- The first pass counts the tokens of the stream, even if its numbers have other values. -/
theorem getTokencount_eq {src : Source} {behind : List UInt8} {counting : StackFrame}
    {n fuel : Nat} {toks : List Token}
    (h : lexerCollectTokens n (lexerInit src.chars behind) = some toks)
    (hkind : counting.kind ≠ TokenKind.eof.toInt) (hfuel : toks.length < fuel) :
    getTokencount fuel src counting = .ok toks.length := by
  obtain ⟨toks', hcounted, hlength⟩ := collectTokens_behind h counting.behind
  have hloop := @getTokencount_loop fuel _ _ _ 0 _ hcounted hkind (hlength ▸ hfuel)
  rwa [hlength, Nat.zero_add] at hloop

theorem lexerCollectTokens_of_count {m : Malloc} {src : Source} {counting frame : StackFrame}
    {fuel count : Nat} (h : getTokencount fuel src counting = .ok count) :
    src.lexerCollectTokens m fuel counting frame =
      Source.lexerCollectTokens.loop (Source.tokenRoom m count) fuel frame.kind
        (lexerInit src.chars frame.behind) [] := by
  rw [Source.lexerCollectTokens, h]
  rfl

/-- For a source without errors the array of tokens is the stream of tokens iff neither of the two
uninitialised tokens has the kind `TOK_EOF`, and there is memory for all tokens. -/
theorem collected_iff (m : Malloc) (src : Source) (counting frame : StackFrame) {fuel : Nat}
    {toks : List Token}
    (h : lexerCollectTokens fuel (lexerInit src.chars frame.behind) = some toks) :
    Collected m src counting frame toks ↔
      counting.kind ≠ TokenKind.eof.toInt ∧ frame.kind ≠ TokenKind.eof.toInt ∧
        m.room (toks.length * sizeofToken) = true := by
  have hends := collectTokens_endsOnce h
  have hpos : 0 < toks.length := by
    obtain ⟨init, last, rfl, -⟩ := hends
    rw [List.length_append, List.length_singleton]
    omega
  constructor
  · intro hcollected
    obtain ⟨hcount, harray, -⟩ := hcollected _ (Nat.lt_succ_self _)
    have hkind : counting.kind ≠ TokenKind.eof.toInt := by
      intro heof
      rw [getTokencount, getTokencount.loop, if_pos heof] at hcount
      exact Nat.ne_of_gt hpos (Except.ok.inj hcount).symm
    rw [lexerCollectTokens_of_count hcount] at harray
    have hkind' : frame.kind ≠ TokenKind.eof.toInt := by
      intro heof
      rw [Source.lexerCollectTokens.loop, if_pos heof] at harray
      rw [← Except.ok.inj harray] at hpos
      cases hpos
    rw [lexerCollectTokens_loop h hkind' (Nat.lt_succ_self _), List.length_nil,
      Nat.zero_add] at harray
    refine ⟨hkind, hkind', (le_room_iff m hpos).mp ?_⟩
    by_contra hroom
    rw [if_neg hroom] at harray
    cases harray
  · intro ⟨hkind, hkind', hroom⟩ fuel hfuel
    have hcount := getTokencount_eq h hkind hfuel
    refine ⟨hcount, ?_, hends⟩
    rw [lexerCollectTokens_of_count hcount, lexerCollectTokens_loop h hkind' hfuel,
      List.length_nil, Nat.zero_add, if_pos ((le_room_iff m hpos).mpr hroom)]
    rfl

/-! ## Printing the tokens -/

/-- The loop stops at the end of the file, with a line for each token. -/
theorem lexerPrintTokens_loop {src : Source} {toks : List Token} (h : EndsOnce toks)
    (hfit : ∀ tok ∈ toks, CountersFit src.chars tok.position) :
    ∃ lines, Source.lexerPrintTokens.loop src toks = .ok lines ∧ lines.length = toks.length := by
  obtain ⟨init, last, rfl, hlast, hinit⟩ := h
  induction init with
  | nil =>
    rw [List.nil_append, Source.lexerPrintTokens.loop,
      getTokenLocation_of_fits (hfit last List.mem_cons_self)]
    exact ⟨_, if_pos hlast, rfl⟩
  | cons tok init ih =>
    obtain ⟨htok, hinit⟩ := List.forall_mem_cons.mp hinit
    obtain ⟨hfit, hfits⟩ := List.forall_mem_cons.mp hfit
    obtain ⟨lines, hlines, hlength⟩ := ih hfits hinit
    rw [List.cons_append, Source.lexerPrintTokens.loop, getTokenLocation_of_fits hfit, hlines]
    exact ⟨_, if_neg htok, congrArg (· + 1) hlength⟩

/-- An array that agrees with the stream is printed with a line for each token, and no read behind
the array. -/
theorem tokens_printed {m : Malloc} {src : Source} {counting frame : StackFrame}
    {toks : List Token} (h : Collected m src counting frame toks)
    (hfit : ∀ tok ∈ toks, CountersFit src.chars tok.position) {fuel : Nat}
    (hfuel : toks.length < fuel) :
    ∃ lines, src.lexerPrintTokens m fuel counting frame = .ok lines ∧
      lines.length = toks.length := by
  obtain ⟨-, harray, hends⟩ := h fuel hfuel
  obtain ⟨lines, hlines, hlength⟩ := lexerPrintTokens_loop hends hfit
  refine ⟨lines, ?_, hlength⟩
  rw [Source.lexerPrintTokens, harray]
  exact hlines

/-! ## Concrete sources -/

/-- All memory below the largest object. -/
def ampleMemory : Malloc where
  room size := decide (size < 2 ^ 63)
  bounded h := of_decide_eq_true h

def plusSource : Source := ⟨bytes "+", by decide, by decide⟩

theorem plusSource_tokens : lexerCollectTokens 2 (lexerInit plusSource.chars []) =
    some [{ kind := .plus }, { kind := .eof, position := 1 }] := by
  decide

/-- The tokens are collected, and two lines are printed for them. -/
theorem collected_iff_plusSource :
    lexerCollectTokens 2 (lexerInit plusSource.chars []) =
        some [{ kind := .plus }, { kind := .eof, position := 1 }] ∧
      Collected ampleMemory plusSource ⟨0, []⟩ ⟨0, []⟩
        [{ kind := .plus }, { kind := .eof, position := 1 }] ∧
      ∃ lines, plusSource.lexerPrintTokens ampleMemory 3 ⟨0, []⟩ ⟨0, []⟩ = .ok lines ∧
        lines.length = 2 := by
  have hcollected :=
    (collected_iff ampleMemory plusSource ⟨0, []⟩ ⟨0, []⟩ plusSource_tokens).mpr (by decide)
  exact ⟨plusSource_tokens, hcollected, tokens_printed hcollected
    (fun tok _ => countersFit_of_length (by decide) tok.position) (by decide)⟩

/-- If the first uninitialised token happens to have the kind `TOK_EOF`, no token is counted, and
the first one is stored behind the array. -/
theorem nothing_counted :
    lexerCollectTokens 2 (lexerInit plusSource.chars []) =
        some [{ kind := .plus }, { kind := .eof, position := 1 }] ∧
      getTokencount 3 plusSource ⟨TokenKind.eof.toInt, []⟩ = .ok 0 ∧
      plusSource.lexerCollectTokens ampleMemory 3 ⟨TokenKind.eof.toInt, []⟩ ⟨0, []⟩ =
        .error (.undefined "store behind the tokens") := by
  decide

end Seron
