import Seron.Lexer

/-! # Lexing

What a call of the lexer consumes, whether it stays inside the source, and where its tokens lie. -/

namespace Seron

/-! ## Tokens -/

/-- Neither the end of the file nor one of the two kinds the lexer never makes. -/
def TokenKind.Proper (kind : TokenKind) : Prop := kind ∉ [TokenKind.invalid, .sentinel, .eof]

instance {kind : TokenKind} : Decidable kind.Proper := inferInstanceAs (Decidable (_ ∉ _))

/-- Started behind the first character, a token that is made is as long as what it consumes. -/
def Scans (tok : Token) (src : List UInt8) (o : LexOutcome (List UInt8)) : Prop :=
  ∀ tok' src', o = .ok tok' src' → ∃ rest, src = rest ++ src' ∧ tok'.len = rest.length + 1 ∧
    tok'.position = tok.position ∧ tok'.kind.Proper

/-- The cursor never gets behind the NUL. -/
def LexOutcome.stays {σ : Type} : LexOutcome σ → Bool
  | .ok .. => true
  | .exit _ src => src.isSome
  | .overread => false

section
variable {behind src src' start : List UInt8} {tok : Token} {c : UInt8} {kind first second : TokenKind}
  {cond : Char}

theorem tokenizeSingle_scans (htok : tok.len = 1) (hkind : kind.Proper) :
    Scans tok src (tokenizeSingle tok src kind) := by
  intro tok' src' h
  cases h
  exact ⟨[], rfl, htok, rfl, hkind⟩

theorem tokenizeDouble_scans (htok : tok.len = 1) (hfirst : first.Proper) (hsecond : second.Proper) :
    Scans tok src (tokenizeDouble tok src first cond second) := by
  intro tok' src' h
  cases src with
  | nil =>
    cases h
    exact ⟨[], rfl, htok, rfl, hfirst⟩
  | cons c rest =>
    simp only [tokenizeDouble] at h
    split at h
    · cases h
      exact ⟨[c], rfl, rfl, rfl, hsecond⟩
    · cases h
      exact ⟨[], rfl, htok, rfl, hfirst⟩

theorem tokenizeChar_scans : Scans tok src (tokenizeChar tok src) := by
  intro tok' src' h
  match src, h with
  | [c], h =>
    simp only [tokenizeChar] at h
    split at h <;> cases h
  | c :: quote :: src, h =>
    simp only [tokenizeChar] at h
    split at h
    · cases h
    · split at h
      · cases h
      · cases h
        exact ⟨[c, quote], rfl, rfl, rfl, by simp [TokenKind.Proper]⟩

/-- The cursor stops on the next quote. -/
theorem tokenizeString_loop_some (h : tokenizeString.loop src = some src') :
    ∃ s quote rest, src = s ++ quote :: rest ∧ src' = quote :: rest ∧ Char.ofUInt8 quote = '"' ∧
      ∀ c ∈ s, Char.ofUInt8 c ≠ '"' := by
  induction src with
  | nil => cases h
  | cons c src ih =>
    rw [tokenizeString.loop] at h
    split at h
    · rename_i hc
      cases h
      exact ⟨[], c, src, rfl, rfl, hc, List.forall_mem_nil _⟩
    · rename_i hc
      obtain ⟨s, quote, rest, rfl, rfl, hquote, hs⟩ := ih h
      exact ⟨c :: s, quote, rest, rfl, rfl, hquote, List.forall_mem_cons.mpr ⟨hc, hs⟩⟩

theorem tokenizeString_scans : Scans tok start (tokenizeString tok start) := by
  intro tok' src' h
  rw [tokenizeString] at h
  cases hloop : tokenizeString.loop start with
  | none => rw [hloop] at h; cases h
  | some src =>
    obtain ⟨s, quote, rest, rfl, rfl, -, -⟩ := tokenizeString_loop_some hloop
    rw [hloop] at h
    cases h
    refine ⟨s ++ [quote], by simp, ?_, rfl, by simp [TokenKind.Proper]⟩
    simp only [List.length_append, List.length_cons, List.length_nil]
    omega

theorem numberSuffix_consumes (src : List UInt8) : ∃ s, src = s ++ (numberSuffix src).2 := by
  cases src with
  | nil => exact ⟨[], rfl⟩
  | cons c src =>
    rw [numberSuffix]
    split
    · exact ⟨[c], rfl⟩
    · exact ⟨[c], rfl⟩
    · exact ⟨[c], rfl⟩
    · exact ⟨[], rfl⟩

/-- What lies between two cursors is as long as their difference. -/
theorem length_between {rest : List UInt8} (h : src = rest ++ src') :
    (c :: src).length - src'.length = rest.length + 1 := by
  rw [h, List.length_cons, List.length_append]
  omega

theorem tokenizeNumber_scans : Scans tok src (tokenizeNumber behind tok c src) := by
  intro tok' src' h
  obtain ⟨s, hs⟩ := numberSuffix_consumes (src.dropWhile isdigit)
  have hsrc : src = (src.takeWhile isdigit ++ s) ++ (numberSuffix (src.dropWhile isdigit)).2 := by
    rw [List.append_assoc, ← hs, List.takeWhile_append_dropWhile]
  simp only [tokenizeNumber] at h
  split at h
  · cases h
  · cases h
    exact ⟨_, hsrc, length_between hsrc, rfl, by simp [TokenKind.Proper]⟩

theorem getKeyword_proper (str : List UInt8) : (getKeyword str).Proper := by
  unfold getKeyword
  split
  · rename_i kw h
    exact (by decide : ∀ kw ∈ keywords, kw.2.Proper) kw (List.mem_of_find?_eq_some h)
  · decide

theorem tokenizeIdent_scans : Scans tok src (tokenizeIdent tok c src) := by
  intro tok' src' h
  have hsrc : src = src.takeWhile isIdentTail ++ src.dropWhile isIdentTail :=
    List.takeWhile_append_dropWhile.symm
  have hkind := getKeyword_proper (c :: src)
  simp only [tokenizeIdent] at h
  split at h
  · cases h
  · split at h
    · cases h
      exact ⟨_, hsrc, length_between hsrc, rfl, by simp [TokenKind.Proper]⟩
    · cases h
      exact ⟨_, hsrc, length_between hsrc, rfl, hkind⟩

theorem tokenize_scans (htok : tok.len = 1) : Scans tok src (tokenize behind tok c src) := by
  unfold tokenize
  split
  case h_20 => exact tokenizeChar_scans
  case h_21 => exact tokenizeString_scans
  case h_22 =>
    split
    · exact tokenizeNumber_scans
    · split
      · exact tokenizeIdent_scans
      · exact nofun
  all_goals first
    | exact tokenizeSingle_scans htok (by decide)
    | exact tokenizeDouble_scans htok (by decide) (by decide)

/-! ### Staying inside -/

/-- The source ends behind the opening quote of a character literal or behind its character. -/
def QuoteTruncated (c : UInt8) (src : List UInt8) : Prop :=
  Char.ofUInt8 c = '\'' ∧ (src = [] ∨ ∃ c', isascii c' = true ∧ src = [c'])

theorem tokenizeChar_stays : (tokenizeChar tok src).stays = true ↔
    ¬ (src = [] ∨ ∃ c', isascii c' = true ∧ src = [c']) := by
  match src with
  | [] => simp [tokenizeChar, LexOutcome.stays]
  | [c] => cases hc : isascii c <;> simp [tokenizeChar, LexOutcome.stays, hc]
  | c :: quote :: src =>
    rw [tokenizeChar]
    split
    · simp [LexOutcome.stays]
    · dsimp only
      split <;> simp [LexOutcome.stays]

theorem tokenizeString_stays : (tokenizeString tok src).stays = true := by
  rw [tokenizeString]
  split <;> rfl

theorem tokenizeNumber_stays : (tokenizeNumber behind tok c src).stays = true := by
  simp only [tokenizeNumber]
  split <;> rfl

theorem tokenizeIdent_stays : (tokenizeIdent tok c src).stays = true := by
  simp only [tokenizeIdent]
  split
  · rfl
  · split <;> rfl

theorem tokenizeDouble_stays : (tokenizeDouble tok src first cond second).stays = true := by
  rw [tokenizeDouble.eq_def]
  split
  · rfl
  · split <;> rfl

theorem tokenize_stays :
    (tokenize behind tok c src).stays = true ↔ ¬ QuoteTruncated c src := by
  unfold tokenize QuoteTruncated
  split
  case h_20 h =>
    rw [tokenizeChar_stays]
    simp [h]
  case h_21 h => exact iff_of_true tokenizeString_stays (by simp [h])
  case h_22 hquote _ =>
    refine iff_of_true ?_ fun h => hquote h.1
    split
    · exact tokenizeNumber_stays
    · split
      · exact tokenizeIdent_stays
      · rfl
  all_goals
    rename_i h
    refine iff_of_true ?_ (by simp [h])
    first
      | rfl
      | exact tokenizeDouble_stays

end

/-! ## Gaps -/

/-- What the lexer passes over in front of a token, of which `n` bytes are comments: blanks, and
comments up to the end of their line. -/
inductive Gap : Nat → List UInt8 → Prop
  | nil : Gap 0 []
  | blank {n : Nat} {c : UInt8} {gap : List UInt8} : isBlank c = true → Gap n gap → Gap n (c :: gap)
  | comment {n : Nat} {c newline : UInt8} {line gap : List UInt8} : Char.ofUInt8 c = '#' →
    (∀ c ∈ line, Char.ofUInt8 c ≠ '\n') → Char.ofUInt8 newline = '\n' → Gap n gap →
    Gap (n + line.length + 2) (c :: (line ++ newline :: gap))

/-- The start of a token, or the end of the source. -/
def TokenAhead : List UInt8 → Prop
  | [] => True
  | c :: _ => isBlank c = false ∧ Char.ofUInt8 c ≠ '#'

/-- A comment without an end. -/
def CommentTruncated (src : List UInt8) : Prop :=
  ∃ c line, src = c :: line ∧ Char.ofUInt8 c = '#' ∧ ∀ c ∈ line, Char.ofUInt8 c ≠ '\n'

theorem Gap.skipComment {behind line src : List UInt8} {newline : UInt8} {position : Nat}
    (hline : ∀ c ∈ line, Char.ofUInt8 c ≠ '\n') (hnewline : Char.ofUInt8 newline = '\n') :
    lexerSkipComment behind (line ++ newline :: src) position = lexerNextFrom behind src position := by
  induction line with
  | nil => rw [List.nil_append, lexerSkipComment, if_pos hnewline]
  | cons c line ih =>
    obtain ⟨hc, hline⟩ := List.forall_mem_cons.mp hline
    rw [List.cons_append, lexerSkipComment, if_neg hc, ih hline]

/-- A gap moves the position by its blanks only. -/
theorem Gap.next {n : Nat} {behind gap src : List UInt8} {position : Nat} (h : Gap n gap) :
    ∃ blanks, blanks + n = gap.length ∧
      lexerNextFrom behind (gap ++ src) position = lexerNextFrom behind src (position + blanks) := by
  induction h generalizing position with
  | nil => exact ⟨0, rfl, rfl⟩
  | @blank n c gap hc _ ih =>
    obtain ⟨blanks, hlength, hnext⟩ := @ih (position + 1)
    refine ⟨blanks + 1, by rw [List.length_cons]; omega, ?_⟩
    rw [List.cons_append, lexerNextFrom, if_pos hc, hnext, Nat.add_assoc, Nat.add_comm 1]
  | @comment n c newline line gap hc hline hnewline _ ih =>
    obtain ⟨blanks, hlength, hnext⟩ := @ih position
    have hblank : isBlank c = false := by rw [isBlank, hc]; rfl
    refine ⟨blanks, by simp only [List.length_cons, List.length_append]; omega, ?_⟩
    rw [List.cons_append, lexerNextFrom, if_neg (by simp [hblank]), if_pos hc, List.append_assoc,
      List.cons_append, Gap.skipComment hline hnewline, hnext]

/-- The rest of a line. -/
theorem exists_newline (src : List UInt8) : (∀ c ∈ src, Char.ofUInt8 c ≠ '\n') ∨
    ∃ line newline rest, src = line ++ newline :: rest ∧
      (∀ c ∈ line, Char.ofUInt8 c ≠ '\n') ∧ Char.ofUInt8 newline = '\n' := by
  induction src with
  | nil => exact .inl (List.forall_mem_nil _)
  | cons c src ih =>
    by_cases hc : Char.ofUInt8 c = '\n'
    · exact .inr ⟨[], c, src, rfl, List.forall_mem_nil _, hc⟩
    · rcases ih with h | ⟨line, newline, rest, rfl, hline, hnewline⟩
      · exact .inl (List.forall_mem_cons.mpr ⟨hc, h⟩)
      · exact .inr ⟨c :: line, newline, rest, rfl, List.forall_mem_cons.mpr ⟨hc, hline⟩, hnewline⟩

/-- Every source begins with a gap, in front of a token or of a comment without an end. -/
theorem exists_gap (src : List UInt8) :
    ∃ n gap rest, src = gap ++ rest ∧ Gap n gap ∧ (TokenAhead rest ∨ CommentTruncated rest) := by
  induction hlen : src.length using Nat.strongRecOn generalizing src with
  | ind len ih =>
    match src with
    | [] => exact ⟨0, [], [], rfl, .nil, .inl trivial⟩
    | c :: src =>
      by_cases hblank : isBlank c = true
      · obtain ⟨n, gap, rest, rfl, hgap, hrest⟩ := ih src.length (by simp [← hlen]) src rfl
        exact ⟨n, c :: gap, rest, rfl, .blank hblank hgap, hrest⟩
      by_cases hc : Char.ofUInt8 c = '#'
      · rcases exists_newline src with h | ⟨line, newline, rest, rfl, hline, hnewline⟩
        · exact ⟨0, [], c :: src, rfl, .nil, .inr ⟨c, src, rfl, hc, h⟩⟩
        · have hshort : rest.length < len := by
            rw [← hlen, List.length_cons, List.length_append, List.length_cons]
            omega
          obtain ⟨n, gap, rest, rfl, hgap, hrest⟩ := ih rest.length hshort rest rfl
          exact ⟨_, _, rest, by simp, .comment hc hline hnewline hgap, hrest⟩
      · exact ⟨0, [], c :: src, rfl, .nil, .inl ⟨by simpa using hblank, hc⟩⟩

theorem CommentTruncated.next {behind src : List UInt8} {position : Nat}
    (h : CommentTruncated src) : lexerNextFrom behind src position = .overread := by
  obtain ⟨c, line, rfl, hc, hline⟩ := h
  have hblank : isBlank c = false := by rw [isBlank, hc]; rfl
  rw [lexerNextFrom, if_neg (by simp [hblank]), if_pos hc]
  induction line with
  | nil => rfl
  | cons c line ih =>
    obtain ⟨hc, hline⟩ := List.forall_mem_cons.mp hline
    rw [lexerSkipComment, if_neg hc, ih hline]

/-! ## Calls -/

/-- What a call that makes a token consumes: a gap and a lexeme, in a source that goes on behind
them. -/
structure Lexes (lex : Lexer) (n : Nat) (gap lexeme : List UInt8) (tok : Token) (lex' : Lexer) :
    Prop where
  src_eq : lex.src = gap ++ (lexeme ++ lex'.src)
  isGap : Gap n gap
  ahead : TokenAhead (lexeme ++ lex'.src)
  nonempty : lexeme ≠ []
  len_eq : tok.len = lexeme.length
  position_eq : tok.position + n = lex.position + gap.length
  position_next : lex'.position = tok.position + tok.len
  proper : tok.kind.Proper
  behind_eq : lex'.behind = lex.behind

/-- A call makes a token, or reaches the end of the file, or does not return. -/
theorem lexerNext_ok {lex lex' : Lexer} {tok : Token} (h : lexerNext lex = .ok tok lex') :
    (∃ n gap lexeme, Lexes lex n gap lexeme tok lex') ∨ tok.kind = .eof ∧ lex'.src = [] := by
  obtain ⟨n, gap, rest, hsrc, hgap, hrest⟩ := exists_gap lex.src
  obtain ⟨blanks, hlength, hnext⟩ := @Gap.next n lex.behind gap rest lex.position hgap
  rw [lexerNext, hsrc, hnext] at h
  rcases hrest with hahead | htruncated
  · match rest, hahead with
    | [], _ =>
      cases h
      exact .inr ⟨rfl, rfl⟩
    | c :: src, ⟨hblank, hc⟩ =>
      rw [lexerNextFrom, if_neg (by simp [hblank]), if_neg hc] at h
      split at h
      · rename_i tok' src' htok
        cases h
        obtain ⟨rest, rfl, hlen, hposition, hproper⟩ := tokenize_scans rfl _ _ htok
        refine .inl ⟨n, gap, c :: rest, ⟨hsrc, hgap, ⟨hblank, hc⟩, nofun, hlen, ?_, ?_, hproper, rfl⟩⟩
        · rw [hposition, ← hlength]
          exact Nat.add_assoc ..
        · rw [hposition]
      · cases h
      · cases h
  · rw [htruncated.next] at h
    cases h

/-- States between calls. -/
inductive Calls (lex : Lexer) : Nat → Lexer → Prop
  | init : Calls lex 0 lex
  | next {n : Nat} {lex' lex'' : Lexer} {tok : Token} : Calls lex n lex' →
    lexerNext lex' = .ok tok lex'' → Calls lex (n + 1) lex''

/-- The source ends inside a comment, or behind the opening quote of a character literal or behind
its character. -/
def Truncated (src : List UInt8) : Prop :=
  ∃ n gap rest, src = gap ++ rest ∧ Gap n gap ∧
    (CommentTruncated rest ∨ ∃ c src', rest = c :: src' ∧ QuoteTruncated c src')

theorem QuoteTruncated.ahead {c : UInt8} {src : List UInt8} (h : QuoteTruncated c src) :
    TokenAhead (c :: src) := by
  rw [TokenAhead, isBlank, h.1]
  decide

theorem lexerNextFrom_stays {behind src : List UInt8} {c : UInt8} {position : Nat}
    (h : TokenAhead (c :: src)) :
    (lexerNextFrom behind (c :: src) position).stays = true ↔ ¬ QuoteTruncated c src := by
  rw [lexerNextFrom, if_neg (by simp [h.1]), if_neg h.2,
    ← @tokenize_stays behind src { kind := .invalid, position } c]
  cases tokenize behind { kind := .invalid, position } c src <;> exact Iff.rfl

/-- A call stays inside the source iff that is not cut off in the middle of a token. -/
theorem lexerNext_stays {lex : Lexer} :
    (lexerNext lex).stays = true ↔ ¬ Truncated lex.src := by
  constructor
  · rintro h ⟨n, gap, rest, hsrc, hgap, hrest⟩
    obtain ⟨blanks, -, hnext⟩ := @Gap.next n lex.behind gap rest lex.position hgap
    rw [lexerNext, hsrc, hnext] at h
    rcases hrest with htruncated | ⟨c, src, rfl, hquote⟩
    · rw [htruncated.next] at h
      cases h
    · exact (lexerNextFrom_stays hquote.ahead).mp h hquote
  · intro h
    obtain ⟨n, gap, rest, hsrc, hgap, hrest⟩ := exists_gap lex.src
    obtain ⟨blanks, -, hnext⟩ := @Gap.next n lex.behind gap rest lex.position hgap
    rw [lexerNext, hsrc, hnext]
    rcases hrest with hahead | htruncated
    · match rest, hahead with
      | [], _ => rfl
      | c :: src, hahead =>
        exact (lexerNextFrom_stays hahead).mpr fun hquote =>
          h ⟨n, gap, c :: src, hsrc, hgap, .inr ⟨c, src, rfl, hquote⟩⟩
    · exact absurd ⟨n, gap, rest, hsrc, hgap, .inl htruncated⟩ h

/-- A token moves the cursor. -/
theorem Lexes.advances {lex lex' : Lexer} {n : Nat} {gap lexeme : List UInt8} {tok : Token}
    (h : Lexes lex n gap lexeme tok lex') : lex'.src.length < lex.src.length := by
  have hpos := List.length_pos_iff.mpr h.nonempty
  rw [h.src_eq, List.length_append, List.length_append]
  omega

theorem lexerNext_suffix {lex lex' : Lexer} {tok : Token} (h : lexerNext lex = .ok tok lex') :
    lex'.src <:+ lex.src := by
  rcases lexerNext_ok h with ⟨n, gap, lexeme, hlexes⟩ | ⟨-, hnil⟩
  · exact ⟨gap ++ lexeme, by rw [hlexes.src_eq, List.append_assoc]⟩
  · rw [hnil]
    exact List.nil_suffix

theorem Calls.suffix {lex lex' : Lexer} {n : Nat} (h : Calls lex n lex') :
    lex'.src <:+ lex.src := by
  induction h with
  | init => exact List.suffix_rfl
  | next _ hnext ih => exact (lexerNext_suffix hnext).trans ih

/-- The end of the file, or a call that does not return, comes after at most as many calls as
there are bytes. -/
theorem exists_last_call (lex : Lexer) : ∃ n lex', n ≤ lex.src.length ∧ Calls lex n lex' ∧
    ∀ tok lex'', lexerNext lex' = .ok tok lex'' → tok.kind = .eof := by
  have hcalls (k : Nat) : (∃ n lex', n ≤ k ∧ Calls lex n lex' ∧
      ∀ tok lex'', lexerNext lex' = .ok tok lex'' → tok.kind = .eof) ∨
      ∃ lex', Calls lex k lex' ∧ lex'.src.length + k ≤ lex.src.length := by
    induction k with
    | zero => exact .inr ⟨lex, .init, Nat.le_refl _⟩
    | succ k ih =>
      rcases ih with ⟨n, lex', hn, h⟩ | ⟨lex', hcalls, hlength⟩
      · exact .inl ⟨n, lex', Nat.le_succ_of_le hn, h⟩
      cases hnext : lexerNext lex' with
      | ok tok lex'' =>
        rcases lexerNext_ok hnext with ⟨m, gap, lexeme, hlexes⟩ | ⟨heof, -⟩
        · have := hlexes.advances
          exact .inr ⟨lex'', .next hcalls hnext, by omega⟩
        · refine .inl ⟨k, lex', Nat.le_succ k, hcalls, ?_⟩
          rintro _ _ h
          rw [hnext] at h
          cases h
          exact heof
      | exit | overread =>
        refine .inl ⟨k, lex', Nat.le_succ k, hcalls, ?_⟩
        rintro _ _ h
        rw [hnext] at h
        cases h
  rcases hcalls lex.src.length with h | ⟨lex', hcalls, hlength⟩
  · exact h
  · refine ⟨_, lex', Nat.le_refl _, hcalls, fun tok lex'' hnext => ?_⟩
    rcases lexerNext_ok hnext with ⟨m, gap, lexeme, hlexes⟩ | ⟨heof, -⟩
    · have := hlexes.advances
      omega
    · exact heof

/-- Every sequence of calls stays inside the source, moves the cursor with every token, and comes
to an end. -/
structure StaysInside (src behind : List UInt8) : Prop where
  inside {n : Nat} {lex : Lexer} : Calls (lexerInit src behind) n lex →
    lex.src <:+ src ∧ (lexerNext lex).stays = true
  advances {n : Nat} {lex lex' : Lexer} {tok : Token} : Calls (lexerInit src behind) n lex →
    lexerNext lex = .ok tok lex' → tok.kind = .eof ∨ lex'.src.length < lex.src.length
  ends : ∃ n lex, n ≤ src.length ∧ Calls (lexerInit src behind) n lex ∧
    ∀ tok lex', lexerNext lex = .ok tok lex' → tok.kind = .eof

theorem staysInside_iff (src behind : List UInt8) : StaysInside src behind ↔
    ∀ n lex, Calls (lexerInit src behind) n lex → ¬ Truncated lex.src := by
  constructor
  · intro h n lex hcalls
    exact lexerNext_stays.mp (h.inside hcalls).2
  · intro h
    refine ⟨fun hcalls => ⟨hcalls.suffix, lexerNext_stays.mpr (h _ _ hcalls)⟩, ?_,
      exists_last_call (lexerInit src behind)⟩
    intro n lex lex' tok _ hnext
    rcases lexerNext_ok hnext with ⟨m, gap, lexeme, hlexes⟩ | ⟨heof, -⟩
    · exact .inr hlexes.advances
    · exact .inl heof

/-- A source that ends inside a comment: `#` -/
theorem comment_overread : ¬ StaysInside (bytes "#") [] := fun h =>
  absurd (h.inside .init).2 (by decide)

/-! ## Positions -/

/-- Successive calls that make tokens. -/
inductive Produces : Lexer → List Token → Lexer → Prop
  | nil {lex : Lexer} : Produces lex [] lex
  | cons {lex lex' lex'' : Lexer} {tok : Token} {toks : List Token} :
    lexerNext lex = .ok tok lex' → tok.kind ≠ .eof → Produces lex' toks lex'' →
    Produces lex (tok :: toks) lex''

/-- A token where it stands: behind what the lexer passes over, the bytes that spell it. -/
structure Piece where
  gap : List UInt8
  lexeme : List UInt8
  token : Token

/-- The bytes of a sequence of pieces. -/
def pieceBytes (pieces : List Piece) : List UInt8 :=
  pieces.flatMap fun p => p.gap ++ p.lexeme

/-- The source is cut into gaps and lexemes, up to `rest`. -/
structure Cuts (src : List UInt8) (pieces : List Piece) (rest : List UInt8) : Prop where
  src_eq : src = pieceBytes pieces ++ rest
  gaps : ∀ p ∈ pieces, ∃ n, Gap n p.gap
  lexemes : ∀ p ∈ pieces, p.lexeme ≠ [] ∧ TokenAhead p.lexeme

/-- There are no comments in front of the tokens. -/
def Uncommented (pieces : List Piece) : Prop := ∀ p ∈ pieces, ∀ c ∈ p.gap, isBlank c = true

theorem Gap.zero_iff {n : Nat} {gap : List UInt8} (h : Gap n gap) :
    n = 0 ↔ ∀ c ∈ gap, isBlank c = true := by
  induction h with
  | nil => exact iff_of_true rfl (List.forall_mem_nil _)
  | blank hc _ ih => rw [List.forall_mem_cons, ih, and_iff_right hc]
  | comment hc =>
    refine iff_of_false (by omega) fun h => ?_
    have hblank := h _ List.mem_cons_self
    rw [isBlank, hc] at hblank
    exact absurd hblank (by decide)

theorem uncommented_cons {p : Piece} {pieces : List Piece} {n m : Nat} (hgap : Gap n p.gap)
    (hm : m = 0 ↔ Uncommented pieces) : n + m = 0 ↔ Uncommented (p :: pieces) := by
  rw [Nat.add_eq_zero_iff, hgap.zero_iff, hm, Uncommented, Uncommented, List.forall_mem_cons]

theorem pieceBytes_cons (p : Piece) (pieces : List Piece) :
    pieceBytes (p :: pieces) = p.gap ++ (p.lexeme ++ pieceBytes pieces) := by
  rw [pieceBytes, List.flatMap_cons, List.append_assoc, pieceBytes]

/-- Started anywhere in a source, the calls cut it into pieces; the positions fall behind the
cursor by the comments passed. -/
theorem Produces.cuts {lex lex' : Lexer} {toks : List Token} (h : Produces lex toks lex') :
    ∃ pieces, pieces.map Piece.token = toks ∧ Cuts lex.src pieces lex'.src ∧
      (∀ p ∈ pieces, p.token.len = p.lexeme.length) ∧
      (∀ before p after, pieces = before ++ p :: after → ∃ n,
        (n = 0 ↔ Uncommented (before ++ [p])) ∧
        p.token.position + n = lex.position + (pieceBytes before ++ p.gap).length) ∧
      ∃ n, (n = 0 ↔ Uncommented pieces) ∧
        lex'.position + n = lex.position + (pieceBytes pieces).length := by
  induction h with
  | nil =>
    refine ⟨[], rfl, ⟨rfl, List.forall_mem_nil _, List.forall_mem_nil _⟩, List.forall_mem_nil _,
      fun before p after h => ?_, 0, iff_of_true rfl (List.forall_mem_nil _), rfl⟩
    cases before <;> cases h
  | @cons lex lex₁ lex' tok toks hnext hkind _ ih =>
    obtain ⟨pieces, rfl, hcuts, hlen, hpositions, m, hm, hposition⟩ := ih
    obtain ⟨n, gap, lexeme, h⟩ := (lexerNext_ok hnext).resolve_right fun h => hkind h.1
    have hstart := h.position_eq
    have hnextPosition := h.position_next
    have hlexeme := h.len_eq
    refine ⟨⟨gap, lexeme, tok⟩ :: pieces, rfl, ⟨?_, ?_, ?_⟩, ?_, ?_, n + m,
      uncommented_cons h.isGap hm, ?_⟩
    · rw [h.src_eq, hcuts.src_eq, pieceBytes_cons, List.append_assoc, List.append_assoc]
    · exact List.forall_mem_cons.mpr ⟨⟨n, h.isGap⟩, hcuts.gaps⟩
    · refine List.forall_mem_cons.mpr ⟨⟨h.nonempty, ?_⟩, hcuts.lexemes⟩
      obtain ⟨c, rest, rfl⟩ := List.exists_cons_of_ne_nil h.nonempty
      exact h.ahead
    · exact List.forall_mem_cons.mpr ⟨hlexeme, hlen⟩
    · intro before p after heq
      cases before with
      | nil =>
        cases heq
        refine ⟨n, ?_, by simpa [pieceBytes] using hstart⟩
        rw [h.isGap.zero_iff, List.nil_append, Uncommented, List.forall_mem_singleton]
      | cons q before =>
        obtain ⟨rfl, htail⟩ := List.cons.inj heq
        obtain ⟨k, hk, hp⟩ := hpositions before p after htail
        refine ⟨n + k, uncommented_cons h.isGap hk, ?_⟩
        simp only [pieceBytes_cons, List.length_append] at hp ⊢
        omega
    · simp only [pieceBytes_cons, List.length_append]
      omega

/-- The position of a token is the offset of its lexeme iff no comment stands before it; its length
is that of the lexeme in any case. Between calls the position is the offset of the cursor iff no
comment has been passed. -/
theorem positions_true_iff {src behind : List UInt8} {toks : List Token} {lex : Lexer}
    (h : Produces (lexerInit src behind) toks lex) :
    ∃ pieces, pieces.map Piece.token = toks ∧ Cuts src pieces lex.src ∧
      (∀ p ∈ pieces, p.token.len = p.lexeme.length) ∧
      (∀ before p after, pieces = before ++ p :: after →
        (p.token.position = (pieceBytes before ++ p.gap).length ↔ Uncommented (before ++ [p]))) ∧
      (lex.position = (pieceBytes pieces).length ↔ Uncommented pieces) := by
  obtain ⟨pieces, htoks, hcuts, hlen, hpositions, n, hn, hposition⟩ := h.cuts
  have hinit : (lexerInit src behind).position = 0 := rfl
  refine ⟨pieces, htoks, hcuts, hlen, fun before p after heq => ?_, ?_⟩
  · obtain ⟨m, hm, hp⟩ := hpositions before p after heq
    rw [← hm]
    omega
  · rw [← hn]
    omega

/-- All positions are offsets: those of the tokens, and the one between calls. -/
def TruePositions (src behind : List UInt8) : Prop :=
  ∀ toks lex, Produces (lexerInit src behind) toks lex →
    ∃ pieces, pieces.map Piece.token = toks ∧ Cuts src pieces lex.src ∧
      (∀ p ∈ pieces, p.token.len = p.lexeme.length) ∧
      (∀ before p after, pieces = before ++ p :: after →
        p.token.position = (pieceBytes before ++ p.gap).length) ∧
      lex.position = (pieceBytes pieces).length

/-- Two lines, a comment and a plus sign: `#`, `+` -/
def plusBehindComment : List UInt8 := bytes "#\n+"

theorem plusBehindComment_produces :
    Produces (lexerInit plusBehindComment []) [{ kind := .plus }] ⟨[], 1, []⟩ :=
  .cons rfl nofun .nil

theorem positions_true_iff_plusBehindComment :
    ∃ pieces, pieces.map Piece.token = [{ kind := .plus }] ∧ Cuts plusBehindComment pieces [] ∧
      (∀ p ∈ pieces, p.token.len = p.lexeme.length) ∧
      (∀ before p after, pieces = before ++ p :: after →
        (p.token.position = (pieceBytes before ++ p.gap).length ↔ Uncommented (before ++ [p]))) ∧
      (1 = (pieceBytes pieces).length ↔ Uncommented pieces) :=
  positions_true_iff plusBehindComment_produces

theorem position_behind_comment : ¬ TruePositions plusBehindComment [] := by
  intro h
  obtain ⟨pieces, htoks, hcuts, -, hpositions, -⟩ := h _ _ plusBehindComment_produces
  obtain ⟨p, rfl, hp⟩ := List.map_eq_singleton_iff.mp htoks
  have hposition := hpositions [] p [] rfl
  rw [hp, pieceBytes, List.flatMap_nil, List.nil_append] at hposition
  have hgap : p.gap = [] := List.length_eq_zero_iff.mp hposition.symm
  have hsrc := hcuts.src_eq
  rw [pieceBytes, List.flatMap_singleton, hgap, List.nil_append, List.append_nil] at hsrc
  have hahead := (hcuts.lexemes p List.mem_cons_self).2
  rw [← hsrc] at hahead
  exact hahead.2 rfl

end Seron
