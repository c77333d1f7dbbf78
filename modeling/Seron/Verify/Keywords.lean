import Seron.Verify.Spelling

/-! # Keywords

`get_keyword` compares the source with the keywords and does not look at the length of the lexeme,
so a name that goes on behind a keyword is read as that keyword. -/

namespace Seron

/-- A letter or underscore, followed by letters, digits and underscores. -/
structure NameLexeme where
  head : UInt8
  tail : List UInt8
  isHead : isIdentHead head = true
  isTail : ∀ c ∈ tail, isIdentTail c = true
  short : (head :: tail).length ≤ maxIdentLen

namespace NameLexeme

def lexeme (name : NameLexeme) : List UInt8 := name.head :: name.tail

/-- Wherever it stands, the name is read as the keyword that it spells, and as an identifier if it
spells none. -/
def WholeWord (name : NameLexeme) : Prop :=
  ∀ n gap src position behind, Gap n gap → RunEnds isIdentTail src →
    ∃ tok lex, lexerNext { src := gap ++ (name.lexeme ++ src), position, behind } = .ok tok lex ∧
      lex.src = src ∧ tok.len = name.lexeme.length ∧
      (∀ kw ∈ keywords, tok.kind = kw.2 ↔ name.lexeme = bytes kw.1) ∧
      ((∀ kw ∈ keywords, name.lexeme ≠ bytes kw.1) →
        tok.kind = .literalIdent ∧ tok.value = text name.lexeme)

/-- A call of the lexer in front of a name. -/
theorem lexerNext_name (name : NameLexeme) {n : Nat} {gap src : List UInt8} (position : Nat)
    (behind : List UInt8) (hgap : Gap n gap) (hsrc : RunEnds isIdentTail src) :
    ∃ tok lex, lexerNext { src := gap ++ (name.lexeme ++ src), position, behind } = .ok tok lex ∧
      lex.src = src ∧ tok.len = name.lexeme.length ∧ tok.kind = getKeyword (name.lexeme ++ src) ∧
      (tok.kind = .literalIdent → tok.value = text name.lexeme) := by
  obtain ⟨blanks, -, hnext⟩ := @Gap.next n behind gap (name.lexeme ++ src) position hgap
  have hahead : TokenAhead (name.head :: (name.tail ++ src)) := tokenAhead_of_word (.inr name.isHead)
  have hlexeme : name.lexeme ++ src = name.head :: (name.tail ++ src) := rfl
  have hread := @tokenize_name behind src name.tail
    { kind := .invalid, position := position + blanks } name.head name.isHead name.isTail hsrc
    name.short
  rw [lexerNext, hnext, hlexeme, lexerNextFrom, if_neg (by simp [hahead.1]), if_neg hahead.2, hread]
  exact ⟨_, _, rfl, rfl, rfl, rfl, fun hident => if_pos hident⟩

theorem kind_ne_ident : ∀ kw ∈ keywords, kw.2 ≠ .literalIdent := by decide

theorem kind_injective : ∀ kw ∈ keywords, ∀ kw' ∈ keywords, kw.2 = kw'.2 → kw = kw' := by decide

/-- What is found begins with every keyword with which the name begins. -/
theorem getKeyword_of_prefix {str : List UInt8} {kw : String × TokenKind} (hkw : kw ∈ keywords)
    (h : bytes kw.1 <+: str) : getKeyword str = kw.2 := by
  obtain ⟨src, rfl⟩ := h
  exact getKeyword_keyword kw hkw src

/-- Keywords are whole words for the names that do not go on behind a keyword, and only for
those. -/
theorem wholeWord_iff (name : NameLexeme) : name.WholeWord ↔
    ∀ kw ∈ keywords, bytes kw.1 <+: name.lexeme → name.lexeme = bytes kw.1 := by
  constructor
  · intro h kw hkw hpre
    have hnil : RunEnds isIdentTail [] := nofun
    obtain ⟨tok, lex, hnext, -, -, hkind, -⟩ := h 0 [] [] 0 [] .nil hnil
    obtain ⟨tok', lex', hnext', -, -, hkind', -⟩ := lexerNext_name name 0 [] .nil hnil
    rw [hnext] at hnext'
    cases hnext'
    rw [List.append_nil, getKeyword_of_prefix hkw hpre] at hkind'
    exact (hkind kw hkw).mp hkind'
  · intro h n gap src position behind hgap hsrc
    obtain ⟨tok, lex, hnext, hrest, hlen, hkind, hvalue⟩ :=
      lexerNext_name name position behind hgap hsrc
    refine ⟨tok, lex, hnext, hrest, hlen, fun kw hkw => ⟨fun heq => ?_, fun heq => ?_⟩, ?_⟩
    · rcases getKeyword_eq (name.lexeme ++ src) with hident | ⟨kw', hkw', hpre, hfound⟩
      · rw [hkind, hident] at heq
        exact absurd heq.symm (kind_ne_ident kw hkw)
      · obtain rfl := kind_injective kw' hkw' kw hkw (by rw [← hfound, ← hkind, heq])
        exact h kw' hkw ((keyword_prefix_append hsrc hkw).mp hpre)
    · rw [hkind, heq]
      exact getKeyword_keyword kw hkw src
    · intro hnone
      have hident : tok.kind = .literalIdent := by
        rw [hkind]
        exact getKeyword_ident (fun kw hkw hpre => hnone kw hkw (h kw hkw hpre)) hsrc
      exact ⟨hident, hvalue hident⟩

/-- `iffy` -/
def iffy : NameLexeme :=
  ⟨105, [102, 102, 121], by decide +kernel, by decide +kernel, by decide⟩

theorem iffy_split : ¬ iffy.WholeWord := by
  intro h
  obtain ⟨tok, lex, hnext, -, -, -, hident⟩ := h 0 [] [] 0 [] .nil nofun
  have hkind := (hident (by decide +kernel)).1
  cases hnext
  exact absurd hkind (by decide +kernel)

end NameLexeme

end Seron
