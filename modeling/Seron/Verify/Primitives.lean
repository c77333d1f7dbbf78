import Seron.Verify.Shape

/-! # The primitives of the parser

What matching, advancing and consuming do, away from the sentinel, which the lexer never makes. -/

namespace Seron

variable {p q : Parser} {t : Token} {kind : TokenKind} {kinds : List TokenKind}

/-- Whether a rule returned. -/
def Outcome.isOk {α : Type} : Outcome α → Bool
  | .ok _ _ => true
  | _ => false

theorem Outcome.of_isOk {α : Type} {o : Outcome α} (h : o.isOk = true) : ∃ a q, o = .ok a q := by
  cases o with
  | ok a q => exact ⟨a, q, rfl⟩
  | _ => cases h

theorem P.apply_ite {α : Type} {c : Prop} [Decidable c] {x y : P α} :
    (if c then x else y) p = if c then x p else y p := by
  split <;> rfl

theorem parserMatchTokensVa_eq_true {p : Parser} {kinds : List TokenKind} :
    parserMatchTokensVa p kinds = true ↔
      (parserPeek p).kind ∈ kinds ∨ (parserPeek p).kind = .sentinel := by
  induction kinds with
  | nil => simp [parserMatchTokensVa]
  | cons kind kinds ih => simp [parserMatchTokensVa, ih, or_assoc]

theorem parserPeek_ne_sentinel {p : Parser} (h : ∀ t ∈ p.toks, t.kind ≠ .sentinel) :
    (parserPeek p).kind ≠ .sentinel := by
  unfold parserPeek
  cases htoks : p.toks with
  | nil => simp [Token.eof]
  | cons t ts => exact h t (by simp [htoks])

/-- A choice by the kind of the current token. -/
theorem matchTokens_bind {α : Type} {x y : P α} (hsentinel : (parserPeek p).kind ≠ .sentinel) :
    (parserMatchTokens kinds >>= fun b => if b = true then x else y) p =
      if (parserPeek p).kind ∈ kinds then x p else y p := by
  have hmatch := @parserMatchTokensVa_eq_true p kinds
  rw [or_iff_left hsentinel] at hmatch
  have h : (parserMatchTokens kinds >>= fun b => if b = true then x else y) p =
    if parserMatchTokensVa p kinds = true then x p else y p := P.apply_ite
  simpa only [hmatch] using h

theorem matchToken_bind {α : Type} {x y : P α} (hsentinel : (parserPeek p).kind ≠ .sentinel) :
    (parserMatchToken kind >>= fun b => if b = true then x else y) p =
      if (parserPeek p).kind = kind then x p else y p := by
  have h := @matchTokens_bind p [kind] _ x y hsentinel
  simp only [List.mem_singleton] at h
  exact h

/-- The end of the input is not consumed. -/
theorem parserAdvance_ok (hsentinel : (parserPeek p).kind ≠ .sentinel) :
    parserAdvance p = .ok t q ↔
      ∃ ts, p.toks = t :: ts ∧ t.kind ≠ .eof ∧ q = { p with toks := ts } := by
  have h : parserAdvance p = _ := matchToken_bind hsentinel
  rw [h]
  split
  · rename_i heof
    refine ⟨nofun, ?_⟩
    rintro ⟨ts, htoks, hne, -⟩
    rw [parserPeek, htoks] at heof
    exact (hne heof).elim
  · rename_i heof
    cases htoks : p.toks with
    | nil => simp [parserPeek, htoks, Token.eof] at heof
    | cons t' ts =>
      rw [parserPeek, htoks] at heof
      simp only [parserPeek, htoks, List.headD_cons, List.tail_cons, Outcome.ok.injEq,
        List.cons.injEq]
      constructor
      · rintro ⟨rfl, rfl⟩
        exact ⟨ts, ⟨rfl, rfl⟩, heof, rfl⟩
      · rintro ⟨ts', ⟨rfl, rfl⟩, -, rfl⟩
        exact ⟨rfl, rfl⟩

theorem parserExpectToken_ok (hsentinel : (parserPeek p).kind ≠ .sentinel) {u : Unit} :
    parserExpectToken kind p = .ok u q ↔ (parserPeek p).kind = kind ∧ q = p := by
  have hnever : Returns (do
      diagnosticLoc (← parserToken) s!"Expected `{stringifyTokenkind kind}`"
      parserSync : P Unit) fun _ => False := .skip fun _ => .skip fun _ => .parserSync
  have h : parserExpectToken kind p = _ := matchToken_bind hsentinel
  rw [h]
  split
  · rename_i hkind
    rw [P.pure_ok]
    exact ⟨fun h => ⟨hkind, h.2.symm⟩, fun h => ⟨rfl, h.2.symm⟩⟩
  · rename_i hkind
    exact ⟨fun h => (hnever _ _ _ h).elim, fun h => (hkind h.1).elim⟩

theorem parserConsume_ok (hsentinel : (parserPeek p).kind ≠ .sentinel) :
    parserConsume kind p = .ok t q ↔
      ∃ ts, p.toks = t :: ts ∧ t.kind ≠ .eof ∧ t.kind = kind ∧ q = { p with toks := ts } := by
  have h : parserConsume kind p = _ := matchToken_bind hsentinel
  rw [h]
  split
  · rename_i heof
    rw [parserAdvance_ok hsentinel]
    constructor <;> rintro ⟨ts, htoks, hne, -⟩ <;> rw [parserPeek, htoks] at heof <;>
      exact (hne heof).elim
  · rw [P.bind_ok]
    constructor
    · rintro ⟨u, p', hexpect, hadvance⟩
      obtain ⟨hkind, rfl⟩ := (parserExpectToken_ok hsentinel).mp hexpect
      obtain ⟨ts, htoks, hne, rfl⟩ := (parserAdvance_ok hsentinel).mp hadvance
      rw [parserPeek, htoks] at hkind
      exact ⟨ts, htoks, hne, hkind, rfl⟩
    · rintro ⟨ts, htoks, hne, hkind, rfl⟩
      have hpeek : (parserPeek p).kind = kind := by rw [parserPeek, htoks]; exact hkind
      exact ⟨(), p, (parserExpectToken_ok hsentinel).mpr ⟨hpeek, rfl⟩,
        (parserAdvance_ok hsentinel).mpr ⟨ts, htoks, hne, rfl⟩⟩

end Seron
