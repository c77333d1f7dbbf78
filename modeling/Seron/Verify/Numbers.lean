import Seron.Verify.Emission
import Seron.Verify.Spelling

/-! # Numbers

A number on its way from the source to an instruction: the digits are copied and converted by the
lexer, and the code generator prints the value as an `int`. -/

namespace Seron

/-- Digits and a suffix that fit into the copy. -/
structure NumberLexeme where
  digits : List UInt8
  numberType : NumberLiteralType
  nonempty : digits ≠ []
  isDigits : ∀ c ∈ digits, isdigit c = true
  short : (digits ++ bytes (suffix numberType)).length ≤ maxNumberLiteralLen

/-- The values of a type of literals. -/
def NumberLiteralType.bound : NumberLiteralType → Nat
  | .long => 2 ^ 63
  | .int | .any => 2 ^ 31
  | .char => 2 ^ 8

/-- The values of a type of literals that survive the way through an `int`. -/
def NumberLiteralType.printable (numberType : NumberLiteralType) : Nat :=
  min numberType.bound (2 ^ 31)

def digitValue (c : UInt8) : Nat := c.toNat - 48

theorem foldl_pushDigit (digits : List UInt8) :
    digits.foldl pushDigit 0 = Nat.ofDigits 10 (digits.reverse.map digitValue) := by
  induction digits using List.reverseRecOn with
  | nil => rfl
  | append_singleton digits c ih =>
    rw [List.foldl_append, List.foldl_cons, List.foldl_nil, ih, pushDigit, List.reverse_append,
      List.reverse_singleton, List.singleton_append, List.map_cons, Nat.ofDigits_cons, Nat.add_comm]
    rfl

namespace NumberLexeme

def lexeme (n : NumberLexeme) : List UInt8 := n.digits ++ bytes (suffix n.numberType)

/-- The number that the digits denote. -/
def value (n : NumberLexeme) : Nat := Nat.ofDigits 10 (n.digits.reverse.map digitValue)

def Fits (n : NumberLexeme) : Prop := n.value < n.numberType.bound

/-- Wherever the literal stands: a value of its type ends up in the token and in the instruction,
and any other is rejected. -/
def KeepsValue (n : NumberLexeme) : Prop :=
  ∀ k gap src position behind tables gen, Gap k gap → NumberEnds n.numberType src →
    let o := lexerNext { src := gap ++ (n.lexeme ++ src), position, behind }
    (n.Fits → ∃ tok lex rax, o = .ok tok lex ∧ lex.src = src ∧ tok.numberType = n.numberType ∧
      tok.number.toNat = n.value ∧
      subregister .rax (typeFromTokenLiteral n.numberType).kind = .ok rax ∧
      literal tables tok .number gen =
        .ok (typeFromTokenLiteral n.numberType, [.movImm rax n.value], gen)) ∧
    (¬ n.Fits → (∃ message src', o = .exit message src') ∨
      ∃ tok lex message, o = .ok tok lex ∧ literal tables tok .number gen = .error (.exit message))

/-- The array that is converted: the literal, and zeros as far as there is room for them. -/
def buf (n : NumberLexeme) : List UInt8 :=
  n.lexeme ++ List.replicate (maxNumberLiteralLen - n.lexeme.length) 0

/-- A call of the lexer in front of a number. -/
theorem lexerNext_number (n : NumberLexeme) {k : Nat} {gap src : List UInt8} (position : Nat)
    (behind : List UInt8) (hgap : Gap k gap) (hsrc : NumberEnds n.numberType src) :
    ∃ tok lex, lexerNext { src := gap ++ (n.lexeme ++ src), position, behind } = .ok tok lex ∧
      lex.src = src ∧ tok.numberType = n.numberType ∧ tok.number = atoll (n.buf ++ behind) := by
  obtain ⟨c, rest, hdigits⟩ := List.exists_cons_of_ne_nil n.nonempty
  obtain ⟨blanks, -, hnext⟩ := @Gap.next k behind gap (n.lexeme ++ src) position hgap
  have hlexeme : n.lexeme = c :: rest ++ bytes (suffix n.numberType) := by rw [lexeme, hdigits]
  have hall := n.isDigits
  have hshort := n.short
  rw [hdigits] at hall hshort
  have hahead : TokenAhead (c :: (rest ++ bytes (suffix n.numberType) ++ src)) :=
    tokenAhead_of_word (.inl (hall c List.mem_cons_self))
  have hread := @tokenize_number behind src rest
    { kind := .invalid, position := position + blanks } c n.numberType hall hsrc hshort
  rw [lexerNext, hnext, buf, hlexeme, List.cons_append, List.cons_append, lexerNextFrom,
    if_neg (by simp [hahead.1]), if_neg hahead.2, hread]
  exact ⟨_, _, rfl, rfl, rfl, rfl⟩

theorem atoll_eq {digits str : List UInt8} (h : str.takeWhile isdigit = digits) :
    atoll str =
      BitVec.ofNat 64 (min (Nat.ofDigits 10 (digits.reverse.map digitValue)) (2 ^ 63 - 1)) := by
  rw [atoll, h, foldl_pushDigit]

/-- With a suffix or a zero behind the digits, nothing else is converted. -/
theorem atoll_buf (n : NumberLexeme) (behind : List UInt8)
    (h : n.numberType = .any → n.lexeme.length < maxNumberLiteralLen) :
    atoll (n.buf ++ behind) = BitVec.ofNat 64 (min n.value (2 ^ 63 - 1)) := by
  rw [buf, List.append_assoc]
  refine atoll_eq (takeWhile_digits _ n.isDigits fun hany => ?_)
  obtain ⟨zeros, hzeros⟩ := Nat.exists_eq_add_of_lt (Nat.sub_pos_of_lt (h hany))
  rw [hzeros]
  intro c hc
  cases hc
  rfl

/-- Digits that leave no room for a zero go on behind the array. -/
theorem atoll_buf_full (n : NumberLexeme) (hany : n.numberType = .any)
    (hfull : n.lexeme.length = maxNumberLiteralLen) :
    atoll (n.buf ++ [49]) = BitVec.ofNat 64 (min (10 * n.value + 1) (2 ^ 63 - 1)) := by
  have hlexeme : n.lexeme = n.digits := by rw [lexeme, hany, suffix]; exact List.append_nil _
  have hdigits : (n.buf ++ [49]).takeWhile isdigit = n.digits ++ [49] := by
    rw [buf, hfull, Nat.sub_self, List.replicate_zero, List.append_nil, hlexeme,
      List.takeWhile_append_of_pos n.isDigits]
    rfl
  rw [atoll_eq hdigits, List.reverse_append, List.reverse_singleton, List.singleton_append,
    List.map_cons, Nat.ofDigits_cons, Nat.add_comm]
  rfl

theorem immediate_eq {number : BitVec 64} {v : Nat} (h : number.toNat = v) :
    (number.setWidth 32).toInt = v ↔ v < 2 ^ 31 := by
  constructor
  · intro himm
    have hlt := @BitVec.toInt_lt 32 (number.setWidth 32)
    rw [himm] at hlt
    exact Int.ofNat_lt.mp (by simpa using hlt)
  · intro hlt
    have hnat : (number.setWidth 32).toNat = v := by
      rw [BitVec.toNat_setWidth, h]
      exact Nat.mod_eq_of_lt (by omega)
    rw [BitVec.toInt_eq_toNat_of_lt (by omega), hnat]

/-- A number never makes the code generator stop. -/
theorem literal_number (tables : List Hashtable) (tok : Token) (gen : Gen) : ∃ rax,
    subregister .rax (typeFromTokenLiteral tok.numberType).kind = .ok rax ∧
    literal tables tok .number gen = .ok (typeFromTokenLiteral tok.numberType,
      [.movImm rax (tok.number.setWidth 32).toInt], gen) := by
  have hrax : ∀ numberType, ∃ rax,
      subregister .rax (typeFromTokenLiteral numberType).kind = .ok rax := by
    intro numberType
    cases numberType <;> exact ⟨_, rfl⟩
  obtain ⟨rax, hrax⟩ := hrax tok.numberType
  exact ⟨rax, hrax, literal_number_ok.mpr ⟨rfl, ⟨rax, hrax, rfl⟩, rfl⟩⟩

/-- No literal is rejected. -/
theorem KeepsValue.fits {n : NumberLexeme} (h : n.KeepsValue) : n.Fits := by
  have hnil : NumberEnds n.numberType [] := fun _ => nofun
  obtain ⟨-, hrejects⟩ := h 0 [] [] 0 [] [] {} .nil hnil
  obtain ⟨tok, lex, hnext, -⟩ := n.lexerNext_number 0 [] .nil hnil
  obtain ⟨rax, -, hliteral⟩ := literal_number [] tok {}
  by_contra hnot
  rcases hrejects hnot with ⟨message, src, hexit⟩ | ⟨tok', lex', message, hok, herror⟩
  · rw [hnext] at hexit
    cases hexit
  · rw [hnext] at hok
    cases hok
    rw [hliteral] at herror
    cases herror

/-- What is behind the array may be anything. -/
theorem KeepsValue.number {n : NumberLexeme} (h : n.KeepsValue) (behind : List UInt8) :
    (atoll (n.buf ++ behind)).toNat = n.value ∧ n.value < 2 ^ 31 := by
  have hnil : NumberEnds n.numberType [] := fun _ => nofun
  obtain ⟨hkeeps, -⟩ := h 0 [] [] 0 behind [] {} .nil hnil
  obtain ⟨tok, lex, hnext, -, htype, hnumber⟩ := n.lexerNext_number 0 behind .nil hnil
  obtain ⟨rax, -, hliteral⟩ := literal_number [] tok {}
  obtain ⟨tok', lex', rax', hok, -, -, hvalue, -, hprinted⟩ := hkeeps h.fits
  rw [hnext] at hok
  cases hok
  rw [hliteral, htype] at hprinted
  simp only [Except.ok.injEq, Prod.mk.injEq, List.cons.injEq, Instr.movImm.injEq] at hprinted
  have himm : (tok.number.setWidth 32).toInt = n.value := hprinted.2.1.1.2
  rw [← hnumber]
  exact ⟨hvalue, (immediate_eq hvalue).mp himm⟩

theorem saturated_ne {v : Nat} (h : v < 2 ^ 31) : min (10 * v + 1) (2 ^ 63 - 1) % 2 ^ 64 ≠ v := by
  have hlt : 10 * v + 1 < 2 ^ 63 - 1 := by omega
  rw [Nat.min_eq_left (Nat.le_of_lt hlt), Nat.mod_eq_of_lt (by omega)]
  omega

/-- A literal keeps its value iff that can be printed as an `int` and its digits do not fill the
array. -/
theorem keepsValue_iff (n : NumberLexeme) : n.KeepsValue ↔ n.value < n.numberType.printable ∧
    (n.numberType = .any → n.lexeme.length < maxNumberLiteralLen) := by
  constructor
  · intro h
    obtain ⟨hvalue, hint⟩ := h.number [49]
    refine ⟨Nat.lt_min.mpr ⟨h.fits, hint⟩, fun hany => ?_⟩
    by_contra hroom
    have hfull : n.lexeme.length = maxNumberLiteralLen :=
      Nat.le_antisymm n.short (Nat.le_of_not_lt hroom)
    rw [n.atoll_buf_full hany hfull, BitVec.toNat_ofNat] at hvalue
    exact saturated_ne hint hvalue
  · intro h k gap src position behind tables gen hgap hsrc
    obtain ⟨hprintable, hroom⟩ := h
    obtain ⟨hbound, hint⟩ := Nat.lt_min.mp hprintable
    obtain ⟨tok, lex, hnext, hrest, htype, hnumber⟩ := n.lexerNext_number position behind hgap hsrc
    obtain ⟨rax, hrax, hliteral⟩ := literal_number tables tok gen
    have hvalue : tok.number.toNat = n.value := by
      rw [hnumber, n.atoll_buf behind hroom, BitVec.toNat_ofNat]
      omega
    refine ⟨fun _ => ⟨tok, lex, rax, hnext, hrest, htype, hvalue, ?_, ?_⟩, fun hnot => ?_⟩
    · rw [← htype, hrax]
    · rw [hliteral, htype, (immediate_eq hvalue).mpr hint]
    · exact absurd hbound hnot

/-- `2147483648L`, which is printed as `-2147483648` -/
def twoToThe31 : NumberLexeme :=
  ⟨bytes "2147483648", .long, by decide, by decide +kernel, by decide⟩

theorem twoToThe31_negative : ¬ twoToThe31.KeepsValue := by
  intro h
  obtain ⟨-, hint⟩ := h.number []
  exact absurd hint (by decide +kernel)

end NumberLexeme

end Seron
