import Mathlib
import Seron.Verify.Lexing

/-! # Spelling

Lexing undoes spelling: tokens that are written one after the other, with a blank between two, are
read back. -/

namespace Seron

/-! ## Words -/

/-- The operators and punctuation. -/
def operators : List (String × TokenKind) :=
  [("+", .plus), ("-", .minus), ("*", .asterisk), ("/", .slash), ("!", .bang), (";", .semicolon),
    (":", .colon), (",", .comma), ("=", .assign), ("==", .eq), ("!=", .neq), (">", .gt),
    (">=", .gtEq), ("<", .lt), ("<=", .ltEq), ("&", .ampersand), ("|", .pipe), ("||", .logOr),
    ("&&", .logAnd), ("(", .lparen), (")", .rparen), ("\x7b", .lbrace), ("\x7d", .rbrace),
    ("[", .lbracket), ("]", .rbracket)]

/-- The suffix that gives a number its type. -/
def suffix : NumberLiteralType → String
  | .long => "L"
  | .int => "I"
  | .char => "B"
  | .any => ""

/-- A decimal number that fits into a token. -/
structure NumberWord where
  digits : List UInt8
  numberType : NumberLiteralType
  nonempty : digits ≠ []
  isDigits : ∀ c ∈ digits, isdigit c = true
  short : (digits ++ bytes (suffix numberType)).length < maxNumberLiteralLen
  small : digits.foldl pushDigit 0 < 2 ^ 63

/-- A character literal. -/
structure CharWord where
  c : UInt8
  nonzero : c ≠ 0
  ascii : isascii c = true

structure StringWord where
  content : List UInt8
  unquoted : ∀ c ∈ content, Char.ofUInt8 c ≠ '"' ∧ c ≠ 0
  short : content.length < bufsiz

/-- An identifier that does not begin with a keyword. -/
structure IdentWord where
  head : UInt8
  tail : List UInt8
  isHead : isIdentHead head = true
  isTail : ∀ c ∈ tail, isIdentTail c = true
  short : (head :: tail).length ≤ maxIdentLen
  noKeyword : ∀ kw ∈ keywords, ¬ bytes kw.1 <+: head :: tail

/-- The tokens with a spelling that is read back. -/
inductive Word where
  | keyword (kw : String × TokenKind) (h : kw ∈ keywords)
  | operator (op : String × TokenKind) (h : op ∈ operators)
  | number (n : NumberWord)
  | char (c : CharWord)
  | string (s : StringWord)
  | ident (name : IdentWord)

namespace Word

def spelling : Word → List UInt8
  | keyword kw _ => bytes kw.1
  | operator op _ => bytes op.1
  | number n => n.digits ++ bytes (suffix n.numberType)
  | char c => [39, c.c, 39]
  | string s => 34 :: (s.content ++ [34])
  | ident name => name.head :: name.tail

/-- The token at the beginning of a source. -/
def token (w : Word) : Token :=
  let len := w.spelling.length
  match w with
  | keyword kw _ => { kind := kw.2, len }
  | operator op _ => { kind := op.2, len }
  | number n =>
    { kind := .literalNumber, numberType := n.numberType,
      number := BitVec.ofNat 64 (n.digits.foldl pushDigit 0), len }
  | char c => { kind := .literalNumber, numberType := .char, number := c.c.toBitVec.setWidth 64, len }
  | string s => { kind := .literalString, value := text s.content, len }
  | ident name => { kind := .literalIdent, value := text (name.head :: name.tail), len }

end Word

/-- The spellings of a list of words, with one blank between two. -/
inductive Spells : List Word → List UInt8 → Prop
  | nil : Spells [] []
  | single {w : Word} : Spells [w] w.spelling
  | cons {w w' : Word} {ws : List Word} {blank : UInt8} {src : List UInt8} : isBlank blank = true →
    Spells (w' :: ws) src → Spells (w :: w' :: ws) (w.spelling ++ blank :: src)

/-! ## Reading a word back -/

/-- The bytes of the characters that separate words. -/
def blanks : List UInt8 := [9, 13, 32, 10]

/-- A word ends: there is a blank or nothing. -/
def Ends (src : List UInt8) : Prop := ∀ c ∈ src.head?, isBlank c = true

/-- A run of characters of a class ends. -/
def RunEnds (p : UInt8 → Bool) (src : List UInt8) : Prop := ∀ c ∈ src.head?, p c = false

/-- A class without any character of a list; the test computes. -/
theorem none_of_all {l : List UInt8} {p : UInt8 → Bool} (h : l.all (fun c => !p c) = true) :
    ∀ c ∈ l, p c = false := by
  simpa using h

theorem toUInt8_ofUInt8 (c : UInt8) : (Char.ofUInt8 c).toUInt8 = c := UInt8.toUInt8_toUInt32 c

theorem eq_of_ofUInt8 {c : UInt8} {char : Char} (h : Char.ofUInt8 c = char) : c = char.toUInt8 := by
  rw [← h, toUInt8_ofUInt8]

theorem blank_cases {c : UInt8} (h : isBlank c = true) : c ∈ blanks := by
  have hchar : Char.ofUInt8 c ∈ ['\t', '\r', ' ', '\n'] := by simpa [isBlank] using h
  simp only [List.mem_cons, List.not_mem_nil, or_false] at hchar
  rcases hchar with h | h | h | h <;> rw [eq_of_ofUInt8 h] <;> decide

section
variable {behind src rest : List UInt8} {tok : Token} {c : UInt8} {p : UInt8 → Bool}

theorem RunEnds.dropWhile (h : RunEnds p src) (hrest : ∀ c ∈ rest, p c = true) :
    (rest ++ src).dropWhile p = src := by
  rw [List.dropWhile_append_of_pos hrest]
  cases src with
  | nil => rfl
  | cons c src => rw [List.dropWhile_cons_of_neg (by simp [h c rfl])]

/-- No blank goes on with the word before it. -/
theorem Ends.runEnds (h : Ends src) (hp : ∀ c ∈ blanks, p c = false) : RunEnds p src :=
  fun c hc => hp c (blank_cases (h c hc))

/-- Identifiers, keywords and numbers are the tokens without a character of their own. -/
theorem tokenize_default (h : isdigit c = true ∨ isIdentHead c = true) :
    tokenize behind tok c src = if isdigit c then tokenizeNumber behind tok c src
      else if isIdentHead c then tokenizeIdent tok c src
      else .exit s!"unknown token `{text [c]}`" (some (c :: src)) := by
  unfold tokenize
  split
  case h_22 => rfl
  all_goals
    rename_i hc
    obtain rfl := eq_of_ofUInt8 hc
    exact absurd h (by decide)

theorem getKeyword_keyword : ∀ kw ∈ keywords, ∀ src, getKeyword (bytes kw.1 ++ src) = kw.2 := by
  simp only [keywords, List.forall_mem_cons]
  exact ⟨fun _ => rfl, fun _ => rfl, fun _ => rfl, fun _ => rfl, fun _ => rfl, fun _ => rfl,
    fun _ => rfl, fun _ => rfl, fun _ => rfl, fun _ => rfl, fun _ => rfl, fun _ => rfl,
    fun _ => rfl, List.forall_mem_nil _⟩

theorem getKeyword_eq (str : List UInt8) : getKeyword str = .literalIdent ∨
    ∃ kw ∈ keywords, bytes kw.1 <+: str ∧ getKeyword str = kw.2 := by
  unfold getKeyword
  split
  · rename_i kw h
    have hmatch := List.find?_some h
    rw [matchKw, List.isPrefixOf_iff_prefix] at hmatch
    exact .inr ⟨kw, List.mem_of_find?_eq_some h, hmatch, rfl⟩
  · exact .inl rfl

theorem isIdentTail_keyword {kw : String × TokenKind} (hkw : kw ∈ keywords) :
    ∀ c ∈ bytes kw.1, isIdentTail c = true := by
  have hall : ∀ kw ∈ keywords, (bytes kw.1).all isIdentTail = true := by
    simp only [keywords, List.forall_mem_cons]
    exact ⟨rfl, rfl, rfl, rfl, rfl, rfl, rfl, rfl, rfl, rfl, rfl, rfl, rfl, List.forall_mem_nil _⟩
  exact List.all_eq_true.mp (hall kw hkw)

/-- The characters of a keyword are those of identifiers, so it does not reach over the end of
one. -/
theorem keyword_prefix_append {name : List UInt8} (hsrc : RunEnds isIdentTail src)
    {kw : String × TokenKind} (hkw : kw ∈ keywords) :
    bytes kw.1 <+: name ++ src ↔ bytes kw.1 <+: name := by
  refine ⟨fun h => ?_, fun h => h.trans (List.prefix_append name src)⟩
  rcases List.prefix_or_prefix_of_prefix h (List.prefix_append name src) with
    hpre | ⟨rest, hpre⟩
  · exact hpre
  · rw [← hpre, List.prefix_append_right_inj] at h
    cases rest with
    | nil =>
      rw [← hpre, List.append_nil]
    | cons c rest =>
      obtain ⟨src', rfl⟩ := h
      have hc := isIdentTail_keyword hkw c (hpre ▸ List.mem_append_right _ List.mem_cons_self)
      rw [hsrc c rfl] at hc
      cases hc

theorem getKeyword_ident {name : List UInt8} (hname : ∀ kw ∈ keywords, ¬ bytes kw.1 <+: name)
    (hsrc : RunEnds isIdentTail src) : getKeyword (name ++ src) = .literalIdent := by
  rcases getKeyword_eq (name ++ src) with h | ⟨kw, hkw, hpre, -⟩
  · exact h
  · exact absurd ((keyword_prefix_append hsrc hkw).mp hpre) (hname kw hkw)

/-- The end of an identifier or keyword. -/
theorem tokenizeIdent_runEnds (hrest : ∀ c ∈ rest, isIdentTail c = true)
    (hsrc : RunEnds isIdentTail src) (hshort : (c :: rest).length ≤ maxIdentLen) :
    tokenizeIdent tok c (rest ++ src) =
      let kind := getKeyword (c :: rest ++ src)
      let value := if kind = .literalIdent then text (c :: rest) else tok.value
      .ok { tok with kind, len := (c :: rest).length, value } src := by
  have hdrop := hsrc.dropWhile hrest
  have hlen : (c :: (rest ++ src)).length - src.length = (c :: rest).length := length_between rfl
  have htake : (c :: (rest ++ src)).take (c :: rest).length = c :: rest := by
    rw [← List.cons_append, List.take_left]
  simp only [tokenizeIdent, hdrop, hlen, htake, if_neg (Nat.not_lt.mpr hshort), List.cons_append]
  split
  · rename_i hkind
    simp only [hkind, if_true]
  · rename_i hkind
    rw [if_neg hkind]

theorem isIdentTail_blanks : ∀ c ∈ blanks, isIdentTail c = false :=
  none_of_all rfl

theorem isdigit_blanks : ∀ c ∈ blanks, isdigit c = false :=
  none_of_all rfl

end

/-- Started in front of the word, the lexer makes its token, wherever the word stands. -/
def Word.IsRead (w : Word) : Prop :=
  ∃ c rest, w.spelling = c :: rest ∧ TokenAhead w.spelling ∧ ∀ behind src position, Ends src →
    tokenize behind { kind := .invalid, position } c (rest ++ src) =
      .ok { w.token with position } src

theorem isIdentHead_of_isdigit {c : UInt8} (h : isdigit c = true) : isIdentHead c = false := by
  rw [Bool.eq_false_iff]
  intro hhead
  simp only [isIdentHead, isalpha, isdigit, Bool.or_eq_true, Bool.and_eq_true, decide_eq_true_eq,
    beq_iff_eq, UInt8.le_iff_toNat_le] at h hhead
  rcases hhead with (h' | h') | h'
  · exact absurd (Nat.le_trans h'.1 h.2) (by decide)
  · exact absurd (Nat.le_trans h'.1 h.2) (by decide)
  · obtain rfl := eq_of_ofUInt8 h'
    exact absurd h (by decide)

theorem tokenAhead_of_word {c : UInt8} {rest : List UInt8}
    (h : isdigit c = true ∨ isIdentHead c = true) : TokenAhead (c :: rest) := by
  refine ⟨Bool.eq_false_iff.mpr fun hblank => ?_, fun hhash => ?_⟩
  · have hdigit := isdigit_blanks c (blank_cases hblank)
    have htail := isIdentTail_blanks c (blank_cases hblank)
    rw [isIdentTail, hdigit, Bool.or_false] at htail
    rw [hdigit, htail] at h
    simp at h
  · obtain rfl := eq_of_ofUInt8 hhash
    exact absurd h (by decide)

/-- A name is scanned up to its end. -/
theorem tokenize_name {behind src rest : List UInt8} {tok : Token} {c : UInt8}
    (hhead : isIdentHead c = true) (hrest : ∀ c ∈ rest, isIdentTail c = true)
    (hsrc : RunEnds isIdentTail src) (hshort : (c :: rest).length ≤ maxIdentLen) :
    tokenize behind tok c (rest ++ src) =
      let kind := getKeyword (c :: rest ++ src)
      let value := if kind = .literalIdent then text (c :: rest) else tok.value
      .ok { tok with kind, len := (c :: rest).length, value } src := by
  have hdigit : ¬ isdigit c = true := by
    intro h
    rw [isIdentHead_of_isdigit h] at hhead
    cases hhead
  rw [tokenize_default (.inr hhead), if_neg hdigit, if_pos hhead,
    tokenizeIdent_runEnds hrest hsrc hshort]

theorem IdentWord.isRead (name : IdentWord) : (Word.ident name).IsRead := by
  refine ⟨name.head, name.tail, rfl, tokenAhead_of_word (.inr name.isHead), fun _ _ _ hsrc => ?_⟩
  have hends := hsrc.runEnds isIdentTail_blanks
  rw [tokenize_name name.isHead name.isTail hends name.short, getKeyword_ident name.noKeyword hends]
  rfl

theorem keyword_isRead (kw : String × TokenKind) (h : kw ∈ keywords) :
    (Word.keyword kw h).IsRead := by
  have hspelling : ∀ kw ∈ keywords, ∃ c rest, bytes kw.1 = c :: rest ∧ isIdentHead c = true ∧
      (c :: rest).length ≤ maxIdentLen ∧ kw.2 ≠ .literalIdent := by
    simp only [keywords, List.forall_mem_cons]
    refine ⟨?_, ?_, ?_, ?_, ?_, ?_, ?_, ?_, ?_, ?_, ?_, ?_, ?_, List.forall_mem_nil _⟩ <;>
      exact ⟨_, _, rfl, rfl, Nat.le_of_ble_eq_true rfl, nofun⟩
  obtain ⟨c, rest, hbytes, hhead, hshort, hkind⟩ := hspelling kw h
  have htail : ∀ c ∈ rest, isIdentTail c = true := fun c hc =>
    isIdentTail_keyword h c (hbytes ▸ List.mem_cons_of_mem _ hc)
  refine ⟨c, rest, hbytes, ?_, fun _ src _ hsrc => ?_⟩
  · rw [Word.spelling, hbytes]
    exact tokenAhead_of_word (.inr hhead)
  · rw [tokenize_name hhead htail (hsrc.runEnds isIdentTail_blanks) hshort, ← hbytes,
      getKeyword_keyword kw h]
    dsimp only
    rw [if_neg hkind]
    rfl

theorem tokenizeDouble_ends {tok : Token} {src : List UInt8} {first second : TokenKind} {cond : Char}
    (hsrc : Ends src) (hcond : ∀ c ∈ blanks, (Char.ofUInt8 c == cond) = false) :
    tokenizeDouble tok src first cond second = .ok { tok with kind := first } src := by
  cases src with
  | nil => rfl
  | cons c src => rw [tokenizeDouble, if_neg (beq_eq_false_iff_ne.mp (hcond c (blank_cases (hsrc c rfl))))]

theorem operator_isRead (op : String × TokenKind) (h : op ∈ operators) :
    (Word.operator op h).IsRead := by
  have hread : ∀ op ∈ operators, ∃ c rest, bytes op.1 = c :: rest ∧ TokenAhead (c :: rest) ∧
      ∀ behind src position, Ends src → tokenize behind { kind := .invalid, position } c (rest ++ src) =
        .ok { kind := op.2, position, len := (c :: rest).length } src := by
    simp only [operators, List.forall_mem_cons]
    refine ⟨?_, ?_, ?_, ?_, ?_, ?_, ?_, ?_, ?_, ?_, ?_, ?_, ?_, ?_, ?_, ?_, ?_, ?_, ?_, ?_, ?_, ?_, ?_,
      ?_, ?_, List.forall_mem_nil _⟩ <;> refine ⟨_, _, rfl, ⟨rfl, by decide⟩, fun _ _ _ hsrc => ?_⟩
    -- a single character is looked at alone, or together with the blank behind it
    all_goals first
      | rfl
      | exact tokenizeDouble_ends hsrc (none_of_all rfl)
  obtain ⟨c, rest, hbytes, hahead, hread⟩ := hread op h
  refine ⟨c, rest, hbytes, ?_, fun behind src position hsrc => ?_⟩
  · rw [Word.spelling, hbytes]
    exact hahead
  · rw [hread behind src position hsrc, Word.token, Word.spelling, hbytes]

theorem CharWord.isRead (c : CharWord) : (Word.char c).IsRead := by
  refine ⟨39, [c.c, 39], rfl, ⟨rfl, by decide⟩, fun behind src position _ => ?_⟩
  have hread : tokenizeChar { kind := .invalid, position } (c.c :: 39 :: src) =
      .ok { Word.token (.char c) with position } src := by
    rw [tokenizeChar, if_neg (by simp [c.ascii])]
    rfl
  exact hread

theorem tokenizeString_loop_content {content : List UInt8} (src : List UInt8)
    (h : ∀ c ∈ content, Char.ofUInt8 c ≠ '"') :
    tokenizeString.loop (content ++ 34 :: src) = some (34 :: src) := by
  induction content with
  | nil => rfl
  | cons c content ih =>
    obtain ⟨hc, hcontent⟩ := List.forall_mem_cons.mp h
    rw [List.cons_append, tokenizeString.loop, if_neg hc, ih hcontent]

/-- The contents of a string are copied as far as there is room for them. -/
theorem tokenizeString_content {tok : Token} {content src : List UInt8}
    (h : ∀ c ∈ content, Char.ofUInt8 c ≠ '"') :
    tokenizeString tok (content ++ 34 :: src) =
      .ok { tok with kind := .literalString, len := content.length + 2,
                     value := text (content.take bufsiz) } src := by
  have hloop := tokenizeString_loop_content src h
  have hlen : (content ++ 34 :: src).length - (34 :: src).length = content.length := by simp
  have htake : (content ++ 34 :: src).take (min content.length bufsiz) = content.take bufsiz := by
    rw [List.take_append_of_le_length (Nat.min_le_left ..), Nat.min_comm, ← List.take_take,
      List.take_length]
  simp only [tokenizeString, hloop]
  rw [hlen, htake]
  rfl

theorem StringWord.isRead (s : StringWord) : (Word.string s).IsRead := by
  refine ⟨34, s.content ++ [34], rfl, ⟨rfl, by decide⟩, fun behind src position _ => ?_⟩
  have hspelling : (Word.string s).spelling.length = s.content.length + 2 := by
    simp [Word.spelling]
  have hread : tokenizeString { kind := .invalid, position } (s.content ++ 34 :: src) =
      .ok { Word.token (.string s) with position } src := by
    rw [tokenizeString_content fun c hc => (s.unquoted c hc).1,
      List.take_of_length_le (Nat.le_of_lt s.short), Word.token, hspelling]
  rw [List.append_assoc]
  exact hread

/-! ### Numbers -/

/-- The characters that go on with a number without a suffix. -/
def isNumberTail (c : UInt8) : Bool := isdigit c || Char.ofUInt8 c ∈ ['L', 'B', 'I']

/-- A number ends with its suffix, or in front of anything that is neither a digit nor a suffix. -/
def NumberEnds (numberType : NumberLiteralType) (src : List UInt8) : Prop :=
  numberType = .any → RunEnds isNumberTail src

theorem Ends.numberEnds {src : List UInt8} (h : Ends src) (numberType : NumberLiteralType) :
    NumberEnds numberType src :=
  fun _ => h.runEnds (none_of_all rfl)

theorem numberSuffix_suffix {src : List UInt8} (numberType : NumberLiteralType)
    (hsrc : NumberEnds numberType src) :
    numberSuffix ((bytes (suffix numberType) ++ src).dropWhile isdigit) = (numberType, src) := by
  cases numberType with
  | any =>
    change numberSuffix (src.dropWhile isdigit) = _
    cases src with
    | nil => rfl
    | cons c src =>
      have hc := hsrc rfl c rfl
      simp only [isNumberTail, Bool.or_eq_false_iff, decide_eq_false_iff_not, List.mem_cons,
        List.not_mem_nil, or_false, not_or] at hc
      obtain ⟨hdigit, hlong, hchar, hint⟩ := hc
      rw [List.dropWhile_cons_of_neg (by simp [hdigit]), numberSuffix]
      split
      · exact absurd ‹_› hlong
      · exact absurd ‹_› hchar
      · exact absurd ‹_› hint
      · rfl
  | _ => rfl

theorem isdigit_suffix : ∀ numberType, ∀ c ∈ bytes (suffix numberType), isdigit c = false := by
  intro numberType
  cases numberType <;> exact none_of_all rfl

/-- The digits end with the suffix, or with what is behind a number without one. -/
theorem takeWhile_digits {digits src : List UInt8} (numberType : NumberLiteralType)
    (hdigits : ∀ c ∈ digits, isdigit c = true) (hsrc : numberType = .any → RunEnds isdigit src) :
    (digits ++ bytes (suffix numberType) ++ src).takeWhile isdigit = digits := by
  have hstop : (bytes (suffix numberType) ++ src).takeWhile isdigit = [] := by
    cases h : bytes (suffix numberType) with
    | nil =>
      have hany : numberType = .any := by cases numberType <;> first | rfl | cases h
      cases src with
      | nil => rfl
      | cons c src => simp [hsrc hany c rfl]
    | cons c rest => simp [isdigit_suffix numberType c (h ▸ List.mem_cons_self)]
  rw [List.append_assoc, List.takeWhile_append_of_pos hdigits, hstop, List.append_nil]

/-- A number is scanned up to its end, and converted from a copy that is filled up with zeros. -/
theorem tokenize_number {behind src rest : List UInt8} {tok : Token} {c : UInt8}
    {numberType : NumberLiteralType} (hdigits : ∀ d ∈ c :: rest, isdigit d = true)
    (hsrc : NumberEnds numberType src)
    (hshort : (c :: rest ++ bytes (suffix numberType)).length ≤ maxNumberLiteralLen) :
    tokenize behind tok c (rest ++ bytes (suffix numberType) ++ src) =
      let lexeme := c :: rest ++ bytes (suffix numberType)
      let zeros := List.replicate (maxNumberLiteralLen - lexeme.length) 0
      .ok { tok with kind := .literalNumber, numberType, len := lexeme.length,
                     number := atoll (lexeme ++ zeros ++ behind) } src := by
  obtain ⟨hc, hrest⟩ := List.forall_mem_cons.mp hdigits
  have hstart : c :: (rest ++ bytes (suffix numberType) ++ src) =
      c :: rest ++ bytes (suffix numberType) ++ src := rfl
  have hsuffix : numberSuffix ((rest ++ bytes (suffix numberType) ++ src).dropWhile isdigit) =
      (numberType, src) := by
    rw [List.append_assoc, List.dropWhile_append_of_pos hrest]
    exact numberSuffix_suffix numberType hsrc
  have hlen : (c :: rest ++ bytes (suffix numberType) ++ src).length - src.length =
      (c :: rest ++ bytes (suffix numberType)).length := by
    rw [List.length_append, Nat.add_sub_cancel]
  rw [tokenize_default (.inl hc), if_pos hc]
  simp only [tokenizeNumber, hsuffix, hstart]
  rw [hlen, if_neg (Nat.not_lt.mpr hshort), List.take_left]

theorem NumberWord.isRead (n : NumberWord) : (Word.number n).IsRead := by
  obtain ⟨c, rest, hdigits⟩ := List.exists_cons_of_ne_nil n.nonempty
  have hspelling : (Word.number n).spelling = c :: (rest ++ bytes (suffix n.numberType)) := by
    rw [Word.spelling, hdigits, List.cons_append]
  have hall := n.isDigits
  have hshort := n.short
  rw [hdigits] at hall hshort
  refine ⟨c, rest ++ bytes (suffix n.numberType), hspelling, ?_, fun behind src position hsrc => ?_⟩
  · rw [hspelling]
    exact tokenAhead_of_word (.inl (hall c List.mem_cons_self))
  have hzeros : RunEnds isdigit (List.replicate (maxNumberLiteralLen -
      (c :: rest ++ bytes (suffix n.numberType)).length) 0 ++ behind) := by
    obtain ⟨zeros, hzeros⟩ := Nat.exists_eq_add_of_lt (Nat.sub_pos_of_lt hshort)
    rw [hzeros]
    intro c hc
    cases hc
    rfl
  have hvalue := takeWhile_digits n.numberType hall fun _ => hzeros
  rw [tokenize_number hall (hsrc.numberEnds _) (Nat.le_of_lt hshort)]
  simp only [atoll]
  rw [List.append_assoc, hvalue, ← hdigits, Nat.min_eq_left (Nat.le_sub_one_of_lt n.small)]
  rfl

/-! ## Reading a list of words back -/

theorem Word.isRead (w : Word) : w.IsRead := by
  cases w with
  | keyword kw h => exact keyword_isRead kw h
  | operator op h => exact operator_isRead op h
  | number n => exact n.isRead
  | char c => exact c.isRead
  | string s => exact s.isRead
  | ident name => exact name.isRead

/-- One call of the lexer reads one word. -/
theorem lexerNextFrom_word (w : Word) {src : List UInt8} (behind : List UInt8) (position : Nat)
    (hsrc : Ends src) :
    lexerNextFrom behind (w.spelling ++ src) position =
      .ok { w.token with position } { src, position := position + w.token.len, behind } := by
  obtain ⟨c, rest, hspelling, hahead, hread⟩ := w.isRead
  rw [hspelling] at hahead
  rw [hspelling, List.cons_append, lexerNextFrom, if_neg (by simp [hahead.1]), if_neg hahead.2,
    hread behind src position hsrc]

theorem lexerNextFrom_blank {blank : UInt8} (hblank : isBlank blank = true) (behind src : List UInt8)
    (position : Nat) :
    lexerNextFrom behind (blank :: src) position = lexerNextFrom behind src (position + 1) := by
  rw [lexerNextFrom, if_pos hblank]

theorem Word.token_kind (w : Word) : w.token.kind ≠ .eof := by
  cases w with
  | keyword kw h =>
    have hkind : ∀ kw ∈ keywords, kw.2 ≠ .eof := by decide
    exact hkind kw h
  | operator op h =>
    have hkind : ∀ op ∈ operators, op.2 ≠ .eof := by decide
    exact hkind op h
  | _ => nofun

theorem collectTokens_blank {fuel : Nat} {blank : UInt8} (hblank : isBlank blank = true)
    (behind src : List UInt8) (position : Nat) :
    lexerCollectTokens fuel { src := blank :: src, position, behind } =
      lexerCollectTokens fuel { src, position := position + 1, behind } := by
  cases fuel with
  | zero => rfl
  | succ fuel => simp only [lexerCollectTokens, lexerNext, lexerNextFrom_blank hblank]

theorem collectTokens_word (w : Word) {fuel : Nat} {src : List UInt8} (behind : List UInt8)
    (position : Nat) (hsrc : Ends src) :
    lexerCollectTokens (fuel + 1) { src := w.spelling ++ src, position, behind } =
      (lexerCollectTokens fuel { src, position := position + w.token.len, behind }).map
        ({ w.token with position } :: ·) := by
  simp only [lexerCollectTokens, lexerNext, lexerNextFrom_word w behind position hsrc,
    if_neg w.token_kind]

theorem collectTokens_nil {fuel : Nat} (behind : List UInt8) (position : Nat) :
    lexerCollectTokens (fuel + 1) { src := [], position, behind } =
      some [{ Token.eof with position }] := by
  simp [lexerCollectTokens, lexerNext, lexerNextFrom, Token.eof]

/-- A token without its place in the source. -/
def Token.placeless (tok : Token) : Token := { tok with position := 0 }

theorem Word.placeless_token (w : Word) (position : Nat) :
    Token.placeless { w.token with position } = w.token := by
  cases w <;> rfl

/-- The cursor may start anywhere in a source, so the positions differ. -/
theorem Spells.collectTokens {ws : List Word} {src : List UInt8} (h : Spells ws src)
    (behind : List UInt8) (position : Nat) {fuel : Nat} (hfuel : ws.length < fuel) :
    ∃ toks, lexerCollectTokens fuel { src, position, behind } = some toks ∧
      toks.map Token.placeless = ws.map Word.token ++ [Token.eof] := by
  induction h generalizing position fuel with
  | nil =>
    obtain ⟨fuel, rfl⟩ := Nat.exists_eq_succ_of_ne_zero (Nat.ne_of_gt hfuel)
    exact ⟨_, collectTokens_nil behind position, rfl⟩
  | @single w =>
    obtain ⟨fuel, rfl⟩ : ∃ calls, fuel = calls + 1 + 1 := Nat.exists_eq_add_of_le' hfuel
    have hends : Ends [] := nofun
    have hread : lexerCollectTokens (fuel + 1 + 1) { src := w.spelling ++ [], position, behind } = _ :=
      collectTokens_word w behind position hends
    rw [List.append_nil, collectTokens_nil, Option.map_some] at hread
    refine ⟨_, hread, ?_⟩
    simp only [List.map_cons, w.placeless_token]
    rfl
  | @cons w w' ws blank src hblank _ ih =>
    obtain ⟨fuel, rfl⟩ := Nat.exists_eq_succ_of_ne_zero (Nat.ne_of_gt (Nat.zero_lt_of_lt hfuel))
    have hends : Ends (blank :: src) := by
      intro c hc
      obtain rfl : blank = c := by simpa using hc
      exact hblank
    obtain ⟨toks, htoks, hmap⟩ := ih (position + w.token.len + 1) (Nat.lt_of_succ_lt_succ hfuel)
    refine ⟨{ w.token with position } :: toks, ?_, ?_⟩
    · rw [collectTokens_word w behind position hends, collectTokens_blank hblank, htoks]
      rfl
    · rw [List.map_cons, w.placeless_token, hmap]
      rfl

/-- Lexing undoes spelling: the tokens of the words, and the end of the file. -/
theorem lexer_spelling {ws : List Word} {src : List UInt8} (h : Spells ws src)
    (behind : List UInt8) {fuel : Nat} (hfuel : ws.length < fuel) :
    ∃ toks, lexerCollectTokens fuel (lexerInit src behind) = some toks ∧
      toks.map Token.placeless = ws.map Word.token ++ [Token.eof] := by
  exact h.collectTokens behind 0 hfuel

theorem lexer_spelling_assign : ∃ toks,
    lexerCollectTokens 4 (lexerInit (bytes "n =\n12L") []) = some toks ∧
      toks.map Token.placeless = [{ kind := .literalIdent, value := "n" }, { kind := .assign },
        { kind := .literalNumber, numberType := .long, number := 12, len := 3 }, Token.eof] := by
  have h : Spells
      [.ident ⟨110, [], rfl, nofun, by decide, by decide⟩, .operator ("=", .assign) (by decide),
        .number ⟨bytes "12", .long, nofun, List.all_eq_true.mp rfl,
          Nat.le_of_ble_eq_true rfl, by decide⟩]
      (bytes "n =\n12L") :=
    .cons (by rfl : isBlank 32 = true) (.cons (by rfl : isBlank 10 = true) .single)
  exact lexer_spelling h [] (by decide)

end Seron
