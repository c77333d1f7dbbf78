import Mathlib.Algebra.GroupWithZero.Nat
import Seron.Token

/-! # The lexer

`lexer.c`. The cursor is the list of the bytes from it up to the NUL that ends the source, so the
difference of two pointers is one of two lengths. -/

namespace Seron

/-- `BUFSIZ` of the C library, the size of the array `value` of a token. -/
def bufsiz : Nat := 8192

def maxNumberLiteralLen : Nat := 64

structure Lexer where
  src : List UInt8
  position : Nat
  /-- The bytes behind the array `buf` of `tokenize_number`, which need not end in a NUL. -/
  behind : List UInt8 := []

/-- How a call ends: with a token and the state behind it, with a diagnostic and
`exit(EXIT_FAILURE)`, or by reading behind the NUL. When it exits, `src` is the cursor, or `none`
if that has been moved behind the NUL. -/
inductive LexOutcome (σ : Type) where
  | ok (tok : Token) (state : σ)
  | exit (message : String) (src : Option (List UInt8))
  | overread

/-- Bytes as a C string. -/
def text (bytes : List UInt8) : String := String.ofList (bytes.map Char.ofUInt8)

/-- The bytes of an ASCII string. -/
def bytes (s : String) : List UInt8 := s.toList.map Char.toUInt8

/-! ## Characters -/

def isdigit (c : UInt8) : Bool := 48 ≤ c && c ≤ 57

/-- In the "C" locale. -/
def isalpha (c : UInt8) : Bool := 65 ≤ c && c ≤ 90 || 97 ≤ c && c ≤ 122

def isascii (c : UInt8) : Bool := c < 128

def isIdentHead (c : UInt8) : Bool := isalpha c || Char.ofUInt8 c == '_'

def isIdentTail (c : UInt8) : Bool := isIdentHead c || isdigit c

/-- `!strncmp(str, kw, strlen(kw))` -/
def matchKw (str : List UInt8) (kw : String) : Bool := (bytes kw).isPrefixOf str

/-- The keywords in the order in which `get_keyword` compares them. -/
def keywords : List (String × TokenKind) :=
  [("proc", .kwProc), ("let", .kwVardecl), ("if", .kwIf), ("for", .kwFor), ("else", .kwElse),
    ("elsif", .kwElsif), ("while", .kwWhile), ("table", .kwTable), ("return", .kwReturn),
    ("void", .kwTypeVoid), ("char", .kwTypeChar), ("int", .kwTypeInt), ("long", .kwTypeLong)]

def getKeyword (str : List UInt8) : TokenKind :=
  match keywords.find? fun kw => matchKw str kw.1 with
  | some kw => kw.2
  | none => .literalIdent

/-- The value of a digit added at the end of a number. -/
def pushDigit (n : Nat) (c : UInt8) : Nat := 10 * n + (c.toNat - 48)

/-- `atoll` of a string that begins with a digit; like `strtoll` it stops at `LLONG_MAX`. -/
def atoll (str : List UInt8) : BitVec 64 :=
  BitVec.ofNat 64 (min ((str.takeWhile isdigit).foldl pushDigit 0) (2 ^ 63 - 1))

/-! ## The kinds of tokens

Each function gets the bytes behind the first character of the token. -/

/-- `while (*++lex->src != '"')`: the cursor on the quote. -/
def tokenizeString.loop : List UInt8 → Option (List UInt8)
  | [] => none
  | c :: src => if Char.ofUInt8 c = '"' then some (c :: src) else tokenizeString.loop src

def tokenizeString (tok : Token) (start : List UInt8) : LexOutcome (List UInt8) :=
  match tokenizeString.loop start with
  | none => .exit s!"unterminated string literal: `{text start}`" (some [])
  | some src =>
    let len := start.length - src.length
    let value := text (start.take (min len bufsiz))
    .ok { tok with kind := .literalString, len := len + 2, value } src.tail

def tokenizeChar (tok : Token) : List UInt8 → LexOutcome (List UInt8)
  | [] => .overread
  | c :: src =>
    if !isascii c then .exit "invalid character literal" (some src)
    else
      match src with
      | [] => .exit "unterminated character literal" none
      | quote :: src =>
        if Char.ofUInt8 quote ≠ '\'' then .exit "unterminated character literal" (some src)
        else
          let number := c.toBitVec.setWidth 64
          .ok { tok with kind := .literalNumber, numberType := .char, number, len := 3 } src

/-- The suffix of a number, and the cursor behind it. -/
def numberSuffix : List UInt8 → NumberLiteralType × List UInt8
  | [] => (.any, [])
  | c :: src =>
    match Char.ofUInt8 c with
    | 'L' => (.long, src)
    | 'B' => (.char, src)
    | 'I' => (.int, src)
    | _ => (.any, c :: src)

def tokenizeNumber (behind : List UInt8) (tok : Token) (c : UInt8) (rest : List UInt8) :
    LexOutcome (List UInt8) :=
  let start := c :: rest
  let (numberType, src) := numberSuffix (rest.dropWhile isdigit)
  let len := start.length - src.length
  if len > maxNumberLiteralLen then
    .exit s!"Integer literals may not be longer than {maxNumberLiteralLen} characters. This one has: {len}"
      (some src)
  else
    let buf := start.take len ++ List.replicate (maxNumberLiteralLen - len) 0
    .ok { tok with kind := .literalNumber, numberType, len, number := atoll (buf ++ behind) } src

def tokenizeIdent (tok : Token) (c : UInt8) (rest : List UInt8) : LexOutcome (List UInt8) :=
  let start := c :: rest
  let src := rest.dropWhile isIdentTail
  let len := start.length - src.length
  if len > maxIdentLen then
    .exit s!"Identifiers may not be longer than {maxIdentLen} characters. This one has: {len}" (some src)
  else
    match getKeyword start with
    | .literalIdent => .ok { tok with kind := .literalIdent, len, value := text (start.take len) } src
    | kind => .ok { tok with kind, len } src

def tokenizeSingle (tok : Token) (src : List UInt8) (kind : TokenKind) : LexOutcome (List UInt8) :=
  .ok { tok with kind } src

def tokenizeDouble (tok : Token) (src : List UInt8) (first : TokenKind) (cond : Char)
    (second : TokenKind) : LexOutcome (List UInt8) :=
  match src with
  | [] => .ok { tok with kind := first } []
  | c :: rest =>
    if Char.ofUInt8 c = cond then .ok { tok with kind := second, len := 2 } rest
    else .ok { tok with kind := first } (c :: rest)

/-! ## The next token -/

/-- The cases of the switch in `lexer_next` that make a token. -/
def tokenize (behind : List UInt8) (tok : Token) (c : UInt8) (src : List UInt8) :
    LexOutcome (List UInt8) :=
  match Char.ofUInt8 c with
  | '+' => tokenizeSingle tok src .plus
  | '-' => tokenizeSingle tok src .minus
  | '*' => tokenizeSingle tok src .asterisk
  | '/' => tokenizeSingle tok src .slash
  | '(' => tokenizeSingle tok src .lparen
  | ')' => tokenizeSingle tok src .rparen
  | '{' => tokenizeSingle tok src .lbrace
  | '}' => tokenizeSingle tok src .rbrace
  | '[' => tokenizeSingle tok src .lbracket
  | ']' => tokenizeSingle tok src .rbracket
  | ';' => tokenizeSingle tok src .semicolon
  | ',' => tokenizeSingle tok src .comma
  | ':' => tokenizeSingle tok src .colon
  | '<' => tokenizeDouble tok src .lt '=' .ltEq
  | '>' => tokenizeDouble tok src .gt '=' .gtEq
  | '!' => tokenizeDouble tok src .bang '=' .neq
  | '=' => tokenizeDouble tok src .assign '=' .eq
  | '|' => tokenizeDouble tok src .pipe '|' .logOr
  | '&' => tokenizeDouble tok src .ampersand '&' .logAnd
  | '\'' => tokenizeChar tok src
  | '"' => tokenizeString tok src
  | _ =>
    if isdigit c then tokenizeNumber behind tok c src
    else if isIdentHead c then tokenizeIdent tok c src
    else .exit s!"unknown token `{text [c]}`" (some (c :: src))

def isBlank (c : UInt8) : Bool := Char.ofUInt8 c ∈ ['\t', '\r', ' ', '\n']

mutual

/-- `lexer_next` with the cursor on the given bytes. A blank moves the position along with the
cursor, a comment moves the cursor only. -/
def lexerNextFrom (behind : List UInt8) : List UInt8 → Nat → LexOutcome Lexer
  | [], position => .ok { kind := .eof, position } { src := [], position, behind }
  | c :: src, position =>
    if isBlank c then lexerNextFrom behind src (position + 1)
    else if Char.ofUInt8 c = '#' then lexerSkipComment behind src position
    else
      match tokenize behind { kind := .invalid, position } c src with
      | .ok tok src => .ok tok { src, position := position + tok.len, behind }
      | .exit message src => .exit message src
      | .overread => .overread

/-- `while (*++lex->src != '\n'); lex->src++; return lexer_next(lex);` -/
def lexerSkipComment (behind : List UInt8) : List UInt8 → Nat → LexOutcome Lexer
  | [], _ => .overread
  | c :: src, position =>
    if Char.ofUInt8 c = '\n' then lexerNextFrom behind src position
    else lexerSkipComment behind src position

end

def lexerInit (src : List UInt8) (behind : List UInt8) : Lexer := { src, position := 0, behind }

def lexerNext (lex : Lexer) : LexOutcome Lexer := lexerNextFrom lex.behind lex.src lex.position

/-- The tokens up to the end of the file, from at most `fuel` calls. -/
def lexerCollectTokens : Nat → Lexer → Option (List Token)
  | 0, _ => none
  | fuel + 1, lex =>
    match lexerNext lex with
    | .ok tok lex =>
      if tok.kind = .eof then some [tok] else (lexerCollectTokens fuel lex).map (tok :: ·)
    | .exit .. | .overread => none

end Seron
