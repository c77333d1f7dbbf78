/-! # Tokens

The token type of `lexer.h`, as the lexer hands it to the parser. -/

namespace Seron

/-- The longest identifier the lexer accepts. -/
def maxIdentLen : Nat := 64

inductive TokenKind where
  | invalid | sentinel | eof
  | literalIdent | literalNumber | literalString
  | plus | minus | asterisk | slash | bang
  | semicolon | colon | comma | assign | eq | neq | gt | gtEq | lt | ltEq
  | ampersand | pipe | logOr | logAnd
  | lparen | rparen | lbrace | rbrace | lbracket | rbracket
  | kwProc | kwVardecl | kwIf | kwElse | kwElsif | kwWhile | kwReturn | kwTable | kwFor
  | kwTypeVoid | kwTypeChar | kwTypeInt | kwTypeLong
  deriving DecidableEq, Repr

def stringifyTokenkind : TokenKind → String
  | .invalid => "invalid"
  | .sentinel => "sentinel"
  | .eof => "eof"
  | .kwFor => "for"
  | .literalNumber => "num"
  | .pipe => "pipe"
  | .literalString => "string"
  | .logAnd => "and"
  | .lt => "lt"
  | .ltEq => "lt-eq"
  | .gt => "gt"
  | .kwTable => "table"
  | .gtEq => "gt-eq"
  | .plus => "plus"
  | .logOr => "or"
  | .minus => "minus"
  | .asterisk => "asterisk"
  | .slash => "slash"
  | .semicolon => "semicolon"
  | .comma => "comma"
  | .colon => "colon"
  | .literalIdent => "ident"
  | .assign => "assign"
  | .eq => "eq"
  | .neq => "neq"
  | .bang => "bang"
  | .ampersand => "ampersand"
  | .lparen => "lparen"
  | .rparen => "rparen"
  | .lbrace => "lbrace"
  | .rbrace => "rbrace"
  | .lbracket => "lbracket"
  | .rbracket => "rbracket"
  | .kwProc => "proc"
  | .kwVardecl => "let"
  | .kwIf => "if"
  | .kwElse => "else"
  | .kwElsif => "elsif"
  | .kwWhile => "while"
  | .kwReturn => "return"
  | .kwTypeVoid => "void"
  | .kwTypeChar => "char"
  | .kwTypeInt => "int"
  | .kwTypeLong => "long"

inductive NumberLiteralType where
  | long | int | char | any
  deriving DecidableEq, Repr

/-- A token. The defaults are those of the initialiser at the top of `lexer_next`: every
field it does not name is zero, and `NUMBER_LONG` is the enumerator of value zero. -/
structure Token where
  kind : TokenKind
  value : String := ""
  numberType : NumberLiteralType := .long
  number : BitVec 64 := 0
  position : Nat := 0
  len : Nat := 1
  deriving DecidableEq, Repr

/-- The token `lexer_next` returns, again and again, once its cursor is on the NUL. -/
def Token.eof : Token := { kind := .eof }

/-- An identifier as `tokenize_ident` makes it, up to its position. -/
def Token.ident (value : String) : Token := { kind := .literalIdent, value, len := value.length }

/-- A number without a suffix as `tokenize_number` makes it, up to position and length. -/
def Token.num (number : BitVec 64) : Token := { kind := .literalNumber, numberType := .any, number }

end Seron
