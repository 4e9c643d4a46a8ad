import Lox.Number.Text

/-!
Tokens: what a source text is made of once blanks and comments are gone. A
literal carries its value in its kind, so the parser never looks at text again.
-/

namespace Lox

inductive Kind where
  | leftParen
  | rightParen
  | leftBrace
  | rightBrace
  | comma
  | dot
  | minus
  | plus
  | semicolon
  | slash
  | star
  | question
  | colon
  | bang
  | bangEqual
  | equal
  | equalEqual
  | greater
  | greaterEqual
  | less
  | lessEqual
  | identifier
  | string (text : String)
  | number (value : Float)
  | andWord
  | classWord
  | elseWord
  | falseWord
  | funWord
  | forWord
  | ifWord
  | nilWord
  | orWord
  | printWord
  | returnWord
  | superWord
  | selfWord
  | trueWord
  | varWord
  | whileWord
  | endOfInput
deriving DecidableEq, Repr

/-- The word under which listings show a kind; literals show no value here. -/
def Kind.name : Kind → String
  | .leftParen => "LEFT_PAREN"
  | .rightParen => "RIGHT_PAREN"
  | .leftBrace => "LEFT_BRACE"
  | .rightBrace => "RIGHT_BRACE"
  | .comma => "COMMA"
  | .dot => "DOT"
  | .minus => "MINUS"
  | .plus => "PLUS"
  | .semicolon => "SEMICOLON"
  | .slash => "SLASH"
  | .star => "STAR"
  | .question => "QUESTION"
  | .colon => "COLON"
  | .bang => "BANG"
  | .bangEqual => "BANG_EQUAL"
  | .equal => "EQUAL"
  | .equalEqual => "EQUAL_EQUAL"
  | .greater => "GREATER"
  | .greaterEqual => "GREATER_EQUAL"
  | .less => "LESS"
  | .lessEqual => "LESS_EQUAL"
  | .identifier => "IDENTIFIER"
  | .string _ => "STRING"
  | .number _ => "NUMBER"
  | .andWord => "AND"
  | .classWord => "CLASS"
  | .elseWord => "ELSE"
  | .falseWord => "FALSE"
  | .funWord => "FUN"
  | .forWord => "FOR"
  | .ifWord => "IF"
  | .nilWord => "NIL"
  | .orWord => "OR"
  | .printWord => "PRINT"
  | .returnWord => "RETURN"
  | .superWord => "SUPER"
  | .selfWord => "SELF"
  | .trueWord => "TRUE"
  | .varWord => "VAR"
  | .whileWord => "WHILE"
  | .endOfInput => "EOF"

/-- The reserved words. Any other word is an identifier. -/
def keywords : List (String × Kind) :=
  [("and", .andWord), ("class", .classWord), ("else", .elseWord), ("false", .falseWord),
    ("fun", .funWord), ("for", .forWord), ("if", .ifWord), ("nil", .nilWord), ("or", .orWord),
    ("print", .printWord), ("return", .returnWord), ("super", .superWord), ("self", .selfWord),
    ("true", .trueWord), ("var", .varWord), ("while", .whileWord)]

def Kind.ofWord (word : String) : Kind := (keywords.lookup word).getD .identifier

/-- Operators and punctuation. The longer ones come first, so that the first
entry that fits is the longest match. -/
def operators : List (List Char × Kind) :=
  [(['!', '='], .bangEqual), (['=', '='], .equalEqual), (['<', '='], .lessEqual),
    (['>', '='], .greaterEqual), (['!'], .bang), (['='], .equal), (['<'], .less),
    (['>'], .greater), (['('], .leftParen), ([')'], .rightParen), (['\x7b'], .leftBrace),
    (['\x7d'], .rightBrace), ([','], .comma), (['.'], .dot), (['-'], .minus), (['+'], .plus),
    ([';'], .semicolon), (['/'], .slash), (['*'], .star), (['?'], .question), ([':'], .colon)]

structure Token where
  kind : Kind
  /-- The exact stretch of source text; empty at the end of the input. -/
  lexeme : String
  /-- The line, counted from one, on which the token ends. -/
  line : Nat
deriving DecidableEq, Repr

/-- The line of a token listing: kind, lexeme and literal value. -/
def Token.listing (token : Token) : String :=
  let literal := match token.kind with
    | .string text => text
    | .number value => Number.listed.render value
    | _ => "null"
  token.kind.name ++ " " ++ token.lexeme ++ " " ++ literal

end Lox
