import Lox.Token

/-!
The structured form of a token, one object per token, for other programs to
read.
-/

namespace Lox

/-- How a character stands in a quoted text. Control characters without a
letter of their own are written by their code. -/
def quotedCharacter (character : Char) : String :=
  if character = '"' then "\\\""
  else if character = '\\' then "\\\\"
  else if character = '\x08' then "\\b"
  else if character = '\x0c' then "\\f"
  else if character = '\n' then "\\n"
  else if character = '\r' then "\\r"
  else if character = '\t' then "\\t"
  else if character.toNat < 32 then
    "\\u00" ++ String.ofList
      [Nat.digitChar (character.toNat / 16), Nat.digitChar (character.toNat % 16)]
  else character.toString

def quotedText (text : String) : String :=
  "\"" ++ String.join (text.toList.map quotedCharacter) ++ "\""

/-- The kind of a token; a literal is wrapped in an object with its value. -/
def Kind.structured : Kind → String
  | .string text => "\x7b\"STRING\":" ++ quotedText text ++ "\x7d"
  | .number value => "\x7b\"NUMBER\":" ++ Number.structured value ++ "\x7d"
  | kind => quotedText kind.name

def Token.structured (token : Token) : String :=
  "\x7b\"token_type\":" ++ token.kind.structured ++ ",\"lexeme\":" ++ quotedText token.lexeme
    ++ ",\"line\":" ++ toString token.line ++ "\x7d"

end Lox
