import Lox.Diagnostic
import Lox.Token.Piece

/-!
The stream of items in a source text. Blanks and comments leave nothing but
their line ends behind, every other piece is a token or a lexical error, and
one token for the end of the input closes the stream.
-/

namespace Lox

inductive Item where
  | token (token : Token)
  | error (line : Nat) (cause : LexicalError)
deriving DecidableEq, Repr

/-- What a piece that ends on the given line adds to the stream. -/
def Piece.item? (piece : Piece) (line : Nat) : Option Item :=
  match piece.sort with
  | .blank | .lineComment | .blockComment => none
  | .lexeme kind => some (.token ⟨kind, String.ofList piece.text, line⟩)
  | .unexpected character => some (.error line (.unexpectedCharacter character))
  | .openString => some (.error line .unterminatedString)
  | .openComment => some (.error line .unterminatedComment)

def Piece.lineEnds (piece : Piece) : Nat := piece.text.count '\n'

/-- What is left to read of a source text. -/
structure ItemStream where
  pieces : List Piece
  line : Nat
  /-- The token for the end of the input has been handed out. -/
  ended : Bool
deriving Repr

def ItemStream.ofSource (source : String) : ItemStream := ⟨piecesOf source.toList, 1, false⟩

/-- The first item among some pieces, with the stream after it. -/
def firstItem (line : Nat) : List Piece → Item × ItemStream
  | [] => (.token ⟨.endOfInput, "", line⟩, ⟨[], line, true⟩)
  | piece :: rest =>
      let line := line + piece.lineEnds
      match piece.item? line with
      | some item => (item, ⟨rest, line, false⟩)
      | none => firstItem line rest

/-- The next item, or nothing after the end of the input. -/
def ItemStream.next? (stream : ItemStream) : Option (Item × ItemStream) :=
  if stream.ended then none else some (firstItem stream.line stream.pieces)

/-- All items of some pieces that start on the given line. -/
def itemsFrom (line : Nat) : List Piece → List Item
  | [] => [.token ⟨.endOfInput, "", line⟩]
  | piece :: rest =>
      let line := line + piece.lineEnds
      match piece.item? line with
      | some item => item :: itemsFrom line rest
      | none => itemsFrom line rest

/-- All items of a source text, in order. -/
def scan (source : String) : List Item := itemsFrom 1 (piecesOf source.toList)

/-- The tokens of a source text, which end with the one for the end of the
input. -/
def tokensOf (items : List Item) : List Token :=
  items.filterMap fun
    | .token token => some token
    | .error _ _ => none

def lexicalErrorsOf (items : List Item) : List (Nat × LexicalError) :=
  items.filterMap fun
    | .token _ => none
    | .error line cause => some (line, cause)

end Lox
