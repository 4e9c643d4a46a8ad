import Lox.Token

/-!
A source text is cut into pieces without gap or overlap: tokens, blanks,
comments, and stretches that are none of these. Each cut takes the longest
piece that can start where the last one ended.
-/

namespace Lox

/-- What a stretch of source text is. -/
inductive PieceSort where
  | blank
  | lineComment
  | blockComment
  | lexeme (kind : Kind)
  | unexpected (character : Char)
  /-- A string whose closing quote is missing. -/
  | openString
  /-- A block comment that is not closed at every level. -/
  | openComment
deriving DecidableEq, Repr

structure Piece where
  sort : PieceSort
  text : List Char
deriving DecidableEq, Repr

def isBlank (character : Char) : Bool :=
  character = ' ' || character = '\r' || character = '\t' || character = '\n'

def isWordStart (character : Char) : Bool := character.isAlpha || character = '_'

def isWordPart (character : Char) : Bool := character.isAlphanum || character = '_'

/-- Digits, and a fraction where a digit follows the point; the rest comes
second. -/
def takeNumber (source : List Char) : List Char × List Char :=
  let whole := source.takeWhile Char.isDigit
  match source.dropWhile Char.isDigit with
  | '.' :: digit :: rest =>
      if digit.isDigit then
        (whole ++ '.' :: (digit :: rest).takeWhile Char.isDigit,
          (digit :: rest).dropWhile Char.isDigit)
      else (whole, '.' :: digit :: rest)
  | rest => (whole, rest)

/-- The value of a decimal numeral, rounded to the nearest double. -/
def numeralValue (text : List Char) : Float :=
  let fraction := (text.dropWhile (· ≠ '.')).drop 1
  let digits := text.filter Char.isDigit
  let mantissa := digits.foldl (fun value digit => 10 * value + (digit.toNat - '0'.toNat)) 0
  Float.ofScientific mantissa true fraction.length

/-- What follows a block comment, given the text after its opening and how many
inner comments are open. -/
def afterComment : Nat → List Char → Option (List Char)
  | _, [] => none
  | inner, '/' :: '*' :: rest => afterComment (inner + 1) rest
  | 0, '*' :: '/' :: rest => some rest
  | inner + 1, '*' :: '/' :: rest => afterComment inner rest
  | inner, _ :: rest => afterComment inner rest

/-- The part of a text before one of its ends. -/
def textBefore (source rest : List Char) : List Char := source.take (source.length - rest.length)

def firstOperator (source : List Char) : Option (List Char × Kind) :=
  operators.find? (·.1.isPrefixOf source)

/-- The first piece of the text `first :: rest`, and the text after it. -/
def Piece.cut (first : Char) (rest : List Char) : Piece × List Char :=
  let source := first :: rest
  if isBlank first then (⟨.blank, [first]⟩, rest)
  else if first.isDigit then
    let (numeral, after) := takeNumber source
    (⟨.lexeme (.number (numeralValue numeral)), numeral⟩, after)
  else if isWordStart first then
    let word := source.takeWhile isWordPart
    (⟨.lexeme (.ofWord (String.ofList word)), word⟩, source.dropWhile isWordPart)
  else if first = '"' then
    let content := rest.takeWhile (· ≠ '"')
    match rest.dropWhile (· ≠ '"') with
    | [] => (⟨.openString, source⟩, [])
    | quote :: after =>
        (⟨.lexeme (.string (String.ofList content)), first :: content ++ [quote]⟩, after)
  else if ['/', '/'].isPrefixOf source then
    (⟨.lineComment, source.takeWhile (· ≠ '\n')⟩, source.dropWhile (· ≠ '\n'))
  else if ['/', '*'].isPrefixOf source then
    match afterComment 0 (source.drop 2) with
    | none => (⟨.openComment, source⟩, [])
    | some after => (⟨.blockComment, textBefore source after⟩, after)
  else
    match firstOperator source with
    | some (text, kind) => (⟨.lexeme kind, text⟩, source.drop text.length)
    | none => (⟨.unexpected first, [first]⟩, rest)

/-- At most so many pieces from the front of a text. -/
def piecesWithin : Nat → List Char → List Piece
  | 0, _ => []
  | _, [] => []
  | bound + 1, first :: rest =>
      let (piece, after) := Piece.cut first rest
      piece :: piecesWithin bound after

/-- All pieces of a text. No piece is empty, so there are at most as many
pieces as characters. -/
def piecesOf (source : List Char) : List Piece := piecesWithin source.length source

end Lox
