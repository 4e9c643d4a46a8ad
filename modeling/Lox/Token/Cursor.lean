import Lox.Token.Stream

/-!
The stream of items as it is read off the bytes of a text. A cursor goes from byte to byte and
cuts stretches out of the text between the places that it has come to. Nothing here depends on
where characters begin, so three things could go wrong: to read a byte behind the last one, to
cut through a character, and to go around a loop for ever. Each of them is a misstep, so that it
can be said that none is ever made.
-/

namespace Lox

/-- What must not happen in going over the bytes of a text. -/
inductive Misstep where
  /-- A byte is read where the text has none. -/
  | noByte
  /-- A stretch is cut out that does not lie between two characters. -/
  | noStretch
  /-- A loop is gone around more often than it may be. -/
  | unending
deriving DecidableEq, Repr

/-- What is found where a piece of the text begins. -/
inductive Found where
  /-- A blank or a comment. -/
  | nothing
  | token (kind : Kind)
  | error (cause : LexicalError)
deriving DecidableEq, Repr

structure Cursor where
  source : String
  /-- Where the piece begins that is being read. -/
  start : Nat
  /-- The place behind the last byte that was stepped over. -/
  position : Nat
  line : Nat
deriving DecidableEq, Repr

namespace Cursor

/-- Going over bytes, unless a misstep is made. -/
abbrev Walk := EStateM Misstep Cursor

def ofSource (source : String) : Cursor := ⟨source, 0, 0, 1⟩

def bytes (cursor : Cursor) : List UInt8 := cursor.source.toUTF8.data.toList

def size (cursor : Cursor) : Nat := cursor.source.utf8ByteSize

section Bytes

/-- The byte at a place, which has to lie inside of the text. -/
def byteAt (place : Nat) : Walk UInt8 := fun cursor =>
  match cursor.bytes[place]? with
  | some byte => .ok byte cursor
  | none => .error .noByte cursor

def atEnd : Walk Bool := return (← get).size ≤ (← get).position

def forward (count : Nat) : Walk Unit :=
  modify fun cursor => { cursor with position := cursor.position + count }

def nextLine : Walk Unit := modify fun cursor => { cursor with line := cursor.line + 1 }

/-- Step over the next byte. -/
def advance : Walk UInt8 := do
  let byte ← byteAt (← get).position
  forward 1
  return byte

/-- The next byte, or zero at the end of the text. -/
def peek : Walk UInt8 := do
  if ← atEnd then return 0 else byteAt (← get).position

/-- The byte after the next one, or zero if there is none. -/
def peekNext : Walk UInt8 := do
  let cursor ← get
  if cursor.size ≤ cursor.position + 1 then return 0 else byteAt (cursor.position + 1)

/-- Step over the next byte if it is this character. -/
def accept (character : Char) : Walk Bool := do
  if ← atEnd then return false
  else if (← peek) = character.toUInt8 then
    let _ ← advance
    return true
  else return false

/-- The text between two places, both of which have to lie between characters. -/
def stretch (first last : Nat) : Walk String := fun cursor =>
  if inside : first ≤ last ∧ String.Pos.Raw.IsValid cursor.source ⟨first⟩ ∧
      String.Pos.Raw.IsValid cursor.source ⟨last⟩ then
    .ok (cursor.source.extract (cursor.source.pos ⟨first⟩ inside.2.1)
      (cursor.source.pos ⟨last⟩ inside.2.2)) cursor
  else .error .noStretch cursor

/-- Step over bytes as long as the next one passes a test. -/
def advanceWhile (test : UInt8 → Bool) : (bound : Nat) → Walk Unit
  | 0 => throw .unending
  | bound + 1 => do
      if test (← peek) then
        let _ ← advance
        advanceWhile test bound
      else return ()

end Bytes

def isDigitByte (byte : UInt8) : Bool := '0'.toUInt8 ≤ byte && byte ≤ '9'.toUInt8

def isLetterByte (byte : UInt8) : Bool :=
  'a'.toUInt8 ≤ byte && byte ≤ 'z'.toUInt8 || 'A'.toUInt8 ≤ byte && byte ≤ 'Z'.toUInt8 ||
    byte = '_'.toUInt8

def isWordByte (byte : UInt8) : Bool := isLetterByte byte || isDigitByte byte

/-- The characters that are a token on their own. -/
def singles : List (Char × Kind) :=
  [('(', .leftParen), (')', .rightParen), ('\x7b', .leftBrace), ('\x7d', .rightBrace),
    (',', .comma), ('.', .dot), ('-', .minus), ('+', .plus), (';', .semicolon), ('*', .star),
    ('?', .question), (':', .colon)]

/-- The characters that are one token before an equals sign and another one elsewhere. -/
def doubles : List (Char × Kind × Kind) :=
  [('!', .bangEqual, .bang), ('=', .equalEqual, .equal), ('<', .lessEqual, .less),
    ('>', .greaterEqual, .greater)]

section Pieces

/-- What follows the two slashes of a comment, up to the end of the line. -/
def lineComment : Walk Found := fun cursor =>
  if cursor.position ≤ cursor.size then
    match (cursor.bytes.drop cursor.position).findIdx? (· = '\n'.toUInt8) with
    | some distance => .ok .nothing { cursor with position := cursor.position + distance }
    | none => .ok .nothing { cursor with position := cursor.size }
  else .error .noByte cursor

/-- What follows the opening of a comment, in which so many comments are open. -/
def blockComment : (bound depth : Nat) → Walk Found
  | 0, _ => throw .unending
  | _ + 1, 0 => return .nothing
  | bound + 1, depth + 1 => do
      if ← atEnd then return .error .unterminatedComment
      else
        let first ← peek
        let second ← peekNext
        if first = '/'.toUInt8 ∧ second = '*'.toUInt8 then
          forward 2
          blockComment bound (depth + 2)
        else if first = '*'.toUInt8 ∧ second = '/'.toUInt8 then
          forward 2
          blockComment bound depth
        else if first = '\n'.toUInt8 then
          forward 1
          nextLine
          blockComment bound (depth + 1)
        else
          forward 1
          blockComment bound (depth + 1)

def slash (bound : Nat) : Walk Found := do
  if ← accept '/' then lineComment
  else if ← accept '*' then blockComment bound 1
  else return .token .slash

/-- The bytes of a string up to its closing quote, if it has one. -/
def toQuote : (bound : Nat) → Walk Unit
  | 0 => throw .unending
  | bound + 1 => do
      if ← atEnd then return ()
      else if (← peek) = '"'.toUInt8 then return ()
      else if (← advance) = '\n'.toUInt8 then
        nextLine
        toQuote bound
      else toQuote bound

/-- What follows the opening quote of a string. -/
def string (bound : Nat) : Walk Found := do
  toQuote bound
  if ← atEnd then return .error .unterminatedString
  else
    let _ ← advance
    let cursor ← get
    return .token (.string (← stretch (cursor.start + 1) (cursor.position - 1)))

/-- A point and more digits, if a digit follows the point. -/
def fraction (bound : Nat) : Walk Unit := do
  if (← peek) = '.'.toUInt8 && isDigitByte (← peekNext) then
    let _ ← advance
    advanceWhile isDigitByte bound
  else return ()

/-- What follows the first digit of a number. -/
def number (bound : Nat) : Walk Found := do
  advanceWhile isDigitByte bound
  fraction bound
  let cursor ← get
  let text ← stretch cursor.start cursor.position
  return .token (.number (numeralValue text.toList))

/-- What follows the first letter of a word. -/
def word (bound : Nat) : Walk Found := do
  advanceWhile isWordByte bound
  let cursor ← get
  return .token (.ofWord (← stretch cursor.start cursor.position))

/-- A character that begins nothing, all bytes of which are stepped over. -/
def unexpected : Walk Found := do
  let cursor ← get
  let rest ← stretch cursor.start cursor.size
  let character := rest.toList.head?.getD '?'
  set { cursor with position := cursor.start + character.utf8Size }
  return .error (.unexpectedCharacter character)

/-- Step over one piece of the text. -/
def piece (bound : Nat) : Walk Found := do
  let byte ← advance
  match singles.find? (·.1.toUInt8 = byte) with
  | some (_, kind) => return .token kind
  | none =>
      match doubles.find? (·.1.toUInt8 = byte) with
      | some (_, two, one) => return .token (if ← accept '=' then two else one)
      | none =>
          if byte = ' '.toUInt8 ∨ byte = '\r'.toUInt8 ∨ byte = '\t'.toUInt8 then return .nothing
          else if byte = '\n'.toUInt8 then
            nextLine
            return .nothing
          else if byte = '/'.toUInt8 then slash bound
          else if byte = '"'.toUInt8 then string bound
          else if isDigitByte byte then number bound
          else if isLetterByte byte then word bound
          else unexpected

end Pieces

/-- The next item, or nothing once the end of the input has been handed out. Neither the pieces
before the item nor the bytes of a piece may be more than the bound. -/
def next (bound : Nat) : (rounds : Nat) → Walk (Option Item)
  | 0 => throw .unending
  | rounds + 1 => do
      let cursor ← get
      if cursor.size < cursor.position then return none
      else if cursor.position = cursor.size then
        forward 1
        return some (.token ⟨.endOfInput, "", cursor.line⟩)
      else
        set { cursor with start := cursor.position }
        match ← piece bound with
        | .error cause => return some (.error (← get).line cause)
        | .token kind =>
            let cursor ← get
            let lexeme ← stretch cursor.start cursor.position
            return some (.token ⟨kind, lexeme, cursor.line⟩)
        | .nothing => next bound rounds

/-- What so many calls in a row give, each with the place that the cursor has come to. -/
def calls (bound : Nat) : (count : Nat) → Walk (List (Option Item × Nat))
  | 0 => return []
  | count + 1 => do
      let item ← next bound bound
      let cursor ← get
      return (item, cursor.position) :: (← calls bound count)

/-- All items, up to the call that gives nothing. -/
def items (bound : Nat) : (rounds : Nat) → Walk (List Item)
  | 0 => throw .unending
  | rounds + 1 => do
      match ← next bound bound with
      | none => return []
      | some item => return item :: (← items bound rounds)

end Cursor

end Lox
