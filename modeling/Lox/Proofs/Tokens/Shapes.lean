import Lox.Token.Stream

/-!
What a source text may be cut into, said without cutting. Each shape of a piece
is a judgment on the piece and on the text that follows it, because a token is
the longest one that starts where it does. `Partition` puts pieces of these
shapes one after the other.
-/

namespace Lox

def IsLetter (character : Char) : Prop :=
  ('A' ≤ character ∧ character ≤ 'Z') ∨ ('a' ≤ character ∧ character ≤ 'z') ∨ character = '_'

def IsDigit (character : Char) : Prop := '0' ≤ character ∧ character ≤ '9'

/-- A letter, and then letters and digits. -/
def IsWord : List Char → Prop
  | [] => False
  | first :: rest =>
      IsLetter first ∧ ∀ character ∈ rest, IsLetter character ∨ IsDigit character

def IsDigits (text : List Char) : Prop := text ≠ [] ∧ ∀ character ∈ text, IsDigit character

inductive IsNumeral : List Char → Prop where
  | whole {digits : List Char} (isWhole : IsDigits digits) : IsNumeral digits
  | fraction {digits fraction : List Char} (isWhole : IsDigits digits)
      (isFraction : IsDigits fraction) : IsNumeral (digits ++ '.' :: fraction)

/-- The text is a token of this kind. -/
inductive IsLexeme : List Char → Kind → Prop where
  | operator {text : List Char} {kind : Kind} (listed : (text, kind) ∈ operators) :
      IsLexeme text kind
  | numeral {text : List Char} (isNumeral : IsNumeral text) :
      IsLexeme text (.number (numeralValue text))
  | keyword {word : String} {kind : Kind} (reserved : (word, kind) ∈ keywords) :
      IsLexeme word.toList kind
  | identifier {text : List Char} (isWord : IsWord text)
      (free : ∀ kind, (String.ofList text, kind) ∉ keywords) : IsLexeme text .identifier
  | quoted {content : List Char} (unquoted : '"' ∉ content) :
      IsLexeme ('"' :: content ++ ['"']) (.string (String.ofList content))

/-- Reading the text from left to right, where `/*` opens a level and `*/` closes
one, all of these levels have been closed just at its end. -/
inductive Closes : (levels : Nat) → List Char → Prop where
  | done : Closes 0 []
  | opening {levels : Nat} {rest : List Char} (closes : Closes (levels + 2) rest) :
      Closes (levels + 1) ('/' :: '*' :: rest)
  | closing {levels : Nat} {rest : List Char} (closes : Closes levels rest) :
      Closes (levels + 1) ('*' :: '/' :: rest)
  | inside {levels : Nat} {first : Char} {rest : List Char}
      (noOpening : ¬['/', '*'] <+: first :: rest) (noClosing : ¬['*', '/'] <+: first :: rest)
      (closes : Closes (levels + 1) rest) : Closes (levels + 1) (first :: rest)

/-- A blank or a comment starts here. -/
def StartsGap (text : List Char) : Prop :=
  (∃ first ∈ text.head?, first ∈ [' ', '\r', '\t', '\n']) ∨ ['/', '/'] <+: text ∨
    ['/', '*'] <+: text

/-- No token that starts where the text starts is longer than this. -/
def LongestLexeme (length : Nat) (text : List Char) : Prop :=
  ∀ lexeme kind, IsLexeme lexeme kind → lexeme <+: text → lexeme.length ≤ length

/-- The piece is as it should be before such a rest. -/
inductive Fits (rest : List Char) : Piece → Prop where
  | blank {character : Char} (isBlank : character ∈ [' ', '\r', '\t', '\n']) :
      Fits rest ⟨.blank, [character]⟩
  | lineComment {body : List Char} (oneLine : '\n' ∉ body)
      (ends : ∀ next ∈ rest.head?, next = '\n') : Fits rest ⟨.lineComment, '/' :: '/' :: body⟩
  | blockComment {body : List Char} (closes : Closes 1 body) :
      Fits rest ⟨.blockComment, '/' :: '*' :: body⟩
  | lexeme {text : List Char} {kind : Kind} (isLexeme : IsLexeme text kind)
      (noGap : ¬StartsGap (text ++ rest)) (longest : LongestLexeme text.length (text ++ rest)) :
      Fits rest ⟨.lexeme kind, text⟩
  | unexpected {character : Char} (noGap : ¬StartsGap (character :: rest))
      (noQuote : character ≠ '"') (noLexeme : LongestLexeme 0 (character :: rest)) :
      Fits rest ⟨.unexpected character, [character]⟩
  | openString {body : List Char} (unquoted : '"' ∉ body) (last : rest = []) :
      Fits rest ⟨.openString, '"' :: body⟩
  | openComment {body : List Char} (unclosed : ∀ inner, inner <+: body → ¬Closes 1 inner)
      (last : rest = []) : Fits rest ⟨.openComment, '/' :: '*' :: body⟩

/-- The text is these pieces one after the other, each of a shape that fits. -/
inductive Partition : List Char → List Piece → Prop where
  | nil : Partition [] []
  | cons {piece : Piece} {rest : List Char} {pieces : List Piece} (fits : Fits rest piece)
      (partition : Partition rest pieces) : Partition (piece.text ++ rest) (piece :: pieces)

theorem Partition.text_eq {text : List Char} {pieces : List Piece}
    (partition : Partition text pieces) : pieces.flatMap Piece.text = text := by
  induction partition with
  | nil => rfl
  | cons fits partition induction => rw [List.flatMap_cons, induction]

/-- Blanks and comments say nothing, all other pieces become an item. -/
def Piece.isSilent (piece : Piece) : Bool :=
  piece.sort = .blank || piece.sort = .lineComment || piece.sort = .blockComment

/-- The item is what the piece becomes, on whatever line. -/
inductive Piece.Becomes : Piece → Item → Prop where
  | token {kind : Kind} {text : List Char} (line : Nat) :
      Becomes ⟨.lexeme kind, text⟩ (.token ⟨kind, String.ofList text, line⟩)
  | unexpected {character : Char} {text : List Char} (line : Nat) :
      Becomes ⟨.unexpected character, text⟩ (.error line (.unexpectedCharacter character))
  | openString {text : List Char} (line : Nat) :
      Becomes ⟨.openString, text⟩ (.error line .unterminatedString)
  | openComment {text : List Char} (line : Nat) :
      Becomes ⟨.openComment, text⟩ (.error line .unterminatedComment)

section Classes

variable {character : Char}

theorem is_digit_iff : character.isDigit = true ↔ IsDigit character := by
  simp only [Char.isDigit, Bool.and_eq_true, decide_eq_true_eq]
  exact Iff.rfl

theorem word_start_iff : isWordStart character = true ↔ IsLetter character := by
  have upper : character.isUpper = true ↔ 'A' ≤ character ∧ character ≤ 'Z' := decide_eq_true_iff
  have lower : character.isLower = true ↔ 'a' ≤ character ∧ character ≤ 'z' :=
    Bool.and_eq_true_iff.trans (and_congr decide_eq_true_iff decide_eq_true_iff)
  have letter : character.isAlpha = true ↔ character.isUpper = true ∨ character.isLower = true :=
    Bool.or_eq_true_iff
  rw [isWordStart, Bool.or_eq_true, letter, decide_eq_true_eq, upper, lower, or_assoc, IsLetter]

theorem word_part_iff : isWordPart character = true ↔ IsLetter character ∨ IsDigit character := by
  rw [← word_start_iff, ← is_digit_iff]
  simp only [isWordPart, isWordStart, Char.isAlphanum, Bool.or_eq_true]
  exact or_right_comm

theorem is_blank_iff : isBlank character = true ↔ character ∈ [' ', '\r', '\t', '\n'] := by
  simp only [isBlank, Bool.or_eq_true, decide_eq_true_eq, List.mem_cons, List.not_mem_nil,
    or_false, or_assoc]

end Classes

/-- Every kind of token is told by its first character. -/
theorem operator_begins {text : List Char} {kind : Kind} (listed : (text, kind) ∈ operators) :
    ∃ first rest, text = first :: rest ∧ ¬IsDigit first ∧ ¬IsLetter first ∧ first ≠ '"' := by
  have begins : ∀ entry ∈ operators, entry.1.head?.any fun first =>
      !first.isDigit && !isWordStart first && first != '"' := by decide
  have holds := begins _ listed
  cases text with
  | nil => cases holds
  | cons first rest =>
      simp only [List.head?_cons, Option.any_some, Bool.and_eq_true, Bool.not_eq_true',
        bne_iff_ne] at holds
      obtain ⟨⟨noDigit, noLetter⟩, noQuote⟩ := holds
      refine ⟨first, rest, rfl, ?_, ?_, noQuote⟩
      · rw [← is_digit_iff, noDigit]
        exact Bool.false_ne_true
      · rw [← word_start_iff, noLetter]
        exact Bool.false_ne_true

theorem keyword_is_word {word : String} {kind : Kind} (reserved : (word, kind) ∈ keywords) :
    IsWord word.toList := by
  have words : ∀ entry ∈ keywords, entry.1.toList.head?.any isWordStart ∧
      entry.1.toList.tail.all isWordPart := by decide
  obtain ⟨letter, rest⟩ := words _ reserved
  cases text : word.toList with
  | nil => simp [text] at letter
  | cons head tail =>
      simp only [text, List.head?_cons, Option.any_some, List.tail_cons,
        List.all_eq_true] at letter rest
      exact ⟨word_start_iff.mp letter, fun character member => word_part_iff.mp (rest _ member)⟩

end Lox
