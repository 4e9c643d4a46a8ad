import Lox.Proofs.Renaming.Relabel
import Lox.Proofs.Tokens.Substitution
import Mathlib.Algebra.GroupWithZero.Nat

/-!
Scans of two texts with a line end between them. No token begins before the line end and ends
behind it, so the pieces of the whole are those of both texts. The tokens of the second text
are the same as on their own, but so many lines further down.
-/

namespace Lox

/-- The piece has an end of its own, and is not just cut off where the text is. -/
def Piece.isClosed (piece : Piece) : Bool :=
  match piece.sort with
  | .openString | .openComment => false
  | .blank | .lineComment | .blockComment | .lexeme _ | .unexpected _ => true

theorem Piece.closed_of_sound {piece : Piece} (sound : piece.isSound = true) :
    piece.isClosed = true := by
  obtain ⟨sort, text⟩ := piece
  cases sort with
  | openString | openComment => cases sound
  | blank | lineComment | blockComment | lexeme | unexpected => rfl

section LineEnd

variable (back : List Char)

/-- What stops at a line end takes nothing from behind it. -/
theorem while_line_end {taken : Char → Bool} (stops : taken '\n' = false) (text : List Char) :
    (text ++ '\n' :: back).takeWhile taken = text.takeWhile taken ∧
      (text ++ '\n' :: back).dropWhile taken = text.dropWhile taken ++ '\n' :: back := by
  induction text with
  | nil =>
      exact ⟨List.takeWhile_cons_of_neg (by simp [stops]),
        List.dropWhile_cons_of_neg (by simp [stops])⟩
  | cons first rest induction =>
      cases holds : taken first <;>
        simp only [List.cons_append, List.takeWhile_cons, List.dropWhile_cons, holds, if_true,
          Bool.false_eq_true, if_false, induction, and_self]

/-- What stops within a text takes nothing from behind the text. -/
theorem while_stopped {taken : Char → Bool} {text after : List Char} {stop : Char}
    (stopped : text.dropWhile taken = stop :: after) (more : List Char) :
    (text ++ more).takeWhile taken = text.takeWhile taken ∧
      (text ++ more).dropWhile taken = stop :: (after ++ more) := by
  have long : (text.takeWhile taken).length ≠ text.length := by
    have lengths := congrArg List.length (List.takeWhile_append_dropWhile (p := taken) (l := text))
    rw [stopped, List.length_append, List.length_cons] at lengths
    omega
  constructor
  · rw [List.takeWhile_append, if_neg long]
  · rw [List.dropWhile_append, stopped]
    rfl

theorem begins_with_digit {text : List Char} (digits : IsDigits (text.takeWhile Char.isDigit)) :
    ∃ digit rest, text = digit :: rest ∧ IsDigit digit := by
  cases text with
  | nil => exact absurd rfl digits.1
  | cons digit rest =>
      refine ⟨digit, rest, rfl, ?_⟩
      by_cases isDigit : digit.isDigit = true
      · exact is_digit_iff.mp isDigit
      · exact absurd (List.takeWhile_cons_of_neg isDigit) digits.1

theorem number_line_end (source : List Char) : takeNumber (source ++ '\n' :: back) =
    ((takeNumber source).1, (takeNumber source).2 ++ '\n' :: back) := by
  have stops : Char.isDigit '\n' = false := by decide
  have noDigit : ¬IsDigit '\n' := by rw [← is_digit_iff, stops]; exact Bool.false_ne_true
  obtain ⟨whole, others⟩ := while_line_end back stops source
  rcases take_number_cases source with ⟨behind, point, isFraction, taken⟩ | ⟨none, taken⟩ <;>
    rcases take_number_cases (source ++ '\n' :: back) with
      ⟨behind', point', isFraction', taken'⟩ | ⟨none', taken'⟩ <;>
    rw [taken, taken', whole]
  · rw [others, point, List.cons_append] at point'
    obtain ⟨-, rfl⟩ := List.cons.inj point'
    obtain ⟨fraction, after⟩ := while_line_end back stops behind
    rw [fraction, after]
  · obtain ⟨digit, rest, rfl, isDigit⟩ := begins_with_digit isFraction
    exact absurd isDigit (none' digit (rest ++ '\n' :: back) (by rw [others, point]; rfl))
  · exfalso
    obtain ⟨digit, rest, rfl, isDigit⟩ := begins_with_digit isFraction'
    rw [others] at point'
    rcases behind : source.dropWhile Char.isDigit with - | ⟨first, - | ⟨second, more⟩⟩ <;>
      rw [behind] at point'
    · exact absurd (List.cons.inj point').1 (by decide)
    · exact noDigit ((List.cons.inj (List.cons.inj point').2).1 ▸ isDigit)
    · obtain ⟨rfl, same⟩ := List.cons.inj point'
      obtain ⟨rfl, -⟩ := List.cons.inj same
      exact none second more behind isDigit
  · rw [others]

/-- No comment is opened across a line end, and no operator goes on behind it. -/
theorem opening_line_end {right : Char} (different : right ≠ '\n') (source : List Char) :
    ['/', right].isPrefixOf (source ++ '\n' :: back) = ['/', right].isPrefixOf source :=
  front_apart (by simp [different.symm]) source

theorem operator_line_end (source : List Char) :
    firstOperator (source ++ '\n' :: back) = firstOperator source := by
  refine operator_apart ?_ source
  simp only [List.head?_cons, Option.mem_some_iff, forall_eq']
  decide

/-- A piece is cut off before a line end as it is at the end of the text. -/
theorem cut_line_end (first : Char) (rest : List Char) :
    (Piece.cut first rest).1.isClosed = true → Piece.cut first (rest ++ '\n' :: back) =
      ((Piece.cut first rest).1, (Piece.cut first rest).2 ++ '\n' :: back) := by
  fun_cases Piece.cut first rest with
  | case1 blank =>
      intro closed
      rw [Piece.cut, if_pos blank]
  | case2 source noBlank digit numeral after taken =>
      intro closed
      have number := number_line_end back source
      rw [Piece.cut, if_neg noBlank, if_pos digit]
      change (Piece.mk (.lexeme (.number (numeralValue (takeNumber (source ++ '\n' :: back)).1)))
        (takeNumber (source ++ '\n' :: back)).1, (takeNumber (source ++ '\n' :: back)).2) = _
      rw [number, taken]
  | case3 source noBlank noDigit letter word =>
      intro closed
      obtain ⟨taken, dropped⟩ := while_line_end back (show isWordPart '\n' = false by decide) source
      rw [Piece.cut, if_neg noBlank, if_neg noDigit, if_pos letter]
      change (Piece.mk (.lexeme
        (.ofWord (String.ofList ((source ++ '\n' :: back).takeWhile isWordPart))))
        ((source ++ '\n' :: back).takeWhile isWordPart),
          (source ++ '\n' :: back).dropWhile isWordPart) = _
      rw [taken, dropped]
  | case4 source noBlank noDigit noLetter quote none =>
      intro closed
      cases closed
  | case5 noBlank noDigit noLetter isQuote content quote after found =>
      intro closed
      subst isQuote
      obtain ⟨taken, dropped⟩ := while_stopped found ('\n' :: back)
      rw [Piece.cut, if_neg (by decide), if_neg (by decide), if_neg (by decide), if_pos rfl]
      dsimp only
      rw [taken, dropped]
  | case6 source noBlank noDigit noLetter noQuote slashes =>
      intro closed
      obtain ⟨taken, dropped⟩ : (source ++ '\n' :: back).takeWhile (· ≠ '\n') =
            source.takeWhile (· ≠ '\n') ∧
          (source ++ '\n' :: back).dropWhile (· ≠ '\n') =
            source.dropWhile (· ≠ '\n') ++ '\n' :: back := while_line_end back (by decide) source
      have front : ['/', '/'].isPrefixOf (first :: (rest ++ '\n' :: back)) = true :=
        (front_apart (by simp) source).trans slashes
      rw [Piece.cut, if_neg noBlank, if_neg noDigit, if_neg noLetter, if_neg noQuote, if_pos front]
      exact congrArg₂ (fun text rest => (Piece.mk .lineComment text, rest)) taken dropped
  | case7 source noBlank noDigit noLetter noQuote noSlashes opening none =>
      intro closed
      cases closed
  | case8 source noBlank noDigit noLetter noQuote noSlashes opening after found =>
      intro closed
      obtain ⟨body, same⟩ := List.isPrefixOf_iff_prefix.mp opening
      obtain ⟨rfl, rfl⟩ := List.cons.inj same
      obtain ⟨text, isBody, closes⟩ := closes_of_after_comment found
      change body = text ++ after at isBody
      subst isBody
      have before : textBefore source after = '/' :: '*' :: text :=
        text_before_append ('/' :: '*' :: text) after
      have again := block_comment_before closes (after ++ '\n' :: back)
      rw [before]
      change Piece.cut '/' ('*' :: (text ++ after) ++ '\n' :: back) = _
      rw [List.cons_append, List.append_assoc]
      exact again
  | case9 source noBlank noDigit noLetter noQuote noSlashes noOpening text kind found =>
      intro closed
      have short : text.length ≤ source.length := (first_operator_longest found).2.1.length_le
      rw [Piece.cut, if_neg noBlank, if_neg noDigit, if_neg noLetter, if_neg noQuote,
        ← List.cons_append, opening_line_end back (by decide), if_neg noSlashes,
        opening_line_end back (by decide), if_neg noOpening, operator_line_end, found]
      exact congrArg (Prod.mk _) (List.drop_append_of_le_length short)
  | case10 source noBlank noDigit noLetter noQuote noSlashes noOpening none =>
      intro closed
      rw [Piece.cut, if_neg noBlank, if_neg noDigit, if_neg noLetter, if_neg noQuote,
        ← List.cons_append, opening_line_end back (by decide), if_neg noSlashes,
        opening_line_end back (by decide), if_neg noOpening, operator_line_end, none]

/-- Texts fall into the same pieces when a line end joins them, unless the first one leaves
something open. -/
theorem pieces_line_end {front : List Char}
    (closed : ∀ piece ∈ piecesOf front, piece.isClosed = true) :
    piecesOf (front ++ '\n' :: back) = piecesOf front ++ ⟨.blank, ['\n']⟩ :: piecesOf back := by
  induction length : front.length using Nat.strong_induction_on generalizing front with
  | _ size induction =>
    subst length
    cases front with
    | nil => exact pieces_cons '\n' back
    | cons first rest =>
        rw [pieces_cons] at closed
        obtain ⟨isClosed, others⟩ := List.forall_mem_cons.mp closed
        have shorter := Nat.lt_succ_of_le (cut_shorter first rest)
        rw [List.cons_append, pieces_cons, cut_line_end back first rest isClosed, pieces_cons,
          List.cons_append]
        exact congrArg _ (induction _ shorter others rfl)

theorem pieces_line_ends {front : List Char}
    (closed : ∀ piece ∈ piecesOf front, piece.isClosed = true) (gap : Nat) :
    piecesOf (front ++ List.replicate (gap + 1) '\n' ++ back) =
      piecesOf front ++ List.replicate (gap + 1) ⟨.blank, ['\n']⟩ ++ piecesOf back := by
  have blank (gap : Nat) : piecesOf (List.replicate gap '\n' ++ back) =
      List.replicate gap ⟨.blank, ['\n']⟩ ++ piecesOf back := by
    induction gap with
    | zero => rfl
    | succ gap induction =>
        rw [List.replicate_succ, List.cons_append, pieces_cons, List.replicate_succ,
          List.cons_append]
        exact congrArg _ induction
  rw [List.replicate_succ, List.append_assoc, List.cons_append, pieces_line_end _ closed, blank,
    List.replicate_succ, List.append_assoc, List.cons_append]

end LineEnd

/-- The tokens of some pieces that start on a line, without the end of the input. -/
def tokensFrom (line : Nat) : List Piece → List Token
  | [] => []
  | ⟨.lexeme kind, text⟩ :: rest =>
      ⟨kind, String.ofList text, line + text.count '\n'⟩ :: tokensFrom (line + text.count '\n') rest
  | ⟨_, text⟩ :: rest => tokensFrom (line + text.count '\n') rest

/-- How many line ends some pieces hold. -/
def linesOf (pieces : List Piece) : Nat := (pieces.map Piece.lineEnds).sum

theorem lines_of_cons (sort : PieceSort) (text : List Char) (rest : List Piece) :
    linesOf (⟨sort, text⟩ :: rest) = text.count '\n' + linesOf rest := by
  rw [linesOf, List.map_cons, List.sum_cons]
  rfl

/-- The token moved down by some lines. -/
def Token.lower (lines : Nat) (token : Token) : Token := { token with line := token.line + lines }

theorem tokens_of_items (line : Nat) (pieces : List Piece) :
    tokensOf (itemsFrom line pieces) =
      tokensFrom line pieces ++ [⟨.endOfInput, "", line + linesOf pieces⟩] := by
  induction pieces generalizing line with
  | nil => rfl
  | cons piece rest induction =>
      obtain ⟨sort, text⟩ := piece
      rw [lines_of_cons, ← Nat.add_assoc]
      cases sort with
      | lexeme kind => exact congrArg _ (induction _)
      | _ => exact induction _

theorem tokens_from_append (line : Nat) (pieces others : List Piece) :
    tokensFrom line (pieces ++ others) =
      tokensFrom line pieces ++ tokensFrom (line + linesOf pieces) others := by
  induction pieces generalizing line with
  | nil => rfl
  | cons piece rest induction =>
      obtain ⟨sort, text⟩ := piece
      rw [lines_of_cons, ← Nat.add_assoc]
      cases sort with
      | lexeme kind => exact congrArg _ (induction _)
      | _ => exact induction _

theorem tokens_from_later (line lines : Nat) (pieces : List Piece) :
    tokensFrom (line + lines) pieces = (tokensFrom line pieces).map (Token.lower lines) := by
  induction pieces generalizing line with
  | nil => rfl
  | cons piece rest induction =>
      obtain ⟨sort, text⟩ := piece
      have moved : line + lines + text.count '\n' = line + text.count '\n' + lines := by omega
      cases sort with
      | lexeme kind =>
          simp only [tokensFrom, List.map_cons, Token.lower, moved, induction]
      | _ => simp only [tokensFrom, moved, induction]

theorem tokens_from_blanks (line gap : Nat) :
    tokensFrom line (List.replicate gap ⟨.blank, ['\n']⟩) = [] := by
  induction gap generalizing line with
  | zero => rfl
  | succ gap induction => exact induction _

theorem clean_of_sound {line : Nat} {pieces : List Piece}
    (sound : ∀ piece ∈ pieces, piece.isSound = true) :
    lexicalErrorsOf (itemsFrom line pieces) = [] := by
  induction pieces generalizing line with
  | nil => rfl
  | cons piece rest induction =>
      obtain ⟨isSound, others⟩ := List.forall_mem_cons.mp sound
      obtain ⟨sort, text⟩ := piece
      cases sort with
      | blank | lineComment | blockComment | lexeme => exact induction others
      | unexpected | openString | openComment => cases isSound

/-- The tokens that are written in a source text. -/
def written (source : String) : List Token := tokensFrom 1 (piecesOf source.toList)

/-- How many line ends a source text holds. -/
def lineEnds (source : String) : Nat := source.toList.count '\n'

/-- Two source texts with line ends between them: one, and so many more. -/
def joined (front : String) (gap : Nat) (back : String) : String :=
  front ++ String.ofList (List.replicate (gap + 1) '\n') ++ back

theorem lines_of_append (pieces others : List Piece) :
    linesOf (pieces ++ others) = linesOf pieces + linesOf others := by
  rw [linesOf, List.map_append, List.sum_append]
  rfl

theorem lines_of_pieces (source : String) : linesOf (piecesOf source.toList) = lineEnds source := by
  have counted (pieces : List Piece) :
      linesOf pieces = (pieces.flatMap Piece.text).count '\n' := by
    induction pieces with
    | nil => rfl
    | cons piece rest induction =>
        rw [List.flatMap_cons, List.count_append, ← induction]
        rfl
  rw [counted, (pieces_partition source.toList).text_eq]
  rfl

theorem tokens_of_scan (source : String) :
    tokensOf (scan source) = written source ++ [⟨.endOfInput, "", 1 + lineEnds source⟩] := by
  rw [scan, tokens_of_items, lines_of_pieces]
  rfl

theorem tokens_from_inner {line : Nat} {pieces : List Piece}
    (fit : ∀ piece ∈ pieces, ∃ rest, Fits rest piece) :
    ∀ token ∈ tokensFrom line pieces, token.kind ≠ .endOfInput := by
  induction pieces generalizing line with
  | nil => exact nofun
  | cons piece rest induction =>
      obtain ⟨⟨after, fits⟩, others⟩ := List.forall_mem_cons.mp fit
      obtain ⟨sort, text⟩ := piece
      cases sort with
      | lexeme kind =>
          refine List.forall_mem_cons.mpr ⟨?_, induction others⟩
          cases fits with
          | lexeme isLexeme => exact lexeme_inner isLexeme
      | _ => exact induction others

theorem written_inner (source : String) :
    ∀ token ∈ written source, token.kind ≠ .endOfInput :=
  tokens_from_inner fun _ member => (pieces_partition source.toList).fits_of_mem member

/-- The scan of two clean texts that are joined is the scan of the one, and behind it that of the
other, further down by the lines that stand before it. -/
theorem scan_joined {front back : String} (clean : lexicalErrorsOf (scan front) = [])
    (cleanToo : lexicalErrorsOf (scan back) = []) (gap : Nat) :
    lexicalErrorsOf (scan (joined front gap back)) = [] ∧
      written (joined front gap back) =
        written front ++ (written back).map (Token.lower (lineEnds front + (gap + 1))) := by
  have sound := sound_of_clean clean
  have pieces : piecesOf (joined front gap back).toList = piecesOf front.toList ++
      List.replicate (gap + 1) ⟨.blank, ['\n']⟩ ++ piecesOf back.toList := by
    rw [joined, String.toList_append, String.toList_append, String.toList_ofList,
      pieces_line_ends _ fun piece member => Piece.closed_of_sound (sound piece member)]
  constructor
  · rw [scan, pieces]
    apply clean_of_sound
    simp only [List.mem_append, List.mem_replicate]
    rintro piece ((member | ⟨-, rfl⟩) | member)
    · exact sound piece member
    · rfl
    · exact sound_of_clean cleanToo piece member
  · have blanks : linesOf (List.replicate (gap + 1) ⟨.blank, ['\n']⟩) = gap + 1 := by
      simp [linesOf, Piece.lineEnds]
    rw [written, pieces, tokens_from_append, tokens_from_append, tokens_from_blanks,
      List.append_nil, lines_of_append, blanks, lines_of_pieces, tokens_from_later]
    rfl

end Lox
