import Lox.Proofs.Tokens.Substitution

/-!
Tokens that are written down and read back. A blank behind a token keeps it apart from everything
that follows, other blanks and comments first of all. So any tokens can be written one after the
other with such gaps between them, and a scan of the text finds these tokens and nothing else.
-/

namespace Lox

/-- Blanks and comments in any order. A line comment goes on up to the end of its line, and a
block comment up to where it is closed at every level. -/
inductive IsFiller : List Char → Prop where
  | done : IsFiller []
  | blank {character : Char} {rest : List Char} (isBlank : character ∈ [' ', '\r', '\t', '\n'])
      (more : IsFiller rest) : IsFiller (character :: rest)
  | lineComment {body rest : List Char} (oneLine : '\n' ∉ body) (more : IsFiller rest) :
      IsFiller ('/' :: '/' :: body ++ '\n' :: rest)
  | blockComment {body rest : List Char} (closes : Closes 1 body) (more : IsFiller rest) :
      IsFiller ('/' :: '*' :: body ++ rest)

/-- What may stand between two tokens: at first a blank, which keeps them apart. -/
inductive IsGap : List Char → Prop where
  | separated {blank : Char} {filler : List Char} (isBlank : blank ∈ [' ', '\r', '\t', '\n'])
      (isFiller : IsFiller filler) : IsGap (blank :: filler)

/-- The text is these lexemes in their order, with a gap between any two of them. -/
inductive Renders : List (List Char) → List Char → Prop where
  | nothing : Renders [] []
  | last {lexeme : List Char} {kind : Kind} (isLexeme : IsLexeme lexeme kind) :
      Renders [lexeme] lexeme
  | before {lexeme gap next text : List Char} {others : List (List Char)} {kind : Kind}
      (isLexeme : IsLexeme lexeme kind) (isGap : IsGap gap)
      (renders : Renders (next :: others) text) :
      Renders (lexeme :: next :: others) (lexeme ++ gap ++ text)

/-- Nothing follows, or a blank. -/
def Separates (rest : List Char) : Prop := ∀ first ∈ rest.head?, isBlank first = true

namespace Separates

variable {rest : List Char}

theorem nothing : Separates [] := nofun

theorem of_gap {gap : List Char} (isGap : IsGap gap) (rest : List Char) :
    Separates (gap ++ rest) := by
  cases isGap with
  | separated isBlank =>
      rintro first ⟨⟩
      exact is_blank_iff.mpr isBlank

variable (separates : Separates rest)

include separates

theorem stops (taken : Char → Bool) (apart : [' ', '\r', '\t', '\n'].any taken = false) :
    ∀ first ∈ rest.head?, taken first = false := by
  intro first isFirst
  have blank := is_blank_iff.mp (separates first isFirst)
  exact Bool.eq_false_iff.mpr (List.any_eq_false.mp apart first blank)

/-- A numeral is not continued by a blank. -/
theorem take_numeral {numeral : List Char} (isNumeral : IsNumeral numeral) :
    takeNumber (numeral ++ rest) = (numeral, rest) := by
  have digits {text : List Char} (isDigits : IsDigits text) :
      ∀ item ∈ text, item.isDigit = true := fun item member =>
    is_digit_iff.mpr (isDigits.2 item member)
  have noDigit := separates.stops Char.isDigit (by decide)
  have noPoint := separates.stops (· = '.') (by decide)
  cases isNumeral with
  | whole isWhole =>
      obtain ⟨whole, behind⟩ := take_while_before (digits isWhole) noDigit
      unfold takeNumber
      dsimp only
      rw [whole, behind]
      split
      · exact absurd (noPoint '.' rfl) (by decide)
      · rfl
  | @fraction front fraction isWhole isFraction =>
      have point : ∀ first ∈ ('.' :: (fraction ++ rest)).head?, first.isDigit = false := by simp
      obtain ⟨whole, others⟩ := take_while_before (digits isWhole) point
      obtain ⟨taken, behind⟩ := take_while_before (digits isFraction) noDigit
      obtain ⟨digit, more, rfl⟩ := List.exists_cons_of_ne_nil isFraction.1
      have isDigit := digits isFraction digit List.mem_cons_self
      rw [List.append_assoc, List.cons_append]
      unfold takeNumber
      dsimp only
      rw [whole, others]
      rw [List.cons_append] at taken behind ⊢
      simp only [isDigit, if_true, taken, behind]

theorem apart {characters : List Char} (blankless : characters.any isBlank = false) :
    ∀ first ∈ rest.head?, first ∉ characters := fun first isFirst member =>
  List.any_eq_false.mp blankless first member (separates first isFirst)

/-- An operator is not completed by a blank, and makes up no comment with one. -/
theorem cut_operator {first : Char} {tail : List Char} {kind : Kind}
    (listed : (first :: tail, kind) ∈ operators) (noDigit : ¬IsDigit first)
    (noLetter : ¬IsLetter first) (noQuote : first ≠ '"') :
    Piece.cut first (tail ++ rest) = (⟨.lexeme kind, first :: tail⟩, rest) := by
  have alone : ∀ entry ∈ operators, firstOperator entry.1 = some entry ∧
      ¬['/', '/'].isPrefixOf entry.1 ∧ ¬['/', '*'].isPrefixOf entry.1 ∧
      entry.1.any isBlank = false := by decide
  obtain ⟨found, noSlashes, noOpening, blankless⟩ := alone _ listed
  have noBlank := List.any_eq_false.mp blankless first List.mem_cons_self
  have operator := operator_apart (fun blank isFirst entry isEntry =>
    separates.apart (alone entry isEntry).2.2.2 blank isFirst) (first :: tail)
  have slashes := front_apart
    (separates.apart (show ['/', '/'].any isBlank = false by decide)) (first :: tail)
  have opening := front_apart
    (separates.apart (show ['/', '*'].any isBlank = false by decide)) (first :: tail)
  rw [List.cons_append] at operator slashes opening
  rw [Piece.cut, if_neg noBlank, if_neg (mt is_digit_iff.mp noDigit),
    if_neg (mt word_start_iff.mp noLetter), if_neg noQuote, slashes, if_neg noSlashes, opening,
    if_neg noOpening, operator, found]
  exact congrArg (Prod.mk _) List.drop_left

/-- A lexeme is cut off before what separates it from other lexemes. -/
theorem lexeme_before {text : List Char} {kind : Kind} (isLexeme : IsLexeme text kind) :
    piecesOf (text ++ rest) = ⟨.lexeme kind, text⟩ :: piecesOf rest := by
  have word {text : List Char} (isWord : IsWord text) (same : kind = .ofWord (String.ofList text)) :
      piecesOf (text ++ rest) = ⟨.lexeme kind, text⟩ :: piecesOf rest := by
    obtain ⟨first, tail, begins, cut⟩ := word_before isWord (separates.stops isWordPart (by decide))
    rw [begins, List.cons_append, pieces_cons, cut, same, begins]
  cases isLexeme with
  | operator listed =>
      obtain ⟨first, tail, rfl, noDigit, noLetter, noQuote⟩ := operator_begins listed
      rw [List.cons_append, pieces_cons,
        cut_operator separates listed noDigit noLetter noQuote]
  | numeral isNumeral =>
      have taken := take_numeral separates isNumeral
      obtain ⟨first, tail, rfl, digit⟩ := isNumeral.begins
      have isDigit := is_digit_iff.mpr digit
      have noDigit : [' ', '\r', '\t', '\n'].any Char.isDigit = false := by decide
      have noBlank : ¬isBlank first = true := fun blank =>
        List.any_eq_false.mp noDigit first (is_blank_iff.mp blank) isDigit
      rw [List.cons_append] at taken ⊢
      rw [pieces_cons, Piece.cut, if_neg noBlank, if_pos isDigit, taken]
  | keyword reserved =>
      have isWord := keyword_is_word reserved
      exact word isWord (keyword_of_text reserved (word_lexeme isWord) String.ofList_toList).symm
  | identifier isWord free =>
      exact word isWord (identifier_only (.identifier isWord free) (word_lexeme isWord)).symm
  | @quoted content unquoted =>
      rw [List.append_assoc, List.cons_append, pieces_cons, List.singleton_append,
        string_before unquoted]

end Separates

/-- What fills a gap falls into pieces that say nothing. -/
theorem pieces_of_filler {filler : List Char} (isFiller : IsFiller filler) (rest : List Char) :
    ∃ silent : List Piece, (∀ piece ∈ silent, piece.isSilent = true) ∧
      piecesOf (filler ++ rest) = silent ++ piecesOf rest := by
  have blank {character : Char} (isBlank : character ∈ [' ', '\r', '\t', '\n'])
      (rest : List Char) :
      piecesOf (character :: rest) = ⟨.blank, [character]⟩ :: piecesOf rest := by
    rw [pieces_cons, Piece.cut, if_pos (is_blank_iff.mpr isBlank)]
  induction isFiller with
  | done => exact ⟨[], List.forall_mem_nil _, rfl⟩
  | @blank character others isBlank more induction =>
      obtain ⟨silent, quiet, same⟩ := induction
      refine ⟨⟨.blank, [character]⟩ :: silent, List.forall_mem_cons.mpr ⟨rfl, quiet⟩, ?_⟩
      rw [List.cons_append, blank isBlank, same, List.cons_append]
  | @lineComment body others oneLine more induction =>
      obtain ⟨silent, quiet, same⟩ := induction
      refine ⟨⟨.lineComment, '/' :: '/' :: body⟩ :: ⟨.blank, ['\n']⟩ :: silent,
        List.forall_mem_cons.mpr ⟨rfl, List.forall_mem_cons.mpr ⟨rfl, quiet⟩⟩, ?_⟩
      have ends : ∀ next ∈ ('\n' :: (others ++ rest)).head?, next = '\n' := by simp
      have cut := line_comment_before oneLine ends
      rw [List.cons_append] at cut
      rw [List.append_assoc, List.cons_append, List.cons_append, List.cons_append, pieces_cons, cut,
        blank (by simp), same]
      rfl
  | @blockComment body others closes more induction =>
      obtain ⟨silent, quiet, same⟩ := induction
      refine ⟨⟨.blockComment, '/' :: '*' :: body⟩ :: silent,
        List.forall_mem_cons.mpr ⟨rfl, quiet⟩, ?_⟩
      have cut := block_comment_before closes (others ++ rest)
      rw [List.cons_append] at cut
      rw [List.append_assoc, List.cons_append, List.cons_append, pieces_cons, cut, same]
      rfl

theorem pieces_of_gap {gap : List Char} (isGap : IsGap gap) (rest : List Char) :
    ∃ silent : List Piece, (∀ piece ∈ silent, piece.isSilent = true) ∧
      piecesOf (gap ++ rest) = silent ++ piecesOf rest := by
  cases isGap with
  | separated isBlank isFiller => exact pieces_of_filler (.blank isBlank isFiller) rest

/-- All that pieces without a word do to what follows is to move it down. -/
theorem items_after_silent {silent : List Piece} (quiet : ∀ piece ∈ silent, piece.isSilent = true)
    (line : Nat) (pieces : List Piece) :
    ∃ later, itemsFrom line (silent ++ pieces) = itemsFrom later pieces := by
  induction silent generalizing line with
  | nil => exact ⟨line, rfl⟩
  | cons piece others induction =>
      obtain ⟨here, inside⟩ := List.forall_mem_cons.mp quiet
      obtain ⟨later, same⟩ := induction inside (line + piece.lineEnds)
      have nothing := (silent_iff (line + piece.lineEnds)).mp here
      exact ⟨later, by simp only [List.cons_append, itemsFrom, nothing, same]⟩

theorem items_of_lexeme (line : Nat) (kind : Kind) (text : List Char) (pieces : List Piece) :
    ∃ later, itemsFrom line (⟨.lexeme kind, text⟩ :: pieces) =
      .token ⟨kind, String.ofList text, later⟩ :: itemsFrom later pieces :=
  ⟨line + text.count '\n', rfl⟩

/-- On whatever line the text starts, its items are tokens, one for each lexeme. -/
theorem items_of_rendered {lexemes : List (List Char)} {text : List Char}
    (renders : Renders lexemes text) (line : Nat) :
    ∃ (tokens : List Token) (last : Nat),
      itemsFrom line (piecesOf text) = (tokens ++ [Token.mk .endOfInput "" last]).map .token ∧
      List.Forall₂ (fun lexeme token => IsLexeme lexeme token.kind ∧
        token.lexeme = String.ofList lexeme) lexemes tokens := by
  induction renders generalizing line with
  | nothing => exact ⟨[], line, rfl, .nil⟩
  | @last lexeme kind isLexeme =>
      have pieces := Separates.nothing.lexeme_before isLexeme
      obtain ⟨later, items⟩ := items_of_lexeme line kind lexeme []
      rw [List.append_nil] at pieces
      refine ⟨[⟨kind, String.ofList lexeme, later⟩], later, ?_, .cons ⟨isLexeme, rfl⟩ .nil⟩
      rw [pieces]
      exact items
  | @before lexeme gap next text others kind isLexeme isGap renders induction =>
      have pieces := (Separates.of_gap isGap text).lexeme_before isLexeme
      obtain ⟨silent, quiet, behind⟩ := pieces_of_gap isGap text
      obtain ⟨here, first⟩ := items_of_lexeme line kind lexeme (silent ++ piecesOf text)
      obtain ⟨later, skipped⟩ := items_after_silent quiet here (piecesOf text)
      obtain ⟨tokens, last, items, each⟩ := induction later
      refine ⟨⟨kind, String.ofList lexeme, here⟩ :: tokens, last, ?_, .cons ⟨isLexeme, rfl⟩ each⟩
      rw [List.append_assoc, pieces, behind, first, skipped, items]
      rfl

/-- A lexeme on its own is scanned as one token. -/
theorem scan_of_lexeme {text : List Char} {kind : Kind} (isLexeme : IsLexeme text kind) :
    ∃ line, scan (String.ofList text) =
      [.token ⟨kind, String.ofList text, line⟩, .token ⟨.endOfInput, "", line⟩] := by
  have pieces := Separates.nothing.lexeme_before isLexeme
  rw [List.append_nil] at pieces
  rw [scan, String.toList_ofList, pieces]
  exact items_of_lexeme 1 kind text []

/-- Tokens that are written with gaps between them are read back: without an error, one token for
each of them in their order, with its text and the kind and literal that it has on its own, and
behind them the end of the input. -/
theorem rendered_tokens_scan_back {lexemes : List (List Char)} {text : List Char}
    (renders : Renders lexemes text) :
    lexicalErrorsOf (scan (String.ofList text)) = [] ∧
    ∃ (tokens : List Token) (last : Nat),
      scan (String.ofList text) = (tokens ++ [Token.mk .endOfInput "" last]).map .token ∧
      List.Forall₂ (fun lexeme token => token.lexeme = String.ofList lexeme ∧
        ∃ line, scan (String.ofList lexeme) =
          [.token ⟨token.kind, token.lexeme, line⟩, .token ⟨.endOfInput, "", line⟩])
        lexemes tokens := by
  obtain ⟨tokens, last, items, each⟩ := items_of_rendered renders 1
  have scanned : scan (String.ofList text) =
      (tokens ++ [Token.mk .endOfInput "" last]).map .token := by
    rw [scan, String.toList_ofList, items]
  refine ⟨?_, tokens, last, scanned, each.imp fun lexeme token told => ⟨told.2, ?_⟩⟩
  · rw [scanned, lexicalErrorsOf, List.filterMap_map]
    exact List.filterMap_eq_nil_iff.mpr fun token _ => rfl
  · rw [told.2]
    exact scan_of_lexeme told.1

/-- A slash before a comment, and a comment in a comment that begins like the end of one. -/
theorem comments_between_tokens :
    let text := "/ // over\n12.5 /*/ in /* deep */ */or\t\"a\n\"".toList
    Renders [['/'], "12.5".toList, "or".toList, "\"a\n\"".toList] text ∧
      lexicalErrorsOf (scan (String.ofList text)) = [] ∧
      (tokensOf (scan (String.ofList text))).map Token.lexeme =
        ["/", "12.5", "or", "\"a\n\"", ""] := by
  intro text
  have digits {text : List Char} (some : text ≠ []) (all : text.all Char.isDigit = true) :
      IsDigits text :=
    ⟨some, fun item member => is_digit_iff.mp (List.all_eq_true.mp all item member)⟩
  have slash : IsLexeme ['/'] .slash := .operator (by decide)
  have number : IsLexeme ("12".toList ++ '.' :: "5".toList) _ :=
    .numeral (.fraction (digits (by decide) (by decide)) (digits (by decide) (by decide)))
  have word : IsLexeme "or".toList .orWord := .keyword (by decide)
  have quoted : IsLexeme ('"' :: ['a', '\n'] ++ ['"']) _ := .quoted (by decide)
  have closes : Closes 1 "/ in /* deep */ */".toList := by
    obtain ⟨body, same, closes⟩ := closes_of_after_comment
      (show afterComment 0 "/ in /* deep */ */".toList = some [] by decide)
    rwa [same, List.append_nil]
  have line : IsGap (' ' :: ('/' :: '/' :: " over".toList ++ '\n' :: [])) :=
    .separated (by simp) (.lineComment (by decide) .done)
  have nested : IsGap (' ' :: ('/' :: '*' :: "/ in /* deep */ */".toList ++ [])) :=
    .separated (by simp) (.blockComment closes .done)
  have wide : IsGap ['\t'] := .separated (by simp) .done
  have renders : Renders [['/'], "12.5".toList, "or".toList, "\"a\n\"".toList] text :=
    .before slash line (.before number nested (.before word wide (.last quoted)))
  obtain ⟨clean, tokens, last, scanned, each⟩ := rendered_tokens_scan_back renders
  refine ⟨renders, clean, ?_⟩
  have read : tokensOf (scan (String.ofList text)) = tokens ++ [⟨.endOfInput, "", last⟩] := by
    rw [scanned, tokensOf, List.filterMap_map]
    exact List.filterMap_some
  obtain _ | ⟨⟨first, -⟩, _ | ⟨⟨second, -⟩, _ | ⟨⟨third, -⟩, _ | ⟨⟨fourth, -⟩, _ | _⟩⟩⟩⟩ := each
  rw [read, List.map_append]
  simp only [List.map_cons, List.map_nil, first, second, third, fourth, String.ofList_toList]
  rfl

end Lox
