import Lox.Proofs.Bytes.Bodies

/-!
One piece of a text, read off its bytes. The first byte tells how a cursor goes on. Between two
characters it steps over just the bytes of the piece that is cut there, tells what sort of piece
it is, and ends between two characters again, on the line that it has come to.
-/

namespace Lox

/-- What a piece of this sort is for the cursor that reads it. -/
def PieceSort.found : PieceSort → Found
  | .blank | .lineComment | .blockComment => .nothing
  | .lexeme kind => .token kind
  | .unexpected character => .error (.unexpectedCharacter character)
  | .openString => .error .unterminatedString
  | .openComment => .error .unterminatedComment

namespace Cursor

section Dispatch

variable {cursor : Cursor} {bound : Nat} {byte : UInt8} {rest : List UInt8}

/-- The characters that a piece may begin with besides letters and digits. -/
def marks : List Char :=
  singles.map Prod.fst ++ doubles.map Prod.fst ++ [' ', '\r', '\t', '\n', '/', '"']

theorem piece_single {entry : Char × Kind} (whole : cursor.left = byte :: rest)
    (sameLine : byte ≠ '\n'.toUInt8) (found : singles.find? (·.1.toUInt8 = byte) = some entry) :
    piece bound cursor = .ok (.token entry.2) (cursor.past [byte]) := by
  unfold piece
  rw [bind_ok (advance_past whole sameLine), found]
  rfl

theorem piece_double {entry : Char × Kind × Kind} (whole : cursor.left = byte :: rest)
    (sameLine : byte ≠ '\n'.toUInt8) (noSingle : singles.find? (·.1.toUInt8 = byte) = none)
    (found : doubles.find? (·.1.toUInt8 = byte) = some entry) :
    piece bound cursor = if rest.head? = some '='.toUInt8 then
        .ok (.token entry.2.1) (cursor.past [byte, '='.toUInt8])
      else .ok (.token entry.2.2) (cursor.past [byte]) := by
  have next : accept '=' (cursor.past [byte]) = if rest.head? = some '='.toUInt8 then
      .ok true (cursor.past [byte, '='.toUInt8]) else .ok false (cursor.past [byte]) := by
    rw [accept_run _ (by decide), left_past [byte] whole, past_past]
    rfl
  unfold piece
  rw [bind_ok (advance_past whole sameLine), noSingle, found]
  dsimp only
  by_cases equal : rest.head? = some '='.toUInt8
  · rw [if_pos equal] at next
    rw [bind_ok next, if_pos equal]
    rfl
  · rw [if_neg equal] at next
    rw [bind_ok next, if_neg equal]
    rfl

theorem piece_blank (whole : cursor.left = byte :: rest)
    (blank : byte ∈ [' ', '\r', '\t', '\n'].map Char.toUInt8) :
    piece bound cursor = .ok .nothing (cursor.past [byte]) := by
  unfold piece
  rw [bind_ok (advance_run whole)]
  simp only [List.map_cons, List.map_nil, List.mem_cons, List.not_mem_nil, or_false] at blank
  rcases blank with rfl | rfl | rfl | rfl <;> rfl

theorem piece_slash (whole : cursor.left = '/'.toUInt8 :: rest) :
    piece bound cursor = slash bound (cursor.past ['/'.toUInt8]) := by
  unfold piece
  rw [bind_ok (advance_run whole)]
  rfl

theorem piece_quote (whole : cursor.left = '"'.toUInt8 :: rest) :
    piece bound cursor = string bound (cursor.past ['"'.toUInt8]) := by
  unfold piece
  rw [bind_ok (advance_run whole)]
  rfl

theorem piece_unmarked (whole : cursor.left = byte :: rest)
    (unmarked : ∀ mark ∈ marks, byte ≠ mark.toUInt8) :
    piece bound cursor = (if isDigitByte byte then number bound
      else if isLetterByte byte then word bound else unexpected) (cursor.past [byte]) := by
  have noSingle : singles.find? (·.1.toUInt8 = byte) = none := by
    refine List.find?_eq_none.mpr fun entry member => ?_
    have isMark : entry.1 ∈ marks :=
      List.mem_append_left _ (List.mem_append_left _ (List.mem_map_of_mem member))
    simpa using (unmarked entry.1 isMark).symm
  have noDouble : doubles.find? (·.1.toUInt8 = byte) = none := by
    refine List.find?_eq_none.mpr fun entry member => ?_
    have isMark : entry.1 ∈ marks :=
      List.mem_append_left _ (List.mem_append_right _ (List.mem_map_of_mem member))
    simpa using (unmarked entry.1 isMark).symm
  have noBlank : ¬(byte = ' '.toUInt8 ∨ byte = '\r'.toUInt8 ∨ byte = '\t'.toUInt8) := by
    rintro (blank | blank | blank)
    · exact unmarked ' ' (by decide) blank
    · exact unmarked '\r' (by decide) blank
    · exact unmarked '\t' (by decide) blank
  have sameLine : byte ≠ '\n'.toUInt8 := unmarked '\n' (by decide)
  unfold piece
  rw [bind_ok (advance_past whole sameLine), noSingle, noDouble]
  dsimp only
  rw [if_neg noBlank, if_neg sameLine, if_neg (unmarked '/' (by decide)),
    if_neg (unmarked '"' (by decide))]

end Dispatch

section Runs

variable {source : String} {passed rest : List Char} {bound : Nat}

/-- Operators that are one character, and that no other operator begins with. -/
theorem single_run {single : Char × Kind} (listed : single ∈ singles)
    (whole : source.toList = passed ++ single.1 :: rest) :
    piece bound (behind source passed passed) =
      .ok (.token single.2) (behind source passed (passed ++ [single.1])) := by
  have table : ∀ entry ∈ singles, IsSmall entry.1 ∧ entry.1.toUInt8 ≠ '\n'.toUInt8 ∧
      singles.find? (·.1.toUInt8 = entry.1.toUInt8) = some entry := by decide
  obtain ⟨small, sameLine, found⟩ := table single listed
  rw [piece_single (left_small small whole) sameLine found, past_small small]

/-- Operators that may be followed by an equals sign. -/
theorem double_run {double : Char × Kind × Kind} (listed : double ∈ doubles)
    (whole : source.toList = passed ++ double.1 :: rest) :
    ((∃ after, rest = '=' :: after) → piece bound (behind source passed passed) =
      .ok (.token double.2.1) (behind source passed (passed ++ [double.1, '=']))) ∧
    (¬(∃ after, rest = '=' :: after) → piece bound (behind source passed passed) =
      .ok (.token double.2.2) (behind source passed (passed ++ [double.1]))) := by
  have table : ∀ entry ∈ doubles, IsSmall entry.1 ∧ entry.1.toUInt8 ≠ '\n'.toUInt8 ∧
      singles.find? (·.1.toUInt8 = entry.1.toUInt8) = none ∧
      doubles.find? (·.1.toUInt8 = entry.1.toUInt8) = some entry := by decide
  obtain ⟨small, sameLine, noSingle, found⟩ := table double listed
  rw [← encoded_begins (by decide), piece_double (left_small small whole) sameLine noSingle found]
  constructor
  · intro equal
    have bytes : encoded [double.1, '='] = [double.1.toUInt8, '='.toUInt8] := by
      rw [encoded_cons, encoded_small small]
      rfl
    rw [if_pos equal, ← bytes, behind_past]
  · intro equal
    rw [if_neg equal, past_small small]

/-- What the first operator in the table that fits is for the cursor. -/
theorem operator_run {first : Char} {text : List Char} {kind : Kind}
    (found : firstOperator (first :: rest) = some (text, kind))
    (noSlash : ¬['/', '/'].isPrefixOf (first :: rest) = true)
    (noStar : ¬['/', '*'].isPrefixOf (first :: rest) = true)
    (whole : source.toList = passed ++ first :: rest) :
    piece bound (behind source passed passed) =
      .ok (.token kind) (behind source passed (passed ++ text)) := by
  have sorts : ∀ entry ∈ operators, (∃ single ∈ singles, entry = ([single.1], single.2)) ∨
      (∃ double ∈ doubles, entry = ([double.1, '='], double.2.1)) ∨
      (∃ double ∈ doubles, entry = ([double.1], double.2.2)) ∨ entry = (['/'], .slash) := by decide
  have longer : ∀ double ∈ doubles, ([double.1, '='], double.2.1) ∈ operators := by decide
  obtain ⟨listed, isFront, longest⟩ := first_operator_longest found
  rcases sorts _ listed with ⟨single, isSingle, same⟩ | ⟨double, isDouble, same⟩ |
    ⟨double, isDouble, same⟩ | same
  · obtain ⟨rfl, rfl⟩ := Prod.mk.inj same
    obtain ⟨rfl, -⟩ := List.cons_prefix_cons.mp isFront
    exact single_run isSingle whole
  · obtain ⟨rfl, rfl⟩ := Prod.mk.inj same
    obtain ⟨rfl, after, rfl⟩ := List.cons_prefix_cons.mp isFront
    exact (double_run isDouble whole).1 ⟨after, rfl⟩
  · obtain ⟨rfl, rfl⟩ := Prod.mk.inj same
    obtain ⟨rfl, -⟩ := List.cons_prefix_cons.mp isFront
    refine (double_run isDouble whole).2 ?_
    rintro ⟨after, rfl⟩
    have shorter := longest _ _ (longer _ isDouble) (List.prefix_append [double.1, '='] after)
    exact absurd shorter (Nat.not_succ_le_self 1)
  · obtain ⟨rfl, rfl⟩ := Prod.mk.inj same
    obtain ⟨rfl, -⟩ := List.cons_prefix_cons.mp isFront
    have other {mark : Char} (apart : ¬['/', mark].isPrefixOf ('/' :: rest) = true) :
        rest.head? ≠ some mark := by
      intro head
      obtain ⟨after, rfl⟩ := List.head?_eq_some_iff.mp head
      exact apart (List.isPrefixOf_iff_prefix.mpr (List.prefix_append ['/', mark] after))
    rw [piece_slash (left_small (by decide) whole), past_small (by decide)]
    exact plain_slash_run whole (other noSlash) (other noStar)

/-- A small character that passes a test which no mark passes begins a number or a word. -/
theorem unmarked_run {first : Char} {byByte : UInt8 → Bool} {byCharacter : Char → Bool}
    (tells : Tells byByte byCharacter) (apart : (marks.all fun mark => !byByte mark.toUInt8) = true)
    (small : IsSmall first) (passes : byCharacter first = true)
    (whole : source.toList = passed ++ first :: rest) :
    piece bound (behind source passed passed) = (if isDigitByte first.toUInt8 then number bound
      else if isLetterByte first.toUInt8 then word bound else unexpected)
        (behind source passed (passed ++ [first])) := by
  have isFirst : first.toUInt8 ∈ String.utf8EncodeChar first := by
    rw [encoded_small small]
    exact List.mem_cons_self
  have unmarked : ∀ mark ∈ marks, first.toUInt8 ≠ mark.toUInt8 := by
    intro mark isMark same
    have refused := List.all_eq_true.mp apart mark isMark
    rw [← same, tells first _ isFirst, passes] at refused
    cases refused
  rw [piece_unmarked (left_small small whole) unmarked, past_small small]

theorem digit_run {first : Char} (digit : first.isDigit = true)
    (whole : source.toList = passed ++ first :: rest) (enough : (encoded rest).length < bound) :
    piece bound (behind source passed passed) =
      .ok (.token (.number (numeralValue (takeNumber (first :: rest)).1)))
        (behind source passed (passed ++ (takeNumber (first :: rest)).1)) := by
  have small : IsSmall first := UInt32.le_trans (is_digit_iff.mp digit).2 (by decide)
  have isDigit : isDigitByte first.toUInt8 = true := by
    rw [digit_tells first _ (by rw [encoded_small small]; exact List.mem_cons_self), digit]
  rw [unmarked_run digit_tells (by decide) small digit whole, if_pos isDigit,
    number_run whole digit enough]

theorem letter_run {first : Char} (letter : isWordStart first = true)
    (noDigit : ¬first.isDigit = true)
    (whole : source.toList = passed ++ first :: rest) (enough : (encoded rest).length < bound) :
    piece bound (behind source passed passed) =
      .ok (.token (.ofWord (String.ofList ((first :: rest).takeWhile isWordPart))))
        (behind source passed (passed ++ (first :: rest).takeWhile isWordPart)) := by
  have small : IsSmall first := by
    rcases word_start_iff.mp letter with upper | lower | rfl
    · exact UInt32.le_trans upper.2 (by decide)
    · exact UInt32.le_trans lower.2 (by decide)
    · decide
  have isFirst : first.toUInt8 ∈ String.utf8EncodeChar first := by
    rw [encoded_small small]
    exact List.mem_cons_self
  rw [unmarked_run letter_tells (by decide) small letter whole,
    if_neg (by rw [digit_tells first _ isFirst]; exact noDigit),
    if_pos ((letter_tells first _ isFirst).trans letter), word_run whole letter enough]

/-- A character that nothing begins with, be it one byte or more. -/
theorem other_run {first : Char} (noBlank : ¬isBlank first = true)
    (noDigit : ¬first.isDigit = true) (noLetter : ¬isWordStart first = true)
    (noQuote : ¬first = '"') (none : firstOperator (first :: rest) = none)
    (whole : source.toList = passed ++ first :: rest) :
    piece bound (behind source passed passed) = .ok (.error (.unexpectedCharacter first))
      (behind source passed (passed ++ [first])) := by
  obtain ⟨byte, more, bytes⟩ :=
    List.exists_cons_of_ne_nil (String.utf8EncodeChar_ne_nil (c := first))
  have isFirst : byte ∈ String.utf8EncodeChar first := bytes ▸ List.mem_cons_self
  have begins : (marks.all fun mark => isBlank mark || mark = '"' ||
      operators.any (·.1 = [mark])) = true := by decide
  have noMark : ∀ mark ∈ marks, first ≠ mark := by
    rintro mark isMark rfl
    have sort := List.all_eq_true.mp begins first isMark
    rw [Bool.or_eq_true, Bool.or_eq_true, List.any_eq_true] at sort
    rcases sort with (blank | quote) | ⟨entry, listed, same⟩
    · exact noBlank blank
    · exact noQuote (of_decide_eq_true quote)
    · have refused := List.find?_eq_none.mp none entry listed
      rw [of_decide_eq_true same] at refused
      exact refused (List.isPrefixOf_iff_prefix.mpr (List.prefix_append [first] rest))
  have small : (marks.all fun mark => IsSmall mark) = true := by decide
  have unmarked : ∀ mark ∈ marks, byte ≠ mark.toUInt8 := by
    intro mark isMark same
    have isSmall := of_decide_eq_true (List.all_eq_true.mp small mark isMark)
    exact noMark mark isMark ((byte_is_character isSmall isFirst).mp same)
  have left : (behind source passed passed).left = byte :: (more ++ encoded rest) := by
    rw [left_behind whole, encoded_cons, bytes, List.cons_append]
  have sameLine : ([byte] : List UInt8).count '\n'.toUInt8 = 0 := by
    rw [List.count_singleton, if_neg (by simpa using unmarked '\n' (by decide))]
  rw [piece_unmarked left unmarked, if_neg (by rw [digit_tells first _ isFirst]; exact noDigit),
    if_neg (by rw [letter_tells first _ isFirst]; exact noLetter)]
  refine unexpected_run whole (noMark '\n' (by decide)) rfl rfl ?_
  rw [past, sameLine]
  rfl

theorem encoded_within {first : Char} (enough : (encoded (first :: rest)).length < bound) :
    (encoded rest).length < bound :=
  Nat.lt_of_le_of_lt (encoded_length_suffix (List.suffix_cons first rest)) enough

/-- A cursor between two characters reads the piece that is cut off there. -/
theorem piece_run {first : Char} (whole : source.toList = passed ++ first :: rest)
    (enough : (encoded rest).length < bound) :
    piece bound (behind source passed passed) = .ok (Piece.cut first rest).1.sort.found
      (behind source passed (passed ++ (Piece.cut first rest).1.text)) := by
  fun_cases Piece.cut first rest with
  | case1 blank =>
      have isBlank := is_blank_iff.mp blank
      have small : IsSmall first := by
        have table : ([' ', '\r', '\t', '\n'].all fun blank => IsSmall blank) = true := by decide
        exact of_decide_eq_true (List.all_eq_true.mp table first isBlank)
      rw [piece_blank (left_small small whole) (List.mem_map_of_mem isBlank), past_small small]
      rfl
  | case2 source noBlank digit numeral after taken =>
      have run := digit_run digit whole enough
      rw [taken] at run
      exact run
  | case3 source noBlank noDigit letter word => exact letter_run letter noDigit whole enough
  | case4 source noBlank noDigit noLetter quote none =>
      subst quote
      rw [piece_quote (left_small (by decide) whole), past_small (by decide),
        open_string_run whole none enough]
      rfl
  | case5 noBlank noDigit noLetter isQuote content quote after found =>
      subst isQuote
      have isClosing : quote = '"' := by
        have stops := List.head?_dropWhile_not (· ≠ '"') rest
        rw [found] at stops
        simpa using stops
      subst isClosing
      rw [piece_quote (left_small (by decide) whole), past_small (by decide),
        closed_string_run whole found enough]
      rfl
  | case6 text noBlank noDigit noLetter noQuote slashes =>
      obtain ⟨inside, same⟩ := List.isPrefixOf_iff_prefix.mp slashes
      obtain ⟨rfl, rfl⟩ := List.cons.inj same
      rw [piece_slash (left_small (by decide) whole), past_small (by decide),
        line_comment_slash_run whole]
      rfl
  | case7 text noBlank noDigit noLetter noQuote noSlashes opening unclosed =>
      obtain ⟨inside, same⟩ := List.isPrefixOf_iff_prefix.mp opening
      obtain ⟨rfl, rfl⟩ := List.cons.inj same
      change afterComment 0 inside = none at unclosed
      change source.toList = passed ++ '/' :: '*' :: inside at whole
      obtain ⟨body, same, run⟩ := block_comment_slash_run whole (encoded_within enough)
      rw [unclosed, Option.getD_none, List.append_nil] at same
      rw [piece_slash (left_small (by decide) whole), past_small (by decide), run, unclosed, ← same]
      rfl
  | case8 text noBlank noDigit noLetter noQuote noSlashes opening after found =>
      obtain ⟨inside, same⟩ := List.isPrefixOf_iff_prefix.mp opening
      obtain ⟨rfl, rfl⟩ := List.cons.inj same
      change afterComment 0 inside = some after at found
      change source.toList = passed ++ '/' :: '*' :: inside at whole
      obtain ⟨body, same, run⟩ := block_comment_slash_run whole (encoded_within enough)
      rw [found, Option.getD_some] at same
      have comment : textBefore text after = '/' :: '*' :: body := by
        change textBefore ('/' :: '*' :: inside) after = _
        rw [same]
        exact text_before_append ('/' :: '*' :: body) after
      rw [piece_slash (left_small (by decide) whole), past_small (by decide), run, found, ← comment]
      rfl
  | case9 source noBlank noDigit noLetter noQuote noSlashes noOpening text kind found =>
      exact operator_run found noSlashes noOpening whole
  | case10 source noBlank noDigit noLetter noQuote noSlashes noOpening none =>
      exact other_run noBlank noDigit noLetter noQuote none whole

end Runs

end Cursor

end Lox
