import Lox.Proofs.Bytes.Places

/-!
What a cursor reads behind the first character of a piece: the rest of a number, of a word, of a
string, or of what begins with a slash. It ends behind just the characters of the piece that is
cut off there.
-/

namespace Lox.Cursor

section Numbers

variable {cursor : Cursor} {bound : Nat}

theorem fraction_point {digits : List Char} (whole : cursor.left = encoded ('.' :: digits))
    (isFraction : IsDigits (digits.takeWhile Char.isDigit))
    (enough : (encoded digits).length < bound) :
    fraction bound cursor =
      .ok () (cursor.past (encoded ('.' :: digits.takeWhile Char.isDigit))) := by
  have bytes : cursor.left = '.'.toUInt8 :: encoded digits := whole
  have first : peek cursor = .ok '.'.toUInt8 cursor := by
    rw [peek_run, bytes]
    rfl
  have second : peekNext cursor = .ok ((encoded digits).head?.getD 0) cursor := by
    rw [peek_next_run, bytes, List.getElem?_cons_succ, List.head?_eq_getElem?]
  have digit : isDigitByte ((encoded digits).head?.getD 0) = true := by
    rw [digit_tells.begins rfl]
    cases digits with
    | nil => exact absurd rfl isFraction.1
    | cons digit rest =>
        by_contra noDigit
        exact isFraction.1 (List.takeWhile_cons_of_neg noDigit)
  have onward : advanceWhile isDigitByte bound (cursor.past ['.'.toUInt8]) =
      .ok () (cursor.past (encoded ('.' :: digits.takeWhile Char.isDigit))) := by
    have left : (cursor.past ['.'.toUInt8]).left = encoded digits :=
      left_past ['.'.toUInt8] bytes
    rw [advance_while_run rfl rfl (by rw [left]; exact enough), left, digit_tells.take_while,
      past_past]
    rfl
  unfold fraction
  rw [bind_ok first, bind_ok second, digit]
  change (advance >>= fun _ => advanceWhile isDigitByte bound) cursor = _
  rw [bind_ok (advance_past bytes (by decide)), onward]

theorem fraction_none {text : List Char} (whole : cursor.left = encoded text)
    (none : ∀ digit rest, text = '.' :: digit :: rest → ¬IsDigit digit) :
    fraction bound cursor = .ok () cursor := by
  have noFraction : (decide ((encoded text).head?.getD 0 = '.'.toUInt8) &&
      isDigitByte ((encoded text)[1]?.getD 0)) = false := by
    rw [Bool.and_eq_false_imp, (Tells.equal '.' (by decide)).begins (by decide)]
    intro point
    cases text with
    | nil => cases point
    | cons first rest =>
        obtain rfl : first = '.' := of_decide_eq_true point
        change isDigitByte ((encoded rest)[0]?.getD 0) = false
        rw [← List.head?_eq_getElem?, digit_tells.begins rfl]
        cases rest with
        | nil => rfl
        | cons digit rest =>
            refine Bool.eq_false_iff.mpr fun isDigit => ?_
            exact none digit rest rfl (is_digit_iff.mp isDigit)
  unfold fraction
  rw [bind_ok (peek_run cursor), bind_ok (peek_next_run cursor), whole, noFraction]
  rfl

end Numbers

section Runs

variable {source : String} {passed rest : List Char} {bound : Nat}

/-- A loop over a test goes on to the end of what passes. -/
theorem while_run {byByte : UInt8 → Bool} {byCharacter : Char → Bool} {first : Char}
    (tells : Tells byByte byCharacter) (stops : byByte 0 = false)
    (sameLine : byByte '\n'.toUInt8 = false) (passes : byCharacter first = true)
    (whole : source.toList = passed ++ first :: rest) (enough : (encoded rest).length < bound) :
    advanceWhile byByte bound (behind source passed (passed ++ [first])) =
      .ok () (behind source passed (passed ++ (first :: rest).takeWhile byCharacter)) := by
  have left : (behind source passed (passed ++ [first])).left = encoded rest :=
    left_behind (whole.trans (List.append_cons _ _ _))
  rw [advance_while_run stops sameLine (left ▸ enough), left, tells.take_while, behind_past,
    List.append_assoc, List.singleton_append, List.takeWhile_cons_of_pos passes]

theorem whole_after (byCharacter : Char → Bool) (whole : source.toList = passed ++ rest) :
    source.toList = passed ++ rest.takeWhile byCharacter ++ rest.dropWhile byCharacter := by
  rw [List.append_assoc, List.takeWhile_append_dropWhile, whole]

/-- What a number takes behind its first digit. -/
theorem number_run {first : Char} (whole : source.toList = passed ++ first :: rest)
    (digit : first.isDigit = true) (enough : (encoded rest).length < bound) :
    number bound (behind source passed (passed ++ [first])) =
      .ok (.token (.number (numeralValue (takeNumber (first :: rest)).1)))
        (behind source passed (passed ++ (takeNumber (first :: rest)).1)) := by
  have after := whole_after Char.isDigit whole
  have point : fraction bound
        (behind source passed (passed ++ (first :: rest).takeWhile Char.isDigit)) =
      .ok () (behind source passed (passed ++ (takeNumber (first :: rest)).1)) := by
    rcases take_number_cases (first :: rest) with ⟨digits, drop, isFraction, taken⟩ | ⟨none, taken⟩
    · have suffix : digits <:+ rest := by
        rw [List.dropWhile_cons_of_pos digit] at drop
        exact (List.suffix_cons '.' digits).trans (drop ▸ List.dropWhile_suffix _)
      have fewer := Nat.lt_of_le_of_lt (encoded_length_suffix suffix) enough
      rw [drop] at after
      rw [taken, fraction_point (left_behind after) isFraction fewer, behind_past,
        List.append_assoc]
    · rw [taken]
      exact fraction_none (left_behind after) none
  have text := stretch_run
    (behind source passed (passed ++ (takeNumber (first :: rest)).1)) rfl
    (whole.trans (by rw [List.append_assoc, take_number_append]))
  unfold number
  rw [bind_ok (while_run digit_tells rfl rfl digit whole enough), bind_ok point]
  change (stretch (encoded passed).length
      (encoded (passed ++ (takeNumber (first :: rest)).1)).length >>= fun text =>
    return .token (.number (numeralValue text.toList)) : Walk Found) _ = _
  rw [bind_ok text, String.toList_ofList]
  rfl

theorem word_run {first : Char} (whole : source.toList = passed ++ first :: rest)
    (letter : isWordStart first = true) (enough : (encoded rest).length < bound) :
    word bound (behind source passed (passed ++ [first])) =
      .ok (.token (.ofWord (String.ofList ((first :: rest).takeWhile isWordPart))))
        (behind source passed (passed ++ (first :: rest).takeWhile isWordPart)) := by
  have part : isWordPart first = true := word_part_iff.mpr (.inl (word_start_iff.mp letter))
  have text := stretch_run
    (behind source passed (passed ++ (first :: rest).takeWhile isWordPart)) rfl
    (whole_after isWordPart whole)
  unfold word
  rw [bind_ok (while_run word_tells rfl rfl part whole enough)]
  change (stretch (encoded passed).length
      (encoded (passed ++ (first :: rest).takeWhile isWordPart)).length >>=
    fun text => return .token (.ofWord text) : Walk Found) _ = _
  rw [bind_ok text]
  rfl

/-- The loop over a string goes on to its closing quote, or to the end of the text. -/
theorem quote_run (whole : source.toList = passed ++ '"' :: rest)
    (enough : (encoded rest).length < bound) :
    toQuote bound (behind source passed (passed ++ ['"'])) =
      .ok () (behind source passed (passed ++ '"' :: rest.takeWhile (· ≠ '"'))) := by
  have left : (behind source passed (passed ++ ['"'])).left = encoded rest :=
    left_behind (whole.trans (List.append_cons _ _ _))
  rw [to_quote_run (left ▸ enough), left, (Tells.unequal '"' (by decide)).take_while, behind_past,
    List.append_assoc, List.singleton_append]

theorem left_at_quote (whole : source.toList = passed ++ '"' :: rest) :
    (behind source passed (passed ++ '"' :: rest.takeWhile (· ≠ '"'))).left =
      encoded (rest.dropWhile (· ≠ '"')) := by
  refine left_behind ?_
  rw [List.append_assoc, List.cons_append, List.takeWhile_append_dropWhile, whole]

/-- What a string takes behind its opening quote, if it is closed. -/
theorem closed_string_run {after : List Char} (whole : source.toList = passed ++ '"' :: rest)
    (found : rest.dropWhile (· ≠ '"') = '"' :: after) (enough : (encoded rest).length < bound) :
    string bound (behind source passed (passed ++ ['"'])) =
      .ok (.token (.string (String.ofList (rest.takeWhile (· ≠ '"')))))
        (behind source passed (passed ++ ('"' :: rest.takeWhile (· ≠ '"') ++ ['"']))) := by
  have left := left_at_quote whole
  have run := quote_run whole enough
  have parts := List.takeWhile_append_dropWhile (p := (· ≠ '"')) (l := rest)
  rw [found] at left parts
  generalize rest.takeWhile (· ≠ '"') = content at left run parts ⊢
  have closing : advance (behind source passed (passed ++ '"' :: content)) =
      .ok '"'.toUInt8 (behind source passed (passed ++ ('"' :: content ++ ['"']))) := by
    rw [advance_past left (by decide), ← List.append_assoc]
    exact congrArg _ (behind_past ['"'])
  have start : (encoded passed).length + 1 = (encoded (passed ++ ['"'])).length := by
    rw [encoded_append, List.length_append]
    rfl
  have position : (encoded (passed ++ ('"' :: content ++ ['"']))).length - 1 =
      (encoded (passed ++ ['"'] ++ content)).length := by
    rw [← List.append_assoc, encoded_append, List.length_append, List.append_assoc]
    rfl
  have between : source.toList = passed ++ ['"'] ++ content ++ '"' :: after := by
    rw [whole, ← parts, List.append_assoc, List.append_assoc, List.singleton_append]
  have text := stretch_run (behind source passed (passed ++ ('"' :: content ++ ['"'])))
    rfl between
  unfold string
  rw [bind_ok run, bind_ok (at_end_run _), left]
  change (advance >>= fun _ => get >>= fun cursor : Cursor =>
    stretch (cursor.start + 1) (cursor.position - 1) >>= fun text =>
      return .token (.string text) : Walk Found) _ = _
  rw [bind_ok closing]
  change (stretch ((encoded passed).length + 1)
      ((encoded (passed ++ ('"' :: content ++ ['"']))).length - 1) >>= fun text =>
    return .token (.string text) : Walk Found) _ = _
  rw [start, position, bind_ok text]
  rfl

theorem open_string_run (whole : source.toList = passed ++ '"' :: rest)
    (none : rest.dropWhile (· ≠ '"') = []) (enough : (encoded rest).length < bound) :
    string bound (behind source passed (passed ++ ['"'])) =
      .ok (.error .unterminatedString) (behind source passed (passed ++ '"' :: rest)) := by
  have left := left_at_quote whole
  have content := List.takeWhile_append_dropWhile (p := (· ≠ '"')) (l := rest)
  rw [none] at left content
  rw [List.append_nil] at content
  unfold string
  rw [bind_ok (quote_run whole enough), bind_ok (at_end_run _), left, content]
  rfl

/-- What a comment takes behind its first slash. -/
theorem line_comment_slash_run (whole : source.toList = passed ++ '/' :: '/' :: rest) :
    slash bound (behind source passed (passed ++ ['/'])) = .ok .nothing
      (behind source passed (passed ++ ('/' :: '/' :: rest).takeWhile (· ≠ '\n'))) := by
  have behindFirst : source.toList = passed ++ ['/'] ++ '/' :: rest :=
    whole.trans (List.append_cons _ _ _)
  have behindSecond : source.toList = passed ++ ['/'] ++ ['/'] ++ rest :=
    behindFirst.trans (List.append_cons _ _ _)
  have second : accept '/' (behind source passed (passed ++ ['/'])) =
      .ok true (behind source passed (passed ++ ['/'] ++ ['/'])) := by
    rw [accept_run _ (by decide), left_behind behindFirst]
    exact congrArg _ (behind_past ['/'])
  unfold slash
  rw [bind_ok second]
  change lineComment _ = _
  rw [line_comment_run (inside_behind behindSecond), left_behind behindSecond,
    (Tells.unequal '\n' (by decide)).take_while, behind_past, List.append_assoc,
    List.append_assoc]
  rfl

theorem block_comment_slash_run (whole : source.toList = passed ++ '/' :: '*' :: rest)
    (enough : (encoded rest).length < bound) :
    ∃ body, rest = body ++ (afterComment 0 rest).getD [] ∧
      slash bound (behind source passed (passed ++ ['/'])) =
        .ok (if (afterComment 0 rest).isSome then .nothing else .error .unterminatedComment)
          (behind source passed (passed ++ '/' :: '*' :: body)) := by
  have behindFirst : source.toList = passed ++ ['/'] ++ '*' :: rest :=
    whole.trans (List.append_cons _ _ _)
  have behindSecond : source.toList = passed ++ ['/'] ++ ['*'] ++ rest :=
    behindFirst.trans (List.append_cons _ _ _)
  have noSlash : accept '/' (behind source passed (passed ++ ['/'])) =
      .ok false (behind source passed (passed ++ ['/'])) := by
    rw [accept_run _ (by decide), left_behind behindFirst]
    rfl
  have star : accept '*' (behind source passed (passed ++ ['/'])) =
      .ok true (behind source passed (passed ++ ['/'] ++ ['*'])) := by
    rw [accept_run _ (by decide), left_behind behindFirst]
    exact congrArg _ (behind_past ['*'])
  obtain ⟨body, same, run⟩ := block_comment_run 0 (left_behind behindSecond) enough
  refine ⟨body, same, ?_⟩
  unfold slash
  rw [bind_ok noSlash]
  change (accept '*' >>= fun found => if found then blockComment bound 1 else
    return .token .slash : Walk Found) _ = _
  rw [bind_ok star]
  change blockComment bound 1 _ = _
  rw [run, behind_past, List.append_assoc, List.append_assoc]
  rfl

/-- A slash that no comment begins with. -/
theorem plain_slash_run (whole : source.toList = passed ++ '/' :: rest)
    (noSlash : rest.head? ≠ some '/') (noStar : rest.head? ≠ some '*') :
    slash bound (behind source passed (passed ++ ['/'])) =
      .ok (.token .slash) (behind source passed (passed ++ ['/'])) := by
  have left : (behind source passed (passed ++ ['/'])).left = encoded rest :=
    left_behind (whole.trans (List.append_cons _ _ _))
  have refused {mark : Char} (small : IsSmall mark) (sameLine : mark.toUInt8 ≠ '\n'.toUInt8)
      (other : rest.head? ≠ some mark) : accept mark (behind source passed (passed ++ ['/'])) =
        .ok false (behind source passed (passed ++ ['/'])) := by
    rw [accept_run _ sameLine, left, if_neg]
    rw [encoded_begins small]
    rintro ⟨behind, rfl⟩
    exact other rfl
  unfold slash
  rw [bind_ok (refused (by decide) (by decide) noSlash)]
  change (accept '*' >>= fun found => if found then blockComment bound 1 else
    return .token .slash : Walk Found) _ = _
  rw [bind_ok (refused (by decide) (by decide) noStar)]
  rfl

/-- However far the cursor has gone into the character that begins nothing, it goes on to the
end of that character. -/
theorem unexpected_run {first : Char} (whole : source.toList = passed ++ first :: rest)
    (sameLine : first ≠ '\n') {cursor : Cursor} (same : cursor.source = source)
    (start : cursor.start = (encoded passed).length) (line : cursor.line = 1 + passed.count '\n') :
    unexpected cursor = .ok (.error (.unexpectedCharacter first))
      (behind source passed (passed ++ [first])) := by
  have size : cursor.size = (encoded (passed ++ first :: rest)).length := by
    rw [← whole, ← same]
    exact (encoded_length_source _).symm
  have text : stretch cursor.start cursor.size cursor =
      .ok (String.ofList (first :: rest)) cursor := by
    rw [start, size]
    exact stretch_run cursor same (whole.trans (List.append_nil _).symm)
  have place : (encoded (passed ++ [first])).length = cursor.start + first.utf8Size := by
    rw [start, encoded_append, List.length_append, encoded_cons, encoded_nil, List.append_nil,
      String.length_utf8EncodeChar]
  have sameCount : (passed ++ [first]).count '\n' = passed.count '\n' := by
    rw [List.count_append, List.count_singleton, if_neg (by simpa using sameLine), Nat.add_zero]
  change (stretch cursor.start cursor.size >>= fun rest => do
    set { cursor with position := cursor.start + (rest.toList.head?.getD '?').utf8Size }
    return .error (.unexpectedCharacter (rest.toList.head?.getD '?')) : Walk Found) cursor = _
  rw [bind_ok text, String.toList_ofList, behind, place, sameCount, ← line, ← start, ← same]
  rfl

end Runs

end Lox.Cursor
