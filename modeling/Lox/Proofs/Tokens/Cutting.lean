import Lox.Proofs.Tokens.Shapes
import Mathlib.Data.List.TakeWhile
import Mathlib.Tactic.SplitIfs

/-!
The first piece of a text. A piece that is cut off has one of the shapes that
fit the rest of the text. Which shapes come into question is settled by the
first character, and for each of them the longest token is what its cut takes.
-/

namespace Lox

theorem prefix_take_while {α : Type} {taken : α → Bool} {front whole : List α}
    (isFront : front <+: whole) (all : ∀ item ∈ front, taken item = true) :
    front <+: whole.takeWhile taken := by
  obtain ⟨rest, rfl⟩ := isFront
  rw [List.takeWhile_append_of_pos all]
  exact List.prefix_append front _

theorem length_le_take_while {α : Type} {taken : α → Bool} {front whole : List α}
    (isFront : front <+: whole) (all : ∀ item ∈ front, taken item = true) :
    front.length ≤ (whole.takeWhile taken).length := (prefix_take_while isFront all).length_le

theorem digit_no_letter {character : Char} (digit : IsDigit character) : ¬IsLetter character := by
  have below (bound : Char) (small : '9' < bound) : ¬bound ≤ character :=
    fun above => absurd (Char.le_trans above digit.2) (Char.not_le.mpr small)
  rintro (⟨above, -⟩ | ⟨above, -⟩ | rfl)
  · exact below 'A' (by decide) above
  · exact below 'a' (by decide) above
  · exact below '_' (by decide) (Char.le_refl _)

theorem letter_no_quote : ¬IsLetter '"' := by
  rw [← word_start_iff]
  decide

theorem digit_no_quote : ¬IsDigit '"' := by
  rw [← is_digit_iff]
  decide

theorem IsNumeral.begins {text : List Char} (isNumeral : IsNumeral text) :
    ∃ first rest, text = first :: rest ∧ IsDigit first := by
  have start {digits : List Char} (isDigits : IsDigits digits) :
      ∃ first rest, digits = first :: rest ∧ IsDigit first := by
    cases digits with
    | nil => exact absurd rfl isDigits.1
    | cons first rest => exact ⟨first, rest, rfl, isDigits.2 first List.mem_cons_self⟩
  cases isNumeral with
  | whole isWhole => exact start isWhole
  | @fraction digits fraction isWhole isFraction =>
      obtain ⟨first, rest, rfl, digit⟩ := start isWhole
      exact ⟨first, rest ++ '.' :: fraction, rfl, digit⟩

/-- What kind of token a text is shows in its first character. -/
inductive BeginsAs (first : Char) (rest : List Char) (kind : Kind) : Prop where
  | operator (listed : (first :: rest, kind) ∈ operators) (noDigit : ¬IsDigit first)
      (noLetter : ¬IsLetter first) (noQuote : first ≠ '"')
  | numeral (digit : IsDigit first) (isNumeral : IsNumeral (first :: rest))
  | word (letter : IsLetter first) (isWord : IsWord (first :: rest))
  | quoted (quote : first = '"') {content : List Char} (unquoted : '"' ∉ content)
      (same : rest = content ++ ['"'])

theorem IsLexeme.begins {text : List Char} {kind : Kind} (isLexeme : IsLexeme text kind) :
    ∃ first rest, text = first :: rest ∧ BeginsAs first rest kind := by
  have word {text : List Char} (isWord : IsWord text) :
      ∃ first rest, text = first :: rest ∧ BeginsAs first rest kind := by
    cases text with
    | nil => exact isWord.elim
    | cons first rest => exact ⟨first, rest, rfl, .word isWord.1 isWord⟩
  cases isLexeme with
  | operator listed =>
      obtain ⟨first, rest, rfl, noDigit, noLetter, noQuote⟩ := operator_begins listed
      exact ⟨first, rest, rfl, .operator listed noDigit noLetter noQuote⟩
  | numeral isNumeral =>
      obtain ⟨first, rest, rfl, digit⟩ := isNumeral.begins
      exact ⟨first, rest, rfl, .numeral digit isNumeral⟩
  | keyword reserved => exact word (keyword_is_word reserved)
  | identifier isWord free => exact word isWord
  | @quoted content unquoted => exact ⟨'"', content ++ ['"'], rfl, .quoted rfl unquoted rfl⟩

theorem starts_gap_iff {first : Char} {rest : List Char} : StartsGap (first :: rest) ↔
    isBlank first = true ∨ ['/', '/'].isPrefixOf (first :: rest) = true ∨
      ['/', '*'].isPrefixOf (first :: rest) = true := by
  simp only [StartsGap, is_blank_iff, List.isPrefixOf_iff_prefix, List.head?_cons,
    Option.mem_some_iff, exists_eq_left']

theorem no_gap_of_none {first : Char} {rest : List Char} (noBlank : ¬isBlank first = true)
    (noSlashes : ¬['/', '/'].isPrefixOf (first :: rest) = true)
    (noOpening : ¬['/', '*'].isPrefixOf (first :: rest) = true) : ¬StartsGap (first :: rest) := by
  rw [starts_gap_iff]
  rintro (blank | slashes | opening)
  · exact noBlank blank
  · exact noSlashes slashes
  · exact noOpening opening

section Numerals

theorem taken_digits {first : Char} {rest : List Char} (digit : IsDigit first) :
    IsDigits ((first :: rest).takeWhile Char.isDigit) := by
  constructor
  · rw [List.takeWhile_cons_of_pos (is_digit_iff.mpr digit)]
    exact List.cons_ne_nil _ _
  · exact fun character member => is_digit_iff.mp (List.mem_takeWhile_imp member)

/-- A point belongs to a number only if a digit follows. -/
theorem take_number_cases (source : List Char) :
    (∃ behind, source.dropWhile Char.isDigit = '.' :: behind ∧
      IsDigits (behind.takeWhile Char.isDigit) ∧
      takeNumber source = (source.takeWhile Char.isDigit ++ '.' :: behind.takeWhile Char.isDigit,
        behind.dropWhile Char.isDigit)) ∨
    ((∀ digit rest, source.dropWhile Char.isDigit = '.' :: digit :: rest → ¬IsDigit digit) ∧
      takeNumber source = (source.takeWhile Char.isDigit, source.dropWhile Char.isDigit)) := by
  unfold takeNumber
  dsimp only
  split
  · next digit rest found =>
      split_ifs with isDigit
      · exact .inl ⟨digit :: rest, found, taken_digits (is_digit_iff.mp isDigit), rfl⟩
      · right
        refine ⟨fun other tail same => ?_, by rw [found]⟩
        rw [found] at same
        obtain ⟨rfl, rfl⟩ := List.cons.inj (List.cons.inj same).2
        exact fun digit => isDigit (is_digit_iff.mpr digit)
  · next other => exact .inr ⟨fun digit rest same _ => other digit rest same, rfl⟩

theorem take_number_append (source : List Char) :
    (takeNumber source).1 ++ (takeNumber source).2 = source := by
  rcases take_number_cases source with ⟨behind, drop, -, taken⟩ | ⟨-, taken⟩
  · rw [taken, List.append_assoc, List.cons_append, List.takeWhile_append_dropWhile, ← drop,
      List.takeWhile_append_dropWhile]
  · rw [taken, List.takeWhile_append_dropWhile]

theorem take_number_numeral {first : Char} {rest : List Char} (digit : IsDigit first) :
    IsNumeral (takeNumber (first :: rest)).1 := by
  rcases take_number_cases (first :: rest) with ⟨behind, -, isFraction, taken⟩ | ⟨-, taken⟩
  · rw [taken]
    exact .fraction (taken_digits digit) isFraction
  · rw [taken]
    exact .whole (taken_digits digit)

theorem take_number_longest {source other : List Char} (isNumeral : IsNumeral other)
    (isFront : other <+: source) : other.length ≤ (takeNumber source).1.length := by
  have least : (source.takeWhile Char.isDigit).length ≤ (takeNumber source).1.length := by
    rcases take_number_cases source with ⟨behind, -, -, taken⟩ | ⟨-, taken⟩
    · rw [taken, List.length_append]
      exact Nat.le_add_right _ _
    · rw [taken]
  have all {digits : List Char} (isDigits : IsDigits digits) :
      ∀ character ∈ digits, character.isDigit = true :=
    fun character member => is_digit_iff.mpr (isDigits.2 character member)
  cases isNumeral with
  | whole isWhole => exact Nat.le_trans (length_le_take_while isFront (all isWhole)) least
  | @fraction digits fraction isWhole isFraction =>
      obtain ⟨behind, rfl⟩ := isFront
      have stop : ¬ '.'.isDigit = true := by decide
      have whole : (digits ++ '.' :: fraction ++ behind).takeWhile Char.isDigit = digits := by
        rw [List.append_assoc, List.takeWhile_append_of_pos (all isWhole), List.cons_append,
          List.takeWhile_cons_of_neg stop, List.append_nil]
      have drop : (digits ++ '.' :: fraction ++ behind).dropWhile Char.isDigit =
          '.' :: (fraction ++ behind) := by
        rw [List.append_assoc, List.dropWhile_append_of_pos (all isWhole), List.cons_append,
          List.dropWhile_cons_of_neg stop]
      rcases take_number_cases (digits ++ '.' :: fraction ++ behind) with
        ⟨after, found, -, taken⟩ | ⟨none, -⟩
      · obtain ⟨-, rfl⟩ := List.cons.inj (found.symm.trans drop)
        have longer := length_le_take_while (List.prefix_append fraction behind) (all isFraction)
        rw [taken, whole]
        simp only [List.length_append, List.length_cons]
        omega
      · obtain ⟨first, tail, rfl⟩ := List.exists_cons_of_ne_nil isFraction.1
        exact absurd (isFraction.2 first List.mem_cons_self) (none first _ drop)

end Numerals

/-- No operator that comes later in the table is longer. -/
theorem first_operator_longest {source text : List Char} {kind : Kind}
    (found : firstOperator source = some (text, kind)) :
    (text, kind) ∈ operators ∧ text <+: source ∧
      ∀ other otherKind, (other, otherKind) ∈ operators → other <+: source →
        other.length ≤ text.length := by
  obtain ⟨isFront, before, after, same, skipped⟩ := List.find?_eq_some_iff_append.mp found
  have shrinking : operators.Pairwise fun first later => later.1.length ≤ first.1.length := by
    decide
  refine ⟨by simp [same], List.isPrefixOf_iff_prefix.mp isFront, ?_⟩
  intro other otherKind listed otherFront
  rw [same] at listed shrinking
  rcases List.mem_append.mp listed with earlier | later
  · have refused := skipped _ earlier
    rw [List.isPrefixOf_iff_prefix.mpr otherFront] at refused
    cases refused
  · rcases List.mem_cons.mp later with found | behind
    · rw [(Prod.mk.inj found).1]
    · exact (List.pairwise_cons.mp (List.pairwise_append.mp shrinking).2.1).1 _ behind

section Comments

theorem closes_ne_nil {levels : Nat} {text : List Char} (closes : Closes (levels + 1) text) :
    text ≠ [] := by
  cases closes <;> exact List.cons_ne_nil _ _

/-- A text that closes all levels is just what the search for its end passes. -/
theorem after_comment_of_closes {levels : Nat} {text : List Char}
    (closes : Closes (levels + 1) text) (rest : List Char) :
    afterComment levels (text ++ rest) = some rest := by
  generalize same : levels + 1 = opened at closes
  induction closes generalizing levels with
  | done => cases same
  | opening closes induction =>
      cases same
      exact induction rfl
  | @closing remaining text closes induction =>
      cases same
      cases remaining with
      | zero =>
          cases closes
          rfl
      | succ remaining => exact induction rfl
  | @inside open' first text noOpening noClosing closes induction =>
      cases same
      have passed := induction rfl
      obtain ⟨second, tail, rfl⟩ := List.exists_cons_of_ne_nil (closes_ne_nil closes)
      have pair {left right : Char} {behind : List Char} (isFirst : first = left)
          (isSecond : second :: (tail ++ rest) = right :: behind) :
          [left, right] <+: first :: second :: tail := by
        rw [isFirst, (List.cons.inj isSecond).1]
        exact List.prefix_append [left, right] tail
      rw [List.cons_append, List.cons_append, afterComment]
      · exact passed
      · exact fun behind isFirst isSecond => noOpening (pair isFirst isSecond)
      · exact fun behind _ isFirst isSecond => noClosing (pair isFirst isSecond)
      · exact fun _ behind _ isFirst isSecond => noClosing (pair isFirst isSecond)

theorem closes_of_after_comment {levels : Nat} {body rest : List Char}
    (found : afterComment levels body = some rest) :
    ∃ text, body = text ++ rest ∧ Closes (levels + 1) text := by
  fun_induction afterComment levels body with
  | case1 levels => cases found
  | case2 levels body induction =>
      obtain ⟨text, rfl, closes⟩ := induction found
      exact ⟨'/' :: '*' :: text, rfl, .opening closes⟩
  | case3 body =>
      cases found
      exact ⟨['*', '/'], rfl, .closing .done⟩
  | case4 levels body induction =>
      obtain ⟨text, rfl, closes⟩ := induction found
      exact ⟨'*' :: '/' :: text, rfl, .closing closes⟩
  | case5 levels first body noOpening noClosing noLast induction =>
      obtain ⟨text, rfl, closes⟩ := induction found
      refine ⟨first :: text, rfl, .inside ?_ ?_ closes⟩
      · rintro ⟨behind, same⟩
        obtain ⟨rfl, rfl⟩ := List.cons.inj same
        exact noOpening _ rfl rfl
      · rintro ⟨behind, same⟩
        obtain ⟨rfl, rfl⟩ := List.cons.inj same
        cases levels with
        | zero => exact noClosing _ rfl rfl rfl
        | succ levels => exact noLast _ _ rfl rfl rfl

end Comments

/-- A piece and a rest that make up the text, where the piece fits the rest. -/
structure IsCut (text : List Char) (cut : Piece × List Char) : Prop where
  append : cut.1.text ++ cut.2 = text
  fits : Fits cut.2 cut.1

theorem IsCut.of_lexeme {source text rest : List Char} {kind : Kind}
    (append : text ++ rest = source) (isLexeme : IsLexeme text kind) (noGap : ¬StartsGap source)
    (longest : LongestLexeme text.length source) :
    IsCut source (⟨.lexeme kind, text⟩, rest) := by
  subst append
  exact ⟨rfl, .lexeme isLexeme noGap longest⟩

section FirstCharacter

variable {first : Char} {rest : List Char} (noBlank : ¬isBlank first = true)

include noBlank

theorem no_gap_of_first (noSlash : first ≠ '/') : ¬StartsGap (first :: rest) := by
  rw [starts_gap_iff]
  simp [noBlank, Ne.symm noSlash]

theorem numeral_cut (digit : IsDigit first) {numeral after : List Char}
    (taken : takeNumber (first :: rest) = (numeral, after)) :
    IsCut (first :: rest) (⟨.lexeme (.number (numeralValue numeral)), numeral⟩, after) := by
  have append := take_number_append (first :: rest)
  have isNumeral : IsNumeral (takeNumber (first :: rest)).1 := take_number_numeral digit
  rw [taken] at append isNumeral
  apply IsCut.of_lexeme append (.numeral isNumeral)
  · apply no_gap_of_first noBlank
    rintro rfl
    exact absurd (is_digit_iff.mpr digit) (by decide)
  · intro lexeme kind isLexeme isFront
    obtain ⟨head, tail, rfl, begins⟩ := isLexeme.begins
    obtain ⟨rfl, -⟩ := List.cons_prefix_cons.mp isFront
    cases begins with
    | operator listed noDigit => exact absurd digit noDigit
    | numeral _ other =>
        have longest := take_number_longest other isFront
        rw [taken] at longest
        exact longest
    | word letter => exact absurd letter (digit_no_letter digit)
    | quoted quote => exact absurd (quote ▸ digit) digit_no_quote

omit noBlank in
/-- A word is the keyword that it spells, or else an identifier. -/
theorem word_lexeme {word : List Char} (isWord : IsWord word) :
    IsLexeme word (.ofWord (String.ofList word)) := by
  unfold Kind.ofWord
  cases found : keywords.lookup (String.ofList word) with
  | none =>
      refine .identifier isWord fun kind reserved => ?_
      have other := List.lookup_eq_none_iff.mp found _ reserved
      simp at other
  | some kind =>
      obtain ⟨before, after, same, -⟩ := List.lookup_eq_some_iff.mp found
      have reserved : (String.ofList word, kind) ∈ keywords := by simp [same]
      have lexeme := IsLexeme.keyword reserved
      rw [String.toList_ofList] at lexeme
      exact lexeme

omit noBlank in
theorem word_parts {text : List Char} (isWord : IsWord text) :
    ∀ character ∈ text, isWordPart character = true := by
  cases text with
  | nil => exact isWord.elim
  | cons first rest =>
      intro character member
      apply word_part_iff.mpr
      rcases List.mem_cons.mp member with rfl | behind
      · exact .inl isWord.1
      · exact isWord.2 character behind

theorem word_cut (letter : IsLetter first) :
    IsCut (first :: rest)
      (⟨.lexeme (.ofWord (String.ofList ((first :: rest).takeWhile isWordPart))),
        (first :: rest).takeWhile isWordPart⟩, (first :: rest).dropWhile isWordPart) := by
  have isWord : IsWord ((first :: rest).takeWhile isWordPart) := by
    rw [List.takeWhile_cons_of_pos (word_part_iff.mpr (.inl letter))]
    exact ⟨letter, fun character member => word_part_iff.mp (List.mem_takeWhile_imp member)⟩
  apply IsCut.of_lexeme List.takeWhile_append_dropWhile (word_lexeme isWord)
  · apply no_gap_of_first noBlank
    rintro rfl
    exact absurd (word_start_iff.mpr letter) (by decide)
  · intro lexeme kind isLexeme isFront
    obtain ⟨head, tail, rfl, begins⟩ := isLexeme.begins
    obtain ⟨rfl, -⟩ := List.cons_prefix_cons.mp isFront
    cases begins with
    | operator listed _ noLetter => exact absurd letter noLetter
    | numeral digit => exact absurd letter (digit_no_letter digit)
    | word _ other => exact length_le_take_while isFront (word_parts other)
    | quoted quote => exact absurd (quote ▸ letter) letter_no_quote

end FirstCharacter

section Strings

variable {rest : List Char}

theorem unquoted_content : '"' ∉ rest.takeWhile (· ≠ '"') := by
  intro member
  have other := List.mem_takeWhile_imp member
  simp at other

theorem string_cut {quote : Char} {after : List Char}
    (found : rest.dropWhile (· ≠ '"') = quote :: after) :
    IsCut ('"' :: rest) (⟨.lexeme (.string (String.ofList (rest.takeWhile (· ≠ '"')))),
      '"' :: rest.takeWhile (· ≠ '"') ++ [quote]⟩, after) := by
  have isQuote : quote = '"' := by
    have stops := List.head?_dropWhile_not (· ≠ '"') rest
    rw [found] at stops
    simpa using stops
  subst isQuote
  have whole : rest = rest.takeWhile (· ≠ '"') ++ '"' :: after := by
    rw [← found, List.takeWhile_append_dropWhile]
  refine IsCut.of_lexeme ?_ (.quoted unquoted_content) (no_gap_of_first (by decide) (by decide)) ?_
  · calc '"' :: rest.takeWhile (· ≠ '"') ++ ['"'] ++ after
        = '"' :: (rest.takeWhile (· ≠ '"') ++ '"' :: after) := by simp
      _ = '"' :: rest := by rw [← whole]
  · intro lexeme kind isLexeme isFront
    obtain ⟨head, tail, rfl, begins⟩ := isLexeme.begins
    obtain ⟨rfl, tailFront⟩ := List.cons_prefix_cons.mp isFront
    cases begins with
    | operator _ _ _ noQuote => exact absurd rfl noQuote
    | numeral digit => exact absurd digit digit_no_quote
    | word letter => exact absurd letter letter_no_quote
    | @quoted _ content unquoted same =>
        subst same
        have contentFront := (List.prefix_append content ['"']).trans tailFront
        have shorter : content.length ≤ (rest.takeWhile (· ≠ '"')).length :=
          length_le_take_while contentFront fun item member =>
            decide_eq_true fun same => unquoted (same ▸ member)
        simp only [List.cons_append, List.length_cons, List.length_append]
        omega

theorem open_string_cut (none : rest.dropWhile (· ≠ '"') = []) :
    IsCut ('"' :: rest) (⟨.openString, '"' :: rest⟩, []) := by
  refine ⟨List.append_nil _, .openString ?_ rfl⟩
  intro member
  simpa using List.dropWhile_eq_nil_iff.mp none '"' member

end Strings

section Slashes

variable {rest : List Char}

theorem line_comment_cut : IsCut ('/' :: '/' :: rest)
    (⟨.lineComment, ('/' :: '/' :: rest).takeWhile (· ≠ '\n')⟩,
      ('/' :: '/' :: rest).dropWhile (· ≠ '\n')) := by
  refine ⟨List.takeWhile_append_dropWhile, ?_⟩
  rw [List.takeWhile_cons_of_pos (by decide), List.takeWhile_cons_of_pos (by decide)]
  apply Fits.lineComment
  · intro member
    have other := List.mem_takeWhile_imp member
    simp at other
  · intro next isNext
    have stops := List.head?_dropWhile_not (· ≠ '\n') ('/' :: '/' :: rest)
    rw [Option.mem_def.mp isNext] at stops
    simpa using stops

theorem text_before_append (text rest : List Char) : textBefore (text ++ rest) rest = text := by
  rw [textBefore, List.length_append, Nat.add_sub_cancel, List.take_left]

theorem block_comment_cut {after : List Char} (found : afterComment 0 rest = some after) :
    IsCut ('/' :: '*' :: rest) (⟨.blockComment, textBefore ('/' :: '*' :: rest) after⟩, after) := by
  obtain ⟨text, rfl, closes⟩ := closes_of_after_comment found
  rw [show textBefore ('/' :: '*' :: (text ++ after)) after = '/' :: '*' :: text from
    text_before_append ('/' :: '*' :: text) after]
  exact ⟨rfl, .blockComment closes⟩

theorem open_comment_cut (none : afterComment 0 rest = none) :
    IsCut ('/' :: '*' :: rest) (⟨.openComment, '/' :: '*' :: rest⟩, []) := by
  refine ⟨List.append_nil _, .openComment ?_ rfl⟩
  rintro inner ⟨after, rfl⟩ closes
  rw [after_comment_of_closes closes] at none
  cases none

end Slashes

/-- Only operators begin with a character that begins nothing else. -/
theorem operator_of_begins {first : Char} {tail : List Char} {kind : Kind}
    (noDigit : ¬first.isDigit = true) (noLetter : ¬isWordStart first = true)
    (noQuote : ¬first = '"') (begins : BeginsAs first tail kind) :
    (first :: tail, kind) ∈ operators := by
  cases begins with
  | operator listed => exact listed
  | numeral digit => exact absurd (is_digit_iff.mpr digit) noDigit
  | word letter => exact absurd (word_start_iff.mpr letter) noLetter
  | quoted quote => exact absurd quote noQuote

theorem cut_is_cut (first : Char) (rest : List Char) :
    IsCut (first :: rest) (Piece.cut first rest) := by
  fun_cases Piece.cut first rest with
  | case1 blank => exact ⟨rfl, .blank (is_blank_iff.mp blank)⟩
  | case2 source noBlank digit numeral after taken =>
      exact numeral_cut noBlank (is_digit_iff.mp digit) taken
  | case3 source noBlank noDigit letter word => exact word_cut noBlank (word_start_iff.mp letter)
  | case4 source noBlank noDigit noLetter quote none =>
      subst quote
      exact open_string_cut none
  | case5 noBlank noDigit noLetter isQuote content quote after found =>
      subst isQuote
      exact string_cut found
  | case6 source noBlank noDigit noLetter noQuote slashes =>
      obtain ⟨behind, same⟩ := List.isPrefixOf_iff_prefix.mp slashes
      change IsCut source (⟨.lineComment, source.takeWhile (· ≠ '\n')⟩, source.dropWhile (· ≠ '\n'))
      rw [← same]
      exact line_comment_cut
  | case7 source noBlank noDigit noLetter noQuote noSlashes opening none =>
      obtain ⟨behind, same⟩ := List.isPrefixOf_iff_prefix.mp opening
      change IsCut source (⟨.openComment, source⟩, [])
      rw [← same] at none ⊢
      exact open_comment_cut none
  | case8 source noBlank noDigit noLetter noQuote noSlashes opening after found =>
      obtain ⟨behind, same⟩ := List.isPrefixOf_iff_prefix.mp opening
      change IsCut source (⟨.blockComment, textBefore source after⟩, after)
      rw [← same] at found ⊢
      exact block_comment_cut found
  | case9 source noBlank noDigit noLetter noQuote noSlashes noOpening text kind found =>
      obtain ⟨listed, ⟨behind, same⟩, longest⟩ := first_operator_longest found
      have noGap : ¬StartsGap source := no_gap_of_none noBlank noSlashes noOpening
      apply IsCut.of_lexeme ?_ (.operator listed) noGap
      · intro lexeme otherKind isLexeme isFront
        obtain ⟨head, tail, rfl, begins⟩ := isLexeme.begins
        obtain ⟨rfl, -⟩ := List.cons_prefix_cons.mp isFront
        exact longest _ _ (operator_of_begins noDigit noLetter noQuote begins) isFront
      · rw [← same, List.drop_left]
  | case10 source noBlank noDigit noLetter noQuote noSlashes noOpening none =>
      refine ⟨rfl, .unexpected (no_gap_of_none noBlank noSlashes noOpening) noQuote ?_⟩
      intro lexeme kind isLexeme isFront
      obtain ⟨head, tail, rfl, begins⟩ := isLexeme.begins
      obtain ⟨rfl, -⟩ := List.cons_prefix_cons.mp isFront
      have listed := operator_of_begins noDigit noLetter noQuote begins
      have refused := List.find?_eq_none.mp none _ listed
      exact absurd (List.isPrefixOf_iff_prefix.mpr isFront) refused

end Lox
