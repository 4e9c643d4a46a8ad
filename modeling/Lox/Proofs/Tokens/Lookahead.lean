import Lox.Proofs.Tokens.Partition

/-!
What a cut sees of the text behind it. The end of a piece shows in the two characters
after it at most, and no piece ends before a letter that would not end before any other
letter. So a piece is cut off in the same way when a word that follows is replaced by
another one.
-/

namespace Lox

/-- Two texts that both are at their end, or begin with the same character, or both with
a letter. -/
def SameStart (text other : List Char) : Prop :=
  text.head? = other.head? ∨
    (∃ letter ∈ text.head?, IsLetter letter) ∧ ∃ letter ∈ other.head?, IsLetter letter

/-- Texts that look the same to a cut in front of them. -/
structure LooksAlike (text other : List Char) : Prop where
  start : SameStart text other
  next : (∀ first ∈ text.head?, ¬IsLetter first) → SameStart text.tail other.tail

namespace SameStart

variable {text other : List Char} (same : SameStart text other)

include same

/-- A character that is no letter begins both texts or none. -/
theorem of_no_letter {first : Char} (isFirst : first ∈ other.head?) (noLetter : ¬IsLetter first) :
    first ∈ text.head? := by
  rcases same with same | ⟨-, letter, isLetter, letterly⟩
  · exact same ▸ isFirst
  · cases Option.mem_unique isFirst isLetter
    exact absurd letterly noLetter

/-- Characters that are told apart from letters begin both texts or none. -/
theorem avoids {taken : Char → Bool} (uniform : ∀ letter other, IsLetter letter → IsLetter other →
      taken letter = taken other) (absent : ∀ first ∈ text.head?, taken first = false) :
    ∀ first ∈ other.head?, taken first = false := by
  intro first isFirst
  rcases same with same | ⟨⟨letter, isLetter, letterly⟩, letter', isLetter', letterly'⟩
  · exact absent first (same ▸ isFirst)
  · cases Option.mem_unique isFirst isLetter'
    rw [uniform first letter letterly' letterly]
    exact absent letter isLetter

end SameStart

theorem take_while_before {taken : Char → Bool} {text rest : List Char}
    (all : ∀ item ∈ text, taken item = true) (stops : ∀ first ∈ rest.head?, taken first = false) :
    (text ++ rest).takeWhile taken = text ∧ (text ++ rest).dropWhile taken = rest := by
  have ends : rest.takeWhile taken = [] ∧ rest.dropWhile taken = rest := by
    cases rest with
    | nil => exact ⟨rfl, rfl⟩
    | cons first behind =>
        have no := stops first rfl
        exact ⟨List.takeWhile_cons_of_neg (by simp [no]), List.dropWhile_cons_of_neg (by simp [no])⟩
  rw [List.takeWhile_append_of_pos all, List.dropWhile_append_of_pos all, ends.1, ends.2,
    List.append_nil]
  exact ⟨rfl, rfl⟩

/-- What is looked for at the front of a text does not reach into one that begins otherwise. -/
theorem front_apart {front rest : List Char} (apart : ∀ first ∈ rest.head?, first ∉ front)
    (text : List Char) : front.isPrefixOf (text ++ rest) = front.isPrefixOf text := by
  induction front generalizing text with
  | nil => simp
  | cons first others induction =>
      cases text with
      | nil =>
          cases rest with
          | nil => rfl
          | cons next behind =>
              obtain ⟨other, -⟩ := List.ne_and_not_mem_of_not_mem_cons (apart next rfl)
              simp [List.isPrefixOf, Ne.symm other]
      | cons second text =>
          have inside := induction fun next isNext member =>
            apart next isNext (List.mem_cons_of_mem first member)
          simp only [List.cons_append, List.isPrefixOf, inside]

/-- The same of operators, if none of them has the character. -/
theorem operator_apart {rest : List Char}
    (apart : ∀ first ∈ rest.head?, ∀ entry ∈ operators, first ∉ entry.1) (text : List Char) :
    firstOperator (text ++ rest) = firstOperator text := by
  unfold firstOperator
  generalize operators = entries at apart
  induction entries with
  | nil => rfl
  | cons entry others induction =>
      have here := fun first isFirst => apart first isFirst entry List.mem_cons_self
      have inside := induction fun first isFirst other member =>
        apart first isFirst other (List.mem_cons_of_mem entry member)
      rw [List.find?_cons, List.find?_cons, front_apart here, inside]

theorem drop_while_stops (taken : Char → Bool) (text : List Char) :
    ∀ first ∈ (text.dropWhile taken).head?, taken first = false := by
  intro first isFirst
  have stops := List.head?_dropWhile_not taken text
  rw [Option.mem_def.mp isFirst] at stops
  simpa using stops

theorem digit_uniform (letter other : Char) (isLetter : IsLetter letter)
    (isOther : IsLetter other) : letter.isDigit = other.isDigit := by
  have no {character : Char} (isLetter : IsLetter character) : character.isDigit = false := by
    by_contra digit
    exact digit_no_letter (is_digit_iff.mp (by simpa using digit)) isLetter
  rw [no isLetter, no isOther]

theorem word_uniform (letter other : Char) (isLetter : IsLetter letter)
    (isOther : IsLetter other) : isWordPart letter = isWordPart other := by
  rw [word_part_iff.mpr (.inl isLetter), word_part_iff.mpr (.inl isOther)]

theorem break_uniform (letter other : Char) (isLetter : IsLetter letter)
    (isOther : IsLetter other) : decide (letter ≠ '\n') = decide (other ≠ '\n') := by
  have noBreak : ¬IsLetter '\n' := by rw [← word_start_iff]; decide
  have apart {character : Char} (isLetter : IsLetter character) :
      decide (character ≠ '\n') = true :=
    decide_eq_true fun same => noBreak (same ▸ isLetter)
  rw [apart isLetter, apart isOther]

/-- The piece is no lexical error. -/
def Piece.isSound (piece : Piece) : Bool :=
  match piece.sort with
  | .unexpected _ | .openString | .openComment => false
  | .blank | .lineComment | .blockComment | .lexeme _ => true

section Cuts

variable {first : Char} {rest after after' : List Char} {piece : Piece}

theorem take_number_before {source numeral : List Char}
    (taken : takeNumber source = (numeral, after)) (alike : LooksAlike after after') :
    takeNumber (numeral ++ after') = (numeral, after') := by
  have digits (text : List Char) : ∀ item ∈ text.takeWhile Char.isDigit, item.isDigit = true :=
    fun item member => List.mem_takeWhile_imp member
  rcases take_number_cases source with ⟨behind, -, isFraction, took⟩ | ⟨none, took⟩
  · obtain ⟨rfl, rfl⟩ := Prod.mk.inj (taken.symm.trans took)
    have stops := alike.start.avoids digit_uniform (drop_while_stops _ behind)
    have point : ∀ first ∈ ('.' :: (behind.takeWhile Char.isDigit ++ after')).head?,
        first.isDigit = false := by simp
    have whole := take_while_before (digits source) point
    have fraction := take_while_before (digits behind) stops
    obtain ⟨digit, more, begins⟩ := List.exists_cons_of_ne_nil isFraction.1
    have isDigit := is_digit_iff.mpr (isFraction.2 digit (begins ▸ List.mem_cons_self))
    rw [List.append_assoc, List.cons_append]
    unfold takeNumber
    rw [whole.1, whole.2]
    rw [begins, List.cons_append] at fraction ⊢
    simp only [isDigit, if_true, fraction.1, fraction.2]
  · obtain ⟨rfl, rfl⟩ := Prod.mk.inj (taken.symm.trans took)
    have stops := alike.start.avoids digit_uniform (drop_while_stops _ source)
    obtain ⟨before, behind⟩ := take_while_before (digits source) stops
    unfold takeNumber
    dsimp only
    rw [before, behind]
    split
    · next digit more =>
        split_ifs with isDigit
        · exfalso
          have noLetter : ¬IsLetter '.' := by rw [← word_start_iff]; decide
          have point := alike.start.of_no_letter rfl noLetter
          have digitNext := digit_no_letter (is_digit_iff.mp isDigit)
          obtain ⟨tail, begins⟩ := List.head?_eq_some_iff.mp point
          have second := alike.next (by rw [begins]; rintro first ⟨⟩; exact noLetter)
          rw [begins] at second
          obtain ⟨last, follows⟩ := List.head?_eq_some_iff.mp (second.of_no_letter rfl digitNext)
          exact none digit last (begins.trans (congrArg _ follows)) (is_digit_iff.mp isDigit)
        · rfl
    · rfl

/-- A pair of characters that begins with a piece, and is not made up by a letter behind
it, is there in both texts. -/
theorem pair_before {text : List Char} {left right : Char} (nonempty : text ≠ [])
    (noLetter : isWordStart right = false) (alike : LooksAlike after after')
    (isFront : [left, right] <+: text ++ after') : [left, right] <+: text ++ after := by
  obtain ⟨head, tail, rfl⟩ := List.exists_cons_of_ne_nil nonempty
  obtain ⟨rfl, behind⟩ := List.cons_prefix_cons.mp isFront
  refine List.cons_prefix_cons.mpr ⟨rfl, ?_⟩
  cases tail with
  | nil =>
      obtain ⟨more, rfl⟩ := behind
      have noStart : ¬IsLetter right := by simp [← word_start_iff, noLetter]
      obtain ⟨others, rfl⟩ := List.head?_eq_some_iff.mp (alike.start.of_no_letter rfl noStart)
      exact ⟨others, rfl⟩
  | cons second tail =>
      obtain ⟨rfl, -⟩ := List.cons_prefix_cons.mp behind
      exact ⟨tail ++ after, rfl⟩

theorem operator_before {text : List Char} {kind : Kind}
    (found : firstOperator (text ++ after) = some (text, kind)) (nonempty : text ≠ [])
    (alike : LooksAlike after after') : firstOperator (text ++ after') = some (text, kind) := by
  obtain ⟨-, before, behind, same, skipped⟩ := List.find?_eq_some_iff_append.mp found
  refine List.find?_eq_some_iff_append.mpr
    ⟨List.isPrefixOf_iff_prefix.mpr (List.prefix_append _ _), before, behind, same, ?_⟩
  intro entry isBefore
  have refused := skipped entry isBefore
  have short : ∀ entry ∈ operators, entry.1 ≠ [] ∧ entry.1.length ≤ 2 ∧
      entry.1.any isWordStart = false := by decide
  have listed : entry ∈ operators := by rw [same]; exact List.mem_append_left _ isBefore
  obtain ⟨some, atMostTwo, noLetters⟩ := short entry listed
  simp only [Bool.not_eq_true', ← Bool.not_eq_true, List.isPrefixOf_iff_prefix] at refused ⊢
  intro isFront
  refine refused ?_
  obtain ⟨characters, _⟩ := entry
  match characters with
  | [] => exact absurd rfl some
  | [_] =>
      obtain ⟨head, tail, rfl⟩ := List.exists_cons_of_ne_nil nonempty
      obtain ⟨rfl, -⟩ := List.cons_prefix_cons.mp isFront
      exact ⟨tail ++ after, rfl⟩
  | [_, right] =>
      have noLetter := List.any_eq_false.mp noLetters right (by simp)
      exact pair_before nonempty (Bool.eq_false_iff.mpr noLetter) alike isFront
  | _ :: _ :: _ :: _ => simp at atMostTwo

/-- Words are cut off before anything that does not go on with them. -/
theorem word_before {word : List Char} (isWord : IsWord word)
    (stops : ∀ first ∈ after.head?, isWordPart first = false) :
    ∃ first tail, word = first :: tail ∧ Piece.cut first (tail ++ after) =
      (⟨.lexeme (.ofWord (String.ofList word)), word⟩, after) := by
  obtain ⟨before, behind⟩ := take_while_before (word_parts isWord) stops
  obtain ⟨first, tail, rfl⟩ : ∃ first tail, word = first :: tail := by
    cases word with
    | nil => exact isWord.elim
    | cons first tail => exact ⟨first, tail, rfl⟩
  have letter := word_start_iff.mpr isWord.1
  have noBlank : ¬isBlank first = true := by
    intro blank
    have characters := is_blank_iff.mp blank
    simp only [List.mem_cons, List.not_mem_nil, or_false] at characters
    rcases characters with rfl | rfl | rfl | rfl <;> exact absurd letter (by decide)
  have noDigit : ¬first.isDigit = true := fun digit =>
    digit_no_letter (is_digit_iff.mp digit) isWord.1
  refine ⟨first, tail, rfl, ?_⟩
  rw [List.cons_append] at before behind
  rw [Piece.cut, if_neg noBlank, if_neg noDigit, if_pos letter]
  dsimp only
  rw [before, behind]

theorem string_before {content : List Char} (unquoted : '"' ∉ content) (rest : List Char) :
    Piece.cut '"' (content ++ '"' :: rest) =
      (⟨.lexeme (.string (String.ofList content)), '"' :: content ++ ['"']⟩, rest) := by
  have all : ∀ item ∈ content, decide (item ≠ '"') = true := fun item member =>
    decide_eq_true fun same => unquoted (same ▸ member)
  have stops : ∀ first ∈ ('"' :: rest).head?, decide (first ≠ '"') = false := by simp
  obtain ⟨before, behind⟩ := take_while_before all stops
  rw [Piece.cut, if_neg (by decide), if_neg (by decide), if_neg (by decide), if_pos rfl]
  dsimp only
  rw [before, behind]

theorem line_comment_before {body : List Char} (oneLine : '\n' ∉ body)
    (ends : ∀ next ∈ after.head?, next = '\n') :
    Piece.cut '/' ('/' :: body ++ after) = (⟨.lineComment, '/' :: '/' :: body⟩, after) := by
  have all : ∀ item ∈ '/' :: '/' :: body, decide (item ≠ '\n') = true := by
    simp only [List.forall_mem_cons]
    exact ⟨rfl, rfl, fun item member => decide_eq_true fun same => oneLine (same ▸ member)⟩
  have stops : ∀ first ∈ after.head?, decide (first ≠ '\n') = false :=
    fun first isFirst => by simp [ends first isFirst]
  obtain ⟨before, behind⟩ := take_while_before all stops
  have slashes : ['/', '/'].isPrefixOf ('/' :: ('/' :: body ++ after)) = true := by simp
  rw [Piece.cut, if_neg (by decide), if_neg (by decide), if_neg (by decide),
    if_neg (by decide), if_pos slashes]
  exact congrArg₂ (fun text rest => (Piece.mk .lineComment text, rest)) before behind

theorem block_comment_before {text : List Char} (closes : Closes 1 text) (rest : List Char) :
    Piece.cut '/' ('*' :: text ++ rest) = (⟨.blockComment, '/' :: '*' :: text⟩, rest) := by
  have found := after_comment_of_closes closes rest
  have before := text_before_append ('/' :: '*' :: text) rest
  have behind : ('/' :: ('*' :: text ++ rest)).drop 2 = text ++ rest := rfl
  have noSlashes : ¬['/', '/'].isPrefixOf ('/' :: ('*' :: text ++ rest)) = true := by simp
  have opening : ['/', '*'].isPrefixOf ('/' :: ('*' :: text ++ rest)) = true := by simp
  rw [Piece.cut, if_neg (by decide), if_neg (by decide), if_neg (by decide),
    if_neg (by decide), if_neg noSlashes, if_pos opening, behind, found]
  exact congrArg (fun text => (Piece.mk .blockComment text, rest)) before

/-- The piece is cut off before any text that looks like the one that it was cut off
before. -/
theorem cut_before_alike :
    LooksAlike (Piece.cut first rest).2 after' → (Piece.cut first rest).1.isSound = true →
      ∃ tail, (Piece.cut first rest).1.text = first :: tail ∧
        Piece.cut first (tail ++ after') = ((Piece.cut first rest).1, after') := by
  fun_cases Piece.cut first rest with
  | case1 blank =>
      intro alike sound
      refine ⟨[], rfl, ?_⟩
      rw [Piece.cut, if_pos blank]
      rfl
  | case2 source noBlank digit numeral after taken =>
      intro alike sound
      have before := take_number_before taken alike
      have whole := take_number_append source
      have isNumeral : IsNumeral (takeNumber source).1 :=
        take_number_numeral (is_digit_iff.mp digit)
      obtain ⟨head, tail, same, -⟩ := isNumeral.begins
      rw [taken] at whole same
      dsimp only at whole same
      subst same
      obtain ⟨rfl, -⟩ := List.cons.inj whole
      refine ⟨tail, rfl, ?_⟩
      rw [Piece.cut, if_neg noBlank, if_pos digit]
      rw [List.cons_append] at before
      rw [before]
  | case3 source noBlank noDigit letter word =>
      intro alike sound
      have stops := alike.start.avoids word_uniform (drop_while_stops _ source)
      have begins : word = first :: rest.takeWhile isWordPart :=
        List.takeWhile_cons_of_pos (word_part_iff.mpr (.inl (word_start_iff.mp letter)))
      have isWord : IsWord word := by
        rw [begins]
        exact ⟨word_start_iff.mp letter, fun character member =>
          word_part_iff.mp (List.mem_takeWhile_imp member)⟩
      obtain ⟨head, tail, same, again⟩ := word_before isWord stops
      obtain ⟨rfl, rfl⟩ := List.cons.inj (same.symm.trans begins)
      exact ⟨_, begins, again⟩
  | case4 source noBlank noDigit noLetter quote none =>
      intro _ sound
      cases sound
  | case5 noBlank noDigit noLetter isQuote content quote after found =>
      intro alike sound
      subst isQuote
      have stops := drop_while_stops (· ≠ '"') rest
      rw [found] at stops
      obtain rfl : quote = '"' := by simpa using stops quote rfl
      refine ⟨content ++ ['"'], rfl, ?_⟩
      rw [List.append_assoc, List.singleton_append]
      exact string_before unquoted_content after'
  | case6 source noBlank noDigit noLetter noQuote slashes =>
      intro alike sound
      obtain ⟨body, same⟩ := List.isPrefixOf_iff_prefix.mp slashes
      obtain ⟨rfl, rfl⟩ := List.cons.inj same
      have ends := alike.start.avoids break_uniform
        (drop_while_stops (· ≠ '\n') ('/' :: '/' :: body))
      have oneLine : '\n' ∉ body.takeWhile (· ≠ '\n') := by
        intro member
        have other := List.mem_takeWhile_imp member
        simp at other
      have text : source.takeWhile (· ≠ '\n') = '/' :: '/' :: body.takeWhile (· ≠ '\n') := by
        change ('/' :: '/' :: body).takeWhile (· ≠ '\n') = _
        rw [List.takeWhile_cons_of_pos (by decide), List.takeWhile_cons_of_pos (by decide)]
      refine ⟨'/' :: body.takeWhile (· ≠ '\n'), text, ?_⟩
      rw [line_comment_before oneLine fun next isNext => by simpa using ends next isNext]
      exact congrArg (fun text => (Piece.mk .lineComment text, after')) text.symm
  | case7 source noBlank noDigit noLetter noQuote noSlashes opening none =>
      intro _ sound
      cases sound
  | case8 source noBlank noDigit noLetter noQuote noSlashes opening after found =>
      intro alike sound
      obtain ⟨body, same⟩ := List.isPrefixOf_iff_prefix.mp opening
      obtain ⟨rfl, rfl⟩ := List.cons.inj same
      obtain ⟨text, isBody, closes⟩ := closes_of_after_comment found
      change body = text ++ after at isBody
      subst isBody
      have before : textBefore source after = '/' :: '*' :: text :=
        text_before_append ('/' :: '*' :: text) after
      refine ⟨'*' :: text, before, ?_⟩
      rw [block_comment_before closes]
      exact congrArg (fun text => (Piece.mk .blockComment text, after')) before.symm
  | case9 source noBlank noDigit noLetter noQuote noSlashes noOpening text kind found =>
      intro alike sound
      obtain ⟨listed, ⟨behind, same⟩, -⟩ := first_operator_longest found
      have isSource : text ++ source.drop text.length = source := by rw [← same, List.drop_left]
      obtain ⟨head, tail, rfl, -⟩ := operator_begins listed
      obtain ⟨rfl, -⟩ := List.cons.inj isSource
      have nonempty : head :: tail ≠ [] := List.cons_ne_nil _ _
      rw [← isSource] at found
      have again := operator_before found nonempty alike
      have pairless {right : Char} (noLetter : isWordStart right = false)
          (refused : ¬['/', right].isPrefixOf source = true) :
          ¬['/', right].isPrefixOf (head :: (tail ++ after')) = true := by
        rw [List.isPrefixOf_iff_prefix] at refused ⊢
        intro isFront
        exact refused (isSource ▸ pair_before nonempty noLetter alike isFront)
      refine ⟨tail, rfl, ?_⟩
      rw [Piece.cut, if_neg noBlank, if_neg noDigit, if_neg noLetter, if_neg noQuote,
        if_neg (pairless (by decide) noSlashes), if_neg (pairless (by decide) noOpening)]
      rw [List.cons_append] at again
      rw [again]
      exact congrArg (Prod.mk _) List.drop_left
  | case10 source noBlank noDigit noLetter noQuote noSlashes noOpening none =>
      intro _ sound
      cases sound

end Cuts

end Lox
