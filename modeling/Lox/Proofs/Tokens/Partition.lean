import Lox.Proofs.Tokens.Cutting
import Mathlib.Data.List.Forall2

/-!
The pieces of a text make it up without gap or overlap, and the stream of items
is what these pieces become, one after the other.
-/

namespace Lox

theorem Fits.nonempty {rest : List Char} {piece : Piece} (fits : Fits rest piece) :
    piece.text ≠ [] := by
  cases fits with
  | lexeme isLexeme =>
      obtain ⟨first, behind, rfl, -⟩ := isLexeme.begins
      exact List.cons_ne_nil _ _
  | _ => exact List.cons_ne_nil _ _

/-- The bound on the number of pieces is never what ends them: each takes a
character at least. -/
theorem pieces_within_partition (bound : Nat) (source : List Char)
    (enough : source.length ≤ bound) : Partition source (piecesWithin bound source) := by
  induction bound generalizing source with
  | zero =>
      obtain rfl := List.length_eq_zero_iff.mp (Nat.le_zero.mp enough)
      exact .nil
  | succ bound induction =>
      cases source with
      | nil => exact .nil
      | cons first rest =>
          obtain ⟨append, fits⟩ := cut_is_cut first rest
          rw [piecesWithin]
          generalize Piece.cut first rest = cut at append fits
          have taken := List.length_pos_iff.mpr fits.nonempty
          have lengths : cut.1.text.length + cut.2.length = rest.length + 1 := by
            rw [← List.length_append, append, List.length_cons]
          have shorter : cut.2.length ≤ bound := by
            rw [List.length_cons] at enough
            omega
          rw [← append]
          exact .cons fits (induction cut.2 shorter)

theorem pieces_partition (source : List Char) : Partition source (piecesOf source) :=
  pieces_within_partition source.length source (Nat.le_refl _)

theorem silent_iff {piece : Piece} (line : Nat) :
    piece.isSilent = true ↔ piece.item? line = none := by
  obtain ⟨sort, text⟩ := piece
  cases sort <;> simp [Piece.isSilent, Piece.item?]

theorem becomes_item {piece : Piece} {line : Nat} {item : Item}
    (isItem : piece.item? line = some item) : piece.Becomes item := by
  obtain ⟨sort, text⟩ := piece
  cases sort <;> cases isItem <;> constructor

/-- The items are those of the pieces that say something, and the end of the
input is told once, behind all of them. -/
theorem items_from_pieces (line : Nat) (pieces : List Piece) :
    ∃ items last, itemsFrom line pieces = items ++ [.token ⟨.endOfInput, "", last⟩] ∧
      List.Forall₂ Piece.Becomes (pieces.filter (!·.isSilent)) items := by
  induction pieces generalizing line with
  | nil => exact ⟨[], line, rfl, .nil⟩
  | cons piece pieces induction =>
      obtain ⟨items, last, same, become⟩ := induction (line + piece.lineEnds)
      cases isItem : piece.item? (line + piece.lineEnds) with
      | none =>
          refine ⟨items, last, by simp only [itemsFrom, isItem, same], ?_⟩
          rw [List.filter_cons_of_neg (by simp [(silent_iff _).mpr isItem])]
          exact become
      | some item =>
          refine ⟨item :: items, last, by simp only [itemsFrom, isItem, same, List.cons_append], ?_⟩
          have told : piece.isSilent = false := by
            rw [← Bool.not_eq_true, silent_iff, isItem]
            exact Option.some_ne_none item
          rw [List.filter_cons_of_pos (by simp [told])]
          exact .cons (becomes_item isItem) become

/-- All that a stream will still hand out. -/
def ItemStream.remaining (stream : ItemStream) : List Item :=
  if stream.ended then [] else itemsFrom stream.line stream.pieces

theorem first_item_remaining (line : Nat) (pieces : List Piece) :
    itemsFrom line pieces = (firstItem line pieces).1 :: (firstItem line pieces).2.remaining := by
  induction pieces generalizing line with
  | nil => rfl
  | cons piece pieces induction =>
      cases isItem : piece.item? (line + piece.lineEnds) with
      | none => simpa only [itemsFrom, firstItem, isItem] using induction _
      | some item => simp [itemsFrom, firstItem, isItem, ItemStream.remaining]

/-- A stream that is asked again and again hands out the scan of its source, and
nothing behind it. -/
theorem stream_hands_out_scan :
    (∀ source, (ItemStream.ofSource source).remaining = scan source) ∧
      ∀ stream : ItemStream, match stream.next? with
        | none => stream.remaining = []
        | some (item, after) => stream.remaining = item :: after.remaining := by
  refine ⟨fun source => rfl, fun stream => ?_⟩
  obtain ⟨pieces, line, ended⟩ := stream
  cases ended with
  | true => rfl
  | false => exact first_item_remaining line pieces

section Keywords

variable {word : String} {reserved : Kind} (listed : (word, reserved) ∈ keywords)

include listed

theorem keyword_no_other {text : List Char} {kind : Kind} (isLexeme : IsLexeme text kind)
    (same : kind = reserved) : String.ofList text = word := by
  subst same
  have noOperator : ∀ entry ∈ keywords, entry.2 ∉ operators.map Prod.snd := by decide
  have noLiteral : ∀ entry ∈ keywords, entry.2.name ∉ ["NUMBER", "STRING", "IDENTIFIER"] := by
    decide
  have oneWord : ∀ entry ∈ keywords, ∀ other ∈ keywords, entry.2 = other.2 →
      entry.1 = other.1 := by decide
  cases isLexeme with
  | operator isOperator => exact absurd (List.mem_map_of_mem isOperator) (noOperator _ listed)
  | numeral => exact absurd (by simp [Kind.name]) (noLiteral _ listed)
  | keyword other =>
      rw [String.ofList_toList]
      exact oneWord _ other _ listed rfl
  | identifier => exact absurd (by simp [Kind.name]) (noLiteral _ listed)
  | quoted => exact absurd (by simp [Kind.name]) (noLiteral _ listed)

/-- Only words begin with a letter, and a reserved word is no identifier. -/
theorem keyword_of_text {text : List Char} {kind : Kind} (isLexeme : IsLexeme text kind)
    (same : String.ofList text = word) : kind = reserved := by
  subst same
  have isWord := keyword_is_word listed
  rw [String.toList_ofList] at isWord
  have letter {first : Char} {rest : List Char} (begins : text = first :: rest) :
      IsLetter first := by
    rw [begins] at isWord
    exact isWord.1
  cases isLexeme with
  | operator isOperator =>
      obtain ⟨first, rest, begins, -, noLetter, -⟩ := operator_begins isOperator
      exact absurd (letter begins) noLetter
  | numeral isNumeral =>
      obtain ⟨first, rest, begins, digit⟩ := isNumeral.begins
      exact absurd (letter begins) (digit_no_letter digit)
  | @keyword other kind isOther =>
      rw [String.ofList_toList] at listed
      have oneKind : ∀ entry ∈ keywords, ∀ other ∈ keywords, entry.1 = other.1 →
          entry.2 = other.2 := by decide
      exact oneKind _ isOther _ listed rfl
  | identifier _ free => exact absurd listed (free reserved)
  | quoted => exact absurd (letter rfl) letter_no_quote

end Keywords

/-- A piece of a partition fits what follows it. -/
theorem Partition.fits_of_mem {text : List Char} {pieces : List Piece} {piece : Piece}
    (partition : Partition text pieces) (member : piece ∈ pieces) : ∃ rest, Fits rest piece := by
  induction partition with
  | nil => cases member
  | cons fits _ induction =>
      rcases List.mem_cons.mp member with rfl | behind
      · exact ⟨_, fits⟩
      · exact induction behind

theorem piece_of_item {pieces : List Piece} {items : List Item} {item : Item}
    (become : List.Forall₂ Piece.Becomes pieces items) (member : item ∈ items) :
    ∃ piece ∈ pieces, piece.Becomes item := by
  induction become with
  | nil => cases member
  | cons first _ induction =>
      rcases List.mem_cons.mp member with rfl | behind
      · exact ⟨_, List.mem_cons_self, first⟩
      · obtain ⟨piece, isPiece, becomes⟩ := induction behind
        exact ⟨piece, List.mem_cons_of_mem _ isPiece, becomes⟩

/-- All tokens of a scan but the last one are lexemes of their kind. -/
theorem token_lexeme {source : String} {token : Token} (member : token ∈ tokensOf (scan source)) :
    token.kind = .endOfInput ∧ token.lexeme = "" ∨ IsLexeme token.lexeme.toList token.kind := by
  obtain ⟨items, last, same, become⟩ := items_from_pieces 1 (piecesOf source.toList)
  obtain ⟨item, isItem, told⟩ := List.mem_filterMap.mp member
  rw [scan, same, List.mem_append, List.mem_singleton] at isItem
  rcases isItem with isItem | rfl
  · obtain ⟨piece, isPiece, becomes⟩ := piece_of_item become isItem
    obtain ⟨rest, fits⟩ := (pieces_partition source.toList).fits_of_mem
      (List.mem_filter.mp isPiece).1
    cases becomes with
    | token line =>
        cases told
        cases fits with
        | lexeme isLexeme =>
            refine .inr ?_
            rwa [String.toList_ofList]
    | unexpected | openString | openComment => cases told
  · cases told
    exact .inl ⟨rfl, rfl⟩

theorem identifier_shape {text : List Char} (isName : IsLexeme text .identifier) :
    IsWord text ∧ ∀ kind, (String.ofList text, kind) ∉ keywords := by
  have noOperator : ∀ entry ∈ operators, entry.2 ≠ .identifier := by decide
  have noKeyword : ∀ entry ∈ keywords, entry.2 ≠ .identifier := by decide
  cases isName with
  | operator listed => exact absurd rfl (noOperator _ listed)
  | keyword reserved => exact absurd rfl (noKeyword _ reserved)
  | identifier isWord free => exact ⟨isWord, free⟩

/-- What spells an identifier is one. -/
theorem identifier_only {text : List Char} {kind : Kind} (isName : IsLexeme text .identifier)
    (isLexeme : IsLexeme text kind) : kind = .identifier := by
  obtain ⟨isWord, free⟩ := identifier_shape isName
  have letter {first : Char} {rest : List Char} (begins : text = first :: rest) :
      IsLetter first := by
    rw [begins] at isWord
    exact isWord.1
  cases isLexeme with
  | operator listed =>
      obtain ⟨first, rest, begins, -, noLetter, -⟩ := operator_begins listed
      exact absurd (letter begins) noLetter
  | numeral isNumeral =>
      obtain ⟨first, rest, begins, digit⟩ := isNumeral.begins
      exact absurd (letter begins) (digit_no_letter digit)
  | keyword reserved =>
      rw [String.ofList_toList] at free
      exact absurd reserved (free _)
  | identifier => rfl
  | quoted => exact absurd (letter rfl) letter_no_quote

/-- No text is the token for the end of the input. -/
theorem lexeme_inner {text : List Char} {kind : Kind} (isLexeme : IsLexeme text kind) :
    kind ≠ .endOfInput := by
  have noOperator : ∀ entry ∈ operators, entry.2 ≠ .endOfInput := by decide
  have noKeyword : ∀ entry ∈ keywords, entry.2 ≠ .endOfInput := by decide
  cases isLexeme with
  | operator listed => exact noOperator _ listed
  | keyword reserved => exact noKeyword _ reserved
  | numeral | identifier | quoted => exact Kind.noConfusion

/-- Every source text is cut, without gap or overlap, into tokens that are the
longest that start where they do, blanks, comments, and stretches that are one
lexical error each. The tokens and errors of the scan are those pieces, in
order, and a token has the kind of a keyword just when it spells that keyword. -/
theorem scan_partitions_source (source : String) :
    ∃ pieces, Partition source.toList pieces ∧
      pieces.flatMap Piece.text = source.toList ∧
      (∃ items last, scan source = items ++ [.token ⟨.endOfInput, "", last⟩] ∧
        List.Forall₂ Piece.Becomes (pieces.filter (!·.isSilent)) items) ∧
      ∀ kind text, ⟨.lexeme kind, text⟩ ∈ pieces → ∀ word reserved, (word, reserved) ∈ keywords →
        (kind = reserved ↔ String.ofList text = word) := by
  have partition := pieces_partition source.toList
  refine ⟨piecesOf source.toList, partition, partition.text_eq, items_from_pieces 1 _, ?_⟩
  intro kind text member word reserved listed
  obtain ⟨rest, fits⟩ := partition.fits_of_mem member
  cases fits with
  | lexeme isLexeme =>
      exact ⟨keyword_no_other listed isLexeme, keyword_of_text listed isLexeme⟩

end Lox
