import Lox.Proofs.Tokens.Lookahead

/-!
Names replaced in a text. If some of the pieces of a text are names, and each is replaced
by one and the same other name, then the new text is cut into just the new pieces, so
that nothing but these tokens changes in its scan.
-/

namespace Lox

theorem cut_shorter (first : Char) (rest : List Char) :
    (Piece.cut first rest).2.length ≤ rest.length := by
  obtain ⟨append, fits⟩ := cut_is_cut first rest
  have taken := List.length_pos_iff.mpr fits.nonempty
  have lengths := congrArg List.length append
  rw [List.length_append, List.length_cons] at lengths
  omega

/-- The bound on the number of pieces does not matter once there is one for each
character. -/
theorem pieces_within_enough {bound : Nat} {source : List Char} (enough : source.length ≤ bound)
    {other : Nat} (also : source.length ≤ other) :
    piecesWithin bound source = piecesWithin other source := by
  induction bound generalizing source other with
  | zero =>
      obtain rfl := List.length_eq_zero_iff.mp (Nat.le_zero.mp enough)
      cases other <;> rfl
  | succ bound induction =>
      cases source with
      | nil => cases other <;> rfl
      | cons first rest =>
          cases other with
          | zero => exact absurd also (Nat.not_succ_le_zero _)
          | succ other =>
              have shorter := cut_shorter first rest
              exact congrArg _ (induction (shorter.trans (Nat.le_of_succ_le_succ enough))
                (shorter.trans (Nat.le_of_succ_le_succ also)))

theorem pieces_cons (first : Char) (rest : List Char) : piecesOf (first :: rest) =
    (Piece.cut first rest).1 :: piecesOf (Piece.cut first rest).2 :=
  congrArg _ (pieces_within_enough (cut_shorter first rest) (Nat.le_refl _))

/-- A name stops before a character that could not be part of it. -/
theorem name_cut {first : Char} {rest : List Char} :
    (Piece.cut first rest).1.sort = .lexeme .identifier → isWordStart first = true ∧
      ∀ next ∈ (Piece.cut first rest).2.head?, isWordPart next = false := by
  fun_cases Piece.cut first rest with
  | case3 source noBlank noDigit letter word => exact fun _ => ⟨letter, drop_while_stops _ source⟩
  | case9 source noBlank noDigit noLetter noQuote noSlashes noOpening text kind found =>
      intro same
      have listed := (first_operator_longest found).1
      have noName : ∀ entry ∈ operators, entry.2 ≠ .identifier := by decide
      exact absurd (PieceSort.lexeme.inj same) (noName _ listed)
  | _ =>
      intro same
      cases same

/-- The second piece is the first one, or else both are names and the second is this one. -/
inductive Piece.Renamed (name : List Char) : Piece → Piece → Prop where
  | kept (piece : Piece) : Renamed name piece piece
  | replaced (text : List Char) :
      Renamed name ⟨.lexeme .identifier, text⟩ ⟨.lexeme .identifier, name⟩

section Names

variable {name : List Char} (isName : IsWord name)
  (free : Kind.ofWord (String.ofList name) = .identifier)

include isName free

/-- A text in which names are replaced falls into the pieces that it is made of. -/
theorem pieces_of_renamed {source : List Char} {pieces : List Piece}
    (sound : ∀ piece ∈ piecesOf source, piece.isSound = true)
    (renames : List.Forall₂ (Piece.Renamed name) (piecesOf source) pieces) :
    piecesOf (pieces.flatMap Piece.text) = pieces ∧
      LooksAlike source (pieces.flatMap Piece.text) := by
  induction length : source.length using Nat.strong_induction_on generalizing source pieces with
  | _ size induction =>
    subst length
    cases source with
    | nil =>
        cases renames
        exact ⟨rfl, .inl rfl, fun _ => .inl rfl⟩
    | cons first rest =>
        rw [pieces_cons] at sound renames
        obtain ⟨isSound, others⟩ := List.forall_mem_cons.mp sound
        have whole := (cut_is_cut first rest).append
        have stops := @name_cut first rest
        have again (after' : List Char) := @cut_before_alike first rest after'
        have shorter := Nat.lt_succ_of_le (cut_shorter first rest)
        generalize Piece.cut first rest = cut
          at sound renames isSound others whole stops again shorter
        obtain ⟨piece, after⟩ := cut
        cases renames with
        | @cons _ _ _ more renamed others' =>
            obtain ⟨same, alike⟩ := induction after.length shorter others others' rfl
            cases renamed with
            | kept =>
                obtain ⟨tail, begins, cutAgain⟩ := again _ alike isSound
                dsimp only at begins whole cutAgain
                rw [begins] at whole
                obtain ⟨-, rfl⟩ := List.cons.inj whole
                rw [List.flatMap_cons, begins, List.cons_append, pieces_cons, cutAgain, same]
                refine ⟨rfl, .inl rfl, fun _ => ?_⟩
                cases tail with
                | nil => exact alike.start
                | cons => exact .inl rfl
            | replaced text =>
                obtain ⟨letter, ends⟩ := stops rfl
                obtain ⟨head, tail, rfl, cutAgain⟩ :=
                  word_before isName (alike.start.avoids word_uniform ends)
                rw [free] at cutAgain
                rw [List.flatMap_cons, List.cons_append, pieces_cons, cutAgain, same]
                have isLetter := word_start_iff.mp letter
                exact ⟨rfl, .inr ⟨⟨first, rfl, isLetter⟩, head, rfl, isName.1⟩,
                  fun noLetter => absurd isLetter (noLetter first rfl)⟩

end Names

/-- A scan without lexical errors has no piece that is one. -/
theorem sound_of_clean {line : Nat} {pieces : List Piece}
    (clean : lexicalErrorsOf (itemsFrom line pieces) = []) :
    ∀ piece ∈ pieces, piece.isSound = true := by
  induction pieces generalizing line with
  | nil => nofun
  | cons piece rest induction =>
      obtain ⟨sort, text⟩ := piece
      rw [List.forall_mem_cons]
      cases sort with
      | blank | lineComment | blockComment | lexeme => exact ⟨rfl, induction clean⟩
      | unexpected | openString | openComment => cases clean

theorem word_unbroken {word : List Char} (isWord : IsWord word) : word.count '\n' = 0 := by
  refine List.count_eq_zero.mpr fun member => ?_
  have isPart := word_parts isWord _ member
  revert isPart
  decide

theorem identifier_unbroken {rest text : List Char}
    (fits : Fits rest ⟨.lexeme .identifier, text⟩) : text.count '\n' = 0 := by
  cases fits with
  | lexeme isLexeme => exact word_unbroken (identifier_shape isLexeme).1

theorem tokens_lexeme (line : Nat) (kind : Kind) (text : List Char) (rest : List Piece) :
    tokensOf (itemsFrom line (⟨.lexeme kind, text⟩ :: rest)) =
      ⟨kind, String.ofList text, line + (Piece.mk (.lexeme kind) text).lineEnds⟩ ::
        tokensOf (itemsFrom (line + (Piece.mk (.lexeme kind) text).lineEnds) rest) := rfl

/-- Names in some places of a scan can be replaced, and nothing else changes. -/
theorem names_replaced {name : List Char} (isName : IsWord name) {places : List Nat}
    {pieces : List Piece} {line place : Nat} (sound : ∀ piece ∈ pieces, piece.isSound = true)
    (fit : ∀ piece ∈ pieces, ∃ rest, Fits rest piece)
    (named : ∀ index token, (tokensOf (itemsFrom line pieces))[index]? = some token →
      index + place ∈ places → token.kind = .identifier) :
    ∃ pieces', List.Forall₂ (Piece.Renamed name) pieces pieces' ∧
      lexicalErrorsOf (itemsFrom line pieces') = [] ∧
      tokensOf (itemsFrom line pieces') = (tokensOf (itemsFrom line pieces)).mapIdx
        fun index token => if index + place ∈ places then
          { token with lexeme := String.ofList name } else token := by
  induction pieces generalizing line place with
  | nil =>
      have unmarked : 0 + place ∉ places := fun marked => nomatch named 0 _ rfl marked
      refine ⟨[], .nil, rfl, ?_⟩
      exact (congrArg (fun token => [token]) (if_neg unmarked)).symm
  | cons piece rest induction =>
      obtain ⟨isSound, others⟩ := List.forall_mem_cons.mp sound
      obtain ⟨⟨after, isFit⟩, othersFit⟩ := List.forall_mem_cons.mp fit
      have behind := fun place => @induction (line + piece.lineEnds) place others othersFit
      obtain ⟨sort, text⟩ := piece
      cases sort with
      | unexpected | openString | openComment => cases isSound
      | blank | lineComment | blockComment =>
          obtain ⟨more, renames, clean, same⟩ := behind place named
          exact ⟨_ :: more, .cons (.kept _) renames, clean, same⟩
      | lexeme kind =>
          have shifted (index : Nat) : index + (place + 1) = index + 1 + place := by omega
          obtain ⟨more, renames, clean, same⟩ := behind (place + 1)
            fun index token found marked => named (index + 1) token found (shifted index ▸ marked)
          simp only [shifted] at same
          by_cases marked : 0 + place ∈ places
          · obtain rfl : kind = .identifier := named 0 _ rfl marked
            have unbroken : (Piece.mk (.lexeme .identifier) text).lineEnds =
                (Piece.mk (.lexeme .identifier) name).lineEnds :=
              (identifier_unbroken isFit).trans (word_unbroken isName).symm
            rw [unbroken] at clean same
            refine ⟨_ :: more, .cons (.replaced text) renames, clean, ?_⟩
            rw [tokens_lexeme, tokens_lexeme, List.mapIdx_cons, if_pos marked, same, unbroken]
          · refine ⟨_ :: more, .cons (.kept _) renames, clean, ?_⟩
            rw [tokens_lexeme, tokens_lexeme, List.mapIdx_cons, if_neg marked, same]

/-- Every text without lexical errors can be given another name in these places. -/
theorem text_with_names {source name : String} (clean : lexicalErrorsOf (scan source) = [])
    (isName : IsWord name.toList) (free : ∀ kind, (name, kind) ∉ keywords) {places : List Nat}
    {place : Nat} (named : ∀ index token, (tokensOf (scan source))[index]? = some token →
      index + place ∈ places → token.kind = .identifier) :
    ∃ source', lexicalErrorsOf (scan source') = [] ∧
      tokensOf (scan source') = (tokensOf (scan source)).mapIdx fun index token =>
        if index + place ∈ places then { token with lexeme := name } else token := by
  have sound := sound_of_clean clean
  have fit : ∀ piece ∈ piecesOf source.toList, ∃ rest, Fits rest piece :=
    fun piece member => (pieces_partition source.toList).fits_of_mem member
  have noKeyword : Kind.ofWord (String.ofList name.toList) = .identifier := by
    have absent : keywords.lookup name = none := by
      refine List.lookup_eq_none_iff.mpr fun entry listed => ?_
      obtain ⟨word, kind⟩ := entry
      refine bne_iff_ne.mpr ?_
      rintro rfl
      exact free kind listed
    rw [String.ofList_toList, Kind.ofWord, absent]
    rfl
  obtain ⟨pieces, renames, cleanAgain, tokens⟩ := names_replaced isName sound fit named
  obtain ⟨cuts, -⟩ := pieces_of_renamed isName noKeyword sound renames
  have scanned : scan (String.ofList (pieces.flatMap Piece.text)) = itemsFrom 1 pieces := by
    rw [scan, String.toList_ofList, cuts]
  rw [String.ofList_toList] at tokens
  exact ⟨_, scanned ▸ cleanAgain, scanned ▸ tokens⟩

end Lox
