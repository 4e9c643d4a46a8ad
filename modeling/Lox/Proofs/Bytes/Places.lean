import Lox.Proofs.Bytes.Loops

/-!
Cursors that stand between two characters of a text. Such a cursor is told by the characters
that it has passed, its line by the line ends among them, and what lies between two such places
can be cut out of the text.
-/

namespace Lox.Cursor

section Tests

theorem digit_tells : Tells isDigitByte Char.isDigit := by
  have range := (Tells.compare '0' (by decide)).1.and
    (Tells.compare '9' (by decide)).2
  exact range

theorem letter_tells : Tells isLetterByte isWordStart := by
  have lower := (Tells.compare 'a' (by decide)).1.and
    (Tells.compare 'z' (by decide)).2
  have upper := (Tells.compare 'A' (by decide)).1.and
    (Tells.compare 'Z' (by decide)).2
  have whole := (lower.or upper).or (Tells.equal '_' (by decide))
  intro character byte member
  refine (whole character byte member).trans ?_
  rw [Bool.eq_iff_iff, word_start_iff, IsLetter, or_left_comm, ← or_assoc]
  simp only [Bool.or_eq_true, Bool.and_eq_true, decide_eq_true_eq]

theorem word_tells : Tells isWordByte isWordPart := by
  have whole := letter_tells.or digit_tells
  intro character byte member
  refine (whole character byte member).trans ?_
  rw [Bool.eq_iff_iff, word_part_iff, Bool.or_eq_true, word_start_iff, is_digit_iff]

end Tests

section Places

variable {source : String} {before passed front middle rest : List Char}

/-- The cursor behind some characters of a text. The piece that it reads begins behind some of
them, too. -/
def behind (source : String) (before passed : List Char) : Cursor :=
  ⟨source, (encoded before).length, (encoded passed).length, 1 + passed.count '\n'⟩

theorem behind_past (taken : List Char) : (behind source before passed).past (encoded taken) =
    behind source before (passed ++ taken) := by
  rw [past, encoded_count (by decide)]
  simp only [behind, encoded_append, List.length_append, List.count_append, Nat.add_assoc]

theorem bytes_behind (source : String) (before passed : List Char) :
    (behind source before passed).bytes = encoded source.toList := (encoded_source source).symm

theorem size_behind (source : String) (before passed : List Char) :
    (behind source before passed).size = (encoded source.toList).length :=
  (encoded_length_source source).symm

theorem left_behind (whole : source.toList = passed ++ rest) :
    (behind source before passed).left = encoded rest := by
  rw [left, bytes_behind, whole, encoded_append]
  exact List.drop_left

theorem inside_behind (whole : source.toList = passed ++ rest) :
    (behind source before passed).position ≤ (behind source before passed).size := by
  rw [size_behind, whole, encoded_append, List.length_append]
  exact Nat.le_add_right _ _

section Small

variable {first : Char} (small : IsSmall first)

include small

theorem left_small (whole : source.toList = passed ++ first :: rest) :
    (behind source before passed).left = first.toUInt8 :: encoded rest := by
  rw [left_behind whole, encoded_cons, encoded_small small, List.singleton_append]

theorem past_small : (behind source before passed).past [first.toUInt8] =
    behind source before (passed ++ [first]) := by
  rw [← encoded_small small]
  exact (congrArg _ (List.append_nil _).symm).trans (behind_past [first])

end Small

/-- A stretch between two places that are behind some characters each. -/
theorem stretch_run (cursor : Cursor) (same : cursor.source = source)
    (whole : source.toList = front ++ middle ++ rest) :
    stretch (encoded front).length (encoded (front ++ middle)).length cursor =
      .ok (String.ofList middle) cursor := by
  subst same
  have first := place_between (whole.trans (List.append_assoc _ _ _))
  have last := place_between whole
  have ordered : (encoded front).length ≤ (encoded (front ++ middle)).length := by
    rw [encoded_append, List.length_append]
    exact Nat.le_add_right _ _
  unfold stretch
  rw [dif_pos ⟨ordered, first, last⟩, cut_out whole]

end Places

end Lox.Cursor
