import Lox.Proofs.Joining.Scans

/-!
Scans across a line end. Nothing but a string or a comment goes on from one line to the next,
so a text that leaves neither open is scanned as if the line end behind it were the end of the
input. Behind the line end the scan starts anew, and only its lines are further down.
-/

namespace Lox

/-- The item moved down by some lines. -/
def Item.lower (lines : Nat) : Item → Item
  | .token read => .token (read.lower lines)
  | .error line cause => .error (line + lines) cause

/-- What some pieces say in front of others does not depend on the others. -/
theorem items_in_front (line : Nat) (pieces : List Piece) :
    ∃ items, ∀ others,
      itemsFrom line (pieces ++ others) = items ++ itemsFrom (line + linesOf pieces) others := by
  induction pieces generalizing line with
  | nil => exact ⟨[], fun others => rfl⟩
  | cons piece rest induction =>
      obtain ⟨items, same⟩ := induction (line + piece.lineEnds)
      have lines : line + linesOf (piece :: rest) = line + piece.lineEnds + linesOf rest := by
        rw [linesOf, List.map_cons, List.sum_cons, ← Nat.add_assoc]
        rfl
      rw [lines]
      cases isItem : piece.item? (line + piece.lineEnds) with
      | none =>
          exact ⟨items, fun others => by simp only [List.cons_append, itemsFrom, isItem, same]⟩
      | some item =>
          refine ⟨item :: items, fun others => ?_⟩
          simp only [List.cons_append, itemsFrom, isItem, same]

theorem item_lowered (piece : Piece) (line lines : Nat) :
    piece.item? (line + lines) = (piece.item? line).map (Item.lower lines) := by
  obtain ⟨sort, text⟩ := piece
  cases sort <;> rfl

theorem items_lowered (line lines : Nat) (pieces : List Piece) :
    itemsFrom (line + lines) pieces = (itemsFrom line pieces).map (Item.lower lines) := by
  induction pieces generalizing line with
  | nil => rfl
  | cons piece rest induction =>
      have moved : line + lines + piece.lineEnds = line + piece.lineEnds + lines := by omega
      unfold itemsFrom
      dsimp only
      rw [moved, item_lowered piece (line + piece.lineEnds)]
      cases piece.item? (line + piece.lineEnds) with
      | none => exact induction _
      | some item => exact congrArg _ (induction _)

/-- A piece that is not closed is an error of its own. -/
theorem closed_of_items {line : Nat} {pieces : List Piece}
    (closed : ∀ error ∈ lexicalErrorsOf (itemsFrom line pieces),
      error.2 ≠ .unterminatedString ∧ error.2 ≠ .unterminatedComment) :
    ∀ piece ∈ pieces, piece.isClosed = true := by
  induction pieces generalizing line with
  | nil => exact List.forall_mem_nil _
  | cons piece rest induction =>
      obtain ⟨sort, text⟩ := piece
      rw [List.forall_mem_cons]
      cases sort with
      | blank | lineComment | blockComment | lexeme => exact ⟨rfl, induction closed⟩
      | unexpected => exact ⟨rfl, induction (List.forall_mem_cons.mp closed).2⟩
      | openString => exact absurd rfl (List.forall_mem_cons.mp closed).1.1
      | openComment => exact absurd rfl (List.forall_mem_cons.mp closed).1.2

/-- If the first of two texts leaves no string and no comment open, the scan of both with a line
end between them is the scan of the first one without its end, and behind it the scan of the
second one, lower by the lines that the first one ends and one more. -/
theorem scan_across_line_end (front back : String)
    (closed : ∀ error ∈ lexicalErrorsOf (scan front),
      error.2 ≠ .unterminatedString ∧ error.2 ≠ .unterminatedComment) :
    ∃ items, scan front = items ++ [.token ⟨.endOfInput, "", 1 + lineEnds front⟩] ∧
      (∀ token, .token token ∈ items → token.kind ≠ .endOfInput) ∧
      scan (front ++ "\n" ++ back) =
        items ++ (scan back).map (Item.lower (1 + lineEnds front)) := by
  obtain ⟨items, inFront⟩ := items_in_front 1 (piecesOf front.toList)
  rw [lines_of_pieces] at inFront
  have alone : scan front = items ++ [.token ⟨.endOfInput, "", 1 + lineEnds front⟩] := by
    rw [scan, ← List.append_nil (piecesOf front.toList), inFront]
    rfl
  refine ⟨items, alone, fun token member => ?_, ?_⟩
  · have tokens := tokens_of_scan front
    rw [alone, tokensOf, List.filterMap_append] at tokens
    have listed : token ∈ written front := by
      rw [← List.append_cancel_right tokens]
      exact List.mem_filterMap.mpr ⟨_, member, rfl⟩
    exact written_inner front token listed
  · have pieces : piecesOf (front ++ "\n" ++ back).toList =
        piecesOf front.toList ++ ⟨.blank, ['\n']⟩ :: piecesOf back.toList := by
      have text : (front ++ "\n" ++ back).toList = front.toList ++ '\n' :: back.toList := by simp
      rw [text, pieces_line_end _ (closed_of_items closed)]
    calc scan (front ++ "\n" ++ back)
      _ = items ++ itemsFrom (1 + lineEnds front + 1) (piecesOf back.toList) := by
          rw [scan, pieces, inFront]
          rfl
      _ = items ++ (scan back).map (Item.lower (1 + lineEnds front)) := by
          rw [Nat.add_comm (1 + lineEnds front) 1, items_lowered]
          rfl

/-- An operator that could go on, an error and a comment stand right before the line end. -/
theorem scan_across_line_end_after_comment :
    (∀ error ∈ lexicalErrorsOf (scan "\"\n\" é !//"),
      error.2 ≠ .unterminatedString ∧ error.2 ≠ .unterminatedComment) ∧
    scan ("\"\n\" é !//" ++ "\n" ++ "= \"") =
      [.token ⟨.string "\n", "\"\n\"", 2⟩, .error 2 (.unexpectedCharacter 'é'),
        .token ⟨.bang, "!", 2⟩] ++ (scan "= \"").map (Item.lower 2) := by
  have front : scan "\"\n\" é !//" = [.token ⟨.string "\n", "\"\n\"", 2⟩,
      .error 2 (.unexpectedCharacter 'é'), .token ⟨.bang, "!", 2⟩,
      .token ⟨.endOfInput, "", 2⟩] := by rfl
  have closed : ∀ error ∈ lexicalErrorsOf (scan "\"\n\" é !//"),
      error.2 ≠ .unterminatedString ∧ error.2 ≠ .unterminatedComment := by
    rw [front]
    decide
  obtain ⟨items, same, -, both⟩ := scan_across_line_end "\"\n\" é !//" "= \"" closed
  refine ⟨closed, both.trans ?_⟩
  rw [front] at same
  obtain ⟨rfl, -⟩ := List.append_inj' (show [_, _, _] ++ [_] = items ++ [_] from same) rfl
  rfl

end Lox
