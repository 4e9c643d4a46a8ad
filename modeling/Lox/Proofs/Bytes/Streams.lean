import Lox.Proofs.Bytes.Cuts
import Lox.Proofs.Tokens.Substitution

/-!
The calls that hand out the items of a text, one after the other. Each call goes on behind the
place where the item before ended, and hands out the next piece that says something, or the end
of the input, and then nothing any more. None of them makes a misstep, whatever the text.
-/

namespace Lox

/-- The items that some pieces become, each with the characters up to where it ends. -/
def placed (passed : List Char) : List Piece → List (Item × List Char)
  | [] => []
  | piece :: rest =>
      match piece.item? (1 + (passed ++ piece.text).count '\n') with
      | some item => (item, passed ++ piece.text) :: placed (passed ++ piece.text) rest
      | none => placed (passed ++ piece.text) rest

/-- The token for the end of a text, which is on its last line. -/
def lastItem (text : List Char) : Item := .token ⟨.endOfInput, "", 1 + text.count '\n'⟩

section Placed

theorem placed_items (passed : List Char) (pieces : List Piece) :
    itemsFrom (1 + passed.count '\n') pieces = (placed passed pieces).map Prod.fst ++
      [lastItem (passed ++ pieces.flatMap Piece.text)] := by
  induction pieces generalizing passed with
  | nil => rw [placed, List.flatMap_nil, List.append_nil]; rfl
  | cons piece rest induction =>
      have line : 1 + passed.count '\n' + piece.lineEnds =
          1 + (passed ++ piece.text).count '\n' := by
        rw [List.count_append, Nat.add_assoc]
        rfl
      have onward := induction (passed ++ piece.text)
      rw [List.append_assoc, ← List.flatMap_cons] at onward
      rw [itemsFrom, placed, line, onward]
      cases piece.item? (1 + (passed ++ piece.text).count '\n') <;> rfl

end Placed

namespace Cursor

variable {source : String} {before passed rest : List Char} {bound : Nat}

/-- The cursor after the end of the input has been handed out. -/
def ended (source : String) (before : List Char) : Cursor :=
  ⟨source, (encoded before).length, source.utf8ByteSize + 1, 1 + source.toList.count '\n'⟩

theorem next_ended (rounds : Nat) :
    next bound (rounds + 1) (ended source before) = .ok none (ended source before) := by
  have beyond : (ended source before).size < (ended source before).position := Nat.lt_succ_self _
  unfold next
  change (if (ended source before).size < (ended source before).position then return none
    else _ : Walk (Option Item)) _ = _
  rw [if_pos beyond]
  rfl

theorem next_at_end (rounds : Nat) : next bound (rounds + 1) (behind source before source.toList) =
    .ok (some (lastItem source.toList)) (ended source before) := by
  have size := size_behind source before source.toList
  have atEnd : (behind source before source.toList).position =
      (behind source before source.toList).size := size.symm
  generalize same : behind source before source.toList = cursor at atEnd
  unfold next
  change (if cursor.size < cursor.position then return none
    else if cursor.position = cursor.size then _ else _ : Walk (Option Item)) cursor = _
  rw [if_neg (atEnd ▸ Nat.lt_irrefl _), if_pos atEnd, ← same, ended, ← encoded_length_source]
  rfl

/-- How a call goes on behind the piece that it has read. -/
def onward (bound rounds : Nat) : Found → Walk (Option Item)
  | .nothing => next bound rounds
  | .error cause => fun cursor => .ok (some (.error cursor.line cause)) cursor
  | .token kind => fun cursor => (stretch cursor.start cursor.position >>= fun lexeme =>
      return some (.token ⟨kind, lexeme, cursor.line⟩) : Walk (Option Item)) cursor

theorem next_piece (cursor : Cursor) {after : Cursor} {found : Found} (rounds : Nat)
    (inside : cursor.position < cursor.size)
    (run : piece bound { cursor with start := cursor.position } = .ok found after) :
    next bound (rounds + 1) cursor = onward bound rounds found after := by
  unfold next
  change (if cursor.size < cursor.position then return none
    else if cursor.position = cursor.size then _ else _ : Walk (Option Item)) cursor = _
  rw [if_neg (Nat.lt_asymm inside), if_neg (Nat.ne_of_lt inside)]
  change (piece bound >>= _) { cursor with start := cursor.position } = _
  rw [bind_ok run]
  cases found <;> rfl

theorem inside_before {first : Char} (whole : source.toList = passed ++ first :: rest) :
    (behind source before passed).position < (behind source before passed).size := by
  have nonempty := List.length_pos_of_ne_nil (encoded_nonempty (List.cons_ne_nil first rest))
  rw [size_behind, whole, encoded_append, List.length_append]
  exact Nat.lt_add_of_pos_right nonempty

/-- A call that finds an item ends behind its piece, one that finds none has handed out the end
of the input. -/
theorem next_run (before : List Char) {rounds : Nat} (whole : source.toList = passed ++ rest)
    (enough : (encoded rest).length < bound) (more : rest.length < rounds) :
    (placed passed (piecesOf rest) = [] ∧ ∃ start, next bound rounds (behind source before passed) =
      .ok (some (lastItem source.toList)) (ended source start)) ∨
    ∃ item front after start, source.toList = front ++ after ∧
      (encoded after).length < (encoded rest).length ∧
      placed passed (piecesOf rest) = (item, front) :: placed front (piecesOf after) ∧
      next bound rounds (behind source before passed) =
        .ok (some item) (behind source start front) := by
  induction rounds generalizing passed rest before with
  | zero => exact absurd more (Nat.not_lt_zero _)
  | succ rounds induction =>
      cases rest with
      | nil =>
          obtain rfl : passed = source.toList := (whole.trans (List.append_nil _)).symm
          exact .inl ⟨rfl, before, next_at_end rounds⟩
      | cons first tail =>
          obtain ⟨append, fits⟩ := cut_is_cut first tail
          have shorter := cut_shorter first tail
          have run := piece_run whole (encoded_within enough)
          have step := next_piece (behind source before passed) rounds
            (inside_before whole) run
          rw [pieces_cons]
          generalize Piece.cut first tail = cut at append fits shorter run step
          obtain ⟨⟨sort, text⟩, after⟩ := cut
          have whole : source.toList = passed ++ text ++ after := by
            rw [List.append_assoc, append, whole]
          have fewer : (encoded after).length < (encoded (first :: tail)).length := by
            have taken := List.length_pos_of_ne_nil (encoded_nonempty fits.nonempty)
            rw [← append, encoded_append, List.length_append]
            exact Nat.lt_add_of_pos_left taken
          cases sort with
          | blank | lineComment | blockComment =>
              have later := induction passed whole (fewer.trans enough)
                (Nat.lt_of_le_of_lt shorter (Nat.lt_of_succ_lt_succ more))
              rcases later with ⟨none, start, run⟩ |
                ⟨item, front, rest, start, same, less, items, run⟩
              · exact .inl ⟨none, start, step.trans run⟩
              · exact .inr ⟨item, front, rest, start, same, less.trans fewer, items, step.trans run⟩
          | lexeme kind =>
              refine .inr ⟨_, passed ++ text, after, passed, whole, fewer, rfl, step.trans ?_⟩
              have lexeme := stretch_run (behind source passed (passed ++ text)) rfl whole
              change (stretch _ _ >>= fun lexeme => return some (.token ⟨kind, lexeme, _⟩) :
                Walk (Option Item)) _ = _
              exact (bind_ok lexeme).trans rfl
          | unexpected | openString | openComment =>
              exact .inr ⟨_, passed ++ text, after, passed, whole, fewer, rfl, step⟩

/-- What so many calls in a row have to give, if these are the items with their places, and the
end of the input has this place. -/
def answer (handed : List (Item × Nat)) (last call : Nat) : Option Item × Nat :=
  match handed[call]? with
  | some (item, place) => (some item, place)
  | none => (none, last)

/-- The items of the rest of a text with the places where the cursor is behind them. -/
def handedFrom (source : String) (passed rest : List Char) : List (Item × Nat) :=
  (placed passed (piecesOf rest)).map (fun entry => (entry.1, (encoded entry.2).length)) ++
    [(lastItem source.toList, source.utf8ByteSize + 1)]

theorem calls_succ {cursor after last : Cursor} {item : Option Item} {count : Nat}
    {answers : List (Option Item × Nat)} (first : next bound bound cursor = .ok item after)
    (others : calls bound count after = .ok answers last) :
    calls bound (count + 1) cursor = .ok ((item, after.position) :: answers) last := by
  rw [calls, bind_ok first]
  change (calls bound count >>= fun answers => return (item, after.position) :: answers : Walk _)
    after = _
  rw [bind_ok others]
  rfl

theorem calls_ended (source : String) (before : List Char) (count : Nat) (positive : bound ≠ 0) :
    calls bound count (ended source before) =
      .ok ((List.range count).map (answer [] (source.utf8ByteSize + 1))) (ended source before) := by
  obtain ⟨bound, rfl⟩ := Nat.exists_eq_add_one_of_ne_zero positive
  induction count with
  | zero => rfl
  | succ count induction =>
      rw [List.range_succ_eq_map, List.map_cons, List.map_map]
      exact calls_succ (next_ended bound) induction

theorem length_le_encoded (text : List Char) : text.length ≤ (encoded text).length := by
  induction text with
  | nil => exact Nat.le_refl 0
  | cons first rest induction =>
      have nonempty := List.length_pos_of_ne_nil (String.utf8EncodeChar_ne_nil (c := first))
      rw [encoded_cons, List.length_append, List.length_cons]
      omega

/-- How the first of the calls that are to come goes: it hands out the first item of the rest,
or the end of the input. -/
theorem next_handed (before : List Char) (whole : source.toList = passed ++ rest)
    (enough : (encoded rest).length < bound) :
    (handedFrom source passed rest = [(lastItem source.toList, source.utf8ByteSize + 1)] ∧
      ∃ start, next bound bound (behind source before passed) =
        .ok (some (lastItem source.toList)) (ended source start)) ∨
    ∃ item front after start, source.toList = front ++ after ∧
      (encoded after).length < (encoded rest).length ∧
      handedFrom source passed rest =
        (item, (encoded front).length) :: handedFrom source front after ∧
      next bound bound (behind source before passed) =
        .ok (some item) (behind source start front) := by
  have rounds := Nat.lt_of_le_of_lt (length_le_encoded rest) enough
  rcases next_run before whole enough rounds with
    ⟨none, start, run⟩ | ⟨item, front, after, start, same, fewer, items, run⟩
  · refine .inl ⟨?_, start, run⟩
    rw [handedFrom, none]
    rfl
  · refine .inr ⟨item, front, after, start, same, fewer, ?_, run⟩
    rw [handedFrom, items]
    rfl

/-- So many calls give the items one after the other, and then nothing. -/
theorem calls_run (before : List Char) (count : Nat) (whole : source.toList = passed ++ rest)
    (enough : (encoded rest).length < bound) :
    ∃ after, calls bound count (behind source before passed) =
      .ok ((List.range count).map
        (answer (handedFrom source passed rest) (source.utf8ByteSize + 1))) after := by
  induction count generalizing before passed rest with
  | zero => exact ⟨_, rfl⟩
  | succ count induction =>
      rw [List.range_succ_eq_map, List.map_cons, List.map_map]
      rcases next_handed before whole enough with
        ⟨only, start, run⟩ | ⟨item, front, after, start, same, fewer, items, run⟩
      · have others := calls_ended source start count
          (Nat.ne_zero_of_lt enough)
        rw [only]
        exact ⟨ended source start, calls_succ run others⟩
      · obtain ⟨last, others⟩ := induction start same (fewer.trans enough)
        rw [items]
        exact ⟨last, calls_succ run others⟩

theorem items_ended (rounds : Nat) (positive : bound ≠ 0) :
    items bound (rounds + 1) (ended source before) = .ok [] (ended source before) := by
  obtain ⟨bound, rfl⟩ := Nat.exists_eq_add_one_of_ne_zero positive
  rw [items, bind_ok (next_ended bound)]
  rfl

theorem items_succ {cursor after last : Cursor} {item : Item} {rounds : Nat} {others : List Item}
    (first : next bound bound cursor = .ok (some item) after)
    (behind : items bound rounds after = .ok others last) :
    items bound (rounds + 1) cursor = .ok (item :: others) last := by
  rw [items, bind_ok first]
  change (items bound rounds >>= fun others => return item :: others : Walk _) after = _
  rw [bind_ok behind]
  rfl

/-- All calls up to the first that gives nothing, which needs one round for a byte and two for
the end of the input. -/
theorem items_run (before : List Char) {rounds : Nat} (whole : source.toList = passed ++ rest)
    (enough : (encoded rest).length < bound) (more : (encoded rest).length + 1 < rounds) :
    ∃ after, items bound rounds (behind source before passed) =
      .ok ((handedFrom source passed rest).map Prod.fst) after := by
  induction rounds generalizing before passed rest with
  | zero => exact absurd more (Nat.not_lt_zero _)
  | succ rounds induction =>
      rcases next_handed before whole enough with
        ⟨only, start, run⟩ | ⟨item, front, after, start, same, fewer, items, run⟩
      · obtain ⟨rounds, rfl⟩ := Nat.exists_eq_add_one_of_ne_zero
          (Nat.ne_zero_of_lt (Nat.lt_of_succ_lt_succ more))
        rw [only]
        exact ⟨_, items_succ run (items_ended rounds (Nat.ne_zero_of_lt enough))⟩
      · have less : (encoded after).length + 1 < rounds := by omega
        obtain ⟨last, others⟩ := induction start same (fewer.trans enough) less
        rw [items]
        exact ⟨last, items_succ run others⟩

end Cursor

end Lox
