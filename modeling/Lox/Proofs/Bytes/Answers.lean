import Lox.Proofs.Bytes.Streams
import Lox.Proofs.Joining.Scans

/-!
What the calls for the items of a text answer. They never fail, each that gives an item has gone
on, the end of the input is the last item and comes once, and every item is on the line that the
line ends before its own end make up.
-/

namespace Lox

def Item.line : Item → Nat
  | .token read => read.line
  | .error line _ => line

def Item.isEnd : Item → Bool
  | .token read => read.kind = .endOfInput
  | .error _ _ => false

/-- The item ends between these parts of a text: a token with its lexeme, an unexpected character
with itself, and what is not closed with the text, as does the end of the input. -/
def Item.EndsAt (front rest : List Char) : Item → Prop
  | .token read => (read.kind = .endOfInput → rest = []) ∧ read.lexeme.toList <:+ front
  | .error _ (.unexpectedCharacter character) => [character] <:+ front
  | .error _ .unterminatedString => rest = []
  | .error _ .unterminatedComment => rest = []

/-- One part of a text goes on behind the other. -/
def Grows (shorter longer : List Char) : Prop :=
  shorter <+: longer ∧ shorter.length < longer.length

section Growing

theorem Grows.trans {one two three : List Char} (first : Grows one two) (second : Grows two three) :
    Grows one three := ⟨first.1.trans second.1, first.2.trans second.2⟩

theorem grows_append (front : List Char) {more : List Char} (nonempty : more ≠ []) :
    Grows front (front ++ more) := by
  refine ⟨List.prefix_append front more, ?_⟩
  rw [List.length_append]
  exact Nat.lt_add_of_pos_right (List.length_pos_of_ne_nil nonempty)

theorem Grows.encoded_lt {shorter longer : List Char} (grows : Grows shorter longer) :
    (encoded shorter).length < (encoded longer).length := by
  obtain ⟨⟨more, rfl⟩, longer⟩ := grows
  have nonempty : more ≠ [] := by
    rintro rfl
    rw [List.append_nil] at longer
    exact Nat.lt_irrefl _ longer
  rw [encoded_append, List.length_append]
  exact Nat.lt_add_of_pos_right (List.length_pos_of_ne_nil (encoded_nonempty nonempty))

/-- Each item ends further on than the one before it. -/
theorem placed_growing (passed : List Char) {pieces : List Piece}
    (nonempty : ∀ piece ∈ pieces, piece.text ≠ []) :
    (passed :: (placed passed pieces).map Prod.snd).Pairwise Grows := by
  induction pieces generalizing passed with
  | nil => exact List.pairwise_singleton _ _
  | cons piece rest induction =>
      rw [List.forall_mem_cons] at nonempty
      have onward := induction (passed ++ piece.text) nonempty.2
      have grows := grows_append passed nonempty.1
      have behind := List.pairwise_cons.mp onward
      have all := fun front member => grows.trans (behind.1 front member)
      rw [placed]
      cases piece.item? (1 + (passed ++ piece.text).count '\n') with
      | none => exact List.pairwise_cons.mpr ⟨all, behind.2⟩
      | some item =>
          exact List.pairwise_cons.mpr ⟨List.forall_mem_cons.mpr ⟨grows, all⟩, onward⟩

end Growing

section Ends

theorem item_line {piece : Piece} {line : Nat} {item : Item}
    (isItem : piece.item? line = some item) : item.line = line := by
  obtain ⟨sort, text⟩ := piece
  cases sort <;> cases isItem <;> rfl

theorem item_ends {piece : Piece} {line : Nat} {item : Item} {passed rest : List Char}
    (fits : Fits rest piece) (isItem : piece.item? line = some item) :
    item.EndsAt (passed ++ piece.text) rest := by
  cases fits with
  | blank | lineComment | blockComment => cases isItem
  | @lexeme text kind isLexeme =>
      cases isItem
      refine ⟨fun isEnd => absurd isEnd (lexeme_inner isLexeme), ?_⟩
      rw [String.toList_ofList]
      exact List.suffix_append passed text
  | unexpected =>
      cases isItem
      exact List.suffix_append passed _
  | openString _ last | openComment _ last =>
      cases isItem
      exact last

theorem item_inner {piece : Piece} {line : Nat} {item : Item} {rest : List Char}
    (fits : Fits rest piece) (isItem : piece.item? line = some item) : item.isEnd = false := by
  cases fits with
  | blank | lineComment | blockComment => cases isItem
  | lexeme isLexeme =>
      cases isItem
      exact decide_eq_false (lexeme_inner isLexeme)
  | unexpected | openString | openComment =>
      cases isItem
      rfl

theorem placed_ends (passed : List Char) {text : List Char} {pieces : List Piece}
    (partition : Partition text pieces) : ∀ entry ∈ placed passed pieces,
      entry.1.isEnd = false ∧ ∃ rest, passed ++ text = entry.2 ++ rest ∧
        entry.1.line = 1 + entry.2.count '\n' ∧ entry.1.EndsAt entry.2 rest := by
  induction partition generalizing passed with
  | nil => exact List.forall_mem_nil _
  | @cons piece rest pieces fits partition induction =>
      have onward := induction (passed ++ piece.text)
      rw [List.append_assoc] at onward
      rw [placed]
      cases isItem : piece.item? (1 + (passed ++ piece.text).count '\n') with
      | none => exact onward
      | some item =>
          refine List.forall_mem_cons.mpr ⟨⟨item_inner fits isItem, rest, ?_, item_line isItem,
            item_ends fits isItem⟩, onward⟩
          rw [List.append_assoc]

end Ends

namespace Cursor

variable {source : String}

theorem nonempty_pieces (text : List Char) : ∀ piece ∈ piecesOf text, piece.text ≠ [] := by
  intro piece member
  obtain ⟨rest, fits⟩ := (pieces_partition text).fits_of_mem member
  exact fits.nonempty

/-- The items of a whole text with the places where the cursor is behind them. -/
def handed (source : String) : List (Item × Nat) := handedFrom source [] source.toList

theorem handed_items (source : String) : (handed source).map Prod.fst = scan source := by
  have items := placed_items [] (piecesOf source.toList)
  rw [(pieces_partition source.toList).text_eq, List.nil_append] at items
  rw [handed, handedFrom, List.map_append, List.map_map]
  exact items.symm

/-- The places go further on from item to item. -/
theorem handed_growing (source : String) :
    (0 :: (handed source).map Prod.snd).Pairwise (· < ·) := by
  have fronts := (placed_growing [] (nonempty_pieces source.toList)).map
    (fun front => (encoded front).length) fun _ _ grows => grows.encoded_lt
  have inside : ∀ entry ∈ placed [] (piecesOf source.toList),
      (encoded entry.2).length < source.utf8ByteSize + 1 := by
    intro entry member
    obtain ⟨-, rest, whole, -⟩ := placed_ends [] (pieces_partition source.toList) entry member
    rw [← encoded_length_source, ← List.nil_append source.toList, whole, encoded_append,
      List.length_append]
    omega
  have places : 0 :: (handed source).map Prod.snd =
      ([] :: (placed [] (piecesOf source.toList)).map Prod.snd).map
        (fun front => (encoded front).length) ++ [source.utf8ByteSize + 1] := by
    simp only [handed, handedFrom, List.map_append, List.map_map, List.map_cons, List.map_nil,
      Function.comp_def, encoded_nil, List.length_nil, List.cons_append]
  rw [places, List.pairwise_append]
  refine ⟨fronts, List.pairwise_singleton _ _, ?_⟩
  simp only [List.map_cons, List.map_map, List.forall_mem_cons, List.forall_mem_map,
    List.mem_singleton, forall_eq]
  exact ⟨Nat.succ_pos _, inside⟩

/-- Where an item of a text ends, and on which line. -/
theorem handed_ends {item : Item} {place : Nat} (member : (item, place) ∈ handed source) :
    ∃ front rest, source.toList = front ++ rest ∧
      encoded front = (encoded source.toList).take place ∧
      item.line = 1 + front.count '\n' ∧ item.EndsAt front rest := by
  rcases List.mem_append.mp member with inner | last
  · obtain ⟨⟨item, front⟩, isPlaced, same⟩ := List.mem_map.mp inner
    cases same
    obtain ⟨-, rest, whole, line, ends⟩ :=
      placed_ends [] (pieces_partition source.toList) _ isPlaced
    rw [List.nil_append] at whole
    refine ⟨front, rest, whole, ?_, line, ends⟩
    rw [whole, encoded_append, List.take_left]
  · cases List.mem_singleton.mp last
    have all : (encoded source.toList).length ≤ source.utf8ByteSize + 1 := by
      rw [encoded_length_source]
      exact Nat.le_succ _
    exact ⟨source.toList, [], (List.append_nil _).symm, (List.take_of_length_le all).symm, rfl,
      fun _ => rfl, List.nil_suffix⟩

/-- Lines never go back from one item to a later one. -/
theorem scan_lines_sorted (source : String) : ((scan source).map Item.line).Pairwise (· ≤ ·) := by
  have fronts := (List.pairwise_cons.mp
    (placed_growing [] (nonempty_pieces source.toList))).2
  have ends := placed_ends [] (pieces_partition source.toList)
  rw [← handed_items, handed, handedFrom, List.map_append, List.map_map, List.map_append,
    List.map_map, List.pairwise_append]
  refine ⟨?_, List.pairwise_singleton _ _, ?_⟩
  · rw [List.pairwise_map] at fronts ⊢
    refine fronts.imp_of_mem fun {one other} isOne isOther grows => ?_
    obtain ⟨-, -, -, line, -⟩ := ends one isOne
    obtain ⟨-, -, -, later, -⟩ := ends other isOther
    have counts := grows.1.sublist.count_le '\n'
    change one.1.line ≤ other.1.line
    omega
  · intro line isLine last isLast
    cases List.mem_singleton.mp isLast
    obtain ⟨entry, isPlaced, rfl⟩ := List.mem_map.mp isLine
    obtain ⟨-, rest, whole, line, -⟩ := ends entry isPlaced
    have counts := (List.prefix_append entry.2 rest).sublist.count_le '\n'
    rw [← whole] at counts
    change entry.1.line ≤ 1 + source.toList.count '\n'
    rw [List.nil_append] at counts
    omega

theorem answer_mem {handed : List (Item × Nat)} {last call place : Nat} {item : Item}
    (answered : answer handed last call = (some item, place)) : (item, place) ∈ handed := by
  unfold answer at answered
  cases found : handed[call]? with
  | none =>
      rw [found] at answered
      cases answered
  | some entry =>
      rw [found] at answered
      cases answered
      exact List.mem_of_getElem? found

theorem answers_items (handed : List (Item × Nat)) (last count : Nat) :
    ((List.range count).map (answer handed last)).filterMap Prod.fst =
      (handed.map Prod.fst).take count := by
  induction count generalizing handed with
  | zero => rfl
  | succ count induction =>
      rw [List.range_succ_eq_map, List.map_cons, List.map_map]
      cases handed with
      | nil =>
          have onward := induction []
          rw [List.map_nil, List.take_nil] at onward
          exact onward
      | cons entry rest => exact congrArg (entry.1 :: ·) (induction rest)

section Source

variable {bound : Nat} (enough : source.utf8ByteSize < bound)

include enough

theorem within_source : (encoded source.toList).length < bound := by
  rw [encoded_length_source]
  exact enough

theorem calls_of_source (count : Nat) : ∃ after, calls bound count (ofSource source) =
    .ok ((List.range count).map (answer (handed source) (source.utf8ByteSize + 1))) after :=
  calls_run [] count (List.nil_append _).symm (within_source enough)

theorem items_of_source :
    ∃ after, items bound (bound + 1) (ofSource source) = .ok (scan source) after := by
  have within := within_source enough
  rw [← handed_items]
  exact items_run [] (List.nil_append _).symm within (Nat.succ_lt_succ within)

end Source

/-- Whatever the text is, with whatever characters in whatever places, no call for an item makes
a misstep: it reads no byte behind the last one, it cuts nothing out but between two characters,
and it comes to an end. Each call that gives an item goes further on than the one before. The
last item is the end of the input, which is no item before it, and every later call gives
nothing. So all items together are the scan, and its tokens end with their only end of the
input. -/
theorem calls_make_no_misstep (source : String) (bound : Nat)
    (enough : source.utf8ByteSize < bound) :
    ∃ handed : List (Item × Nat),
      (∀ count, ∃ after, calls bound count (ofSource source) =
        .ok ((List.range count).map (answer handed (source.utf8ByteSize + 1))) after) ∧
      (0 :: handed.map Prod.snd).Pairwise (· < ·) ∧
      handed.map Prod.fst = scan source ∧
      (∃ items line, scan source = items ++ [.token ⟨.endOfInput, "", line⟩] ∧
        ∀ item ∈ items, item.isEnd = false) ∧
      (∃ after, items bound (bound + 1) (ofSource source) = .ok (scan source) after) ∧
      ∃ tokens line, tokensOf (scan source) = tokens ++ [⟨.endOfInput, "", line⟩] ∧
        ∀ token ∈ tokens, token.kind ≠ .endOfInput := by
  refine ⟨handed source, calls_of_source enough, handed_growing source, handed_items source, ?_,
    items_of_source enough, written source, _, tokens_of_scan source, written_inner source⟩
  refine ⟨(placed [] (piecesOf source.toList)).map Prod.fst, 1 + source.toList.count '\n', ?_, ?_⟩
  · rw [← handed_items, handed, handedFrom, List.map_append, List.map_map]
    rfl
  · intro item isItem
    obtain ⟨entry, isPlaced, rfl⟩ := List.mem_map.mp isItem
    exact (placed_ends [] (pieces_partition source.toList) entry isPlaced).1

/-- Characters of more than one byte and a null stand outside of tokens, in a comment and in a
string that is left open. -/
theorem calls_over_wide_characters :
    "é/* \x00ü\n*/+ \"ß".utf8ByteSize < 30 ∧ ∃ handed : List (Item × Nat),
      (∀ count, ∃ after, calls 30 count (ofSource "é/* \x00ü\n*/+ \"ß") =
        .ok ((List.range count).map (answer handed 17)) after) ∧
      (0 :: handed.map Prod.snd).Pairwise (· < ·) ∧
      handed.map Prod.fst = [.error 1 (.unexpectedCharacter 'é'), .token ⟨.plus, "+", 2⟩,
        .error 2 .unterminatedString, .token ⟨.endOfInput, "", 2⟩] := by
  have small : "é/* \x00ü\n*/+ \"ß".utf8ByteSize < 30 := by decide
  obtain ⟨handed, answers, growing, items, -⟩ := calls_make_no_misstep _ 30 small
  exact ⟨small, handed, answers, growing, items.trans rfl⟩

/-- Every item is on the line that one more than the line ends before its own end make up: those
among the bytes that the cursor has passed when it hands the item out. It ends between two
characters, and what is left open ends with the text. So the lines never go back. -/
theorem lines_count_line_ends (source : String) (bound : Nat)
    (enough : source.utf8ByteSize < bound) (count : Nat) :
    ∃ answers after, calls bound count (ofSource source) = .ok answers after ∧
      answers.filterMap Prod.fst = (scan source).take count ∧
      (∀ item place, (some item, place) ∈ answers → ∃ front rest,
        source.toList = front ++ rest ∧ encoded front = (encoded source.toList).take place ∧
        item.line = 1 + front.count '\n' ∧ item.EndsAt front rest) ∧
      ((answers.filterMap Prod.fst).map Item.line).Pairwise (· ≤ ·) := by
  obtain ⟨after, run⟩ := calls_of_source enough count
  have items := answers_items (handed source) (source.utf8ByteSize + 1) count
  rw [handed_items] at items
  refine ⟨_, after, run, items, ?_, ?_⟩
  · intro item place member
    obtain ⟨call, -, answered⟩ := List.mem_map.mp member
    exact handed_ends (answer_mem answered)
  · rw [items]
    exact (scan_lines_sorted source).sublist ((List.take_sublist _ _).map _)

/-- Line ends in a string, behind a line comment, in a comment within another one, and in one that
is left open. -/
theorem lines_over_comments :
    "\"a\nb\" // c\n/* /*\n*/ \n*/ x /*\n".utf8ByteSize < 40 ∧
    ∃ answers after, calls 40 10 (ofSource "\"a\nb\" // c\n/* /*\n*/ \n*/ x /*\n") =
        .ok answers after ∧
      (answers.filterMap Prod.fst).map Item.line = [2, 5, 6, 6] := by
  have small : "\"a\nb\" // c\n/* /*\n*/ \n*/ x /*\n".utf8ByteSize < 40 := by decide
  obtain ⟨answers, after, run, items, -⟩ := lines_count_line_ends _ 40 small 10
  refine ⟨small, answers, after, run, ?_⟩
  rw [items]
  rfl

end Cursor

end Lox
