import Lox.Proofs.Bytes.Encoding
import Lox.Proofs.Tokens.Cutting

/-!
The steps and the loops of a cursor, each told by the bytes that are left before it. A step or a
loop ends behind some of these bytes, and the line that it ends on is further down by the line
ends among them. No step looks behind the last byte, and a loop needs one round for a byte.
-/

namespace Lox.Cursor

/-- The bytes that are not stepped over yet. -/
def left (cursor : Cursor) : List UInt8 := cursor.bytes.drop cursor.position

/-- The cursor behind some more bytes. -/
def past (cursor : Cursor) (taken : List UInt8) : Cursor :=
  { cursor with
    position := cursor.position + taken.length
    line := cursor.line + taken.count '\n'.toUInt8 }

section Steps

variable {α β : Type} {cursor before after : Cursor} {byte : UInt8} {taken rest : List UInt8}

theorem bind_ok {first : Walk α} {next : α → Walk β} {value : α}
    (run : first before = .ok value after) : (first >>= next) before = next value after := by
  change EStateM.bind first next before = _
  rw [EStateM.bind, run]

theorem past_past (cursor : Cursor) (taken more : List UInt8) :
    (cursor.past taken).past more = cursor.past (taken ++ more) := by
  simp only [past, List.length_append, List.count_append, Nat.add_assoc]

theorem left_past (taken : List UInt8) (whole : cursor.left = taken ++ rest) :
    (cursor.past taken).left = rest := by
  change cursor.bytes.drop (cursor.position + taken.length) = rest
  rw [← List.drop_drop]
  change cursor.left.drop taken.length = rest
  rw [whole, List.drop_left]

theorem bytes_length (cursor : Cursor) : cursor.bytes.length = cursor.size := Array.length_toList

theorem left_nil_iff : cursor.left = [] ↔ cursor.size ≤ cursor.position := by
  rw [left, List.drop_eq_nil_iff, bytes_length]

theorem byte_at (cursor : Cursor) (distance : Nat) (inside : cursor.left[distance]? = some byte) :
    byteAt (cursor.position + distance) cursor = .ok byte cursor := by
  rw [left, List.getElem?_drop] at inside
  unfold byteAt
  rw [inside]

theorem at_end_run (cursor : Cursor) : atEnd cursor = .ok cursor.left.isEmpty cursor := by
  have same : decide (cursor.size ≤ cursor.position) = cursor.left.isEmpty := by
    rw [Bool.eq_iff_iff, decide_eq_true_iff, List.isEmpty_iff, left_nil_iff]
  rw [← same]
  rfl

theorem advance_run (whole : cursor.left = byte :: rest) :
    advance cursor = .ok byte { cursor with position := cursor.position + 1 } := by
  have here : byteAt cursor.position cursor = .ok byte cursor :=
    byte_at cursor 0 (by rw [whole]; rfl)
  change (byteAt cursor.position >>= fun byte => do forward 1; return byte) cursor = _
  rw [bind_ok here]
  rfl

theorem advance_past (whole : cursor.left = byte :: rest) (sameLine : byte ≠ '\n'.toUInt8) :
    advance cursor = .ok byte (cursor.past [byte]) := by
  rw [advance_run whole, past, List.length_singleton, List.count_singleton,
    if_neg (by simpa using sameLine)]
  rfl

theorem peek_run (cursor : Cursor) : peek cursor = .ok (cursor.left.head?.getD 0) cursor := by
  unfold peek
  rw [bind_ok (at_end_run cursor)]
  cases whole : cursor.left with
  | nil => rfl
  | cons byte rest => exact byte_at cursor 0 (by rw [whole]; rfl)

theorem peek_next_run (cursor : Cursor) :
    peekNext cursor = .ok (cursor.left[1]?.getD 0) cursor := by
  change (if cursor.size ≤ cursor.position + 1 then return 0
    else byteAt (cursor.position + 1) : Walk UInt8) cursor = _
  cases second : cursor.left[1]? with
  | none =>
      rw [left, List.getElem?_drop, List.getElem?_eq_none_iff, bytes_length] at second
      rw [if_pos second]
      rfl
  | some byte =>
      have inside := second
      rw [left, List.getElem?_drop, List.getElem?_eq_some_iff] at inside
      obtain ⟨inside, -⟩ := inside
      rw [bytes_length] at inside
      rw [if_neg (Nat.not_le.mpr inside), byte_at cursor 1 second]
      rfl

theorem accept_run (cursor : Cursor) {character : Char}
    (sameLine : character.toUInt8 ≠ '\n'.toUInt8) :
    accept character cursor =
      if cursor.left.head? = some character.toUInt8 then .ok true (cursor.past [character.toUInt8])
      else .ok false cursor := by
  unfold accept
  rw [bind_ok (at_end_run cursor)]
  cases whole : cursor.left with
  | nil => rfl
  | cons byte rest =>
      have peeked : peek cursor = .ok byte cursor := by
        rw [peek_run, whole]
        rfl
      change (peek >>= fun next => if next = character.toUInt8 then do let _ ← advance; return true
        else return false : Walk Bool) cursor = _
      rw [bind_ok peeked, List.head?_cons]
      by_cases same : byte = character.toUInt8
      · subst same
        rw [if_pos rfl, if_pos rfl, bind_ok (advance_past whole sameLine)]
        rfl
      · rw [if_neg same, if_neg (same ∘ Option.some.inj)]
        rfl

end Steps

section Loops

variable {cursor : Cursor} {bound : Nat}

/-- The loop passes just the bytes at the front that pass its test. -/
theorem advance_while_run {test : UInt8 → Bool} (stops : test 0 = false)
    (sameLine : test '\n'.toUInt8 = false) (enough : cursor.left.length < bound) :
    advanceWhile test bound cursor = .ok () (cursor.past (cursor.left.takeWhile test)) := by
  induction bound generalizing cursor with
  | zero => exact absurd enough (Nat.not_lt_zero _)
  | succ bound induction =>
      unfold advanceWhile
      rw [bind_ok (peek_run cursor)]
      cases whole : cursor.left with
      | nil =>
          rw [List.head?_nil, Option.getD_none, stops]
          rfl
      | cons byte rest =>
          rw [List.head?_cons, Option.getD_some]
          cases passes : test byte with
          | false =>
              rw [List.takeWhile_cons_of_neg (by simp [passes])]
              rfl
          | true =>
              have noLineEnd : byte ≠ '\n'.toUInt8 := by
                rintro rfl
                rw [sameLine] at passes
                cases passes
              have fewer : (cursor.past [byte]).left.length < bound := by
                rw [left_past [byte] whole]
                rw [whole] at enough
                exact Nat.lt_of_succ_lt_succ enough
              rw [if_pos rfl, bind_ok (advance_past whole noLineEnd), induction fewer,
                left_past [byte] whole, past_past, List.takeWhile_cons_of_pos passes]
              rfl

/-- A search for the line end passes all bytes before it. -/
theorem line_comment_run (inside : cursor.position ≤ cursor.size) : lineComment cursor =
    .ok .nothing (cursor.past (cursor.left.takeWhile (· ≠ '\n'.toUInt8))) := by
  have noLineEnd : (cursor.left.takeWhile (· ≠ '\n'.toUInt8)).count '\n'.toUInt8 = 0 := by
    refine List.count_eq_zero_of_not_mem fun member => ?_
    simpa using List.mem_takeWhile_imp member
  have passed : cursor.left.takeWhile (· ≠ '\n'.toUInt8) =
      cursor.left.take (cursor.left.findIdx (· = '\n'.toUInt8)) := by
    rw [List.takeWhile_eq_take_findIdx_not]
    simp only [decide_not, Bool.not_not]
  have total : cursor.position + cursor.left.length = cursor.size := by
    rw [left, List.length_drop, bytes_length]
    omega
  unfold lineComment
  rw [if_pos inside, past, noLineEnd, passed, List.length_take]
  cases found : (cursor.bytes.drop cursor.position).findIdx? (· = '\n'.toUInt8) with
  | none =>
      have all : cursor.left.findIdx (· = '\n'.toUInt8) = cursor.left.length :=
        List.findIdx?_eq_none_iff_findIdx_eq.mp found
      rw [all, Nat.min_self, total]
      rfl
  | some distance =>
      obtain ⟨shorter, place⟩ : distance < cursor.left.length ∧
          cursor.left.findIdx (· = '\n'.toUInt8) = distance :=
        List.findIdx?_eq_some_iff_findIdx_eq.mp found
      rw [place, Nat.min_eq_left (Nat.le_of_lt shorter)]
      rfl

/-- The loop passes all bytes before the first quote, with the line ends among them. -/
theorem to_quote_run (enough : cursor.left.length < bound) :
    toQuote bound cursor = .ok () (cursor.past (cursor.left.takeWhile (· ≠ '"'.toUInt8))) := by
  induction bound generalizing cursor with
  | zero => exact absurd enough (Nat.not_lt_zero _)
  | succ bound induction =>
      unfold toQuote
      rw [bind_ok (at_end_run cursor)]
      cases whole : cursor.left with
      | nil => rfl
      | cons byte rest =>
          have fewer : (cursor.past [byte]).left.length < bound := by
            rw [left_past [byte] whole]
            rw [whole] at enough
            exact Nat.lt_of_succ_lt_succ enough
          have onward : toQuote bound (cursor.past [byte]) =
              .ok () (cursor.past (byte :: rest.takeWhile (· ≠ '"'.toUInt8))) := by
            rw [induction fewer, left_past [byte] whole, past_past]
            rfl
          have peeked : peek cursor = .ok byte cursor := by
            rw [peek_run, whole]
            rfl
          rw [if_neg (by simp), bind_ok peeked]
          by_cases quote : byte = '"'.toUInt8
          · rw [if_pos quote, List.takeWhile_cons_of_neg (by simp [quote])]
            rfl
          · rw [if_neg quote, List.takeWhile_cons_of_pos (by simpa using quote),
              bind_ok (advance_run whole), ← onward]
            by_cases lineEnd : byte = '\n'.toUInt8
            · rw [if_pos lineEnd, lineEnd]
              rfl
            · rw [if_neg lineEnd, past, List.count_singleton, if_neg (by simpa using lineEnd)]
              rfl

end Loops

section Comments

variable {cursor : Cursor} {bound depth : Nat} {rest : List UInt8}

/-- One round of the loop over a comment, by what it sees of the bytes before it. -/
theorem block_comment_round {byte : UInt8} (whole : cursor.left = byte :: rest) :
    blockComment (bound + 1) (depth + 1) cursor =
      if byte = '/'.toUInt8 ∧ rest.head?.getD 0 = '*'.toUInt8 then
        blockComment bound (depth + 2) (cursor.past ['/'.toUInt8, '*'.toUInt8])
      else if byte = '*'.toUInt8 ∧ rest.head?.getD 0 = '/'.toUInt8 then
        blockComment bound depth (cursor.past ['*'.toUInt8, '/'.toUInt8])
      else blockComment bound (depth + 1) (cursor.past [byte]) := by
  have first : peek cursor = .ok byte cursor := by
    rw [peek_run, whole]
    rfl
  have second : peekNext cursor = .ok (rest.head?.getD 0) cursor := by
    rw [peek_next_run, whole, List.getElem?_cons_succ, List.head?_eq_getElem?]
  rw [blockComment, bind_ok (at_end_run cursor), whole, if_neg (by simp), bind_ok first,
    bind_ok second]
  split_ifs with opening closing lineEnd
  · rfl
  · rfl
  · rw [lineEnd]
    rfl
  · rw [past, List.count_singleton, if_neg (by simpa using lineEnd)]
    rfl

theorem block_comment_opening (whole : cursor.left = '/'.toUInt8 :: '*'.toUInt8 :: rest) :
    blockComment (bound + 1) (depth + 1) cursor =
      blockComment bound (depth + 2) (cursor.past ['/'.toUInt8, '*'.toUInt8]) := by
  rw [block_comment_round whole, if_pos ⟨rfl, rfl⟩]

theorem block_comment_closing (whole : cursor.left = '*'.toUInt8 :: '/'.toUInt8 :: rest) :
    blockComment (bound + 1) (depth + 1) cursor =
      blockComment bound depth (cursor.past ['*'.toUInt8, '/'.toUInt8]) := by
  have noSlash : '*'.toUInt8 ≠ '/'.toUInt8 := by decide
  rw [block_comment_round whole, if_neg (noSlash ·.1), if_pos ⟨rfl, rfl⟩]

/-- The bytes of a character that has more than one of them are passed one by one. -/
theorem block_comment_large {taken : List UInt8} (large : ∀ byte ∈ taken, 128 ≤ byte.toNat)
    (whole : cursor.left = taken ++ rest) :
    blockComment (bound + taken.length) (depth + 1) cursor =
      blockComment bound (depth + 1) (cursor.past taken) := by
  induction taken generalizing cursor with
  | nil => rfl
  | cons byte taken induction =>
      rw [List.forall_mem_cons] at large
      have noSlash : byte ≠ '/'.toUInt8 := by
        rintro rfl
        exact absurd large.1 (by decide)
      have noStar : byte ≠ '*'.toUInt8 := by
        rintro rfl
        exact absurd large.1 (by decide)
      rw [List.length_cons, ← Nat.add_assoc, block_comment_round whole, if_neg (noSlash ·.1),
        if_neg (noStar ·.1), induction large.2 (left_past [byte] whole), past_past]
      rfl

/-- A character that opens and closes nothing is passed in as many rounds as it has bytes. -/
theorem block_comment_plain {first : Char} {text : List Char}
    (whole : cursor.left = encoded (first :: text))
    (noOpening : ∀ behind, first = '/' → text = '*' :: behind → False)
    (noClosing : ∀ behind, first = '*' → text = '/' :: behind → False) :
    blockComment (bound + (String.utf8EncodeChar first).length) (depth + 1) cursor =
      blockComment bound (depth + 1) (cursor.past (String.utf8EncodeChar first)) := by
  rw [encoded_cons] at whole
  by_cases small : IsSmall first
  · have begins {mark other : Char} (isSmall : IsSmall mark) (otherSmall : IsSmall other)
        (noNull : other.toUInt8 ≠ 0) (pair : first.toUInt8 = mark.toUInt8 ∧
          (encoded text).head?.getD 0 = other.toUInt8) :
        first = mark ∧ ∃ behind, text = other :: behind := by
      have isFirst : first.toUInt8 ∈ String.utf8EncodeChar first := by
        rw [encoded_small small]
        exact List.mem_cons_self
      refine ⟨(byte_is_character isSmall isFirst).mp pair.1, ?_⟩
      rw [← encoded_begins otherSmall]
      have isSecond := pair.2
      cases second : (encoded text).head? with
      | none =>
          rw [second] at isSecond
          exact absurd isSecond.symm noNull
      | some byte =>
          rw [second] at isSecond
          exact congrArg some isSecond
    rw [encoded_small small] at whole ⊢
    rw [List.length_singleton, block_comment_round whole, if_neg, if_neg]
    · intro pair
      obtain ⟨isStar, behind, isSlash⟩ := begins (by decide) (by decide) (by decide) pair
      exact noClosing behind isStar isSlash
    · intro pair
      obtain ⟨isSlash, behind, isStar⟩ := begins (by decide) (by decide) (by decide) pair
      exact noOpening behind isSlash isStar
  · exact block_comment_large (encoded_large small) whole

/-- The loop over a comment ends where the comment does, or with the text. -/
theorem block_comment_run {text : List Char} (inner : Nat) (whole : cursor.left = encoded text)
    (enough : (encoded text).length < bound) :
    ∃ body, text = body ++ (afterComment inner text).getD [] ∧
      blockComment bound (inner + 1) cursor =
        .ok (if (afterComment inner text).isSome then .nothing else .error .unterminatedComment)
          (cursor.past (encoded body)) := by
  fun_induction afterComment inner text generalizing cursor bound with
  | case1 inner =>
      obtain ⟨bound, rfl⟩ := Nat.exists_eq_add_one_of_ne_zero (Nat.ne_zero_of_lt enough)
      refine ⟨[], rfl, ?_⟩
      rw [blockComment, bind_ok (at_end_run cursor), whole]
      rfl
  | case2 inner rest induction =>
      obtain ⟨bound, rfl⟩ := Nat.exists_eq_add_one_of_ne_zero (Nat.ne_zero_of_lt enough)
      have bytes : cursor.left = ['/'.toUInt8, '*'.toUInt8] ++ encoded rest := whole
      have fewer : (encoded rest).length < bound := by
        change (encoded rest).length + 2 < bound + 1 at enough
        omega
      obtain ⟨body, same, run⟩ := induction (left_past _ bytes) fewer
      refine ⟨'/' :: '*' :: body, congrArg (['/', '*'] ++ ·) same, ?_⟩
      rw [block_comment_opening bytes, run, past_past]
      rfl
  | case3 rest =>
      obtain ⟨bound, rfl⟩ := Nat.exists_eq_add_one_of_ne_zero (Nat.ne_zero_of_lt enough)
      have bytes : cursor.left = ['*'.toUInt8, '/'.toUInt8] ++ encoded rest := whole
      have more : bound ≠ 0 := by
        change (encoded rest).length + 2 < bound + 1 at enough
        omega
      obtain ⟨bound, rfl⟩ := Nat.exists_eq_add_one_of_ne_zero more
      refine ⟨['*', '/'], rfl, ?_⟩
      rw [block_comment_closing bytes]
      rfl
  | case4 inner rest induction =>
      obtain ⟨bound, rfl⟩ := Nat.exists_eq_add_one_of_ne_zero (Nat.ne_zero_of_lt enough)
      have bytes : cursor.left = ['*'.toUInt8, '/'.toUInt8] ++ encoded rest := whole
      have fewer : (encoded rest).length < bound := by
        change (encoded rest).length + 2 < bound + 1 at enough
        omega
      obtain ⟨body, same, run⟩ := induction (left_past _ bytes) fewer
      refine ⟨'*' :: '/' :: body, congrArg (['*', '/'] ++ ·) same, ?_⟩
      rw [block_comment_closing bytes, run, past_past]
      rfl
  | case5 inner first rest noOpening noClosing noLast induction =>
      have size := enough
      rw [encoded_cons, List.length_append] at size
      obtain ⟨bound, rfl⟩ : ∃ others, bound = others + (String.utf8EncodeChar first).length :=
        ⟨bound - (String.utf8EncodeChar first).length, by omega⟩
      have closing (behind : List Char) (isStar : first = '*') (isSlash : rest = '/' :: behind) :
          False := by
        cases inner with
        | zero => exact noClosing behind rfl isStar isSlash
        | succ inner => exact noLast inner behind rfl isStar isSlash
      have fewer : (encoded rest).length < bound := by omega
      obtain ⟨body, same, run⟩ := induction (left_past _ whole) fewer
      refine ⟨first :: body, congrArg (first :: ·) same, ?_⟩
      rw [block_comment_plain whole noOpening closing, run, past_past]
      rfl

end Comments

end Lox.Cursor
