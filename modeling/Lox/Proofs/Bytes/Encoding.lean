import Lox.Token.Cursor
import Mathlib.Tactic.SplitIfs

/-!
The bytes of a text, character by character. A character that fits into seven bits is one byte,
and every byte of another one has its highest bit set. So a byte that is equal to such a small
character is that character, wherever in the text it is found, and a place between two
characters can be told by the characters before it.
-/

namespace Lox

/-- The bytes of some characters. -/
def encoded (text : List Char) : List UInt8 := text.flatMap String.utf8EncodeChar

section Encoded

@[simp] theorem encoded_nil : encoded [] = [] := rfl

@[simp] theorem encoded_append (front back : List Char) :
    encoded (front ++ back) = encoded front ++ encoded back := List.flatMap_append

theorem encoded_cons (first : Char) (rest : List Char) :
    encoded (first :: rest) = String.utf8EncodeChar first ++ encoded rest := rfl

theorem encoded_source (source : String) : encoded source.toList = source.toUTF8.data.toList := by
  have whole := String.utf8Encode_toList (b := source)
  rw [String.toUTF8_eq_toByteArray, ← whole, List.utf8Encode, List.data_toByteArray,
    List.toList_toArray]
  rfl

theorem encoded_length_source (source : String) :
    (encoded source.toList).length = source.utf8ByteSize := by
  rw [encoded_source, Array.length_toList]
  rfl

theorem encoded_length_suffix {text whole : List Char} (suffix : text <:+ whole) :
    (encoded text).length ≤ (encoded whole).length := by
  obtain ⟨front, rfl⟩ := suffix
  rw [encoded_append, List.length_append]
  exact Nat.le_add_left _ _

theorem encoded_nonempty {text : List Char} (nonempty : text ≠ []) : encoded text ≠ [] := by
  obtain ⟨first, rest, rfl⟩ := List.exists_cons_of_ne_nil nonempty
  exact List.append_ne_nil_of_left_ne_nil String.utf8EncodeChar_ne_nil _

end Encoded

section Characters

/-- The character fits into seven bits. -/
def IsSmall (character : Char) : Prop := character.val ≤ 127

instance (character : Char) : Decidable (IsSmall character) := inferInstanceAs (Decidable (_ ≤ _))

variable {character : Char}

theorem encoded_small (small : IsSmall character) :
    String.utf8EncodeChar character = [character.toUInt8] :=
  String.utf8EncodeChar_eq_singleton (Char.utf8Size_eq_one_iff.mpr small)

theorem encoded_large (large : ¬IsSmall character) :
    ∀ byte ∈ String.utf8EncodeChar character, 128 ≤ byte.toNat := by
  have value : ¬character.val.toNat ≤ 127 := large
  unfold String.utf8EncodeChar
  simp only [value, if_false]
  split_ifs
  all_goals
    simp only [List.forall_mem_cons, UInt8.toNat_ofNat', List.not_mem_nil, false_implies,
      implies_true, and_true]
    omega

theorem small_value (small : IsSmall character) : character.toUInt8.toNat = character.toNat := by
  have value : character.val.toNat ≤ 127 := small
  change character.val.toNat % 256 = character.val.toNat
  omega

/-- A byte of a character that is equal to a small character tells that character. -/
theorem byte_is_character {mark : Char} (small : IsSmall mark) {byte : UInt8}
    (member : byte ∈ String.utf8EncodeChar character) :
    byte = mark.toUInt8 ↔ character = mark := by
  have value := small_value small
  have bounded : mark.toNat ≤ 127 := small
  constructor
  · rintro rfl
    by_cases other : IsSmall character
    · rw [encoded_small other, List.mem_singleton] at member
      rw [← Char.toNat_inj, ← small_value other, ← member, value]
    · have large := encoded_large other _ member
      omega
  · rintro rfl
    rw [encoded_small small, List.mem_singleton] at member
    exact member

/-- Every byte of a character passes the test of bytes just if the character passes that of
characters. -/
def Tells (byByte : UInt8 → Bool) (byCharacter : Char → Bool) : Prop :=
  ∀ character, ∀ byte ∈ String.utf8EncodeChar character, byByte byte = byCharacter character

end Characters

section Tests

variable {byByte : UInt8 → Bool} {byCharacter : Char → Bool}

theorem Tells.unequal (mark : Char) (small : IsSmall mark) :
    Tells (· ≠ mark.toUInt8) (· ≠ mark) :=
  fun _ _ member => decide_eq_decide.mpr (not_congr (byte_is_character small member))

theorem Tells.equal (mark : Char) (small : IsSmall mark) : Tells (· = mark.toUInt8) (· = mark) :=
  fun _ _ member => decide_eq_decide.mpr (byte_is_character small member)

/-- A large character lies above all small ones, and so does each of its bytes. -/
theorem Tells.compare (mark : Char) (small : IsSmall mark) :
    Tells (mark.toUInt8 ≤ ·) (mark ≤ ·) ∧ Tells (· ≤ mark.toUInt8) (· ≤ mark) := by
  have value := small_value small
  have bounded : mark.toNat ≤ 127 := small
  have numbers (character : Char) (byte : UInt8)
      (member : byte ∈ String.utf8EncodeChar character) :
      byte.toNat = character.toNat ∨ 127 < byte.toNat ∧ 127 < character.toNat := by
    by_cases isSmall : IsSmall character
    · rw [encoded_small isSmall, List.mem_singleton] at member
      exact .inl (member ▸ small_value isSmall)
    · exact .inr ⟨encoded_large isSmall byte member, Nat.lt_of_not_le isSmall⟩
  constructor <;> intro character byte member
  · have same := numbers character byte member
    apply decide_eq_decide.mpr
    change mark.toUInt8.toNat ≤ byte.toNat ↔ mark.toNat ≤ character.toNat
    omega
  · have same := numbers character byte member
    apply decide_eq_decide.mpr
    change byte.toNat ≤ mark.toUInt8.toNat ↔ character.toNat ≤ mark.toNat
    omega

variable {otherByByte : UInt8 → Bool} {otherByCharacter : Char → Bool}

theorem Tells.and (tells : Tells byByte byCharacter) (also : Tells otherByByte otherByCharacter) :
    Tells (fun byte => byByte byte && otherByByte byte)
      (fun character => byCharacter character && otherByCharacter character) :=
  fun character byte member => congr (congrArg Bool.and (tells character byte member))
    (also character byte member)

theorem Tells.or (tells : Tells byByte byCharacter) (also : Tells otherByByte otherByCharacter) :
    Tells (fun byte => byByte byte || otherByByte byte)
      (fun character => byCharacter character || otherByCharacter character) :=
  fun character byte member => congr (congrArg Bool.or (tells character byte member))
    (also character byte member)

/-- What passes at the front of the bytes is just what passes at the front of the text. -/
theorem Tells.take_while (tells : Tells byByte byCharacter) (text : List Char) :
    (encoded text).takeWhile byByte = encoded (text.takeWhile byCharacter) := by
  induction text with
  | nil => rfl
  | cons first rest induction =>
      rw [encoded_cons]
      cases passes : byCharacter first with
      | true =>
          have all : ∀ byte ∈ String.utf8EncodeChar first, byByte byte = true :=
            fun byte member => (tells first byte member).trans passes
          rw [List.takeWhile_append_of_pos all, induction, List.takeWhile_cons_of_pos passes,
            encoded_cons]
      | false =>
          obtain ⟨byte, behind, bytes⟩ :=
            List.exists_cons_of_ne_nil (String.utf8EncodeChar_ne_nil (c := first))
          have fails : ¬byByte byte = true := by
            rw [tells first byte (bytes ▸ List.mem_cons_self), passes]
            exact Bool.false_ne_true
          rw [bytes, List.cons_append, List.takeWhile_cons_of_neg fails,
            List.takeWhile_cons_of_neg (by rw [passes]; exact Bool.false_ne_true), encoded_nil]

/-- A small character occurs as often among the bytes as in the text. -/
theorem encoded_count {mark : Char} (small : IsSmall mark) (text : List Char) :
    (encoded text).count mark.toUInt8 = text.count mark := by
  induction text with
  | nil => rfl
  | cons first rest induction =>
      rw [encoded_cons, List.count_append, induction, List.count_cons, Nat.add_comm]
      congr 1
      by_cases same : first = mark
      · rw [same, encoded_small small]
        simp
      · have absent : mark.toUInt8 ∉ String.utf8EncodeChar first :=
          fun member => same ((byte_is_character small member).mp rfl)
        rw [List.count_eq_zero_of_not_mem absent, if_neg (by simpa using same)]

/-- The first byte of a text tells whether a small character begins it. -/
theorem encoded_begins {mark : Char} (small : IsSmall mark) (text : List Char) :
    (encoded text).head? = some mark.toUInt8 ↔ ∃ rest, text = mark :: rest := by
  cases text with
  | nil => simp
  | cons first rest =>
      obtain ⟨byte, behind, bytes⟩ :=
        List.exists_cons_of_ne_nil (String.utf8EncodeChar_ne_nil (c := first))
      have same : byte = mark.toUInt8 ↔ first = mark :=
        byte_is_character small (bytes ▸ List.mem_cons_self)
      simp [encoded_cons, bytes, same]

/-- Whether the first byte of a text passes, which that of the empty text does not. -/
theorem Tells.begins (tells : Tells byByte byCharacter) (stops : byByte 0 = false)
    (text : List Char) :
    byByte ((encoded text).head?.getD 0) = text.head?.any byCharacter := by
  cases text with
  | nil => exact stops
  | cons first rest =>
      obtain ⟨byte, behind, bytes⟩ :=
        List.exists_cons_of_ne_nil (String.utf8EncodeChar_ne_nil (c := first))
      rw [encoded_cons, bytes, List.cons_append, List.head?_cons, Option.getD_some,
        tells first byte (bytes ▸ List.mem_cons_self)]
      rfl

end Tests

section Places

variable {source : String} {front middle back : List Char}

/-- The bytes of some characters at the front of a text end between two of its characters. -/
theorem place_between (whole : source.toList = front ++ back) :
    String.Pos.Raw.IsValid source ⟨(encoded front).length⟩ := by
  refine String.Pos.Raw.isValid_iff_exists_append.mpr
    ⟨String.ofList front, String.ofList back, ?_, ?_⟩
  · rw [← String.ofList_append, ← whole, String.ofList_toList]
  · rw [String.rawEndPos, ← encoded_length_source, String.toList_ofList]

/-- What is cut out of a text between two such places. -/
theorem cut_out (whole : source.toList = front ++ middle ++ back)
    {first : String.Pos.Raw.IsValid source ⟨(encoded front).length⟩}
    {last : String.Pos.Raw.IsValid source ⟨(encoded (front ++ middle)).length⟩} :
    source.extract (source.pos ⟨(encoded front).length⟩ first)
      (source.pos ⟨(encoded (front ++ middle)).length⟩ last) = String.ofList middle := by
  have size (text : List Char) : text.utf8Encode.size = (encoded text).length :=
    List.size_toByteArray
  have bytes : source.toByteArray = front.utf8Encode ++ middle.utf8Encode ++ back.utf8Encode := by
    rw [← String.utf8Encode_toList, whole, List.utf8Encode_append, List.utf8Encode_append]
  have place : (encoded (front ++ middle)).length =
      (front.utf8Encode ++ middle.utf8Encode).size := by
    rw [← List.utf8Encode_append, size]
  have nothing {place : Nat} : back.utf8Encode.extract place 0 = ByteArray.empty :=
    ByteArray.extract_eq_empty_iff.mpr (by omega)
  apply String.toByteArray_inj.mp
  rw [String.toByteArray_extract, String.offset_pos, String.offset_pos, String.toByteArray_ofList,
    bytes, ByteArray.extract_append, place, Nat.sub_self, nothing, ByteArray.append_empty,
    ByteArray.extract_append_eq_right (size front).symm ByteArray.size_append]

end Places

end Lox
