import Lox.Number.Text
import Lox.Proofs.Numerals.Ranges
import Mathlib.Data.List.TakeWhile
import Mathlib.Data.Nat.Cast.Field

/-!
Numbers told apart by how they are written. A positional text is read as a decimal again, and the
text of a double stands for a decimal that reads back as it: whole numbers are written out exactly,
all others with their shortest digits. So two finite doubles that are written in the same way, in
any style that puts nothing or a zero behind whole numbers, are the same double.
-/

namespace Lox.Number

/-- The decimal that digits stand for, with a point among them or not. -/
def Decimal.ofText (text : List Char) : Decimal :=
  ⟨Nat.ofDigitChars 10 (text.filter (· ≠ '.')) 0, -((text.dropWhile (· ≠ '.')).drop 1).length⟩

/-- A text that starts with a digit and is made of digits and points. -/
structure IsPositional (text : List Char) : Prop where
  begins : text.head?.any Char.isDigit = true
  digits : ∀ character ∈ text, character.isDigit = true ∨ character = '.'

theorem IsPositional.nonempty {text : List Char} (isPositional : IsPositional text) :
    text ≠ [] := by
  rintro rfl
  cases isPositional.begins

/-- A sign in front of a positional text is not part of it. -/
theorem IsPositional.sign_apart {text other : List Char} {signed alsoSigned : Prop}
    [Decidable signed] [Decidable alsoSigned] (isPositional : IsPositional text)
    (alsoPositional : IsPositional other)
    (same : (if signed then ['-'] else []) ++ text = (if alsoSigned then ['-'] else []) ++ other) :
    (signed ↔ alsoSigned) ∧ text = other := by
  have noSign {text rest : List Char} (begins : text = '-' :: rest) : ¬IsPositional text := by
    rintro ⟨digit, -⟩
    rw [begins] at digit
    cases digit
  by_cases first : signed <;> by_cases second : alsoSigned <;>
    simp only [first, second, if_true, if_false, List.nil_append, List.singleton_append] at same
  · exact ⟨by simp only [first, second], (List.cons.inj same).2⟩
  · exact absurd alsoPositional (noSign same.symm)
  · exact absurd isPositional (noSign same)
  · exact ⟨by simp only [first, second], same⟩

section Digits

variable {whole fraction text : List Char}

theorem digits_of_nat (number : Nat) : (toString number).toList = Nat.toDigits 10 number := by
  rw [Nat.toString_eq_ofList_toDigits, String.toList_ofList]

theorem to_digits_digits (number : Nat) :
    ∀ character ∈ Nat.toDigits 10 number, character.isDigit = true :=
  fun _ => Nat.isDigit_of_mem_toDigits (by decide) (by decide)

theorem zeros_text (count : Nat) : ("".pushn '0' count).toList = List.replicate count '0' := by
  rw [String.pushn_eq_repeat_push]
  induction count with
  | zero => rfl
  | succ count induction =>
      rw [Nat.repeat, String.toList_push, induction, List.replicate_succ']

theorem zeros_digits (count : Nat) :
    ∀ character ∈ List.replicate count '0', character.isDigit = true := by
  intro character member
  rw [List.eq_of_mem_replicate member]
  rfl

theorem digit_no_point {character : Char} (digit : character.isDigit = true) : character ≠ '.' := by
  rintro rfl
  cases digit

theorem of_text_whole (digits : ∀ character ∈ text, character.isDigit = true) :
    Decimal.ofText text = ⟨Nat.ofDigitChars 10 text 0, 0⟩ := by
  have noPoint : ∀ character ∈ text, decide (character ≠ '.') = true :=
    fun character member => decide_eq_true (digit_no_point (digits character member))
  have nothing : text.dropWhile (· ≠ '.') = [] := List.dropWhile_eq_nil_iff.mpr noPoint
  rw [Decimal.ofText, List.filter_eq_self.mpr noPoint, nothing]
  rfl

theorem of_text_fraction (first : ∀ character ∈ whole, character.isDigit = true)
    (second : ∀ character ∈ fraction, character.isDigit = true) :
    Decimal.ofText (whole ++ '.' :: fraction) =
      ⟨Nat.ofDigitChars 10 (whole ++ fraction) 0, -fraction.length⟩ := by
  have noPoint {part : List Char} (digits : ∀ character ∈ part, character.isDigit = true) :
      ∀ character ∈ part, decide (character ≠ '.') = true :=
    fun character member => decide_eq_true (digit_no_point (digits character member))
  have after : (whole ++ '.' :: fraction).dropWhile (· ≠ '.') = '.' :: fraction := by
    rw [List.dropWhile_append_of_pos (noPoint first)]
    rfl
  rw [Decimal.ofText, after, List.filter_append, List.filter_cons_of_neg (by simp),
    List.filter_eq_self.mpr (noPoint first), List.filter_eq_self.mpr (noPoint second)]
  rfl

theorem positional_of_digits (begins : whole ≠ [])
    (first : ∀ character ∈ whole, character.isDigit = true)
    (second : ∀ character ∈ text, character.isDigit = true ∨ character = '.') :
    IsPositional (whole ++ text) := by
  obtain ⟨head, rest, rfl⟩ := List.exists_cons_of_ne_nil begins
  refine ⟨first head List.mem_cons_self, fun character member => ?_⟩
  exact (List.mem_append.mp member).elim (fun inFirst => .inl (first _ inFirst)) (second _)

end Digits

section Positional

theorem positional_whole {number : Decimal} (whole : 0 ≤ number.exponent) :
    number.positional.toList =
      Nat.toDigits 10 number.digits ++ List.replicate number.exponent.toNat '0' := by
  rw [Decimal.positional, if_pos whole, String.toList_append, zeros_text, digits_of_nat]

/-- The digits are filled up with zeros in front, and the point stands where they are cut. -/
theorem positional_fraction {number : Decimal} (fractional : ¬0 ≤ number.exponent) :
    ∃ zeros whole fraction, number.positional.toList = whole ++ '.' :: fraction ∧
      ((∀ character ∈ whole, character.isDigit = true) ∧
        ∀ character ∈ fraction, character.isDigit = true) ∧
      whole ++ fraction = List.replicate zeros '0' ++ Nat.toDigits 10 number.digits ∧
      whole ≠ [] ∧ (fraction.length : Int) = -number.exponent := by
  have length : (toString number.digits).length = (Nat.toDigits 10 number.digits).length := by
    rw [← String.length_toList, digits_of_nat]
  let places := (-number.exponent).toNat
  let zeros := places + 1 - (toString number.digits).length
  let padded := List.replicate zeros '0' ++ Nat.toDigits 10 number.digits
  have enough : places + 1 ≤ padded.length := by
    simp only [padded, zeros, List.length_append, List.length_replicate, length]
    omega
  have cut : padded.take (padded.length - places) ++ padded.drop (padded.length - places) =
      padded := List.take_append_drop ..
  have digits : ∀ character ∈ padded, character.isDigit = true :=
    List.forall_mem_append.mpr ⟨zeros_digits _, to_digits_digits _⟩
  rw [← cut] at digits
  refine ⟨zeros, padded.take (padded.length - places), padded.drop (padded.length - places),
    ?_, List.forall_mem_append.mp digits, cut, ?_, ?_⟩
  · rw [Decimal.positional, if_neg fractional]
    simp only [String.toList_append, String.toList_ofList, zeros_text, digits_of_nat]
    rw [List.append_assoc]
    rfl
  · rw [← List.length_pos_iff, List.length_take]
    omega
  · rw [List.length_drop]
    omega

variable (number : Decimal)

theorem positional_is_positional : IsPositional number.positional.toList := by
  by_cases whole : 0 ≤ number.exponent
  · rw [positional_whole whole]
    exact positional_of_digits Nat.toDigits_ne_nil (to_digits_digits _) fun _ member =>
      .inl (zeros_digits _ _ member)
  · obtain ⟨zeros, front, fraction, text, ⟨first, second⟩, -, begins, -⟩ :=
      positional_fraction whole
    rw [text]
    refine positional_of_digits begins first fun character member => ?_
    rcases List.mem_cons.mp member with point | digit
    · exact .inr point
    · exact .inl (second character digit)

/-- What is written positionally is read as the number again. -/
theorem positional_reads : (Decimal.ofText number.positional.toList).value = number.value := by
  by_cases whole : 0 ≤ number.exponent
  · have digits : ∀ character ∈ Nat.toDigits 10 number.digits ++
        List.replicate number.exponent.toNat '0', character.isDigit = true :=
      List.forall_mem_append.mpr ⟨to_digits_digits _, zeros_digits _⟩
    obtain ⟨places, isPlaces⟩ := Int.eq_ofNat_of_zero_le whole
    rw [positional_whole whole, of_text_whole digits, Nat.ofDigitChars_append,
      Nat.ofDigitChars_replicate_zero, Nat.ofDigitChars_ten_toDigits, Decimal.value, Decimal.value,
      isPlaces]
    simp [mul_comm]
  · obtain ⟨zeros, front, fraction, text, ⟨first, second⟩, cut, -, places⟩ :=
      positional_fraction whole
    rw [text, of_text_fraction first second, cut, Nat.ofDigitChars_append,
      Nat.ofDigitChars_replicate_zero, Nat.mul_zero, Nat.ofDigitChars_ten_toDigits, places, neg_neg]

end Positional

section Styles

/-- Whole numbers are written as such, at most with a zero behind the point. -/
def Style.Plain (style : Style) : Prop := style.wholeTail = "" ∨ style.wholeTail = ".0"

theorem Binary.value_of_whole {magnitude : Binary} {whole : Nat}
    (isWhole : magnitude.toNat? = some whole) : magnitude.value = whole := by
  unfold toNat? at isWhole
  dsimp only at isWhole
  rw [value]
  split_ifs at isWhole with exponent divides
  · obtain ⟨places, isPlaces⟩ := Int.eq_ofNat_of_zero_le exponent
    cases isWhole
    rw [isPlaces]
    simp
  · obtain ⟨places, isPlaces⟩ : ∃ places : ℕ, magnitude.exponent = -places :=
      ⟨(-magnitude.exponent).toNat, by omega⟩
    cases isWhole
    rw [isPlaces] at divides ⊢
    simp only [neg_neg, Int.toNat_natCast, Nat.pow_eq] at divides ⊢
    rw [Nat.cast_div (Nat.dvd_of_mod_eq_zero divides) (by positivity), zpow_neg, zpow_natCast]
    simp [div_eq_mul_inv]

variable {style : Style} (plain : style.Plain) (magnitude : Binary)

include plain

theorem whole_positional (whole : Nat) :
    IsPositional (toString whole ++ style.wholeTail).toList ∧
      (Decimal.ofText (toString whole ++ style.wholeTail).toList).value = whole := by
  rw [String.toList_append, digits_of_nat]
  rcases plain with nothing | zero
  · rw [nothing]
    have nothingMore := List.forall_mem_nil fun character =>
      character.isDigit = true ∨ character = '.'
    refine ⟨positional_of_digits Nat.toDigits_ne_nil (to_digits_digits _) nothingMore, ?_⟩
    rw [String.toList_empty, List.append_nil, of_text_whole (to_digits_digits _),
      Nat.ofDigitChars_ten_toDigits]
    simp [Decimal.value]
  · rw [zero]
    have single : ∀ character ∈ ['0'], character.isDigit = true :=
      List.forall_mem_singleton.mpr rfl
    have behind : ∀ character ∈ ['.', '0'], character.isDigit = true ∨ character = '.' :=
      List.forall_mem_cons.mpr ⟨.inr rfl, fun _ member => .inl (single _ member)⟩
    refine ⟨positional_of_digits Nat.toDigits_ne_nil (to_digits_digits _) behind, ?_⟩
    change (Decimal.ofText (_ ++ '.' :: ['0'])).value = _
    rw [of_text_fraction (to_digits_digits _) single, Nat.ofDigitChars_append,
      Nat.ofDigitChars_ten_toDigits]
    have digit : (Nat.ofDigitChars 10 ['0'] whole : ℚ) = 10 * whole := by simp [Nat.ofDigitChars]
    rw [Decimal.value, digit, List.length_singleton, Nat.cast_one, zpow_neg_one]
    exact mul_div_cancel_left₀ _ (by norm_num)

theorem magnitude_positional : IsPositional (style.magnitude magnitude).toList := by
  unfold Style.magnitude
  dsimp only
  split
  · split_ifs
    · exact (whole_positional plain _).1
    · exact positional_is_positional _
  · exact positional_is_positional _

/-- The text of a magnitude stands for a decimal that reads back as it. -/
theorem magnitude_covers_text :
    magnitude.Covers (Decimal.ofText (style.magnitude magnitude).toList).value := by
  have shortest : magnitude.Covers
      (Decimal.ofText (magnitude.shortest .upward).positional.toList).value := by
    rw [positional_reads]
    exact magnitude.shortest_covered .upward
  unfold Style.magnitude
  dsimp only
  cases isWhole : magnitude.toNat? with
  | none => exact shortest
  | some whole =>
      dsimp only
      split_ifs
      · rw [(whole_positional plain whole).2, ← Binary.value_of_whole isWhole]
        exact magnitude.covers_value
      · exact shortest

end Styles

section Doubles

/-- Only the field of the exponent tells whether a coefficient has a leading bit. -/
theorem bits_of_parts {bits other : UInt64} (magnitude : Binary.ofBits bits = Binary.ofBits other)
    (sign : Nat.pow 2 63 ≤ bits.toNat ↔ Nat.pow 2 63 ≤ other.toNat) : bits = other := by
  have bounded := bits.toNat_lt
  have alsoBounded := other.toNat_lt
  have signBit : Nat.pow 2 63 = 9223372036854775808 := by decide
  rw [signBit] at sign
  rw [Binary.ofBits, Binary.ofBits, two_pow_52, two_pow_11] at magnitude
  refine UInt64.toNat_inj.mp ?_
  split_ifs at magnitude <;>
    simp only [Binary.mk.injEq] at magnitude <;> omega

theorem eq_of_same_bits {number other : Float} (bits : number.toBits = other.toBits) :
    number = other := by
  obtain ⟨⟨ownBits, valid⟩⟩ := number
  obtain ⟨⟨otherBits, alsoValid⟩⟩ := other
  cases bits
  rfl

theorem shape_of_finite {number : Float} (finite : number.isFinite = true) :
    Shape.ofFloat number =
      .finite (number.toBits.toNat ≥ Nat.pow 2 63) (.ofBits number.toBits) := by
  have neither : number.isNaN = false ∧ number.isInf = false := by
    change number.toModel.unpack.isFinite = true at finite
    change number.toModel.unpack.isNaN = false ∧ number.toModel.unpack.isInf = false
    generalize number.toModel.unpack = unpacked at finite ⊢
    cases unpacked with
    | notANumber | infinity => cases finite
    | zero | finite => exact ⟨rfl, rfl⟩
  rw [Shape.ofFloat, neither.1, neither.2]
  rfl

variable {style : Style} (plain : style.Plain) {number other : Float}

/-- A finite double is written as a positional text, after a sign if it is negative. -/
theorem render_finite (style : Style) (finite : number.isFinite = true) :
    (style.render number).toList =
      (if number.toBits.toNat ≥ Nat.pow 2 63 then ['-'] else []) ++
        (style.magnitude (.ofBits number.toBits)).toList := by
  rw [Style.render, shape_of_finite finite]
  dsimp only
  simp only [decide_eq_true_eq]
  split_ifs
  · exact String.toList_append ..
  · rfl

include plain

theorem rendered_characters (finite : number.isFinite = true) :
    (style.render number).toList ≠ [] ∧ ∀ character ∈ (style.render number).toList,
      character.isDigit = true ∨ character = '.' ∨ character = '-' := by
  have isPositional := magnitude_positional plain (.ofBits number.toBits)
  rw [render_finite style finite]
  refine ⟨List.append_ne_nil_of_right_ne_nil _ isPositional.nonempty, fun character member => ?_⟩
  rcases List.mem_append.mp member with sign | inText
  · split_ifs at sign
    · exact .inr (.inr (List.mem_singleton.mp sign))
    · cases sign
  · rcases isPositional.digits character inText with digit | point
    · exact .inl digit
    · exact .inr (.inl point)

/-- Finite doubles that are written in the same way are the same. -/
theorem render_injective (finite : number.isFinite = true) (alsoFinite : other.isFinite = true)
    (same : style.render number = style.render other) : number = other := by
  have texts := congrArg String.toList same
  rw [render_finite style finite, render_finite style alsoFinite] at texts
  obtain ⟨sign, magnitudes⟩ := (magnitude_positional plain (.ofBits number.toBits)).sign_apart
    (magnitude_positional plain (.ofBits other.toBits)) texts
  have covers := magnitude_covers_text plain (.ofBits number.toBits)
  rw [magnitudes] at covers
  have alsoCovers := magnitude_covers_text plain (.ofBits other.toBits)
  have magnitude := covers.unique (canonical_of_bits _) (canonical_of_bits _) alsoCovers
  exact eq_of_same_bits (bits_of_parts magnitude sign)

end Doubles

end Lox.Number
