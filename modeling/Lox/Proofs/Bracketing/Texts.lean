import Lox.Proofs.Tokens.Lookahead

/-!
Bracketed texts: words, and lists in parentheses with a word at the head and a space before every
part. Such a text can be read in one way only. A word ends where a space or a parenthesis is, so
that what follows a word or a list is never taken for a part of it.
-/

namespace Lox

inductive Bracketed where
  | word (text : String)
  | list (head : String) (parts : List Bracketed)

namespace Bracketed

mutual

def text : Bracketed → List Char
  | .word text => text.toList
  | .list head parts => '(' :: (head.toList ++ (followers parts ++ [')']))

/-- The parts after the head of a list. -/
def followers : List Bracketed → List Char
  | [] => []
  | first :: rest => ' ' :: (first.text ++ followers rest)

end

def delimits (character : Char) : Bool := character = ' ' || character = '(' || character = ')'

/-- A word that can stand in a bracketed text. -/
structure IsPlain (text : List Char) : Prop where
  nonempty : text ≠ []
  unbroken : ∀ character ∈ text, delimits character = false

instance (text : List Char) : Decidable (IsPlain text) :=
  decidable_of_iff (text ≠ [] ∧ text.any delimits = false)
    (.intro (fun both => ⟨both.1, by simpa using both.2⟩)
      fun plain => ⟨plain.nonempty, by simpa using plain.unbroken⟩)

mutual

/-- All words are such that the text shows where they end. -/
def Proper : Bracketed → Prop
  | .word text => IsPlain text.toList
  | .list head parts => IsPlain head.toList ∧ AllProper parts

def AllProper : List Bracketed → Prop
  | [] => True
  | first :: rest => first.Proper ∧ AllProper rest

end

/-- Nothing follows, or something that ends a word. -/
def Ends (rest : List Char) : Prop := ∀ next ∈ rest.head?, delimits next = true

section Words

variable {text other rest behind : List Char}

/-- No character of a sort without spaces and parentheses ends a word. -/
theorem delimits_no {own : Char → Bool} {character : Char} (holds : own character = true)
    (space : own ' ' = false) (opening : own '(' = false) (closing : own ')' = false) :
    delimits character = false := by
  rw [Bool.eq_false_iff]
  intro delimited
  simp only [delimits, Bool.or_eq_true, decide_eq_true_eq] at delimited
  rcases delimited with (rfl | rfl) | rfl
  · exact Bool.noConfusion (holds.symm.trans space)
  · exact Bool.noConfusion (holds.symm.trans opening)
  · exact Bool.noConfusion (holds.symm.trans closing)

/-- Two plain words with something that ends them are the same if the whole is. -/
theorem plain_apart (plain : IsPlain text) (alsoPlain : IsPlain other) (ends : Ends rest)
    (alsoEnds : Ends behind) (same : text ++ rest = other ++ behind) :
    text = other ∧ rest = behind := by
  have split {text rest : List Char} (plain : IsPlain text) (ends : Ends rest) :
      (text ++ rest).takeWhile (!delimits ·) = text ∧
        (text ++ rest).dropWhile (!delimits ·) = rest :=
    take_while_before (fun character member => by rw [plain.unbroken character member]; rfl)
      fun next isNext => by rw [ends next isNext]; rfl
  obtain ⟨taken, left⟩ := split plain ends
  obtain ⟨alsoTaken, alsoLeft⟩ := split alsoPlain alsoEnds
  rw [same] at taken left
  exact ⟨taken.symm.trans alsoTaken, left.symm.trans alsoLeft⟩

theorem IsPlain.no_list (plain : IsPlain text) : text ++ rest ≠ '(' :: behind := by
  obtain ⟨first, others, rfl⟩ := List.exists_cons_of_ne_nil plain.nonempty
  intro same
  have opens := (List.cons.inj same).1
  have unbroken := plain.unbroken first List.mem_cons_self
  rw [opens] at unbroken
  cases unbroken

theorem ends_nothing : Ends [] := fun _ isNext => absurd isNext (by simp)

theorem ends_closing (rest : List Char) : Ends (')' :: rest) := by
  rintro next ⟨⟩
  rfl

theorem ends_followers (parts : List Bracketed) (rest : List Char) :
    Ends (followers parts ++ ')' :: rest) := by
  cases parts with
  | nil => exact ends_closing rest
  | cons first others =>
      rintro next ⟨⟩
      rfl

end Words

mutual

/-- The text shows what it is a text of, and where it ends. -/
theorem text_apart (bracketed other : Bracketed) (proper : bracketed.Proper)
    (alsoProper : other.Proper) {rest behind : List Char} (ends : Ends rest)
    (alsoEnds : Ends behind) (same : bracketed.text ++ rest = other.text ++ behind) :
    bracketed = other ∧ rest = behind := by
  match bracketed, other with
  | .word text, .word other =>
      obtain ⟨texts, rests⟩ := plain_apart proper alsoProper ends alsoEnds same
      exact ⟨congrArg Bracketed.word (String.toList_injective texts), rests⟩
  | .word text, .list head parts => exact absurd same (IsPlain.no_list proper)
  | .list head parts, .word text => exact absurd same.symm (IsPlain.no_list alsoProper)
  | .list head parts, .list otherHead otherParts =>
      simp only [text, List.cons_append, List.append_assoc, List.cons.injEq, true_and,
        List.nil_append] at same
      obtain ⟨heads, followed⟩ := plain_apart proper.1 alsoProper.1 (ends_followers _ _)
        (ends_followers _ _) same
      obtain ⟨rfl, rests⟩ := followers_apart parts otherParts proper.2 alsoProper.2 followed
      cases String.toList_injective heads
      exact ⟨rfl, rests⟩

theorem followers_apart (parts others : List Bracketed) (proper : AllProper parts)
    (alsoProper : AllProper others) {rest behind : List Char}
    (same : followers parts ++ ')' :: rest = followers others ++ ')' :: behind) :
    parts = others ∧ rest = behind := by
  match parts, others with
  | [], [] => exact ⟨rfl, (List.cons.inj same).2⟩
  | [], second :: others => cases (List.cons.inj same).1
  | first :: parts, [] => cases (List.cons.inj same).1
  | first :: parts, second :: others =>
      simp only [followers, List.cons_append, List.append_assoc, List.cons.injEq,
        true_and] at same
      obtain ⟨rfl, followed⟩ := text_apart first second proper.1 alsoProper.1
        (ends_followers _ _) (ends_followers _ _) same
      obtain ⟨rfl, rests⟩ := followers_apart parts others proper.2 alsoProper.2 followed
      exact ⟨rfl, rests⟩

end

end Bracketed

end Lox
