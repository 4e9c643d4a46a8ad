import Lox.Proofs.Grammar.Completeness
import Lox.Proofs.Grammar.Soundness

/-!
Reading a whole token list succeeds on exactly the lists that the grammar derives.
-/

namespace Lox

open Phrase

/-- What was read up to the end of the input is all that stands before it. -/
theorem read_all {tokens read rest : List Token} {ending : Token}
    (split : tokens ++ [ending] = read ++ rest) (stops : leading rest = .endOfInput)
    (ends : ending.kind = .endOfInput) (inner : ∀ token ∈ tokens, token.kind ≠ .endOfInput)
    (proper : ∀ token ∈ read, token.kind ≠ .endOfInput) : read = tokens := by
  rcases List.append_eq_append_iff.mp split with ⟨more, rfl, last⟩ | ⟨more, rfl, last⟩
  · cases more with
    | nil => exact List.append_nil tokens
    | cons first others =>
        obtain ⟨rfl, -⟩ := List.cons.inj last
        exact absurd ends (proper ending (List.mem_append.mpr (.inr List.mem_cons_self)))
  · cases more with
    | nil => exact (List.append_nil read).symm
    | cons first others =>
        rw [last] at stops
        exact absurd stops (inner first (List.mem_append.mpr (.inr List.mem_cons_self)))

section Reading

variable {tokens : List Token} {ending : Token} {firstId : Nat}
  (inner : ∀ token ∈ tokens, token.kind ≠ .endOfInput) (ends : ending.kind = .endOfInput)

include inner ends

theorem program_derived {statements : List Statement}
    (accepted : (parseProgram (tokens ++ [ending]) firstId).outcome = .ok statements) :
    Derives (form .program) tokens := by
  obtain ⟨-, read, rest, split, stops, derived⟩ :=
    (program_read (tokens ++ [ending]) firstId).2 statements accepted
  rwa [← read_all split stops ends inner (derives_inner derived rfl)]

theorem expression_derived {value : Expression}
    (accepted : (parseExpression (tokens ++ [ending]) firstId).outcome = .ok value) :
    Derives (form .expression) tokens := by
  obtain ⟨-, read, rest, split, stops, derived⟩ :=
    (expression_read (tokens ++ [ending]) firstId).2 value accepted
  rwa [← read_all split stops ends inner (derives_inner derived rfl)]

end Reading

/-- A token list that ends where the input does is accepted as a program, or as an
expression, exactly if the grammar derives it as one. -/
theorem accepted_iff_derived (tokens : List Token) (ending : Token) (firstId : Nat)
    (inner : ∀ token ∈ tokens, token.kind ≠ .endOfInput) (ends : ending.kind = .endOfInput) :
    ((∃ statements, (parseProgram (tokens ++ [ending]) firstId).outcome = .ok statements) ↔
      Derives (form .program) tokens) ∧
    ((∃ value, (parseExpression (tokens ++ [ending]) firstId).outcome = .ok value) ↔
      Derives (form .expression) tokens) := by
  refine ⟨⟨?_, program_accepted ending firstId ends⟩, ⟨?_, expression_accepted ending firstId ends⟩⟩
  · rintro ⟨statements, accepted⟩
    exact program_derived inner ends accepted
  · rintro ⟨value, accepted⟩
    exact expression_derived inner ends accepted

/-- A property can be assigned to, but a name in parentheses cannot. -/
theorem property_assignment_derived :
    Derives (form .program) [⟨.identifier, "a", 1⟩, ⟨.dot, ".", 1⟩, ⟨.identifier, "b", 1⟩,
      ⟨.equal, "=", 1⟩, ⟨.identifier, "c", 1⟩, ⟨.semicolon, ";", 1⟩] ∧
    ¬ Derives (form .program) [⟨.leftParen, "(", 1⟩, ⟨.identifier, "a", 1⟩, ⟨.rightParen, ")", 1⟩,
      ⟨.equal, "=", 1⟩, ⟨.identifier, "c", 1⟩, ⟨.semicolon, ";", 1⟩] := by
  constructor
  · exact (accepted_iff_derived _ ⟨.endOfInput, "", 1⟩ 0 (by decide) rfl).1.mp ⟨_, rfl⟩
  · intro derived
    obtain ⟨statements, accepted⟩ :=
      (accepted_iff_derived _ ⟨.endOfInput, "", 1⟩ 0 (by decide) rfl).1.mpr derived
    cases accepted

end Lox
