import Lox.Proofs.Exchange.Rules
import Lox.Proofs.Recovery.Ends

/-!
Programs with one statement in the place of another. Wherever in a program that is accepted the
first of two exchangeable statements stands, the second one can stand as well, and the trees differ
in their numbers alone.
-/

namespace Lox

open Rule

theorem program_exchanged {exchange : Exchange} {front here there : List Token} {ending : Token}
    {firstId next : Nat} {orders : List Statement} (isHere : exchange.here = here ++ [ending])
    (isThere : exchange.there = there ++ [ending]) (ends : ending.kind = .endOfInput)
    (inner : ∀ token ∈ front ++ here, token.kind ≠ .endOfInput)
    (innerThere : ∀ token ∈ front ++ there, token.kind ≠ .endOfInput)
    (parsed : parseProgram (front ++ here ++ [ending]) firstId = ⟨.ok orders, next⟩) :
    ∃ orders', parseProgram (front ++ there ++ [ending]) firstId = ⟨.ok orders', next⟩ ∧
      (Node.statements orders).SameButNumbers (.statements orders') := by
  obtain ⟨rest, run⟩ := program_run parsed
  -- one bound for both programs, with which the statement is reached
  obtain ⟨bound, isBound⟩ : ∃ bound, nesting (front ++ here ++ [ending]) ≤ bound ∧
      nesting (front ++ there ++ [ending]) ≤ bound ∧
      Clearance exchange 5 (front.length + 1) bound := by
    refine ⟨nesting (front ++ here ++ [ending]) + nesting (front ++ there ++ [ending]) +
      exchange.bound, by omega, by omega, .inr ?_⟩
    simp only [nesting, List.length_append]
    omega
  have ran := (program_bounded inner ends isBound.1 firstId).trans run
  have each := (all_exchange exchange bound).declaration _ isBound.2.2
  have exchanges := Exchanges.declarations each (· = .endOfInput) (by decide) bound
  have beside : exchange.Beside (front.length + 1) ⟨front ++ exchange.here, firstId, []⟩
      ⟨front ++ exchange.there, firstId, []⟩ := .before (Nat.lt_succ_self _) _ _
  rw [isHere, isThere, ← List.append_assoc, ← List.append_assoc] at beside
  obtain ⟨orders', last, ranToo, trees, behind, numbers⟩ :=
    exchanges.ends _ (Nat.le_refl _) _ _ beside trivial trivial orders _ ran rfl
  rw [program_bounded innerThere ends isBound.2.1 firstId] at ranToo
  have quiet : last.complaints = [] := by cases behind <;> rfl
  have same : last.nextId = next := Nat.add_right_cancel numbers
  refine ⟨orders', ?_, ?_⟩
  · unfold parseProgram
    dsimp only [Reading.start]
    rw [ranToo]
    simp only [Reading.finish, quiet, same, List.isEmpty_nil, if_true]
  · rw [Node.SameButNumbers, Node.relabel, Node.relabel, Statement.relabel_all_eq,
      Statement.relabel_all_eq]
    exact congrArg Node.statements trees

end Lox
