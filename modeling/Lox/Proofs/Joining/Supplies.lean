import Lox.Proofs.Execution.Constructs
import Lox.Proofs.Execution.Steps

/-!
Runs with a larger supply. A run that does not give up does not notice how much is
left of its supply, so that with more of it the run is the same. How a source text
ends in a session is therefore a matter of the session alone.
-/

namespace Lox

namespace Run

variable {α β : Type}

def GivesUp (action : Run α) (machine : Machine) : Prop :=
  ∃ after, action machine = .error .exhausted after

/-- What the first run does, unless it gives up, the second one does as well. -/
def Outlasted (action longer : Run α) : Prop :=
  ∀ machine, action.GivesUp machine ∨ longer machine = action machine

theorem bind_outlasted {action longer : Run α} {next nextLonger : α → Run β}
    (first : action.Outlasted longer)
    (second : ∀ value, (next value).Outlasted (nextLonger value)) :
    (action >>= next).Outlasted (longer >>= nextLonger) := by
  intro machine
  rcases first machine with ⟨after, gaveUp⟩ | same
  · exact .inl ⟨after, bind_error gaveUp⟩
  · cases ended : action machine with
    | error halt after =>
        rw [ended] at same
        exact .inr ((bind_error same).trans (bind_error ended).symm)
    | ok value middle =>
        rw [ended] at same
        unfold GivesUp
        rw [bind_ok same, bind_ok ended]
        exact second value middle

theorem within_outlasted {action longer : Run α} (scope : ScopeId)
    (inner : action.Outlasted longer) : (within scope action).Outlasted (within scope longer) := by
  intro machine
  unfold GivesUp within
  dsimp only
  rcases inner { machine with current := scope } with ⟨after, gaveUp⟩ | same
  · exact .inl ⟨_, by rw [gaveUp]⟩
  · exact .inr (by rw [same])

theorem nested_outlasted {action longer : Run α} (line : Nat) (inner : action.Outlasted longer) :
    (nested line action).Outlasted (nested line longer) := by
  intro machine
  unfold GivesUp nested
  split_ifs
  · exact .inr rfl
  · rcases inner { machine with depth := machine.depth + 1 } with ⟨after, gaveUp⟩ | same
    · exact .inl ⟨_, by rw [gaveUp]⟩
    · exact .inr (by rw [same])

/-- To be outlasted, as a relation that constructs pass on. -/
def endurance : Setting.Relation Run Run where
  Related := Outlasted
  pure _ _ := .inr rfl
  bind := bind_outlasted
  act _ _ := .inr rfl
  within := within_outlasted
  nested := nested_outlasted

theorem parts_outlasted {supply more : Nat} (enough : supply ≤ more) :
    endurance.OfParts (Parts.supplied supply) (Parts.supplied more) := by
  induction supply generalizing more with
  | zero => exact ⟨fun _ _ => .inl ⟨_, rfl⟩, fun _ _ => .inl ⟨_, rfl⟩, fun _ _ _ => .inl ⟨_, rfl⟩⟩
  | succ supply induction =>
      obtain ⟨more, rfl⟩ := Nat.exists_eq_succ_of_ne_zero (Nat.ne_zero_of_lt enough)
      have parts := induction (Nat.le_of_succ_le_succ enough)
      exact ⟨Setting.Relation.evaluation_related parts, Setting.Relation.execution_related parts,
        Setting.Relation.application_related parts⟩

theorem program_outlasted {supply more : Nat} (enough : supply ≤ more)
    (statements : List Statement) :
    (runProgram supply statements).Outlasted (runProgram more statements) :=
  Setting.Relation.program_related (parts_outlasted enough) statements

end Run

namespace Session

/-- The source text, run in the session, comes to an end with this report. -/
def Ends (session : Session) (source : String) (report : Report) (last : Session) : Prop :=
  ∃ supply, session.run supply source = some (report, last)

theorem run_longer {session last : Session} {source : String} {report : Report}
    {supply more : Nat} (enough : supply ≤ more)
    (ended : session.run supply source = some (report, last)) :
    session.run more source = some (report, last) := by
  unfold run at ended ⊢
  generalize session.prepare source parseProgram Bindings.ofProgram = prepared at ended ⊢
  obtain ⟨diagnostics | statements, next⟩ := prepared
  · exact ended
  · dsimp only at ended ⊢
    rcases Run.program_outlasted enough statements next.machine with ⟨after, gaveUp⟩ | same
    · rw [gaveUp] at ended
      cases ended
    · rwa [same]

/-- There is one way to end at most. -/
theorem Ends.unique {session last last' : Session} {source : String} {report report' : Report}
    (ends : session.Ends source report last) (also : session.Ends source report' last') :
    report' = report ∧ last' = last := by
  obtain ⟨supply, ended⟩ := ends
  obtain ⟨other, alsoEnded⟩ := also
  have first := run_longer (Nat.le_max_left supply other) ended
  rw [run_longer (Nat.le_max_right supply other) alsoEnded] at first
  cases first
  exact ⟨rfl, rfl⟩

end Session

end Lox
