/-!
One action behind another. Rules of the parser and runs of a program both pass on a state until one
of them fails, so how a sequence ends is said once, for all such actions.
-/

namespace Lox

variable {ε σ α β : Type} {first : EStateM ε σ α} {next : α → EStateM ε σ β} {before after : σ}

theorem bind_ok {value : α} (ended : first before = .ok value after) :
    (first >>= next) before = next value after := by
  change EStateM.bind first next before = _
  rw [EStateM.bind, ended]

theorem bind_error {reason : ε} (ended : first before = .error reason after) :
    (first >>= next) before = .error reason after := by
  change EStateM.bind first next before = _
  rw [EStateM.bind, ended]

/-- What comes to something has come through all of its steps. -/
theorem of_bind_ok {result : β} (ended : (first >>= next) before = .ok result after) :
    ∃ value middle, first before = .ok value middle ∧ next value middle = .ok result after := by
  cases began : first before with
  | error reason middle =>
      rw [bind_error began] at ended
      cases ended
  | ok value middle =>
      rw [bind_ok began] at ended
      exact ⟨value, middle, rfl, ended⟩

end Lox
