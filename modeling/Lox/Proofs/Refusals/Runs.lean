import Lox.Proofs.Refusals.Rationing

/-!
Whole runs on a ration of texts. Each construct passes on that its parts do the same on a ration
as without one, up to the first text that is refused. Hence every task ends in this way, and a line
comes to exactly those moments at which the ration has not been used up.
-/

namespace Lox

/-- The moment of a run on a ration. -/
def Moment.rationed (ration : Nat) (moment : Moment) : Moment :=
  { moment with machine := moment.machine.rationed ration }

namespace Planning

variable {α β : Type}

/-- What has been written stays written, and on a ration the same is done up to the first text that
is refused. -/
structure Rationed (ration : Nat) (planned : Planning α) : Prop where
  keeps (texts : List String) : planned.Keeps (Machine.HasWritten texts)
  within (machine : Machine) (within : machine.Within ration) :
    (planned machine).Rationed ration (planned (machine.rationed ration))

variable {ration : Nat}

end Planning

section Runs

variable {ration : Nat}

end Runs

section Moments

variable {ration : Nat}

variable {line : Line} {machine : Machine}

end Moments

end Lox
