import Lox.Proofs.Execution.Replies
import Lox.Proofs.Execution.Restoration
import Lox.Proofs.Refusals.Runs

/-!
Sessions whose output is refused from some text on. Such a session is the same as one whose output
is all taken up to the first text that is refused. The step that wanted to write this text ends
right there, with what it has written and a single diagnostic, and the session is back at the top
level, ready for the next step.
-/

namespace Lox

namespace Session

/-- The session with another sink. -/
def onSink (sink : Sink) (session : Session) : Session :=
  { session with machine := session.machine.onSink sink }

section Reading

end Reading

section Steps

variable {supply : Nat} {session last : Session} {entry : Entry} {reply : Reply}

end Steps

section Truncation

variable {full : Session} (isOpen : full.machine.sink = ⟨.unlimited, []⟩)

include isOpen

end Truncation

end Session

end Lox
