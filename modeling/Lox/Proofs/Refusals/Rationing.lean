import Lox.Proofs.Execution.Output

/-!
Running with a ration of texts. Next to a run whose output is all taken, a run that may write only
so many texts does the same up to the first text that is refused, and then stops for good. From
there on the full run may do what it likes, for it never takes back what it has written. So the
plan of each construct is related to the plan of the same construct on a ration, and hence are
their endings and the moments that they reach.
-/

namespace Lox

/-- The machine with room for what is left of a ration of texts. -/
def Machine.rationed (ration : Nat) (machine : Machine) : Machine :=
  machine.onSink ⟨.writes (ration - machine.sink.writes.length), machine.sink.writes⟩

/-- Everything has been taken so far, and a ration of texts would have done. -/
structure Machine.Within (ration : Nat) (machine : Machine) : Prop where
  isOpen : machine.IsOpen
  few : machine.sink.writes.length ≤ ration

theorem Machine.Within.same_sink {ration : Nat} {machine other : Machine}
    (within : machine.Within ration) (same : other.sink = machine.sink) : other.Within ration := by
  obtain ⟨isOpen, few⟩ := within
  unfold Machine.IsOpen at isOpen
  rw [← same] at isOpen few
  exact ⟨isOpen, few⟩

/-- These texts have used up the ration. -/
structure Machine.Spent (ration : Nat) (texts : List String) (machine : Machine) : Prop where
  used : texts.length = ration
  sink : machine.sink = ⟨.writes 0, texts⟩

/-- More texts than a ration have been written. -/
theorem Machine.HasWritten.beyond {ration : Nat} {text : String} {texts : List String}
    {machine : Machine} (written : machine.HasWritten (text :: texts))
    (used : texts.length = ration) : ration < machine.sink.writes.length := by
  have longer := written.length_le
  rw [List.length_cons] at longer
  omega

namespace Ending

variable {α : Type}

theorem machine_on_machine (change : Machine → Machine) (ending : Ending α) :
    (ending.onMachine change).machine = change ending.machine := by
  cases ending <;> rfl

/-- How a run ends whose output is all taken, and how it ends on a ration. -/
inductive Rationed (ration : Nat) : Ending α → Ending α → Prop where
  | kept {ending : Ending α} (within : ending.machine.Within ration) :
      Rationed ration ending (ending.onMachine (Machine.rationed ration))
  | refused {ending : Ending α} {after : Machine} {text : String} {texts : List String}
      (written : ending.machine.HasWritten (text :: texts)) (spent : after.Spent ration texts) :
      Rationed ration ending (.error (.failed .outputClosed) after)

end Ending

namespace Plan

variable {α β : Type}

/-- A plan whose output is all taken, and the same plan on a ration. -/
inductive Rationed (ration : Nat) : Plan α → Plan α → Prop where
  | ended {full limited : Ending α} (endings : full.Rationed ration limited) :
      Rationed ration (.ended full) (.ended limited)
  | ask {calls : Nat} {task : Task} {machine : Machine}
      {resume resume' : Ending task.Answer → Plan α}
      (within : machine.Within ration)
      (later : ∀ full limited, Ending.Rationed ration full limited →
        Rationed ration (resume full) (resume' limited)) :
      Rationed ration (.ask calls task machine resume)
        (.ask calls task (machine.rationed ration) resume')
  | refused {plan : Plan α} {after : Machine} {text : String} {texts : List String}
      (keeps : plan.Keeps (Machine.HasWritten (text :: texts)))
      (spent : after.Spent ration texts) :
      Rationed ration plan (.ended (.error (.failed .outputClosed) after))

namespace Rationed

variable {ration : Nat} {full limited : Plan α} (rationed : full.Rationed ration limited)

include rationed

theorem leaving {change : Machine → Machine}
    (sink : ∀ machine, (change machine).sink = machine.sink)
    (same : ∀ machine, change (machine.rationed ration) = (change machine).rationed ration) :
    (full.leaving change).Rationed ration (limited.leaving change) := by
  have written {texts : List String} (ending : Ending α)
      (before : ending.machine.HasWritten texts) :
      (ending.onMachine change).machine.HasWritten texts := by
    rw [Ending.machine_on_machine]
    unfold Machine.HasWritten
    rw [sink]
    exact before
  induction rationed with
  | @ended ending _ endings =>
      cases endings with
      | refused before spent =>
          exact .ended (.refused (written _ before) ⟨spent.used, (sink _).trans spent.sink⟩)
      | kept within =>
          have still : (ending.onMachine change).machine.Within ration := by
            rw [Ending.machine_on_machine]
            exact within.same_sink (sink _)
          have swapped : (ending.onMachine (Machine.rationed ration)).onMachine change =
              (ending.onMachine change).onMachine (Machine.rationed ration) := by
            cases ending <;> simp only [Ending.onMachine, same]
          exact .ended (swapped ▸ .kept still)
  | ask within later induction => exact .ask within induction
  | refused kept spent =>
      exact .refused (meets_leaving (meets_mono kept fun ending => written ending))
        ⟨spent.used, (sink _).trans spent.sink⟩

theorem deeper : full.deeper.Rationed ration limited.deeper := by
  induction rationed with
  | ended endings => exact .ended endings
  | ask within later induction => exact .ask within induction
  | refused kept spent => exact .refused (meets_deeper kept) spent

end Rationed

section Answers

variable {ration : Nat} {full limited : Plan α} (rationed : full.Rationed ration limited)
  {answers : Answers}
  (same : ∀ task machine, machine.Within ration →
    Ending.Rationed ration (answers task machine) (answers task (machine.rationed ration)))
  (keep : ∀ texts task machine, machine.HasWritten texts →
    (Ending.machine (answers task machine)).HasWritten texts)

include rationed same keep

theorem Rationed.complete :
    Ending.Rationed ration (full.complete answers) (limited.complete answers) := by
  induction rationed with
  | ended endings => exact endings
  | ask within later induction => exact induction _ _ (same _ _ within)
  | refused keeps spent => exact .refused (meets_complete keeps fun _ => keep _) spent

end Answers

end Plan

namespace Run

variable {α : Type} {ration : Nat} {machine : Machine}

end Run

end Lox
