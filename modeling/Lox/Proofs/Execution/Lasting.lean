import Lox.Proofs.Execution.Moments

/-!
What lasts throughout a run. A property of machines that no primitive step takes away, and
that does not depend on where and how deep a run is, holds at all moments of a run that
begins with it, and however that run ends.
-/

namespace Lox

structure Lasting (property : Machine → Prop) : Prop where
  act {α : Type} {action : Run α} (primitive : Run.Primitive action) (machine : Machine)
    (before : property machine) : property (Ending.machine (action machine))
  moved (machine : Machine) (scope : ScopeId) (depth : Nat) (before : property machine) :
    property { machine with current := scope, depth := depth }

/-- Every task may count on the property, and leaves it behind. -/
def Contracts.keeping (property : Machine → Prop) : Contracts Unit where
  duty _ _ := property
  effect _ _ _ ending := property (Ending.machine ending)
  inside _ _ _ _ := ()

/-- The contract of every part of a plan that keeps a property. -/
abbrev Contract.keeping (property : Machine → Prop) : Contract :=
  (Contracts.keeping property).under fun _ => ()

/-- Whatever the parts of the plan do that keep the property, the plan leaves it behind. -/
def Plan.Keeps {α : Type} (property : Machine → Prop) (plan : Plan α) : Prop :=
  plan.Meets (.keeping property) fun ending => property ending.machine

namespace Planning

variable {α β : Type} {property : Machine → Prop}

def Keeps (property : Machine → Prop) (planned : Planning α) : Prop :=
  ∀ machine, property machine → (planned machine).Keeps property

theorem bind_keeps {planned : Planning α} {next : α → Planning β}
    (first : planned.Keeps property) (later : ∀ value, (next value).Keeps property) :
    (planned >>= next).Keeps property := by
  intro machine before
  apply Plan.meets_followed_by
  apply Plan.meets_mono (first machine before)
  intro ending kept
  cases ending with
  | error halt after => exact kept
  | ok value after => exact later value after kept

variable (lasting : Lasting property)

include lasting

theorem within_keeps {planned : Planning α} (scope : ScopeId) (inner : planned.Keeps property) :
    (Setting.within scope planned : Planning α).Keeps property := by
  intro machine before
  apply Plan.meets_leaving
  apply Plan.meets_mono (inner _ (lasting.moved machine scope machine.depth before))
  intro ending kept
  cases ending <;> exact lasting.moved _ machine.current _ kept

theorem nested_keeps {planned : Planning α} (line : Nat) (inner : planned.Keeps property) :
    (Setting.nested line planned : Planning α).Keeps property := by
  intro machine before
  change Plan.Meets _ _ (if callLimit ≤ machine.depth then _ else _)
  split_ifs with full
  · exact before
  · apply Plan.meets_leaving
    apply Plan.meets_deeper
    apply Plan.meets_mono (inner _ (lasting.moved machine machine.current _ before))
    intro ending kept
    cases ending <;> exact lasting.moved _ _ _ kept

/-- To keep a lasting property, as a property that constructs pass on. -/
def preservation : Setting.Relation Planning Planning where
  Related planned _ := planned.Keeps property
  pure _ _ before := before
  bind := bind_keeps
  act := lasting.act
  within := within_keeps lasting
  nested := nested_keeps lasting

theorem parts_keep : (preservation lasting).OfParts Parts.asked Parts.asked where
  evaluate _ _ before := ⟨before, fun _ kept => kept⟩
  execute _ _ before := ⟨before, fun _ kept => kept⟩
  call _ _ _ before := ⟨before, fun _ kept => kept⟩

theorem plan_keeps (task : Task) : task.plan.Keeps property := by
  cases task with
  | evaluation expression =>
      exact Setting.Relation.evaluation_related (parts_keep lasting) expression
  | execution statement => exact Setting.Relation.execution_related (parts_keep lasting) statement
  | call closure arguments =>
      exact Setting.Relation.application_related (parts_keep lasting) closure arguments

theorem line_keeps (line : Line) : (Parts.asked.line line).Keeps property :=
  Setting.Relation.line_related (parts_keep lasting) line

end Planning

namespace Lasting

variable {property : Machine → Prop} (lasting : Lasting property) {machine : Machine}
  (before : property machine)

include lasting

theorem kept : (Contracts.keeping property).Kept where
  exhausted _ _ _ duty := duty
  planned _ task machine duty := Planning.plan_keeps lasting task machine duty

include before

theorem after_task (supply : Nat) (task : Task) :
    property (Ending.machine (task.run supply machine)) :=
  Contracts.run_effect lasting.kept supply () task machine before

theorem underway {line : Line} {moment : Moment} {rest : List Moment}
    (underway : Underway (Parts.asked.line line machine) (moment :: rest)) :
    property moment.machine :=
  Contracts.underway_duty lasting.kept (Planning.line_keeps lasting line machine before) underway

end Lasting

end Lox
