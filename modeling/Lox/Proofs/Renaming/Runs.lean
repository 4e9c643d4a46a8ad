import Lox.Proofs.Renaming.Steps
import Lox.Session

/-!
Runs of two programs that are alike. As each construct does the same in both, with
parts that do the same, the runs go on side by side for as long as they are given a
supply, and end alike.
-/

namespace Lox

/-- The parts of a construct do the same in both runs. -/
structure Parts.Respects (recast : Recast) (parts : Parts Run) : Prop where
  evaluate {views : Views} {flags : List Bool} {expression expression' : Expression}
    (like : (Node.expression expression).Alike recast flags (.expression expression')) :
    Run.Alike recast views flags (Value.Alike recast) (parts.evaluate expression)
      (parts.evaluate expression')
  execute {views : Views} {flags : List Bool} {statement statement' : Statement}
    (like : (Node.statement statement).Alike recast flags (.statement statement')) :
    Run.Alike recast views flags (Completion.Alike recast) (parts.execute statement)
      (parts.execute statement')
  call {views : Views} {flags : List Bool} {closure closure' : Closure}
    {arguments arguments' : List Value} (closures : closure.Alike recast views [] closure')
    (values : List.Forall₂ (Value.Alike recast views) arguments arguments') :
    Run.Alike recast views flags (Value.Alike recast) (parts.call closure arguments)
      (parts.call closure' arguments')

namespace Parts.Respects

open Run.Alike

variable {recast : Recast} {parts : Parts Run} (respects : parts.Respects recast) {views : Views}
  {flags : List Bool}

include respects

theorem evaluate_all {values values' : List Expression}
    (like : (Node.expressions values).Alike recast flags (.expressions values')) :
    Run.Alike recast views flags (fun later => List.Forall₂ (Value.Alike recast later))
      (parts.evaluateAll values) (parts.evaluateAll values') := by
  induction values generalizing values' views with
  | nil =>
      cases like
      exact pure fun _ _ => .nil
  | cons first rest induction =>
      cases like with
      | expressions head tail =>
          apply (respects.evaluate head).bind
          intro later grows value value' same
          apply (induction tail).bind
          intro last further others others' all
          exact pure fun _ onwards => .cons (same.later (further.trans onwards))
            (all.imp fun _ _ each => each.later onwards)

theorem in_order {orders orders' : List Statement}
    (like : (Node.statements orders).Alike recast flags (.statements orders')) :
    Run.Alike recast views flags (Completion.Alike recast) (parts.inOrder orders)
      (parts.inOrder orders') := by
  induction orders generalizing orders' views with
  | nil =>
      cases like
      exact pure fun _ _ => .normal
  | cons first rest induction =>
      cases like with
      | statements head tail =>
          apply (respects.execute head).bind
          intro later grows completion completion' same
          cases same with
          | normal => exact induction tail
          | returned same => exact pure fun _ further => .returned (same.later further)

theorem application {closure closure' : Closure} {arguments arguments' : List Value}
    (closures : closure.Alike recast views [] closure')
    (values : List.Forall₂ (Value.Alike recast views) arguments arguments') :
    Run.Alike recast views flags (Value.Alike recast) (parts.application closure arguments)
      (parts.application closure' arguments') := by
  obtain ⟨outer, view, inside⟩ := closures.routine
  obtain ⟨renamed, body, spelled⟩ := Names.Spelled.parameters inside values
  unfold Parts.application
  rw [closures.scope]
  apply (open_scope view spelled).bind
  rintro later grows _ scope ⟨rfl, here⟩
  apply (within here (respects.in_order body)).bind
  intro last further completion completion' same
  exact result (closures.later (grows.trans further)) same

theorem construct {cls cls' : Class} {arguments arguments' : List Value}
    (classes : cls.Alike recast views cls')
    (values : List.Forall₂ (Value.Alike recast views) arguments arguments') :
    Run.Alike recast views flags (Value.Alike recast) (parts.construct cls arguments)
      (parts.construct cls' arguments') := by
  apply (make_instance classes).bind
  intro later grows object object' same
  have initializer := (classes.later grows).method initializerName
  generalize cls.method? initializerName = method at initializer ⊢
  generalize cls'.method? initializerName = method' at initializer ⊢
  cases initializer with
  | none => exact pure fun _ further => same.later further
  | some closures =>
      apply (bind_receiver closures same).bind
      intro middle further bound bound' bounds
      have given := values.imp fun _ _ each => each.later (grows.trans further)
      apply (respects.call bounds given).bind
      intro last onwards _ _ _
      exact pure fun _ afterwards => same.later (further.trans (onwards.trans afterwards))

theorem invoke {callable callable' : Callable} {arguments arguments' : List Value}
    (same : callable.Alike recast views callable')
    (values : List.Forall₂ (Value.Alike recast views) arguments arguments') :
    Run.Alike recast views flags (Value.Alike recast) (parts.invoke arguments callable)
      (parts.invoke arguments' callable') := by
  cases same with
  | native provided =>
      cases provided
      exact read_clock
  | closure inside => exact respects.call inside values
  | construction inside => exact respects.construct inside values

theorem call_value {callee callee' : Value} {line : Nat} {arguments arguments' : List Value}
    (same : callee.Alike recast views callee')
    (values : List.Forall₂ (Value.Alike recast views) arguments arguments') :
    Run.Alike recast views flags (Value.Alike recast) (parts.callValue callee line arguments)
      (parts.callValue callee' line arguments') := by
  have callable := same.callable
  unfold Parts.callValue
  rw [← values.length_eq]
  generalize callee.callable? = found at callable
  generalize callee'.callable? = found' at callable
  cases callable with
  | none => exact fail line _
  | some inside =>
      dsimp only
      rw [inside.same_arity]
      split_ifs
      · exact fail line _
      · exact nested (respects.invoke inside values)

theorem access {method method' : Option Closure} {receiver receiver' : Value} (name : Token)
    (found : Option.Rel (Closure.Alike recast views [false]) method method')
    (same : receiver.Alike recast views receiver') :
    Run.Alike recast views flags (Value.Alike recast) (parts.access method receiver name)
      (parts.access method' receiver' name) := by
  cases found with
  | none => exact fail _ _
  | some closures =>
      apply (bind_receiver closures same).bind
      intro later grows bound bound' bounds
      obtain ⟨outer, -, inside⟩ := bounds.routine
      rw [inside.same_getter]
      split_ifs
      · exact nested (respects.call bounds .nil)
      · exact make_function bounds

theorem property {object object' : Value} (name : Token)
    (same : object.Alike recast views object') :
    Run.Alike recast views flags (Value.Alike recast) (parts.property object name)
      (parts.property object' name) := by
  cases same with
  | object identity classes =>
      apply (field identity name.lexeme).bind
      intro later grows value value' found
      cases found with
      | none =>
          have wider := classes.later grows
          exact respects.access name (wider.method _) (.object identity wider)
      | some same => exact pure fun _ further => same.later further
  | classValue classes => exact respects.access name (classes.class_method _) (.classValue classes)
  | nil | boolean | number | string | native | function => exact fail _ _

theorem superclass_of {place place' : Occurrence} (occurs : recast.Occurs flags place place') :
    Run.Alike recast views flags (fun later parent parent' => ∃ cls cls', parent = some cls ∧
        parent' = some cls' ∧ Class.Alike recast later cls cls')
      (parts.superclassOf (some place)) (parts.superclassOf (some place')) := by
  apply (respects.evaluate (.reference occurs)).bind
  intro later grows value value' same
  cases same with
  | classValue classes => exact pure fun _ further => ⟨_, _, rfl, rfl, classes.later further⟩
  | nil | boolean | number | string | native | function | object =>
      dsimp only
      rw [occurs.name.line]
      exact fail _ _

theorem evaluation {expression expression' : Expression}
    (like : (Node.expression expression).Alike recast flags (.expression expression')) :
    Run.Alike recast views flags (Value.Alike recast) (parts.evaluation expression)
      (parts.evaluation expression') := by
  cases like with
  | literal => exact pure fun _ _ => .of_literal _
  | grouping inside => exact respects.evaluate inside
  | unary sign inside =>
      apply (respects.evaluate inside).bind
      intro later grows value value' same
      rw [same.same_unary, sign.kind, sign.line]
      exact blame fun _ => unary_result_alike
  | binary sign first second =>
      apply (respects.evaluate first).bind
      intro later grows left left' one
      apply (respects.evaluate second).bind
      intro last further right right' other
      rw [(one.later further).same_binary other, sign.kind, sign.line]
      exact blame fun _ => binary_result_alike
  | logical sign first second =>
      apply (respects.evaluate first).bind
      intro later grows left left' same
      unfold decides
      rw [same.same_truth, sign.kind]
      split_ifs
      all_goals first
        | exact pure fun _ further => same.later further
        | exact respects.evaluate second
  | choice first second third =>
      apply (respects.evaluate first).bind
      intro later grows value value' same
      rw [same.same_truth]
      split_ifs
      · exact respects.evaluate second
      · exact respects.evaluate third
  | reference occurs => exact look_up occurs
  | assign occurs inside =>
      apply (respects.evaluate inside).bind
      intro later grows value value' same
      apply (assign occurs same).bind
      intro last further _ _ _
      exact pure fun _ onwards => same.later (further.trans onwards)
  | call sign first second =>
      apply (respects.evaluate first).bind
      intro later grows function function' same
      apply (respects.evaluate_all second).bind
      intro last further values values' all
      rw [sign.line]
      exact respects.call_value (same.later further) all
  | get inside =>
      apply (respects.evaluate inside).bind
      intro later grows object object' same
      exact respects.property _ same
  | set first second =>
      apply (respects.evaluate second).bind
      intro later grows object object' same
      cases same with
      | object identity classes =>
          apply (respects.evaluate first).bind
          intro last further value value' same
          apply (set_field identity _ same).bind
          intro _ onwards _ _ _
          exact pure fun _ afterwards => same.later (onwards.trans afterwards)
      | nil | boolean | number | string | native | function | classValue => exact fail _ _
  | lambda inside => exact close_over inside
  | receiver occurs => exact look_up occurs
  | inherited occurs =>
      apply (inherited_method occurs _).bind
      rintro later grows ⟨method, receiver⟩ ⟨method', receiver'⟩ ⟨found, same⟩
      exact respects.access _ found same

theorem execution {statement statement' : Statement}
    (like : (Node.statement statement).Alike recast flags (.statement statement')) :
    Run.Alike recast views flags (Completion.Alike recast) (parts.execution statement)
      (parts.execution statement') := by
  have finish {later : Views} : Run.Alike recast later flags (Completion.Alike recast)
      (Pure.pure .normal) (Pure.pure .normal) := pure fun _ _ => .normal
  cases like with
  | evaluation inside => exact (respects.evaluate inside).bind fun _ _ _ _ _ => finish
  | print inside =>
      apply (respects.evaluate inside).bind
      intro later grows value value' same
      exact (print same).bind fun _ _ _ _ _ => finish
  | uninitialized spells => exact (define spells.lexeme .nil).bind fun _ _ _ _ _ => finish
  | initialized spells inside =>
      apply (respects.evaluate inside).bind
      intro later grows value value' same
      exact (define spells.lexeme same).bind fun _ _ _ _ _ => finish
  | block renamed inside =>
      apply current_scope.bind
      rintro later grows _ scope ⟨rfl, view⟩
      have spelled : Names.empty.Spelled recast later renamed .empty := .empty
      apply (open_scope view spelled).bind
      rintro last further _ inner ⟨rfl, here⟩
      exact within here (respects.in_order inside)
  | conditional first second =>
      apply (respects.evaluate first).bind
      intro later grows value value' same
      rw [same.same_truth]
      split_ifs
      · exact respects.execute second
      · exact finish
  | alternative first second third =>
      apply (respects.evaluate first).bind
      intro later grows value value' same
      rw [same.same_truth]
      split_ifs
      · exact respects.execute second
      · exact respects.execute third
  | loop first second =>
      apply (respects.evaluate first).bind
      intro later grows value value' same
      rw [same.same_truth]
      split_ifs
      · apply (respects.execute second).bind
        intro last further completion completion' same
        cases same with
        | normal => exact respects.execute (.loop first second)
        | returned same => exact pure fun _ onwards => .returned (same.later onwards)
      · exact finish
  | routineDeclaration keeps kept inside =>
      apply (close_over inside).bind
      intro later grows function function' same
      have spelled := inside.same_label.trans kept.symm
      exact (define spelled same).bind fun _ _ _ _ _ => finish
  | exit sign => exact pure fun _ _ => .returned .nil
  | exitWith sign inside =>
      apply (respects.evaluate inside).bind
      intro later grows value value' same
      exact pure fun _ further => .returned (same.later further)
  | base keeps first second =>
      have none : Run.Alike recast views flags
          (fun _ parent parent' => parent = none ∧ parent' = none)
          (parts.superclassOf none) (parts.superclassOf none) := pure fun _ _ => ⟨rfl, rfl⟩
      apply none.bind
      rintro later grows _ _ ⟨rfl, rfl⟩
      apply (make_base_class first second).bind
      intro last further declared declared' same
      exact (define keeps.1.symm same).bind fun _ _ _ _ _ => finish
  | derived keeps occurs first second =>
      apply (respects.superclass_of occurs).bind
      rintro later grows _ _ ⟨parent, parent', rfl, rfl, above⟩
      apply (make_derived_class above first second).bind
      intro last further declared declared' same
      exact (define keeps.1.symm same).bind fun _ _ _ _ _ => finish

theorem program {orders orders' : List Statement}
    (like : (Node.statements orders).Alike recast flags (.statements orders')) :
    Run.Alike recast views flags (fun _ _ _ => True) (parts.program orders)
      (parts.program orders') :=
  (respects.in_order like).bind fun _ _ _ _ _ => pure fun _ _ => trivial

end Parts.Respects

/-- Whatever the supply, what is alike runs alike. -/
theorem supplied_respects (recast : Recast) (supply : Nat) :
    (Parts.supplied supply).Respects recast := by
  induction supply with
  | zero => exact ⟨fun _ => .stop (.same _), fun _ => .stop (.same _), fun _ _ => .stop (.same _)⟩
  | succ supply induction =>
      exact ⟨induction.evaluation, induction.execution, induction.application⟩

/-- Lines that are alike. -/
inductive Line.Alike (recast : Recast) : Line → Line → Prop where
  | statements {orders orders' : List Statement}
      (inside : (Node.statements orders).Alike recast [] (.statements orders')) :
      Alike recast (.statements orders) (.statements orders')
  | expression {value value' : Expression}
      (inside : (Node.expression value).Alike recast [] (.expression value')) :
      Alike recast (.expression value) (.expression value')

theorem Line.Alike.run {recast : Recast} {line line' : Line} (like : line.Alike recast line')
    (supply : Nat) (views : Views) :
    Run.Alike recast views [] (fun later => Option.Rel (Value.Alike recast later))
      (line.run supply) (line'.run supply) := by
  have respects := supplied_respects recast supply
  cases like with
  | statements inside =>
      exact (respects.program inside).bind fun _ _ _ _ _ => .pure fun _ _ => .none
  | expression inside =>
      apply (respects.evaluate inside).bind
      intro later grows value value' same
      exact .pure fun _ further => .some (same.later further)

end Lox
