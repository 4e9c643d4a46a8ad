import Lox.Proofs.Joining.Steps
import Lox.Session

/-!
Runs of one tree under two ways to label it. As each construct does the same in both, with
parts that do the same, the two runs keep abreast for as long as they are given a supply.
-/

namespace Lox

/-- The parts of a construct keep abreast. -/
structure Parts.Abreast (leeway : Leeway) (parts : Parts Run) : Prop where
  evaluate {labels labels' : Labels} {value : Expression}
    (twins : (Node.expression value).Twins leeway labels labels') :
    Run.Abreast leeway (Value.Abreast leeway) (parts.evaluate (value.relabel labels))
      (parts.evaluate (value.relabel labels'))
  execute {labels labels' : Labels} {order : Statement}
    (twins : (Node.statement order).Twins leeway labels labels') :
    Run.Abreast leeway (Completion.Abreast leeway) (parts.execute (order.relabel labels))
      (parts.execute (order.relabel labels'))
  call {closure closure' : Closure} {arguments arguments' : List Value}
    (closures : closure.Abreast leeway closure')
    (values : List.Forall₂ (Value.Abreast leeway) arguments arguments') :
    Run.Abreast leeway (Value.Abreast leeway) (parts.call closure arguments)
      (parts.call closure' arguments')

namespace Parts.Abreast

open Run.Abreast

variable {leeway : Leeway} {parts : Parts Run} (abreast : parts.Abreast leeway)
  {labels labels' : Labels}

include abreast

theorem evaluate_all {values : List Expression}
    (twins : (Node.expressions values).Twins leeway labels labels') :
    Run.Abreast leeway (List.Forall₂ (Value.Abreast leeway))
      (parts.evaluateAll (Expression.relabelAll labels values))
      (parts.evaluateAll (Expression.relabelAll labels' values)) := by
  induction values with
  | nil => exact pure .nil
  | cons first rest induction =>
      have head : (Node.expression first).Twins leeway labels labels' :=
        twins.part (by simp [Node.parts])
      apply (abreast.evaluate head).bind
      intro value value' same
      apply (induction (twins.part (by simp [Node.parts]))).bind
      intro others others' all
      exact pure (.cons same all)

theorem in_order {orders : List Statement}
    (twins : (Node.statements orders).Twins leeway labels labels') :
    Run.Abreast leeway (Completion.Abreast leeway)
      (parts.inOrder (Statement.relabelAll labels orders))
      (parts.inOrder (Statement.relabelAll labels' orders)) := by
  induction orders with
  | nil => exact pure .normal
  | cons first rest induction =>
      have head : (Node.statement first).Twins leeway labels labels' :=
        twins.part (by simp [Node.parts])
      apply (abreast.execute head).bind
      intro completion completion' same
      cases same with
      | normal => exact induction (twins.part (by simp [Node.parts]))
      | returned same => exact pure (.returned same)

theorem application {closure closure' : Closure} {arguments arguments' : List Value}
    (closures : closure.Abreast leeway closure')
    (values : List.Forall₂ (Value.Abreast leeway) arguments arguments') :
    Run.Abreast leeway (Value.Abreast leeway) (parts.application closure arguments)
      (parts.application closure' arguments') := by
  have given := parameter_names_abreast closures.routine values
  unfold Parts.application
  rw [closures.scope]
  apply (open_scope _ given).bind
  rintro _ scope rfl
  have body : Run.Abreast leeway (Completion.Abreast leeway)
      (parts.inOrder closure.routine.body) (parts.inOrder closure'.routine.body) := by
    obtain ⟨tree, labels, labels', twins, same, same'⟩ := closures.routine
    rw [same, same']
    obtain ⟨name, parameters, body⟩ := tree
    exact abreast.in_order (twins.part (by simp [Node.parts]))
  apply (within body).bind
  intro completion completion' same
  exact result closures same

theorem construct {cls cls' : Class} {arguments arguments' : List Value}
    (classes : cls.Abreast leeway cls')
    (values : List.Forall₂ (Value.Abreast leeway) arguments arguments') :
    Run.Abreast leeway (Value.Abreast leeway) (parts.construct cls arguments)
      (parts.construct cls' arguments') := by
  apply (make_instance classes).bind
  intro object object' same
  have initializer := classes.method initializerName
  generalize cls.method? initializerName = method at initializer ⊢
  generalize cls'.method? initializerName = method' at initializer ⊢
  cases initializer with
  | none => exact pure same
  | some closures =>
      apply (bind_receiver closures same).bind
      intro bound bound' bounds
      exact (abreast.call bounds values).bind fun _ _ _ => pure same

theorem invoke {callable callable' : Callable} {arguments arguments' : List Value}
    (same : callable.Abreast leeway callable')
    (values : List.Forall₂ (Value.Abreast leeway) arguments arguments') :
    Run.Abreast leeway (Value.Abreast leeway) (parts.invoke arguments callable)
      (parts.invoke arguments' callable') := by
  cases same with
  | native provided =>
      cases provided
      exact read_clock
  | closure inside => exact abreast.call inside values
  | construction inside => exact abreast.construct inside values

theorem call_value {callee callee' : Value} {line line' : Nat} {arguments arguments' : List Value}
    (allowed : leeway.line line line') (same : callee.Abreast leeway callee')
    (values : List.Forall₂ (Value.Abreast leeway) arguments arguments') :
    Run.Abreast leeway (Value.Abreast leeway) (parts.callValue callee line arguments)
      (parts.callValue callee' line' arguments') := by
  have callable := same.callable
  unfold Parts.callValue
  rw [← values.length_eq]
  generalize callee.callable? = found at callable
  generalize callee'.callable? = found' at callable
  cases callable with
  | none => exact fail allowed _
  | some inside =>
      dsimp only
      rw [inside.same_arity]
      split_ifs
      · exact fail allowed _
      · exact nested allowed (abreast.invoke inside values)

theorem access {method method' : Option Closure} {receiver receiver' : Value} {name name' : Token}
    (token : leeway.Matches name name')
    (found : Option.Rel (Closure.Abreast leeway) method method')
    (same : receiver.Abreast leeway receiver') :
    Run.Abreast leeway (Value.Abreast leeway) (parts.access method receiver name)
      (parts.access method' receiver' name') := by
  unfold Parts.access
  rw [token.lexeme]
  cases found with
  | none => exact fail token.line _
  | some closures =>
      apply (bind_receiver closures same).bind
      intro bound bound' bounds
      rw [bounds.routine.same_getter]
      split_ifs
      · exact nested token.line (abreast.call bounds .nil)
      · exact make_function bounds

theorem property {object object' : Value} {name name' : Token}
    (token : leeway.Matches name name') (same : object.Abreast leeway object') :
    Run.Abreast leeway (Value.Abreast leeway) (parts.property object name)
      (parts.property object' name') := by
  have lexeme := token.lexeme
  cases same with
  | object identity classes =>
      simp only [Parts.property, lexeme]
      apply (field identity name.lexeme).bind
      intro value value' found
      cases found with
      | none => exact abreast.access token (classes.method _) (.object identity classes)
      | some same => exact pure same
  | classValue classes =>
      simp only [Parts.property, lexeme]
      exact abreast.access token (classes.class_method _) (.classValue classes)
  | nil | boolean | number | string | native | function => exact fail token.line _

theorem superclass_of {superclass : Option Occurrence}
    (twins : ∀ place ∈ superclass,
      (Node.expression (.reference place)).Twins leeway labels labels') :
    Run.Abreast leeway (Option.Rel (Class.Abreast leeway))
      (parts.superclassOf (superclass.map (Occurrence.relabel labels)))
      (parts.superclassOf (superclass.map (Occurrence.relabel labels'))) := by
  cases superclass with
  | none => exact pure .none
  | some place =>
      have inside := twins place rfl
      have line := (inside.place rfl).name.line
      apply (abreast.evaluate inside).bind
      intro value value' same
      cases same with
      | classValue classes => exact pure (.some classes)
      | nil | boolean | number | string | native | function | object => exact fail line _

theorem evaluation {value : Expression}
    (twins : (Node.expression value).Twins leeway labels labels') :
    Run.Abreast leeway (Value.Abreast leeway) (parts.evaluation (value.relabel labels))
      (parts.evaluation (value.relabel labels')) := by
  cases value with
  | literal => exact pure (.of_literal _)
  | grouping inner => exact abreast.evaluate (twins.part List.mem_cons_self)
  | unary operator operand =>
      have sign := twins.own (List.mem_singleton_self operator)
      apply (abreast.evaluate (twins.part List.mem_cons_self)).bind
      intro value value' same
      rw [same.same_unary, sign.kind]
      exact blame sign.line fun _ => unary_result_abreast
  | binary left operator right =>
      have sign := twins.own (List.mem_singleton_self operator)
      apply (abreast.evaluate (twins.part (by simp [Node.parts]))).bind
      intro left left' one
      apply (abreast.evaluate (twins.part (by simp [Node.parts]))).bind
      intro right right' other
      rw [one.same_binary other, sign.kind]
      exact blame sign.line fun _ => binary_result_abreast
  | logical left operator right =>
      have sign := twins.own (List.mem_singleton_self operator)
      apply (abreast.evaluate (twins.part (by simp [Node.parts]))).bind
      intro left left' same
      unfold decides
      rw [same.same_truth, sign.kind]
      split_ifs
      all_goals first
        | exact pure same
        | exact abreast.evaluate (twins.part (by simp [Node.parts]))
  | conditional condition thenBranch elseBranch =>
      apply (abreast.evaluate (twins.part (by simp [Node.parts]))).bind
      intro value value' same
      rw [same.same_truth]
      split_ifs
      · exact abreast.evaluate (twins.part (by simp [Node.parts]))
      · exact abreast.evaluate (twins.part (by simp [Node.parts]))
  | reference place => exact look_up (twins.place rfl)
  | assign place value =>
      apply (abreast.evaluate (twins.part List.mem_cons_self)).bind
      intro value value' same
      exact (assign (twins.place rfl) same).bind fun _ _ _ => pure same
  | call callee closing arguments =>
      have sign := twins.own (List.mem_singleton_self closing)
      apply (abreast.evaluate (twins.part (by simp [Node.parts]))).bind
      intro function function' same
      apply (abreast.evaluate_all (twins.part (by simp [Node.parts]))).bind
      intro values values' all
      exact abreast.call_value sign.line same all
  | get object name =>
      apply (abreast.evaluate (twins.part List.mem_cons_self)).bind
      intro object object' same
      exact abreast.property (twins.own (List.mem_singleton_self name)) same
  | set object name value =>
      have token := twins.own (List.mem_singleton_self name)
      apply (abreast.evaluate (twins.part (by simp [Node.parts]))).bind
      intro object object' same
      cases same with
      | object identity classes =>
          apply (abreast.evaluate (twins.part (by simp [Node.parts]))).bind
          intro value value' same
          rw [token.lexeme]
          exact (set_field identity _ same).bind fun _ _ _ => pure same
      | nil | boolean | number | string | native | function | classValue =>
          exact fail token.line _
  | lambda routine =>
      exact close_over ⟨routine, labels, labels', twins.part List.mem_cons_self, rfl, rfl⟩
  | receiver place => exact look_up (twins.place rfl)
  | inherited place method =>
      have token := twins.own (show method ∈ [place.name, method] by simp)
      apply (inherited_method (twins.place rfl) token.lexeme).bind
      rintro ⟨method, receiver⟩ ⟨method', receiver'⟩ ⟨found, same⟩
      exact abreast.access token found same

theorem execution {order : Statement}
    (twins : (Node.statement order).Twins leeway labels labels') :
    Run.Abreast leeway (Completion.Abreast leeway) (parts.execution (order.relabel labels))
      (parts.execution (order.relabel labels')) := by
  have finish : Run.Abreast leeway (Completion.Abreast leeway) (Pure.pure .normal)
      (Pure.pure .normal) := pure .normal
  cases order with
  | expression value =>
      exact (abreast.evaluate (twins.part List.mem_cons_self)).bind fun _ _ _ => finish
  | print value =>
      apply (abreast.evaluate (twins.part List.mem_cons_self)).bind
      intro value value' same
      exact (print same).bind fun _ _ _ => finish
  | variableDeclaration name initializer =>
      have lexeme := (twins.own (List.mem_singleton_self name)).lexeme
      cases initializer with
      | none =>
          simp only [Statement.relabel, Parts.execution, lexeme]
          exact (define _ .nil).bind fun _ _ _ => finish
      | some value =>
          simp only [Statement.relabel, Parts.execution, lexeme]
          apply (abreast.evaluate (twins.part List.mem_cons_self)).bind
          intro value value' same
          exact (define _ same).bind fun _ _ _ => finish
  | block orders =>
      apply current_scope.bind
      rintro _ outer rfl
      apply (open_scope outer .empty).bind
      rintro _ scope rfl
      exact within (abreast.in_order (twins.part List.mem_cons_self))
  | conditional condition thenBranch elseBranch =>
      cases elseBranch with
      | none =>
          apply (abreast.evaluate (twins.part (by simp [Node.parts]))).bind
          intro value value' same
          rw [same.same_truth]
          split_ifs
          · exact abreast.execute (twins.part (by simp [Node.parts]))
          · exact finish
      | some elseBranch =>
          apply (abreast.evaluate (twins.part (by simp [Node.parts]))).bind
          intro value value' same
          rw [same.same_truth]
          split_ifs
          · exact abreast.execute (twins.part (by simp [Node.parts]))
          · exact abreast.execute (twins.part (by simp [Node.parts]))
  | loop condition body =>
      apply (abreast.evaluate (twins.part (by simp [Node.parts]))).bind
      intro value value' same
      rw [same.same_truth]
      split_ifs
      · apply (abreast.execute (twins.part (by simp [Node.parts]))).bind
        intro completion completion' same
        cases same with
        | normal => exact abreast.execute twins
        | returned same => exact pure (.returned same)
      · exact finish
  | routineDeclaration routine =>
      have declared : (routine.relabel labels).Abreast leeway (routine.relabel labels') :=
        ⟨routine, labels, labels', twins.part List.mem_cons_self, rfl, rfl⟩
      simp only [Statement.relabel, Parts.execution, declared.same_label]
      apply (close_over declared).bind
      intro function function' same
      exact (define _ same).bind fun _ _ _ => finish
  | exit keyword value =>
      cases value with
      | none => exact pure (.returned .nil)
      | some value =>
          apply (abreast.evaluate (twins.part List.mem_cons_self)).bind
          intro value value' same
          exact pure (.returned same)
  | classDeclaration name superclass methods classMethods =>
      have lexeme := (twins.own (List.mem_singleton_self name)).lexeme
      have methodsTwins : (Node.routines methods).Twins leeway labels labels' :=
        twins.part (by cases superclass <;> simp [Node.parts])
      have classMethodsTwins : (Node.routines classMethods).Twins leeway labels labels' :=
        twins.part (by cases superclass <;> simp [Node.parts])
      have placeTwins : ∀ place ∈ superclass,
          (Node.expression (.reference place)).Twins leeway labels labels' := by
        rintro place rfl
        exact twins.part List.mem_cons_self
      simp only [Statement.relabel, Parts.execution]
      apply (abreast.superclass_of placeTwins).bind
      intro parent parent' parents
      apply (make_class lexeme parents methodsTwins.each_routine
        classMethodsTwins.each_routine).bind
      intro declared declared' same
      rw [lexeme]
      exact (define _ same).bind fun _ _ _ => finish

theorem program {orders : List Statement}
    (twins : (Node.statements orders).Twins leeway labels labels') :
    Run.Abreast leeway (fun _ _ => True) (parts.program (Statement.relabelAll labels orders))
      (parts.program (Statement.relabelAll labels' orders)) :=
  (abreast.in_order twins).bind fun _ _ _ => pure trivial

end Parts.Abreast

/-- Whatever the supply, one tree is run abreast under both labels. -/
theorem supplied_abreast (leeway : Leeway) (supply : Nat) :
    (Parts.supplied supply).Abreast leeway := by
  induction supply with
  | zero =>
      exact ⟨fun _ => .stop .exhausted, fun _ => .stop .exhausted, fun _ _ => .stop .exhausted⟩
  | succ supply induction =>
      exact ⟨induction.evaluation, induction.execution, induction.application⟩

end Lox
