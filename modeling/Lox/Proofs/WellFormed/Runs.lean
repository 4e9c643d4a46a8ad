import Lox.Proofs.WellFormed.Steps

/-!
Runs of well-formed code. Every construct is safe if its parts are, and by induction on the supply
so is every run.
-/

namespace Lox

/-- The parts of a construct are safe as long as they are well formed. -/
structure Parts.Safe (parts : Parts Run) : Prop where
  evaluate {value : Expression} (isFine : (Node.expression value).WellFormed) :
    (parts.evaluate value).Safe Value.WellFormed
  execute {order : Statement} (isFine : (Node.statement order).WellFormed) :
    (parts.execute order).Safe Completion.WellFormed
  call {closure : Closure} {arguments : List Value} (isFine : closure.WellFormed)
    (given : ∀ value ∈ arguments, value.WellFormed) :
    (parts.call closure arguments).Safe Value.WellFormed

namespace Parts.Safe

open Run

variable {parts : Parts Run} (safe : parts.Safe)

include safe

section Calls

variable {arguments : List Value} (given : ∀ value ∈ arguments, value.WellFormed)

theorem evaluate_all_safe {values : List Expression}
    (areFine : ∀ value ∈ values, (Node.expression value).WellFormed) :
    (parts.evaluateAll values).Safe fun results => ∀ value ∈ results, value.WellFormed := by
  induction values with
  | nil => exact pure_safe (List.forall_mem_nil _)
  | cons first rest induction =>
      obtain ⟨head, tail⟩ := List.forall_mem_cons.mp areFine
      refine bind_safe (safe.evaluate head) fun value isFine =>
        bind_safe (induction tail) fun others othersFine => pure_safe ?_
      exact List.forall_mem_cons.mpr ⟨isFine, othersFine⟩

include given

theorem construct_safe {cls : Class} (isFine : cls.WellFormed) :
    (parts.construct cls arguments).Safe Value.WellFormed := by
  refine bind_safe (make_instance_safe isFine) fun object objectFine => ?_
  cases found : cls.method? initializerName with
  | none => exact pure_safe objectFine
  | some initializer =>
      have method : initializer.WellFormed := isFine false initializerName initializer found
      refine bind_safe (bind_receiver_safe method objectFine) fun bound boundFine => ?_
      exact bind_safe (safe.call boundFine given) fun _ _ => pure_safe objectFine

theorem call_value_safe {callee : Value} (isFine : callee.WellFormed) (line : Nat) :
    (parts.callValue callee line arguments).Safe Value.WellFormed := by
  unfold Parts.callValue
  cases callee with
  | nil | boolean | number | string | object => exact fail_safe line not_false
  | native provided =>
      dsimp only [Value.callable?]
      split_ifs
      · exact fail_safe line not_false
      · cases provided
        exact nested_safe line read_clock_safe
  | function identity closure =>
      dsimp only [Value.callable?]
      split_ifs
      · exact fail_safe line not_false
      · exact nested_safe line (safe.call isFine given)
  | classValue cls =>
      dsimp only [Value.callable?]
      split_ifs
      · exact fail_safe line not_false
      · exact nested_safe line (safe.construct_safe given isFine)

end Calls

section Properties

theorem access_safe {method : Option Closure} {receiver : Value} (name : Token)
    (areFine : ∀ found ∈ method, found.WellFormed) (receives : receiver.WellFormed) :
    (parts.access method receiver name).Safe Value.WellFormed := by
  cases method with
  | none => exact fail_safe name.line not_false
  | some method =>
      refine bind_safe (bind_receiver_safe (areFine method rfl) receives) fun bound isFine => ?_
      split_ifs
      · exact nested_safe name.line (safe.call isFine (List.forall_mem_nil _))
      · exact make_function_safe isFine

theorem property_safe {object : Value} (isFine : object.WellFormed) (name : Token) :
    (parts.property object name).Safe Value.WellFormed := by
  cases object with
  | nil | boolean | number | string | native | function =>
      exact fail_safe name.line not_false
  | classValue cls => exact safe.access_safe name (isFine true name.lexeme) isFine
  | object identity cls =>
      refine bind_safe (field_safe identity name.lexeme) fun found held => ?_
      cases found with
      | some value => exact pure_safe (held value rfl)
      | none => exact safe.access_safe name (isFine false name.lexeme) isFine

end Properties

theorem evaluation_safe {value : Expression} (isFine : (Node.expression value).WellFormed) :
    (parts.evaluation value).Safe Value.WellFormed := by
  obtain ⟨lawful, inside⟩ := Node.everywhere_iff.mp isFine
  cases value <;> simp only [Node.parts, List.forall_mem_cons] at inside
  case literal value => cases value <;> exact pure_safe trivial
  case grouping inner => exact safe.evaluate inside.1
  case unary operator operand =>
    exact bind_safe (safe.evaluate inside.1) fun result _ =>
      blame_safe operator.line (unary_operated lawful result)
  case binary left operator right =>
    exact bind_safe (safe.evaluate inside.1) fun first _ =>
      bind_safe (safe.evaluate inside.2.1) fun second _ =>
        blame_safe operator.line (binary_operated lawful first second)
  case logical left operator right =>
    refine bind_safe (safe.evaluate inside.1) fun first firstFine => ?_
    split_ifs
    · exact pure_safe firstFine
    · exact safe.evaluate inside.2.1
  case conditional condition thenBranch elseBranch =>
    refine bind_safe (safe.evaluate inside.1) fun _ _ => ?_
    split_ifs
    · exact safe.evaluate inside.2.1
    · exact safe.evaluate inside.2.2.1
  case reference place => exact look_up_safe place
  case receiver place => exact look_up_safe place
  case assign place value =>
    exact bind_safe (safe.evaluate inside.1) fun result resultFine =>
      bind_safe (assign_safe place resultFine) fun _ _ => pure_safe resultFine
  case call callee closing arguments =>
    refine bind_safe (safe.evaluate inside.1) fun function functionFine => ?_
    refine bind_safe (safe.evaluate_all_safe (Node.expressions_well_formed.mp inside.2.1)) ?_
    exact fun values given => safe.call_value_safe given functionFine closing.line
  case get object name =>
    exact bind_safe (safe.evaluate inside.1) fun target targetFine =>
      safe.property_safe targetFine name
  case set object name value =>
    refine bind_safe (safe.evaluate inside.2.1) fun target _ => ?_
    cases target with
    | object identity cls =>
        exact bind_safe (safe.evaluate inside.1) fun result resultFine =>
          bind_safe (set_field_safe identity name.lexeme resultFine) fun _ _ =>
            pure_safe resultFine
    | nil | boolean | number | string | native | function | classValue =>
        exact fail_safe name.line not_false
  case lambda written => exact close_over_safe inside.1
  case inherited place method =>
    exact bind_safe (inherited_method_safe place method) fun found good =>
      safe.access_safe method good.1 good.2

section Statements

theorem in_order_safe {orders : List Statement}
    (areFine : ∀ order ∈ orders, (Node.statement order).WellFormed) :
    (parts.inOrder orders).Safe Completion.WellFormed := by
  induction orders with
  | nil => exact pure_safe trivial
  | cons first rest induction =>
      obtain ⟨head, tail⟩ := List.forall_mem_cons.mp areFine
      refine bind_safe (safe.execute head) fun completion isFine => ?_
      cases completion with
      | normal => exact induction tail
      | returned value => exact pure_safe isFine

theorem application_safe {closure : Closure} {arguments : List Value}
    (isFine : closure.WellFormed) (given : ∀ value ∈ arguments, value.WellFormed) :
    (parts.application closure arguments).Safe Value.WellFormed := by
  have body : (Node.statements closure.routine.body).WellFormed :=
    (Node.everywhere_iff.mp isFine).2 _ (List.mem_singleton.mpr rfl)
  have bound (name : String) (value : Value)
      (found : (parameterNames closure.routine arguments).find? name = some value) :
      value.WellFormed :=
    given value (List.of_mem_zip (Names.mem_of_find found)).2
  refine bind_safe (open_scope_safe closure.scope bound) fun scope _ => ?_
  refine bind_safe (within_safe scope
    (safe.in_order_safe (Node.statements_well_formed.mp body))) ?_
  exact fun completion completionFine => result_safe closure completionFine

theorem superclass_safe {superclass : Option Occurrence}
    (named : ∀ place ∈ superclass, (Node.expression (.reference place)).WellFormed) :
    (parts.superclassOf superclass).Safe fun parent => ∀ cls ∈ parent, cls.WellFormed := by
  cases superclass with
  | none => exact pure_safe nofun
  | some place =>
      refine bind_safe (safe.evaluate (named place rfl)) fun value isFine => ?_
      cases value with
      | classValue cls => exact pure_safe fun _ same => Option.some.inj same ▸ isFine
      | nil | boolean | number | string | native | function | object =>
          exact fail_safe place.name.line not_false

theorem class_declaration_safe {name : Token} {superclass : Option Occurrence}
    {methods classMethods : List Routine}
    (named : ∀ place ∈ superclass, (Node.expression (.reference place)).WellFormed)
    (own : (Node.routines methods).WellFormed)
    (ofClass : (Node.routines classMethods).WellFormed) :
    (parts.execution (.classDeclaration name superclass methods classMethods)).Safe
      Completion.WellFormed := by
  refine bind_safe (safe.superclass_safe named) fun parent above => ?_
  refine bind_safe (make_class_safe name above own ofClass) fun declared isFine => ?_
  exact bind_safe (define_safe name.lexeme isFine) fun _ _ => pure_safe trivial

theorem execution_safe {order : Statement} (isFine : (Node.statement order).WellFormed) :
    (parts.execution order).Safe Completion.WellFormed := by
  have inside := (Node.everywhere_iff.mp isFine).2
  cases order with
  | expression value =>
      simp only [Node.parts, List.forall_mem_singleton] at inside
      exact bind_safe (safe.evaluate inside) fun _ _ => pure_safe trivial
  | print value =>
      simp only [Node.parts, List.forall_mem_singleton] at inside
      exact bind_safe (safe.evaluate inside) fun result _ =>
        bind_safe (print_safe result) fun _ _ => pure_safe trivial
  | variableDeclaration name initializer =>
      cases initializer with
      | none => exact bind_safe (define_safe _ trivial) fun _ _ => pure_safe trivial
      | some initializer =>
          simp only [Node.parts, List.forall_mem_singleton] at inside
          exact bind_safe (safe.evaluate inside) fun value valueFine =>
            bind_safe (define_safe _ valueFine) fun _ _ => pure_safe trivial
  | block orders =>
      simp only [Node.parts, List.forall_mem_singleton] at inside
      refine bind_safe current_scope_safe fun outer _ => ?_
      have empty (name : String) (value : Value)
          (found : (Names.empty : Names Value).find? name = some value) : value.WellFormed := by
        cases found
      refine bind_safe (open_scope_safe outer empty) fun scope _ => ?_
      exact within_safe scope (safe.in_order_safe (Node.statements_well_formed.mp inside))
  | conditional condition thenBranch elseBranch =>
      cases elseBranch <;> simp only [Node.parts, List.forall_mem_cons] at inside
      all_goals
        refine bind_safe (safe.evaluate inside.1) fun _ _ => ?_
        split_ifs
      · exact safe.execute inside.2.1
      · exact pure_safe trivial
      · exact safe.execute inside.2.1
      · exact safe.execute inside.2.2.1
  | loop condition body =>
      simp only [Node.parts, List.forall_mem_cons] at inside
      refine bind_safe (safe.evaluate inside.1) fun _ _ => ?_
      split_ifs
      · refine bind_safe (safe.execute inside.2.1) fun completion completionFine => ?_
        cases completion with
        | normal => exact safe.execute isFine
        | returned value => exact pure_safe completionFine
      · exact pure_safe trivial
  | routineDeclaration declared =>
      simp only [Node.parts, List.forall_mem_singleton] at inside
      exact bind_safe (close_over_safe inside) fun function functionFine =>
        bind_safe (define_safe _ functionFine) fun _ _ => pure_safe trivial
  | exit keyword value =>
      cases value with
      | none => exact pure_safe trivial
      | some value =>
          simp only [Node.parts, List.forall_mem_singleton] at inside
          exact bind_safe (safe.evaluate inside) fun result resultFine => pure_safe resultFine
  | classDeclaration name superclass methods classMethods =>
      cases superclass <;> simp only [Node.parts, List.forall_mem_cons] at inside
      · exact safe.class_declaration_safe (fun _ absent => by cases absent) inside.1 inside.2.1
      · refine safe.class_declaration_safe ?_ inside.2.1 inside.2.2.1
        exact fun _ same => Option.some.inj same ▸ inside.1

end Statements

omit safe in
/-- Whatever the supply, well-formed code runs safely. -/
theorem supplied (supply : Nat) : (Parts.supplied supply).Safe := by
  induction supply with
  | zero =>
      have exhausted {α : Type} {good : α → Prop} : Run.Safe good (throw .exhausted : Run α) :=
        fun _ fine => ⟨fine, not_false⟩
      exact ⟨fun _ => exhausted, fun _ => exhausted, fun _ _ => exhausted⟩
  | succ supply induction =>
      exact ⟨induction.evaluation_safe, induction.execution_safe, induction.application_safe⟩

end Parts.Safe

theorem Line.run_safe {line : Line} (isFine : line.node.WellFormed) (supply : Nat) :
    (line.run supply).Safe fun _ => True := by
  have safe := Parts.Safe.supplied supply
  cases line with
  | statements orders =>
      have program : ((Parts.supplied supply).program orders).Safe fun _ => True :=
        Run.bind_safe (safe.in_order_safe (Node.statements_well_formed.mp isFine)) fun _ _ =>
          Run.pure_safe trivial
      exact Run.bind_safe program fun _ _ => Run.pure_safe trivial
  | expression value => exact Run.bind_safe (safe.evaluate isFine) fun _ _ => Run.pure_safe trivial

end Lox
