import Lox.Proofs.Execution.Restoration
import Lox.Proofs.Grammar.Soundness
import Lox.Proofs.Names.Shadowing
import Lox.Proofs.Scoping.Plans

/-!
The names at the top level. Nothing but a declaration that stands at the top level
gives the global scope a name: expressions and calls declare nothing where they
are, and blocks and bodies run in scopes of their own. So at every moment of a
line the global scope has the names that it had before and those that the line
itself declares.
-/

namespace Lox

/-- The global scope is there and has none but these names. -/
structure Machine.HasTop (top : String → Prop) (machine : Machine) : Prop where
  present : machine.globals < machine.scopes.size
  only : ∀ name, machine.scopes.declares machine.globals name = true → top name

/-- The global scope has got none but these names. -/
structure Machine.KeepsTop (top : String → Prop) (before after : Machine) : Prop where
  current : after.current = before.current
  globals : after.globals = before.globals
  size : before.scopes.size ≤ after.scopes.size
  names : before.globals < before.scopes.size → ∀ name,
    after.scopes.declares before.globals name = true →
      before.scopes.declares before.globals name = true ∨ top name

/-- Where the machine is, these names may be declared. -/
def Machine.Permits (machine : Machine) (top : String → Prop) (names : List String) : Prop :=
  machine.current = machine.globals → ∀ name ∈ names, top name

namespace Machine.KeepsTop

variable {top : String → Prop} {before middle after : Machine}

theorem refl (machine : Machine) : machine.KeepsTop top machine where
  current := rfl
  globals := rfl
  size := Nat.le_refl _
  names _ _ found := .inl found

theorem trans (first : before.KeepsTop top middle) (second : middle.KeepsTop top after) :
    before.KeepsTop top after where
  current := second.current.trans first.current
  globals := second.globals.trans first.globals
  size := Nat.le_trans first.size second.size
  names present name found := by
    have still : middle.globals < middle.scopes.size :=
      first.globals ▸ Nat.lt_of_lt_of_le present first.size
    rcases second.names still name (first.globals ▸ found) with earlier | allowed
    · exact first.names present name (first.globals ▸ earlier)
    · exact .inr allowed

theorem has_top (keeps : before.KeepsTop top after) (has : before.HasTop top) :
    after.HasTop top where
  present := keeps.globals ▸ Nat.lt_of_lt_of_le has.present keeps.size
  only name found := by
    rw [keeps.globals] at found
    exact (keeps.names has.present name found).elim (has.only name) id

theorem permits {names : List String} (keeps : before.KeepsTop top after)
    (permitted : before.Permits top names) : after.Permits top names := by
  unfold Machine.Permits
  rw [keeps.current, keeps.globals]
  exact permitted

end Machine.KeepsTop

namespace Run

variable {α β : Type} {top : String → Prop}

/-- The step gives the global scope no name. -/
def KeepsTop (top : String → Prop) (action : Run α) : Prop :=
  ∀ machine : Machine, machine.KeepsTop top (Ending.machine (action machine))

theorem bind_keeps_top {first : Run α} {next : α → Run β} (begun : first.KeepsTop top)
    (later : ∀ value, (next value).KeepsTop top) : (first >>= next).KeepsTop top :=
  bind_related (Machine.KeepsTop top) .trans begun later

/-- What changes no scope keeps their names. -/
theorem keeps_top_of_same {action : Run α} (restores : action.Restores)
    (same : ∀ machine, (Ending.machine (action machine)).scopes = machine.scopes) :
    action.KeepsTop top := by
  intro machine
  have registers := restores machine
  refine ⟨registers.current, registers.globals, Nat.le_of_eq (by rw [same]), ?_⟩
  rw [same]
  exact fun _ _ found => .inl found

theorem open_scope_keeps_top (parent : ScopeId) (names : Names Value) :
    (openScope parent names).KeepsTop top := by
  intro machine
  refine ⟨rfl, rfl, ?_, fun present name found => .inl ?_⟩
  · change machine.scopes.size ≤ (machine.scopes.extend (some parent) names).size
    rw [Scopes.size_extend]
    exact Nat.le_succ _
  · change (machine.scopes.extend (some parent) names).declares machine.globals name = true at found
    rw [World.declares_extend, if_neg (Nat.ne_of_lt present)] at found
    exact found

theorem assign_keeps_top (place : Occurrence) (value : Value) :
    (assign place value).KeepsTop top := by
  intro machine
  rcases assign_cases place value machine with ⟨scope, held, ended⟩ | ⟨-, ended⟩ <;> rw [ended]
  · refine ⟨rfl, rfl, Nat.le_of_eq (Scopes.size_define ..).symm, fun _ name found => .inl ?_⟩
    simp only [Ending.machine, World.declares_define, Bool.or_eq_true, decide_eq_true_eq] at found
    rcases found with ⟨rfl, -, rfl⟩ | earlier
    · exact holder_declared held
    · exact earlier
  · exact .refl machine

theorem look_up_keeps_top (place : Occurrence) : (lookUp place).KeepsTop top := by
  intro machine
  rcases look_up_cases place machine with ⟨_, _, -, -, ended⟩ | ended <;> rw [ended] <;>
    exact .refl machine

theorem print_keeps_top (value : Value) : (print value).KeepsTop top := by
  apply keeps_top_of_same (print_restores value)
  intro machine
  obtain ⟨_, ended | ended⟩ := print_cases value machine <;> rw [ended] <;> rfl

theorem bind_receiver_keeps_top (method : Closure) (receiver : Value) :
    (bindReceiver method receiver).KeepsTop top :=
  bind_keeps_top (open_scope_keeps_top _ _) fun _ _ => .refl _

theorem make_function_keeps_top (closure : Closure) : (makeFunction closure).KeepsTop top :=
  keeps_top_of_same (fun _ => ⟨rfl, rfl, rfl, rfl⟩) fun _ => rfl

theorem make_class_keeps_top (name : Token) (superclass : Option Class)
    (methods classMethods : List Routine) :
    (makeClass name superclass methods classMethods).KeepsTop top := by
  unfold makeClass
  apply bind_keeps_top fun _ => .refl _
  intro outer
  have identity : freshIdentity.KeepsTop top :=
    keeps_top_of_same (fun _ => ⟨rfl, rfl, rfl, rfl⟩) fun _ => rfl
  cases superclass with
  | none =>
      apply bind_keeps_top fun _ => .refl _
      exact fun _ => bind_keeps_top identity fun _ _ => .refl _
  | some cls =>
      apply bind_keeps_top (open_scope_keeps_top _ _)
      exact fun _ => bind_keeps_top identity fun _ _ => .refl _

theorem inherited_method_keeps_top (place : Occurrence) (method : Token) :
    (inheritedMethod place method).KeepsTop top := by
  intro machine
  rcases inherited_method_cases place method machine with
    ⟨_, _, _, -, -, -, ended⟩ | ⟨_, -, ended⟩ <;>
    rw [ended] <;> exact .refl machine

theorem result_keeps_top (closure : Closure) (completion : Completion) :
    (result closure completion).KeepsTop top := by
  intro machine
  obtain ⟨_, ended, -⟩ := result_cases closure completion machine
  rw [ended]
  exact .refl machine

theorem blame_keeps_top (line : Nat) (outcome : Except Fault α) :
    (blame line outcome).KeepsTop top := by
  cases outcome <;> exact fun _ => .refl _

theorem define_keeps_top (name : String) (value : Value) (machine : Machine)
    (permitted : machine.Permits top [name]) :
    machine.KeepsTop top (Ending.machine (define name value machine)) := by
  refine ⟨rfl, rfl, Nat.le_of_eq (Scopes.size_define ..).symm, fun _ key found => ?_⟩
  change (machine.scopes.define machine.current name value).declares machine.globals key = true
    at found
  rw [World.declares_define, Bool.or_eq_true, decide_eq_true_eq] at found
  rcases found with ⟨same, -, rfl⟩ | earlier
  · exact .inr (permitted same.symm _ List.mem_cons_self)
  · exact .inl earlier

end Run

/-- A task finds the global scope with its names and gives it none but those that
are allowed, provided that it is allowed what it declares itself. -/
def topContracts (top : String → Prop) : Contracts Unit where
  duty _ task machine := machine.HasTop top ∧ machine.Permits top task.node.declares
  effect _ _ machine ending := machine.KeepsTop top ending.machine
  inside _ _ _ _ := ()

namespace Planning

variable {α β : Type} {top : String → Prop} {names : List String}

/-- From this machine on, the plan asks for nothing that would give the global
scope another name, and gives it none itself. -/
def KeepsTopOn (top : String → Prop) (machine : Machine) (planned : Planning α) : Prop :=
  (planned machine).Meets ((topContracts top).under fun _ => ())
    fun ending => machine.KeepsTop top ending.machine

/-- Where these names may be declared, the plan declares no others at the top level. -/
def KeepsTop (top : String → Prop) (names : List String) (planned : Planning α) : Prop :=
  ∀ machine : Machine, machine.HasTop top → machine.Permits top names →
    planned.KeepsTopOn top machine

theorem bind_keeps_top_on {planned : Planning α} {next : α → Planning β} {machine : Machine}
    (begun : planned.KeepsTopOn top machine)
    (later : ∀ value after, machine.KeepsTop top after → (next value).KeepsTopOn top after) :
    (planned >>= next).KeepsTopOn top machine := by
  apply Plan.meets_followed_by
  refine Plan.meets_mono begun fun ending kept => ?_
  cases ending with
  | error halt after => exact kept
  | ok value after => exact Plan.meets_mono (later value after kept) fun _ => kept.trans

theorem bind_keeps_top {planned : Planning α} {next : α → Planning β}
    (begun : planned.KeepsTop top names) (later : ∀ value, (next value).KeepsTop top names) :
    (planned >>= next).KeepsTop top names := by
  intro machine has permitted
  apply bind_keeps_top_on (begun machine has permitted)
  intro value after kept
  exact later value after (kept.has_top has) (kept.permits permitted)

theorem act_keeps_top {action : Run α} (keeps : action.KeepsTop top) :
    (Setting.act action : Planning α).KeepsTop top names := fun machine _ _ => keeps machine

theorem pure_keeps_top (value : α) : (pure value : Planning α).KeepsTop top names :=
  fun machine _ _ => .refl machine

theorem fail_keeps_top (line : Nat) (cause : Fault) :
    (Setting.act (Run.fail line cause : Run α) : Planning α).KeepsTop top names :=
  act_keeps_top fun machine => .refl machine

/-- In a scope of its own, code may declare what it likes. -/
theorem within_keeps_top_on {planned : Planning α} {machine : Machine} {scope : ScopeId}
    (inner : planned.KeepsTop top names) (has : machine.HasTop top)
    (apart : scope ≠ machine.globals) :
    (Setting.within scope planned : Planning α).KeepsTopOn top machine := by
  have inside := inner { machine with current := scope } ⟨has.present, has.only⟩
    fun here => absurd here apart
  apply Plan.meets_leaving
  refine Plan.meets_mono inside fun ending kept => ?_
  cases ending <;> exact ⟨rfl, kept.globals, kept.size, kept.names⟩

theorem open_keeps_top {parent : ScopeId} {held : Names Value} {next : ScopeId → Planning α}
    (later : ∀ scope machine, machine.HasTop top → scope ≠ machine.globals →
      (next scope).KeepsTopOn top machine) :
    (Setting.act (Run.openScope parent held) >>= next : Planning α).KeepsTop top names := by
  intro machine has permitted
  have opened : machine.KeepsTop top
      { machine with scopes := machine.scopes.extend (some parent) held } :=
    Run.open_scope_keeps_top parent held machine
  have inside := later machine.scopes.size _ (opened.has_top has) (Nat.ne_of_gt has.present)
  exact Plan.meets_mono inside fun _ => opened.trans

theorem nested_keeps_top {planned : Planning α} (line : Nat)
    (inner : planned.KeepsTop top names) :
    (Setting.nested line planned : Planning α).KeepsTop top names := by
  intro machine has permitted
  change Plan.Meets _ _ (if callLimit ≤ machine.depth then _ else _)
  split_ifs with full
  · exact .refl machine
  · have deeper := inner { machine with depth := machine.depth + 1 } ⟨has.present, has.only⟩
      permitted
    apply Plan.meets_leaving
    apply Plan.meets_deeper
    refine Plan.meets_mono deeper fun ending kept => ?_
    cases ending <;> exact ⟨kept.current, kept.globals, kept.size, kept.names⟩

theorem part_keeps_top (task : Task) (declares : task.node.declares ⊆ names) :
    (part task).KeepsTop top names := fun _ has permitted =>
  ⟨⟨has, fun here name member => permitted here name (declares member)⟩, fun _ kept => kept⟩

section Expressions

theorem evaluate_keeps_top (value : Expression) :
    (Parts.asked.evaluate value).KeepsTop top names :=
  part_keeps_top (.evaluation value) (List.nil_subset _)

theorem call_keeps_top (closure : Closure) (arguments : List Value) :
    (Parts.asked.call closure arguments).KeepsTop top names :=
  part_keeps_top (.call closure arguments) (List.nil_subset _)

theorem evaluate_all_keeps_top (values : List Expression) :
    (Parts.asked.evaluateAll values).KeepsTop top names := by
  induction values with
  | nil => exact pure_keeps_top _
  | cons first rest induction =>
      apply bind_keeps_top (evaluate_keeps_top first)
      exact fun _ => bind_keeps_top induction fun _ => pure_keeps_top _

theorem construct_keeps_top (cls : Class) (arguments : List Value) :
    (Parts.asked.construct cls arguments).KeepsTop top names := by
  have made : (Run.makeInstance cls).KeepsTop top :=
    Run.keeps_top_of_same (fun _ => ⟨rfl, rfl, rfl, rfl⟩) fun _ => rfl
  apply bind_keeps_top (act_keeps_top made)
  intro object
  cases cls.method? initializerName with
  | none => exact pure_keeps_top _
  | some initializer =>
      apply bind_keeps_top (act_keeps_top (Run.bind_receiver_keeps_top initializer object))
      exact fun bound => bind_keeps_top (call_keeps_top bound arguments) fun _ => pure_keeps_top _

theorem call_value_keeps_top (callee : Value) (line : Nat) (arguments : List Value) :
    (Parts.asked.callValue callee line arguments).KeepsTop top names := by
  unfold Parts.callValue
  cases callee.callable? with
  | none => exact fail_keeps_top line _
  | some callable =>
      dsimp only
      split_ifs
      · exact fail_keeps_top line _
      · apply nested_keeps_top
        cases callable with
        | native provided =>
            cases provided
            exact act_keeps_top
              (Run.keeps_top_of_same (fun _ => ⟨rfl, rfl, rfl, rfl⟩) fun _ => rfl)
        | closure declared => exact call_keeps_top declared arguments
        | construction cls => exact construct_keeps_top cls arguments

theorem access_keeps_top (method : Option Closure) (receiver : Value) (name : Token) :
    (Parts.asked.access method receiver name).KeepsTop top names := by
  cases method with
  | none => exact fail_keeps_top name.line _
  | some method =>
      apply bind_keeps_top (act_keeps_top (Run.bind_receiver_keeps_top method receiver))
      intro bound
      split_ifs
      · exact nested_keeps_top name.line (call_keeps_top bound [])
      · exact act_keeps_top (Run.make_function_keeps_top bound)

theorem property_keeps_top (object : Value) (name : Token) :
    (Parts.asked.property object name).KeepsTop top names := by
  cases object with
  | object identity cls =>
      have field : (Run.field? identity name.lexeme).KeepsTop top := fun machine => .refl machine
      apply bind_keeps_top (act_keeps_top field)
      intro found
      cases found with
      | some value => exact pure_keeps_top _
      | none => exact access_keeps_top _ _ name
  | classValue cls => exact access_keeps_top _ _ name
  | nil | boolean | number | string | native | function => exact fail_keeps_top name.line _

theorem evaluation_keeps_top (value : Expression) :
    (Parts.asked.evaluation value).KeepsTop top names := by
  cases value with
  | literal value => exact pure_keeps_top _
  | grouping inner => exact evaluate_keeps_top inner
  | unary operator operand =>
      exact bind_keeps_top (evaluate_keeps_top operand) fun _ =>
        act_keeps_top (Run.blame_keeps_top _ _)
  | binary left operator right =>
      apply bind_keeps_top (evaluate_keeps_top left)
      exact fun _ => bind_keeps_top (evaluate_keeps_top right) fun _ =>
        act_keeps_top (Run.blame_keeps_top _ _)
  | logical left operator right =>
      apply bind_keeps_top (evaluate_keeps_top left)
      intro first
      split_ifs
      · exact pure_keeps_top _
      · exact evaluate_keeps_top right
  | conditional condition thenBranch elseBranch =>
      apply bind_keeps_top (evaluate_keeps_top condition)
      intro value
      split_ifs
      · exact evaluate_keeps_top thenBranch
      · exact evaluate_keeps_top elseBranch
  | reference place | receiver place => exact act_keeps_top (Run.look_up_keeps_top place)
  | assign place value =>
      apply bind_keeps_top (evaluate_keeps_top value)
      intro result
      exact bind_keeps_top (act_keeps_top (Run.assign_keeps_top place result)) fun _ =>
        pure_keeps_top _
  | call callee closing arguments =>
      apply bind_keeps_top (evaluate_keeps_top callee)
      intro function
      apply bind_keeps_top (evaluate_all_keeps_top arguments)
      exact fun values => call_value_keeps_top function closing.line values
  | get object name =>
      apply bind_keeps_top (evaluate_keeps_top object)
      exact fun target => property_keeps_top target name
  | set object name value =>
      apply bind_keeps_top (evaluate_keeps_top object)
      intro target
      cases target with
      | object identity cls =>
          apply bind_keeps_top (evaluate_keeps_top value)
          intro result
          have stored : (Run.setField identity name.lexeme result).KeepsTop top :=
            Run.keeps_top_of_same (fun _ => ⟨rfl, rfl, rfl, rfl⟩) fun _ => rfl
          exact bind_keeps_top (act_keeps_top stored) fun _ => pure_keeps_top _
      | nil | boolean | number | string | native | function | classValue =>
          exact fail_keeps_top name.line _
  | lambda routine =>
      exact act_keeps_top
        (Run.keeps_top_of_same (fun _ => ⟨rfl, rfl, rfl, rfl⟩) fun _ => rfl)
  | inherited place method =>
      apply bind_keeps_top (act_keeps_top (Run.inherited_method_keeps_top place method))
      exact fun found => access_keeps_top found.1 found.2 method

end Expressions

section Statements

theorem execute_keeps_top (order : Statement) (declares : order.declares ⊆ names) :
    (Parts.asked.execute order).KeepsTop top names :=
  part_keeps_top (.execution order) declares

theorem in_order_keeps_top (orders : List Statement)
    (declares : orders.flatMap Statement.declares ⊆ names) :
    (Parts.asked.inOrder orders).KeepsTop top names := by
  induction orders with
  | nil => exact pure_keeps_top _
  | cons first rest induction =>
      rw [List.flatMap_cons, List.append_subset] at declares
      apply bind_keeps_top (execute_keeps_top first declares.1)
      intro completion
      cases completion with
      | normal => exact induction declares.2
      | returned value => exact pure_keeps_top _

theorem application_keeps_top (closure : Closure) (arguments : List Value) :
    (Parts.asked.application closure arguments).KeepsTop top names := by
  apply open_keeps_top
  intro scope machine has apart
  have body : (Parts.asked.inOrder closure.routine.body).KeepsTop top _ :=
    in_order_keeps_top closure.routine.body (List.Subset.refl _)
  apply bind_keeps_top_on (within_keeps_top_on body has apart)
  exact fun completion after _ => Run.result_keeps_top closure completion after

theorem define_keeps_top (name : String) (value : Value) (member : name ∈ names) :
    (Setting.act (Run.define name value) : Planning Unit).KeepsTop top names := by
  intro machine has permitted
  apply Run.define_keeps_top name value machine
  intro here key isName
  exact List.mem_singleton.mp isName ▸ permitted here name member

theorem superclass_keeps_top (superclass : Option Occurrence) :
    (Parts.asked.superclassOf superclass).KeepsTop top names := by
  cases superclass with
  | none => exact pure_keeps_top _
  | some place =>
      apply bind_keeps_top (evaluate_keeps_top (.reference place))
      intro value
      cases value with
      | classValue cls => exact pure_keeps_top _
      | nil | boolean | number | string | native | function | object =>
          exact fail_keeps_top place.name.line _

theorem execution_keeps_top (order : Statement) :
    (Parts.asked.execution order).KeepsTop top order.declares := by
  cases order with
  | expression value => exact bind_keeps_top (evaluate_keeps_top value) fun _ => pure_keeps_top _
  | print value =>
      apply bind_keeps_top (evaluate_keeps_top value)
      intro result
      exact bind_keeps_top (act_keeps_top (Run.print_keeps_top result)) fun _ => pure_keeps_top _
  | variableDeclaration name initializer =>
      have named : name.lexeme ∈ (Statement.variableDeclaration name initializer).declares :=
        List.mem_singleton.mpr rfl
      cases initializer with
      | none => exact bind_keeps_top (define_keeps_top _ _ named) fun _ => pure_keeps_top _
      | some initializer =>
          apply bind_keeps_top (evaluate_keeps_top initializer)
          exact fun value => bind_keeps_top (define_keeps_top _ _ named) fun _ => pure_keeps_top _
  | block statements =>
      apply bind_keeps_top (act_keeps_top fun machine => .refl machine)
      intro outer
      apply open_keeps_top
      intro scope machine has apart
      exact within_keeps_top_on (in_order_keeps_top statements (List.Subset.refl _)) has apart
  | conditional condition thenBranch elseBranch =>
      apply bind_keeps_top (evaluate_keeps_top condition)
      intro value
      cases elseBranch with
      | none =>
          split_ifs
          · exact execute_keeps_top thenBranch (List.Subset.refl _)
          · exact pure_keeps_top _
      | some branch =>
          split_ifs
          · exact execute_keeps_top thenBranch (List.subset_append_left _ _)
          · exact execute_keeps_top branch (List.subset_append_right _ _)
  | loop condition body =>
      apply bind_keeps_top (evaluate_keeps_top condition)
      intro value
      split_ifs
      · apply bind_keeps_top (execute_keeps_top body (List.Subset.refl _))
        intro completion
        cases completion with
        | normal => exact execute_keeps_top (.loop condition body) (List.Subset.refl _)
        | returned value => exact pure_keeps_top _
      · exact pure_keeps_top _
  | routineDeclaration routine =>
      have closed : (Run.closeOver routine).KeepsTop top :=
        Run.keeps_top_of_same (fun _ => ⟨rfl, rfl, rfl, rfl⟩) fun _ => rfl
      apply bind_keeps_top (act_keeps_top closed)
      exact fun function => bind_keeps_top (define_keeps_top _ _ List.mem_cons_self) fun _ =>
        pure_keeps_top _
  | exit keyword value =>
      cases value with
      | none => exact pure_keeps_top _
      | some value => exact bind_keeps_top (evaluate_keeps_top value) fun _ => pure_keeps_top _
  | classDeclaration name superclass methods classMethods =>
      apply bind_keeps_top (superclass_keeps_top superclass)
      intro parent
      apply bind_keeps_top
        (act_keeps_top (Run.make_class_keeps_top name parent methods classMethods))
      exact fun declared => bind_keeps_top (define_keeps_top _ _ List.mem_cons_self) fun _ =>
        pure_keeps_top _

theorem line_keeps_top (line : Line) : (Parts.asked.line line).KeepsTop top line.node.declares := by
  cases line with
  | statements orders =>
      apply bind_keeps_top
      · exact bind_keeps_top (in_order_keeps_top orders (List.Subset.refl _)) fun _ =>
          pure_keeps_top _
      · exact fun _ => pure_keeps_top _
  | expression value => exact bind_keeps_top (evaluate_keeps_top value) fun _ => pure_keeps_top _

end Statements

end Planning

theorem top_contracts_kept (top : String → Prop) : (topContracts top).Kept where
  exhausted _ _ machine _ := .refl machine
  planned _ task machine duty := by
    obtain ⟨has, permitted⟩ := duty
    cases task with
    | evaluation value => exact Planning.evaluation_keeps_top value machine has permitted
    | execution order => exact Planning.execution_keeps_top order machine has permitted
    | call closure arguments =>
        exact Planning.application_keeps_top closure arguments machine has permitted

/-- At every moment of a line, the global scope has the names that it had before the
line and those that the line declares at the top level. -/
theorem underway_has_top {line : Line} {start : Machine}
    (present : start.globals < start.scopes.size) {moment : Moment} {rest : List Moment}
    (underway : Underway (Parts.asked.line line start) (moment :: rest)) :
    moment.machine.HasTop fun name =>
      start.scopes.declares start.globals name = true ∨ name ∈ line.node.declares := by
  have meets := Planning.line_keeps_top line start ⟨present, fun _ => Or.inl⟩
    fun _ _ => Or.inr
  exact (Contracts.underway_duty (top_contracts_kept _) meets underway).1

end Lox
