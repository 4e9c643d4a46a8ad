import Lox.Proofs.Receivers.Plans

/-!
Statements and bodies keep the receivers. A call opens a scope for its routine, in the frames
that the routine is written in; the declaration of a class opens one for the superclass, if
it has one, and its methods lie there. So every task that has been begun keeps to the
contract, and so does every line.
-/

namespace Lox

theorem Run.look_up_ok {place : Occurrence} {value : Value} {machine after : Machine}
    (found : Run.lookUp place machine = .ok value after) : after = machine := by
  rcases Run.look_up_cases place machine with ⟨_, _, -, -, ended⟩ | ended <;>
    rw [ended] at found <;>
    cases found
  rfl

namespace Framed

variable {lines : List Line} {frames : List Frame}

theorem in_list {declared : List Routine} {site : Site} (framed : Framed lines site frames)
    (node : site.node = .routines declared) {routine : Routine} (member : routine ∈ declared) :
    ∃ inner, Framed lines inner frames ∧ inner.node = .routine routine := by
  induction declared generalizing site with
  | nil => cases member
  | cons first rest induction =>
      obtain ⟨_, analysis, full⟩ := site
      cases node
      rcases List.mem_cons.mp member with rfl | member
      · exact ⟨⟨.routine routine, analysis, full⟩, .beside framed rfl List.mem_cons_self, rfl⟩
      · exact induction (.beside framed rfl (List.mem_cons_of_mem _ List.mem_cons_self)) rfl member

/-- The methods of a class lie in its frames. -/
theorem method {site : Site} (framed : Framed lines site frames) {home : Home}
    (isClass : site.node = .statement home.declaration) {routine : Routine}
    (member : routine ∈ home.routines) :
    ∃ inner, Framed lines inner (home.frames ++ frames) ∧ inner.node = .routine routine := by
  have isPart : Node.routines home.routines ∈ site.parts.map Site.node := by
    rw [Site.part_nodes, isClass]
    obtain ⟨name, superclass, methods, classMethods, ofClass⟩ := home
    cases superclass <;> cases ofClass <;>
      simp [Home.declaration, Home.routines, Node.parts]
  obtain ⟨part, isPart, node⟩ := List.mem_map.mp isPart
  exact in_list (.methods framed isClass isPart node) node member

end Framed

namespace Record

variable {record : Record} {machine : Machine} {analysis : Analysis} {full : List StaticScope}
  {frames : List Frame}

theorem runs_in_order {orders : List Statement}
    (here : record.Here ⟨.statements orders, analysis, full⟩ frames machine) :
    record.Runs record.CompletionFits machine (Parts.asked.inOrder orders) := by
  induction orders generalizing machine analysis with
  | nil => exact runs_pure here.furnished nofun
  | cons first rest induction =>
      apply runs_bind (runs_execute (here.part rfl List.mem_cons_self))
      intro after completion onward fits
      cases completion with
      | returned value => exact runs_pure onward.furnished fits
      | normal =>
          exact induction ((here.onward onward).part rfl
            (List.mem_cons_of_mem _ List.mem_cons_self))

/-- A body runs in a new scope, which holds neither a receiver nor a superclass. -/
theorem runs_body {site : Site} {body : List Statement} {scopes : Scopes Value} {parent : ScopeId}
    {names : Names Value} (framed : Framed record.lines site frames)
    (isBody : site.node.body? = some (.statements body)) (lies : record.Lies scopes frames parent)
    (free : ∀ name, names.contains name = true → Free name)
    (opened : ∀ routine, site.node = .routine routine →
      record.Opened (scopes.extend (some parent) names) scopes.size routine)
    (furnished : record.Furnished machine)
    (extended : machine.scopes = scopes.extend (some parent) names) :
    record.Runs record.CompletionFits machine
      (Setting.within scopes.size (Parts.asked.inOrder body)) := by
  have isPart : Node.statements body ∈ site.parts.map Site.node := by
    rw [Site.part_nodes]
    cases node : site.node with
    | statement order =>
        rw [node] at isBody
        cases order <;> cases isBody
        exact List.mem_cons_self
    | routine declared =>
        rw [node] at isBody
        cases isBody
        exact List.mem_cons_self
    | expression | expressions | statements | routines =>
        rw [node] at isBody
        cases isBody
  obtain ⟨⟨_, reached, inner⟩, isPart, rfl⟩ := List.mem_map.mp isPart
  have opens : site.node.body?.isSome = true := by
    rw [isBody]
    rfl
  have inside : record.Lies machine.scopes (.scope site.node :: frames) scopes.size := by
    rw [extended]
    exact lies_opened lies ⟨bare_opened free, opened⟩
  have here : record.Here ⟨.statements body, reached, inner⟩ (.scope site.node :: frames)
      { machine with current := scopes.size } :=
    ⟨furnished_after furnished rfl rfl rfl, .body framed opens isPart, inside⟩
  exact runs_within (runs_in_order here)

/-- The block has a scope of its own, which is empty when it begins. -/
theorem block_runs {orders : List Statement}
    (here : record.Here ⟨.statement (.block orders), analysis, full⟩ frames machine) :
    record.Runs record.CompletionFits machine (Parts.asked.execution (.block orders)) := by
  have runs : record.Runs record.CompletionFits machine
      (Setting.act (Run.openScope machine.current .empty) >>= fun scope =>
        Setting.within scope (Parts.asked.inOrder orders)) := by
    apply runs_bind (runs_act (open_scope_leads here.furnished machine.current
      fun name value held => by cases held))
    rintro after _ onward ⟨rfl, extended⟩
    exact runs_body here.framed rfl here.lies (fun name held => by cases held) nofun
      onward.furnished extended
  exact runs

theorem parameter_argument {routine : Routine} {arguments : List Value} {name : String}
    {value : Value} (held : (Run.parameterNames routine arguments).find? name = some value) :
    value ∈ arguments :=
  (List.of_mem_zip (Names.mem_of_find held)).2

theorem parameter_name {routine : Routine} {arguments : List Value} {name : String}
    (held : (Run.parameterNames routine arguments).contains name = true) :
    ∃ parameter ∈ routine.parameters.getD [], parameter.lexeme = name := by
  rw [Run.parameterNames, Names.contains_of_list] at held
  obtain ⟨⟨name, value⟩, member, rfl⟩ := List.mem_map.mp held
  exact List.mem_map.mp (List.of_mem_zip member).1

section Vetted

variable (vetted : Vetted record.table record.lines)

include vetted

/-- The scope of a call is opened by the call, in the frames of the routine. -/
theorem application_runs {closure : Closure} {arguments : List Value}
    (furnished : record.Furnished machine) (fits : record.ClosureFits machine.scopes closure)
    (argumentsFit : ∀ value ∈ arguments, record.Fits machine.scopes value)
    (known : record.begun (.call closure arguments) machine) :
    record.Runs record.Fits machine (Parts.asked.application closure arguments) := by
  obtain ⟨⟨_, analysis, full⟩, frames, framed, node, lies, -⟩ := fits
  cases node
  have inside := lies_inside lies
  have keeps := machine.scopes.keeps_extend (some closure.scope)
    (Run.parameterNames closure.routine arguments)
  apply runs_bind (runs_act (open_scope_leads furnished closure.scope fun name value held =>
    argumentsFit value (parameter_argument held)))
  rintro after _ onward ⟨rfl, extended⟩
  have body : record.Runs record.CompletionFits after
      (Setting.within machine.scopes.size (Parts.asked.inOrder closure.routine.body)) := by
    refine runs_body framed rfl lies ?_ ?_ onward.furnished extended
    · intro name held
      obtain ⟨parameter, member, rfl⟩ := parameter_name held
      exact vetted.routine_free framed.isKnown parameter (List.mem_append_right _ member)
    · rintro routine ⟨rfl⟩
      exact ⟨closure, arguments, machine, known, rfl, rfl, parent_opened inside _,
        fun name taken => keeps.bound _ inside name taken⟩
  apply runs_bind body
  intro last completion onwardLast completionFits
  exact runs_act (result_leads onwardLast.furnished closure completionFits)

omit vetted in
/-- What a class inherits from is what its superclass is at this moment. -/
theorem superclass_runs {superclass : Option Occurrence} {name : Token}
    {methods classMethods : List Routine}
    (here : record.Here ⟨.statement (.classDeclaration name superclass methods classMethods),
      analysis, full⟩ frames machine) :
    record.Runs (fun scopes parent => scopes = machine.scopes ∧
        match superclass with
        | none => parent = none
        | some place => ∃ cls, parent = some cls ∧ record.ClassFits machine.scopes cls ∧
            Run.lookUp place machine = .ok (.classValue cls) machine)
      machine (Parts.asked.superclassOf superclass) := by
  cases superclass with
  | none => exact runs_pure here.furnished ⟨rfl, rfl⟩
  | some place =>
      let home : Home := ⟨name, some place, methods, classMethods, false⟩
      have isClass : (Site.mk (.statement home.declaration) analysis full).node =
          .statement home.declaration := rfl
      have framed : Framed record.lines ⟨.expression (.reference place),
          analysis.atSuperclass name place, full⟩ frames :=
        .ancestor here.framed isClass List.mem_cons_self rfl
      have begun : record.Runs (fun scopes value => scopes = machine.scopes ∧
          record.Fits machine.scopes value ∧ Run.lookUp place machine = .ok value machine)
          machine (Parts.asked.evaluate (.reference place)) := by
        refine ⟨⟨here.furnished, _, frames, framed, rfl, here.lies⟩, ?_⟩
        rintro ending ⟨leads, supply, rfl⟩
        cases supply with
        | zero => exact leads
        | succ supply =>
            have ran : Task.run (supply + 1) (.evaluation (.reference place)) machine =
                Run.lookUp place machine := rfl
            rw [ran] at leads ⊢
            cases found : Run.lookUp place machine with
            | error halt after =>
                rw [found] at leads
                exact leads
            | ok value after =>
                rw [found] at leads
                cases Run.look_up_ok found
                exact ⟨leads.1, rfl, leads.2, rfl⟩
      apply runs_bind begun
      rintro after value onward ⟨same, fits, found⟩
      cases value with
      | classValue cls => exact runs_pure onward.furnished ⟨same, cls, rfl, fits, found⟩
      | nil | boolean | number | string | native | function | object =>
          exact runs_fail onward.furnished _ trivial

omit vetted in
/-- The methods of a new class lie in its frames, among them the scope that the class opens
for its superclass. -/
theorem make_class_leads {name : Token} {superclass : Option Occurrence}
    {methods classMethods : List Routine} {parent : Option Class}
    (here : record.Here ⟨.statement (.classDeclaration name superclass methods classMethods),
      analysis, full⟩ frames machine)
    (inherits : match superclass with
      | none => parent = none
      | some _ => ∃ cls, parent = some cls ∧ record.ClassFits machine.scopes cls ∧
          ∀ ofClass, record.Inherits ⟨name, superclass, methods, classMethods, ofClass⟩ cls
            machine.scopes.size) :
    record.Leads record.Fits machine (Run.makeClass name parent methods classMethods machine) := by
  have own (ofClass : Bool) {routine : Routine}
      (member : routine ∈ (if ofClass then classMethods else methods)) : ∃ inner,
      Framed record.lines inner
        ((Home.mk name superclass methods classMethods ofClass).frames ++ frames) ∧
      inner.node = .routine routine := here.framed.method rfl member
  cases superclass with
  | none =>
      cases inherits
      refine aside_leads here.furnished rfl rfl rfl rfl fun ofClass key method found => ?_
      rcases answer_of_class found with ⟨member, scope, ofObject⟩ | ⟨_, isClass, -⟩
      · obtain ⟨inner, framed, node⟩ := own ofClass member
        exact ⟨_, inner, frames, rfl, framed, node, scope ▸ here.lies, ofObject⟩
      · cases isClass
  | some place =>
      obtain ⟨cls, rfl, clsFits, inherits⟩ := inherits
      have keeps := machine.scopes.keeps_extend (some machine.current)
        (.ofList [(superclassName, .classValue cls)])
      have fits : record.Fits machine.scopes (.classValue cls) := clsFits
      have single : ∀ key value, (Names.ofList [(superclassName, .classValue cls)]).find? key =
          some value → record.Fits machine.scopes value := single_fits fits
      have furnished := furnished_extended here.furnished (some machine.current) single
      refine ⟨⟨keeps, furnished_after furnished rfl rfl rfl, rfl⟩,
        fun ofClass key method found => ?_⟩
      rcases answer_of_class found with ⟨member, scope, ofObject⟩ | ⟨_, isClass, inherited⟩
      · obtain ⟨inner, framed, node⟩ := own ofClass member
        refine ⟨_, inner, frames, rfl, framed, node, ?_, ofObject⟩
        rw [scope]
        refine lies_opened here.lies ⟨?_, cls, ?_, inherits ofClass⟩
        · rw [local_single]
          rfl
        · rw [local_single]
          rfl
      · cases isClass
        exact method_fits_later keeps (clsFits ofClass key method inherited)

theorem class_declaration_runs {name : Token} {superclass : Option Occurrence}
    {methods classMethods : List Routine}
    (here : record.Here ⟨.statement (.classDeclaration name superclass methods classMethods),
      analysis, full⟩ frames machine)
    (known : record.begun
      (.execution (.classDeclaration name superclass methods classMethods)) machine) :
    record.Runs record.CompletionFits machine
      (Parts.asked.execution (.classDeclaration name superclass methods classMethods)) := by
  apply runs_bind (superclass_runs here)
  rintro after parent onward ⟨same, inherits⟩
  have made : record.Leads record.Fits after
      (Run.makeClass name parent methods classMethods after) := by
    apply make_class_leads (here.onward onward)
    cases superclass with
    | none => exact inherits
    | some place =>
        obtain ⟨cls, rfl, fits, found⟩ := inherits
        exact ⟨cls, rfl, class_fits_later onward.keeps fits, fun ofClass =>
          ⟨place, machine, rfl, known, found, congrArg Scopes.size same.symm⟩⟩
  apply runs_bind (runs_act made)
  intro last value onwardLast fits
  have free : Free name.lexeme :=
    vetted.spelled here.framed.isKnown (.identifier, name) List.mem_cons_self
  apply runs_bind (runs_act (define_leads onwardLast.furnished free fits))
  intro final _ onwardFinal _
  exact runs_pure onwardFinal.furnished nofun

theorem routine_declaration_runs {declared : Routine}
    (here : record.Here ⟨.statement (.routineDeclaration declared), analysis, full⟩ frames
      machine) :
    record.Runs record.CompletionFits machine
      (Parts.asked.execution (.routineDeclaration declared)) := by
  have framed : Framed record.lines
      ⟨.routine declared, analysis.declareAll declared.name.toList, full⟩ frames :=
    .beside here.framed rfl List.mem_cons_self
  have free : Free declared.label := by
    have names := vetted.routine_free framed.isKnown
    unfold Routine.label
    cases named : declared.name with
    | none => exact ⟨by decide, by decide⟩
    | some name =>
        rw [named] at names
        exact names name List.mem_cons_self
  have fits : record.ClosureFits machine.scopes ⟨declared, machine.current, false⟩ :=
    ⟨_, frames, framed, rfl, here.lies, fun yields => absurd yields Bool.false_ne_true⟩
  have closed : record.Leads record.Fits machine (Run.closeOver declared machine) :=
    make_function_leads here.furnished fits
  apply runs_bind (runs_act closed)
  intro after value onward valueFits
  apply runs_bind (runs_act (define_leads onward.furnished free valueFits))
  intro last _ onwardLast _
  exact runs_pure onwardLast.furnished nofun

/-- Every statement that has been begun keeps to the contract if its parts do. -/
theorem execution_runs {order : Statement}
    (here : record.Here ⟨.statement order, analysis, full⟩ frames machine)
    (known : record.begun (.execution order) machine) :
    record.Runs record.CompletionFits machine (Parts.asked.execution order) := by
  have isValue {value : Expression} {later : Analysis} {after : Machine}
      (plain : (Node.statement order).opensScope = false)
      (member : ⟨.expression value, later, full⟩ ∈
        (Site.mk (.statement order) analysis full).parts) (onward : record.Onward machine after) :
      record.Runs record.Fits after (Parts.asked.evaluate value) :=
    runs_evaluate ((here.onward onward).part plain member)
  have isBranch {branch : Statement} {later : Analysis} {after : Machine}
      (plain : (Node.statement order).opensScope = false)
      (member : ⟨.statement branch, later, full⟩ ∈
        (Site.mk (.statement order) analysis full).parts) (onward : record.Onward machine after) :
      record.Runs record.CompletionFits after (Parts.asked.execute branch) :=
    runs_execute ((here.onward onward).part plain member)
  have start : record.Onward machine machine := ⟨.refl _, here.furnished, rfl⟩
  cases order with
  | expression value =>
      apply runs_bind (isValue rfl List.mem_cons_self start)
      intro after result onward _
      exact runs_pure onward.furnished nofun
  | print value =>
      apply runs_bind (isValue rfl List.mem_cons_self start)
      intro after result onward _
      apply runs_bind (runs_act (print_leads onward.furnished result))
      intro last _ onwardLast _
      exact runs_pure onwardLast.furnished nofun
  | variableDeclaration name initializer =>
      have free := vetted.variable_free here.framed.isKnown
      cases initializer with
      | none =>
          have fits : record.Fits machine.scopes .nil := trivial
          apply runs_bind (runs_act (define_leads here.furnished free fits))
          intro after _ onward _
          exact runs_pure onward.furnished nofun
      | some value =>
          apply runs_bind (isValue rfl List.mem_cons_self start)
          intro after result onward fits
          apply runs_bind (runs_act (define_leads onward.furnished free fits))
          intro last _ onwardLast _
          exact runs_pure onwardLast.furnished nofun
  | block orders => exact block_runs here
  | conditional condition thenBranch elseBranch =>
      have first : ⟨.expression condition, analysis, full⟩ ∈
          (Site.mk (.statement (.conditional condition thenBranch elseBranch)) analysis
            full).parts := by
        cases elseBranch <;> exact List.mem_cons_self
      have second : ⟨.statement thenBranch, condition.analyse analysis, full⟩ ∈
          (Site.mk (.statement (.conditional condition thenBranch elseBranch)) analysis
            full).parts := by
        cases elseBranch <;> exact List.mem_cons_of_mem _ List.mem_cons_self
      apply runs_bind (isValue rfl first start)
      intro after value onward _
      split_ifs
      · exact isBranch rfl second onward
      · cases elseBranch with
        | none => exact runs_pure onward.furnished nofun
        | some branch =>
            exact isBranch rfl
              (List.mem_cons_of_mem _ (List.mem_cons_of_mem _ List.mem_cons_self)) onward
  | loop condition body =>
      apply runs_bind (isValue rfl List.mem_cons_self start)
      intro after value onward _
      split_ifs
      · apply runs_bind (isBranch rfl (List.mem_cons_of_mem _ List.mem_cons_self) onward)
        intro last completion onwardLast fits
        cases completion with
        | returned value => exact runs_pure onwardLast.furnished fits
        | normal => exact runs_execute (here.onward (onward.trans onwardLast))
      · exact runs_pure onward.furnished nofun
  | routineDeclaration declared => exact routine_declaration_runs vetted here
  | exit keyword value =>
      cases value with
      | none =>
          refine runs_pure here.furnished ?_
          rintro _ ⟨rfl⟩
          trivial
      | some value =>
          apply runs_bind (isValue rfl List.mem_cons_self start)
          intro after result onward fits
          refine runs_pure onward.furnished ?_
          rintro _ ⟨rfl⟩
          exact fits
  | classDeclaration name superclass methods classMethods =>
      exact class_declaration_runs vetted here known

/-- Every task that has been begun keeps the receivers. -/
theorem keeping_kept : record.keeping.KeptBy record.begun where
  exhausted _ _ _ duty := ⟨.refl _, duty.1, trivial⟩
  planned _ task machine duty known := by
    obtain ⟨furnished, placed⟩ := duty
    cases task with
    | evaluation value =>
        obtain ⟨⟨_, analysis, full⟩, frames, framed, rfl, lies⟩ := placed
        exact evaluation_runs vetted ⟨furnished, framed, lies⟩
    | execution order =>
        obtain ⟨⟨_, analysis, full⟩, frames, framed, rfl, lies⟩ := placed
        exact execution_runs vetted ⟨furnished, framed, lies⟩ known
    | call closure arguments =>
        exact application_runs vetted furnished placed.1 placed.2 known

omit vetted in
/-- A line runs at the top level, in no frame. -/
theorem line_runs {line : Line} (member : line ∈ record.lines)
    (furnished : record.Furnished machine) (inside : machine.current < machine.scopes.size) :
    record.Runs anything machine (Parts.asked.line line) := by
  have here : record.Here line.site [] machine := ⟨furnished, .top member, inside⟩
  cases line with
  | statements orders =>
      have program : record.Runs anything machine (Parts.asked.program orders) := by
        apply runs_bind (runs_in_order here)
        intro after completion onward _
        exact runs_pure onward.furnished trivial
      apply runs_bind program
      intro after result onward _
      exact runs_pure onward.furnished trivial
  | expression value =>
      apply runs_bind (runs_evaluate here)
      intro after result onward _
      exact runs_pure onward.furnished trivial

end Vetted

end Record

end Lox
