import Lox.Proofs.Scoping.Plans

/-!
Expressions and calls keep to the contract. Evaluating declares nothing; a call
opens a scope for the body of its routine, which is an instance of the scope
that the analysis has for it.
-/

namespace Lox

namespace World

variable {known : Site → Prop} {table : Std.TreeMap Nat Nat} {base : Site} {world : World}
  {machine : Machine}

/-- The machine is where the code of the site can run, which is near some base. -/
structure There (known : Site → Prop) (table : Std.TreeMap Nat Nat) (base : Site)
    (world : World) (machine : Machine) (site : Site) (heeded : String → Prop) : Prop where
  holds : world.Holds known machine
  table : world.distances = table
  isKnown : known site
  near : base.Near site
  stands : world.At site heeded machine.current

/-- The parts of the site are near the base as well. -/
structure Here (known : Site → Prop) (table : Std.TreeMap Nat Nat) (base : Site)
    (world : World) (machine : Machine) (site : Site) (heeded : String → Prop) : Prop
    extends There known table base world machine site heeded where
  inside : ∀ inner ∈ site.parts, base.Near inner

theorem ready_heeding {heeded : String → Prop} {scopes : List StaticScope} {id : ScopeId}
    (ready : world.Ready anyName scopes id) : world.Ready heeded scopes id := by
  induction scopes generalizing id with
  | nil => trivial
  | cons inner outer induction =>
      obtain ⟨here, parent, around, rest⟩ := ready
      exact ⟨fun name _ => here name trivial, parent, around, induction rest⟩

section Places

variable {site : Site} {heeded : String → Prop}

theorem There.onward {declaring : Option ScopeId} {later : World} {after : Machine}
    (there : There known table base world machine site heeded)
    (onward : Onward known declaring world machine later after) :
    There known table base later after site heeded where
  holds := onward.holds
  table := onward.distances.trans there.table
  isKnown := there.isKnown
  near := there.near
  stands := onward.current.symm ▸ at_later onward.before there.stands

theorem There.heeding (there : There known table base world machine site anyName) :
    There known table base world machine site heeded :=
  ⟨there.holds, there.table, there.isKnown, there.near, there.stands.inside, there.stands.view,
    ready_heeding there.stands.ready⟩

/-- Whatever is close to a list has its members close as well. -/
theorem There.list (there : There known table base world machine site heeded)
    (isList : site.node.isList = true) : Here known table base world machine site heeded :=
  ⟨there, fun _ => .part there.near (.inr isList)⟩

theorem There.itself (there : There known table site world machine site heeded) :
    Here known table site world machine site heeded :=
  ⟨there, fun _ => .part .self (.inl rfl)⟩

theorem Here.onward {declaring : Option ScopeId} {later : World} {after : Machine}
    (here : Here known table base world machine site heeded)
    (onward : Onward known declaring world machine later after) :
    Here known table base later after site heeded :=
  ⟨here.toThere.onward onward, here.inside⟩

/-- The machine is at a part of the site that lies in the same scopes. -/
theorem Here.part (charted : Charted table known)
    (here : Here known table base world machine site anyName) {inner : Site}
    (member : inner ∈ site.parts) (full : inner.full = site.full)
    (scopes : inner.analysis.scopes = site.analysis.scopes) :
    There known table base world machine inner heeded := by
  refine ⟨here.holds, here.table, charted.part here.isKnown member, here.inside inner member,
    here.stands.inside, here.stands.view.trans full.symm, ?_⟩
  rw [scopes]
  exact ready_heeding here.stands.ready

/-- The machine is where the base may call something. -/
structure Calling (known : Site → Prop) (table : Std.TreeMap Nat Nat) (base : Site)
    (world : World) (machine : Machine) : Prop where
  holds : world.Holds known machine
  table : world.distances = table
  among : world.Among machine base

theorem Calling.onward {declaring : Option ScopeId} {later : World} {after : Machine}
    (calling : Calling known table base world machine)
    (onward : Onward known declaring world machine later after) :
    Calling known table base later after where
  holds := onward.holds
  table := onward.distances.trans calling.table
  among := by
    unfold Among
    rw [onward.current]
    exact ⟨Nat.lt_of_lt_of_le calling.among.1 onward.before.size,
      (onward.before.view _ calling.among.1).trans calling.among.2⟩

theorem Calling.deeper (calling : Calling known table base world machine) :
    Calling known table base world { machine with depth := machine.depth + 1 } :=
  ⟨holds_after calling.holds rfl rfl rfl rfl, calling.table, calling.among⟩

theorem There.calling (there : There known table base world machine site heeded)
    (full : site.full = base.full) : Calling known table base world machine :=
  ⟨there.holds, there.table, there.stands.inside, there.stands.view.trans full⟩

end Places

section Parts

theorem runs_evaluate {value : Expression} {analysis : Analysis} {full : List StaticScope}
    (there : There known table base world machine ⟨.expression value, analysis, full⟩
      value.heeds) :
    Runs known table base none (fun later result => later.Fits known result) world machine
      (Parts.asked.evaluate value) := by
  have stands : Stands known table ⟨world.pending, (· = base)⟩ (.evaluation value) machine world
      ⟨.expression value, analysis, full⟩ :=
    ⟨there.holds, there.table, rfl, there.isKnown, ⟨rfl, base, rfl, there.near⟩, there.stands⟩
  exact ⟨⟨world, _, stands⟩, fun ending effect => effect world _ stands⟩

theorem runs_execute {order : Statement} {analysis : Analysis} {full : List StaticScope}
    (there : There known table base world machine ⟨.statement order, analysis, full⟩ anyName)
    (exact : world.Exact analysis.scopes machine.current) :
    Runs known table base (some machine.current)
      (Completes known ⟨.statement order, analysis, full⟩ machine.current) world machine
      (Parts.asked.execute order) := by
  have stands : Stands known table ⟨world.pending, (· = base)⟩ (.execution order) machine world
      ⟨.statement order, analysis, full⟩ :=
    ⟨there.holds, there.table, rfl, there.isKnown, ⟨rfl, base, rfl, there.near⟩, there.stands,
      exact⟩
  exact ⟨⟨world, _, stands⟩, fun ending effect => effect world _ stands⟩

theorem runs_call {closure : Closure} {arguments : List Value}
    (calling : Calling known table base world machine) (fits : world.ClosureFits known closure)
    (argumentsFit : ∀ value ∈ arguments, world.Fits known value)
    (enough : arguments.length = closure.routine.arity) :
    Runs known table base none (fun later result => later.Fits known result) world machine
      (Parts.asked.call closure arguments) := by
  obtain ⟨site, isKnown, node, here⟩ := fits
  have stands : Stands known table ⟨world.pending, (· = base)⟩ (.call closure arguments) machine
      world site :=
    ⟨calling.holds, calling.table, rfl, isKnown, ⟨node, isKnown⟩, here, argumentsFit, enough,
      base, rfl, calling.among⟩
  exact ⟨⟨world, site, stands⟩, fun ending effect => effect world site stands⟩

end Parts

section Calls

variable (calling : Calling known table base world machine)

include calling

theorem runs_construct {cls : Class} {arguments : List Value} (fits : world.ClassFits known cls)
    (argumentsFit : ∀ value ∈ arguments, world.Fits known value)
    (enough : arguments.length = (Callable.construction cls).arity) :
    Runs known table base none (fun later result => later.Fits known result) world machine
      (Parts.asked.construct cls arguments) := by
  apply runs_bind (runs_act (make_instance_leads calling.holds fits))
  intro later after object onward objectFits
  cases found : cls.method? initializerName with
  | none => exact runs_pure onward.holds objectFits
  | some initializer =>
      have classFits := class_fits_later onward.before fits
      apply runs_bind (runs_act (bind_receiver_leads onward.holds
        (classFits _ _ (.inl found)) objectFits))
      rintro second afterSecond bound onwardSecond ⟨boundFits, sameRoutine⟩
      have both := onward.before.trans onwardSecond.before
      refine runs_bind (runs_call ((calling.onward onward).onward onwardSecond) boundFits
        (fun value member => fits_later both (argumentsFit value member)) ?_) ?_
      · simpa [Callable.arity, found, sameRoutine] using enough
      · intro third afterThird _ onwardThird _
        exact runs_pure onwardThird.holds
          (fits_later (onwardSecond.before.trans onwardThird.before) objectFits)

theorem runs_invoke {callable : Callable} {callee : Value} {arguments : List Value}
    (isCallable : callee.callable? = some callable) (fits : world.Fits known callee)
    (argumentsFit : ∀ value ∈ arguments, world.Fits known value)
    (enough : arguments.length = callable.arity) :
    Runs known table base none (fun later result => later.Fits known result) world machine
      (Parts.asked.invoke arguments callable) := by
  cases callee with
  | native provided =>
      cases isCallable
      cases provided
      exact runs_act (read_clock_leads calling.holds)
  | function identity closure =>
      cases isCallable
      exact runs_call calling fits argumentsFit enough
  | classValue cls =>
      cases isCallable
      exact runs_construct calling fits argumentsFit enough
  | nil | boolean | number | string | object => cases isCallable

theorem runs_call_value {callee : Value} {arguments : List Value} (line : Nat)
    (fits : world.Fits known callee)
    (argumentsFit : ∀ value ∈ arguments, world.Fits known value) :
    Runs known table base none (fun later result => later.Fits known result) world machine
      (Parts.asked.callValue callee line arguments) := by
  unfold Parts.callValue
  cases isCallable : callee.callable? with
  | none => exact runs_act (fail_leads calling.holds line _)
  | some callable =>
      dsimp only
      split_ifs with wrong
      · exact runs_act (fail_leads calling.holds line _)
      · apply runs_nested calling.holds
        exact runs_invoke calling.deeper isCallable fits argumentsFit (not_not.mp wrong)

theorem runs_access {method : Option Closure} {receiver : Value} (name : Token)
    (methodFits : ∀ closure, method = some closure → world.MethodFits known closure)
    (fits : world.Fits known receiver) :
    Runs known table base none (fun later result => later.Fits known result) world machine
      (Parts.asked.access method receiver name) := by
  cases method with
  | none => exact runs_act (fail_leads calling.holds name.line _)
  | some method =>
      apply runs_bind (runs_act (bind_receiver_leads calling.holds (methodFits method rfl) fits))
      rintro later after bound onward ⟨boundFits, -⟩
      split_ifs with getter
      · have none : bound.routine.parameters = none := by
          simpa [Routine.isGetter] using getter
        apply runs_nested onward.holds
        apply runs_call (calling.onward onward).deeper boundFits
        · exact List.forall_mem_nil _
        · simp [Routine.arity, none]
      · refine runs_mono (runs_act (make_function_leads onward.holds bound)) ?_
        rintro final before _ value ⟨identity, rfl⟩
        exact closure_fits_later before boundFits

theorem runs_property {object : Value} (name : Token) (fits : world.Fits known object) :
    Runs known table base none (fun later result => later.Fits known result) world machine
      (Parts.asked.property object name) := by
  cases object with
  | object identity cls =>
      apply runs_bind (runs_act (field_leads calling.holds identity name.lexeme))
      intro later after field onward fieldFits
      cases field with
      | some value => exact runs_pure onward.holds (fieldFits value rfl)
      | none =>
          have classFits : later.ClassFits known cls := class_fits_later onward.before fits
          exact runs_access (calling.onward onward) name
            (fun closure found => classFits _ _ (.inl found)) (fits_later onward.before fits)
  | classValue cls =>
      exact runs_access calling name (fun closure found => fits _ _ (.inr found)) fits
  | nil | boolean | number | string | native | function =>
      exact runs_act (fail_leads calling.holds name.line _)

end Calls

section Constructs

variable (charted : Charted table known) {analysis : Analysis} {full : List StaticScope}

include charted

theorem runs_evaluate_all {values : List Expression}
    (here : Here known table base world machine ⟨.expressions values, analysis, full⟩ anyName) :
    Runs known table base none
      (fun later results => ∀ result ∈ results, later.Fits known result)
      world machine (Parts.asked.evaluateAll values) := by
  induction values generalizing world machine analysis with
  | nil => exact runs_pure here.holds (List.forall_mem_nil _)
  | cons first rest induction =>
      apply runs_bind (runs_evaluate (here.part charted List.mem_cons_self rfl rfl))
      intro later after value onward fits
      have there : There known table base later after
          ⟨.expressions rest, first.analyse analysis, full⟩ anyName :=
        (here.onward onward).part charted (List.mem_cons_of_mem _ List.mem_cons_self) rfl
          (Site.expression_after first analysis)
      apply runs_bind (induction (there.list rfl))
      intro last afterLast values onwardLast allFit
      refine runs_pure onwardLast.holds (List.forall_mem_cons.mpr ⟨?_, allFit⟩)
      exact fits_later onwardLast.before fits

/-- Every expression keeps to the contract if its parts do. -/
theorem evaluation_runs {value : Expression}
    (here : Here known table base world machine ⟨.expression value, analysis, full⟩ value.heeds)
    (isBase : full = base.full) :
    Runs known table base none (fun later result => later.Fits known result) world machine
      (Parts.asked.evaluation value) := by
  have calling := here.calling isBase
  cases value with
  | literal literal => exact runs_pure here.holds (fits_of_literal literal)
  | reference place => exact runs_act (look_up_leads here.holds place)
  | receiver place => exact runs_act (look_up_leads here.holds place)
  | grouping inner => exact runs_evaluate (here.part charted List.mem_cons_self rfl rfl)
  | unary operator operand =>
      apply runs_bind (runs_evaluate (here.part charted List.mem_cons_self rfl rfl))
      intro later after value onward _
      exact runs_act (blame_leads onward.holds _ fun _ => fits_of_unary)
  | binary left operator right =>
      apply runs_bind (runs_evaluate (here.part charted List.mem_cons_self rfl rfl))
      intro later after first onward _
      apply runs_bind (runs_evaluate ((here.onward onward).part charted
        (List.mem_cons_of_mem _ List.mem_cons_self) rfl (Site.expression_after left analysis)))
      intro last afterLast second onwardLast _
      exact runs_act (blame_leads onwardLast.holds _ fun _ => fits_of_binary)
  | logical left operator right =>
      apply runs_bind (runs_evaluate (here.part charted List.mem_cons_self rfl rfl))
      intro later after first onward fits
      split_ifs
      · exact runs_pure onward.holds fits
      · exact runs_evaluate ((here.onward onward).part charted
          (List.mem_cons_of_mem _ List.mem_cons_self) rfl (Site.expression_after left analysis))
  | conditional condition thenBranch elseBranch =>
      apply runs_bind (runs_evaluate (here.part charted List.mem_cons_self rfl rfl))
      intro later after value onward _
      split_ifs
      · exact runs_evaluate ((here.onward onward).part charted
          (List.mem_cons_of_mem _ List.mem_cons_self) rfl (Site.expression_after condition _))
      · exact runs_evaluate ((here.onward onward).part charted
          (List.mem_cons_of_mem _ (List.mem_cons_of_mem _ List.mem_cons_self)) rfl
          ((Site.expression_after thenBranch _).trans (Site.expression_after condition _)))
  | assign place value =>
      apply runs_bind (runs_evaluate (here.part charted List.mem_cons_self rfl rfl))
      intro later after result onward fits
      have assigned := assign_leads onward.holds place fits
      apply runs_bind (runs_act assigned)
      intro last afterLast _ onwardLast _
      exact runs_pure onwardLast.holds (fits_later onwardLast.before fits)
  | call callee closing arguments =>
      apply runs_bind (runs_evaluate (here.part charted List.mem_cons_self rfl rfl))
      intro later after function onward fits
      have there : There known table base later after
          ⟨.expressions arguments, callee.analyse analysis, full⟩ anyName :=
        (here.onward onward).part charted (List.mem_cons_of_mem _ List.mem_cons_self) rfl
          (Site.expression_after callee analysis)
      apply runs_bind (runs_evaluate_all charted (there.list rfl))
      intro last afterLast values onwardLast allFit
      exact runs_call_value ((calling.onward onward).onward onwardLast) closing.line
        (fits_later onwardLast.before fits) allFit
  | get object name =>
      apply runs_bind (runs_evaluate (here.part charted List.mem_cons_self rfl rfl))
      intro later after target onward fits
      exact runs_property (calling.onward onward) name fits
  | set object name value =>
      -- The walk comes to the value first, and the run to the object.
      apply runs_bind (runs_evaluate (here.part charted (List.mem_cons_of_mem _ List.mem_cons_self)
        rfl (Site.expression_after value analysis)))
      intro later after target onward fits
      cases target with
      | object identity cls =>
          apply runs_bind (runs_evaluate ((here.onward onward).part charted List.mem_cons_self
            rfl rfl))
          intro last afterLast result onwardLast resultFits
          apply runs_bind (runs_act (set_field_leads onwardLast.holds identity name.lexeme
            resultFits))
          intro final afterFinal _ onwardFinal _
          exact runs_pure onwardFinal.holds (fits_later onwardFinal.before resultFits)
      | nil | boolean | number | string | native | function | classValue =>
          exact runs_act (fail_leads onward.holds name.line _)
  | lambda routine =>
      refine runs_mono (runs_act (close_over_leads here.holds routine)) ?_
      rintro later before _ result ⟨identity, rfl⟩
      have there : There known table base world machine ⟨.routine routine, analysis, full⟩
          anyName :=
        here.part charted List.mem_cons_self rfl rfl
      exact closure_fits_later before ⟨_, there.isKnown, rfl, there.stands⟩
  | inherited place method =>
      apply runs_bind (runs_act (inherited_method_leads here.holds place method))
      rintro later after ⟨found, receiver⟩ onward ⟨methodFits, fits⟩
      exact runs_access (calling.onward onward) method methodFits fits

end Constructs

end World

end Lox
