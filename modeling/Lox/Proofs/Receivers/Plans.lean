import Lox.Proofs.Receivers.Bound

/-!
Expressions and calls keep the receivers. A task may count on lying in the frames of its
site, and leaves a machine behind on which all values fit; the rules below follow how plans
are put together.
-/

namespace Lox

namespace Record

def CompletionFits (record : Record) (scopes : Scopes Value) (completion : Completion) : Prop :=
  ∀ value, completion = .returned value → record.Fits scopes value

def AnswerFits (record : Record) : (task : Task) → Scopes Value → task.Answer → Prop
  | .evaluation _ => record.Fits
  | .execution _ => record.CompletionFits
  | .call _ _ => record.Fits

/-- A task lies in the frames of a site. -/
def Placed (record : Record) (machine : Machine) : Task → Prop
  | .evaluation value => ∃ site frames, Framed record.lines site frames ∧
      site.node = .expression value ∧ record.Lies machine.scopes frames machine.current
  | .execution order => ∃ site frames, Framed record.lines site frames ∧
      site.node = .statement order ∧ record.Lies machine.scopes frames machine.current
  | .call closure arguments => record.ClosureFits machine.scopes closure ∧
      ∀ value ∈ arguments, record.Fits machine.scopes value

/-- The contracts of all tasks. -/
def keeping (record : Record) : Contracts Unit where
  duty _ task machine := record.Furnished machine ∧ record.Placed machine task
  effect _ task machine ending := record.Leads (record.AnswerFits task) machine ending
  inside _ _ _ _ := ()

variable {α β : Type} {record : Record} {machine : Machine} {good : Scopes Value → α → Prop}
  {goodNext : Scopes Value → β → Prop}

/-- The plan keeps to the contract. -/
def Runs (record : Record) (good : Scopes Value → α → Prop) (machine : Machine)
    (planned : Planning α) : Prop :=
  (planned machine).Meets (record.keeping.under fun _ => ()).answered
    (record.Leads good machine)

section Rules

theorem runs_pure (furnished : record.Furnished machine) {value : α}
    (fine : good machine.scopes value) : record.Runs good machine (pure value) :=
  done_leads furnished fine

theorem runs_act {action : Run α} (leads : record.Leads good machine (action machine)) :
    record.Runs good machine (Setting.act action) := leads

theorem runs_bind {planned : Planning α} {next : α → Planning β}
    (begun : record.Runs good machine planned)
    (onwards : ∀ after value, record.Onward machine after → good after.scopes value →
      record.Runs goodNext after (next value)) :
    record.Runs goodNext machine (planned >>= next) := by
  apply Plan.meets_followed_by
  refine Plan.meets_mono begun fun ending leads => ?_
  cases ending with
  | error halt after => exact leads
  | ok value after =>
      exact Plan.meets_mono (onwards after value leads.1 leads.2) fun _ => leads.1.leads

theorem runs_within {planned : Planning α} {scope : ScopeId}
    (inner : record.Runs good { machine with current := scope } planned) :
    record.Runs good machine (Setting.within scope planned) := by
  apply Plan.meets_leaving
  refine Plan.meets_mono inner fun ending leads => ?_
  cases ending with
  | ok value after =>
      obtain ⟨onward, fine⟩ := leads
      exact ⟨⟨onward.keeps, furnished_after onward.furnished rfl rfl rfl, rfl⟩, fine⟩
  | error halt after =>
      obtain ⟨keeps, furnished, harmless⟩ := leads
      exact ⟨keeps, furnished_after furnished rfl rfl rfl, harmless⟩

theorem runs_nested {planned : Planning α} (furnished : record.Furnished machine) (line : Nat)
    (inner : record.Runs good { machine with depth := machine.depth + 1 } planned) :
    record.Runs good machine (Setting.nested line planned) := by
  change (ite (callLimit ≤ machine.depth) _ _ : Plan α).Meets _ _
  split_ifs
  · exact ⟨.refl _, furnished, trivial⟩
  · apply Plan.meets_leaving
    apply Plan.meets_deeper
    refine Plan.meets_mono inner fun ending leads => ?_
    cases ending with
    | ok value after =>
        obtain ⟨onward, fine⟩ := leads
        exact ⟨⟨onward.keeps, furnished_after onward.furnished rfl rfl rfl, onward.current⟩, fine⟩
    | error halt after =>
        obtain ⟨keeps, furnished, harmless⟩ := leads
        exact ⟨keeps, furnished_after furnished rfl rfl rfl, harmless⟩

theorem runs_fail (furnished : record.Furnished machine) (line : Nat) {cause : Fault}
    (harmless : cause.Harmless) :
    record.Runs good machine (Setting.act (Run.fail line cause)) :=
  runs_act (fail_leads furnished line harmless)

end Rules

section Places

variable {site inner : Site} {frames : List Frame}

theorem Here.onward {after : Machine} (here : record.Here site frames machine)
    (onward : record.Onward machine after) : record.Here site frames after where
  furnished := onward.furnished
  framed := here.framed
  lies := onward.current.symm ▸ lies_later onward.keeps here.lies

theorem Here.part (here : record.Here site frames machine) (plain : site.node.opensScope = false)
    (member : inner ∈ site.parts) : record.Here inner frames machine :=
  ⟨here.furnished, .beside here.framed plain member, here.lies⟩

end Places

section Parts

variable {analysis : Analysis} {full : List StaticScope} {frames : List Frame}

theorem runs_evaluate {value : Expression}
    (here : record.Here ⟨.expression value, analysis, full⟩ frames machine) :
    record.Runs record.Fits machine (Parts.asked.evaluate value) :=
  ⟨⟨here.furnished, _, frames, here.framed, rfl, here.lies⟩, fun _ answered => answered.1⟩

theorem runs_execute {order : Statement}
    (here : record.Here ⟨.statement order, analysis, full⟩ frames machine) :
    record.Runs record.CompletionFits machine (Parts.asked.execute order) :=
  ⟨⟨here.furnished, _, frames, here.framed, rfl, here.lies⟩, fun _ answered => answered.1⟩

theorem runs_call {closure : Closure} {arguments : List Value}
    (furnished : record.Furnished machine) (fits : record.ClosureFits machine.scopes closure)
    (argumentsFit : ∀ value ∈ arguments, record.Fits machine.scopes value) :
    record.Runs record.Fits machine (Parts.asked.call closure arguments) :=
  ⟨⟨furnished, fits, argumentsFit⟩, fun _ answered => answered.1⟩

end Parts

section Calls

variable (furnished : record.Furnished machine)

include furnished

theorem runs_construct {cls : Class} {arguments : List Value}
    (fits : record.ClassFits machine.scopes cls)
    (argumentsFit : ∀ value ∈ arguments, record.Fits machine.scopes value) :
    record.Runs record.Fits machine (Parts.asked.construct cls arguments) := by
  apply runs_bind (runs_act (make_instance_leads furnished fits))
  rintro after object onward ⟨objectFits, receives⟩
  cases found : cls.method? initializerName with
  | none => exact runs_pure onward.furnished objectFits
  | some initializer =>
      have methodFits := class_fits_later onward.keeps fits false _ _ found
      apply runs_bind (runs_act
        (bind_receiver_leads onward.furnished methodFits objectFits receives))
      rintro second bound onwardSecond ⟨boundFits, -⟩
      have both := onward.trans onwardSecond
      apply runs_bind (runs_call onwardSecond.furnished boundFits fun value member =>
        fits_later both.keeps (argumentsFit value member))
      intro third _ onwardThird _
      exact runs_pure onwardThird.furnished
        (fits_later (onwardSecond.trans onwardThird).keeps objectFits)

theorem runs_invoke {callable : Callable} {callee : Value} {arguments : List Value}
    (isCallable : callee.callable? = some callable) (fits : record.Fits machine.scopes callee)
    (argumentsFit : ∀ value ∈ arguments, record.Fits machine.scopes value) :
    record.Runs record.Fits machine (Parts.asked.invoke arguments callable) := by
  cases callee with
  | native provided =>
      cases isCallable
      cases provided
      exact runs_act (aside_leads furnished rfl rfl rfl rfl trivial)
  | function identity closure =>
      cases isCallable
      exact runs_call furnished fits argumentsFit
  | classValue cls =>
      cases isCallable
      exact runs_construct furnished fits argumentsFit
  | nil | boolean | number | string | object => cases isCallable

theorem runs_call_value {callee : Value} {arguments : List Value} (line : Nat)
    (fits : record.Fits machine.scopes callee)
    (argumentsFit : ∀ value ∈ arguments, record.Fits machine.scopes value) :
    record.Runs record.Fits machine (Parts.asked.callValue callee line arguments) := by
  unfold Parts.callValue
  cases isCallable : callee.callable? with
  | none => exact runs_fail furnished line trivial
  | some callable =>
      dsimp only
      split_ifs
      · exact runs_fail furnished line trivial
      · have deeper : record.Furnished { machine with depth := machine.depth + 1 } :=
          furnished_after furnished rfl rfl rfl
        exact runs_nested furnished line (runs_invoke deeper isCallable fits argumentsFit)

theorem runs_access {ofClass : Bool} {method : Option Closure} {receiver : Value} (name : Token)
    (methodFits : ∀ closure, method = some closure →
      record.MethodFits machine.scopes ofClass closure)
    (fits : record.Fits machine.scopes receiver) (receives : receiver.Receives ofClass) :
    record.Runs record.Fits machine (Parts.asked.access method receiver name) := by
  cases method with
  | none => exact runs_fail furnished name.line trivial
  | some method =>
      apply runs_bind (runs_act
        (bind_receiver_leads furnished (methodFits method rfl) fits receives))
      rintro after bound onward ⟨boundFits, -⟩
      split_ifs
      · have deeper : record.Furnished { after with depth := after.depth + 1 } :=
          furnished_after onward.furnished rfl rfl rfl
        exact runs_nested onward.furnished name.line
          (runs_call deeper boundFits (List.forall_mem_nil _))
      · exact runs_act (make_function_leads onward.furnished boundFits)

theorem runs_property {object : Value} (name : Token) (fits : record.Fits machine.scopes object) :
    record.Runs record.Fits machine (Parts.asked.property object name) := by
  cases object with
  | object identity cls =>
      apply runs_bind (runs_act (field_leads furnished identity name.lexeme))
      intro after field onward fieldFits
      cases field with
      | some value => exact runs_pure onward.furnished (fieldFits value rfl)
      | none =>
          have classFits : record.ClassFits after.scopes cls := class_fits_later onward.keeps fits
          exact runs_access onward.furnished name
            (fun closure found => classFits false _ closure found) classFits rfl
  | classValue cls =>
      exact runs_access furnished name (fun closure found => fits true _ closure found) fits rfl
  | nil | boolean | number | string | native | function =>
      exact runs_fail furnished name.line trivial

end Calls

section Expressions

variable {analysis : Analysis} {full : List StaticScope} {frames : List Frame}

theorem runs_evaluate_all {values : List Expression}
    (here : record.Here ⟨.expressions values, analysis, full⟩ frames machine) :
    record.Runs (fun scopes results => ∀ result ∈ results, record.Fits scopes result) machine
      (Parts.asked.evaluateAll values) := by
  induction values generalizing machine analysis with
  | nil => exact runs_pure here.furnished (List.forall_mem_nil _)
  | cons first rest induction =>
      apply runs_bind (runs_evaluate (here.part rfl List.mem_cons_self))
      intro after value onward fits
      apply runs_bind (induction ((here.onward onward).part rfl
        (List.mem_cons_of_mem _ List.mem_cons_self)))
      intro last values onwardLast allFit
      exact runs_pure onwardLast.furnished
        (List.forall_mem_cons.mpr ⟨fits_later onwardLast.keeps fits, allFit⟩)

variable (vetted : Vetted record.table record.lines)

include vetted

theorem runs_inherited {place : Occurrence} {method : Token}
    (here : record.Here ⟨.expression (.inherited place method), analysis, full⟩ frames machine) :
    record.Runs record.Fits machine
      (Parts.asked.evaluation (.inherited place method)) := by
  obtain ⟨home, scope, receiver, parent, ancestor, enclosed, -, -, above, found⟩ :=
    inherited_bound vetted here
  have ancestorFits : record.ClassFits machine.scopes ancestor :=
    here.furnished.values _ _ _ above
  have fits := here.furnished.values _ _ _ enclosed.bound.bound
  have leads : record.Leads
      (fun scopes answer => scopes = machine.scopes ∧
        answer = (ancestor.answer? home.ofClass method.lexeme, receiver)) machine
      (Run.inheritedMethod place method machine) := by
    rw [found]
    exact done_leads here.furnished ⟨rfl, rfl⟩
  apply runs_bind (runs_act leads)
  rintro after _ onward ⟨same, rfl⟩
  rw [← same] at ancestorFits fits
  exact runs_access onward.furnished method (ancestorFits home.ofClass _) fits
    enclosed.bound.receives

theorem runs_receiver {place : Occurrence}
    (here : record.Here ⟨.expression (.receiver place), analysis, full⟩ frames machine) :
    record.Runs record.Fits machine (Parts.asked.evaluation (.receiver place)) := by
  obtain ⟨home, scope, receiver, enclosed, found⟩ := receiver_bound vetted here
  have fits := here.furnished.values _ _ _ enclosed.bound.bound
  have leads : record.Leads record.Fits machine (Run.lookUp place machine) := by
    rw [found]
    exact done_leads here.furnished fits
  exact runs_act leads

/-- Every expression keeps to the contract if its parts do. -/
theorem evaluation_runs {value : Expression}
    (here : record.Here ⟨.expression value, analysis, full⟩ frames machine) :
    record.Runs record.Fits machine (Parts.asked.evaluation value) := by
  have spelled := vetted.spelled here.framed.isKnown
  have named {place : Occurrence} (word : (Kind.identifier, place.name) ∈
      (Node.expression value).ownWords) : Free place.name.lexeme := spelled _ word
  have isPart {first : Expression} {later : Analysis} {after : Machine}
      (member : ⟨.expression first, later, full⟩ ∈
        (Site.mk (.expression value) analysis full).parts) (onward : record.Onward machine after) :
      record.Runs record.Fits after (Parts.asked.evaluate first) :=
    runs_evaluate ((here.onward onward).part rfl member)
  have start : record.Onward machine machine := ⟨.refl _, here.furnished, rfl⟩
  cases value with
  | literal literal => exact runs_pure here.furnished (fits_of_literal literal _)
  | reference place =>
      exact runs_act (look_up_leads here.furnished (named List.mem_cons_self))
  | receiver place => exact runs_receiver vetted here
  | inherited place method => exact runs_inherited vetted here
  | grouping inner => exact isPart List.mem_cons_self start
  | unary operator operand =>
      apply runs_bind (isPart List.mem_cons_self start)
      intro after value onward _
      exact runs_act (blame_leads onward.furnished _ (unary_tame _ _))
  | binary left operator right =>
      apply runs_bind (isPart List.mem_cons_self start)
      intro after first onward _
      apply runs_bind (isPart (List.mem_cons_of_mem _ List.mem_cons_self) onward)
      intro last second onwardLast _
      exact runs_act (blame_leads onwardLast.furnished _ (binary_tame _ _ _))
  | logical left operator right =>
      apply runs_bind (isPart List.mem_cons_self start)
      intro after first onward fits
      split_ifs
      · exact runs_pure onward.furnished fits
      · exact isPart (List.mem_cons_of_mem _ List.mem_cons_self) onward
  | conditional condition thenBranch elseBranch =>
      apply runs_bind (isPart List.mem_cons_self start)
      intro after value onward _
      split_ifs
      · exact isPart (List.mem_cons_of_mem _ List.mem_cons_self) onward
      · exact isPart (List.mem_cons_of_mem _ (List.mem_cons_of_mem _ List.mem_cons_self)) onward
  | assign place value =>
      apply runs_bind (isPart List.mem_cons_self start)
      intro after result onward fits
      apply runs_bind (runs_act (assign_leads onward.furnished (named List.mem_cons_self) fits))
      intro last _ onwardLast _
      exact runs_pure onwardLast.furnished (fits_later onwardLast.keeps fits)
  | call callee closing arguments =>
      apply runs_bind (isPart List.mem_cons_self start)
      intro after function onward fits
      apply runs_bind (runs_evaluate_all ((here.onward onward).part rfl
        (List.mem_cons_of_mem _ List.mem_cons_self)))
      intro last values onwardLast allFit
      exact runs_call_value onwardLast.furnished closing.line (fits_later onwardLast.keeps fits)
        allFit
  | get object name =>
      apply runs_bind (isPart List.mem_cons_self start)
      intro after target onward fits
      exact runs_property onward.furnished name fits
  | set object name value =>
      apply runs_bind (isPart (List.mem_cons_of_mem _ List.mem_cons_self) start)
      intro after target onward _
      cases target with
      | object identity cls =>
          apply runs_bind (isPart List.mem_cons_self onward)
          intro last result onwardLast fits
          apply runs_bind (runs_act
            (set_field_leads onwardLast.furnished identity name.lexeme fits))
          intro final _ onwardFinal _
          exact runs_pure onwardFinal.furnished (fits_later onwardFinal.keeps fits)
      | nil | boolean | number | string | native | function | classValue =>
          exact runs_fail onward.furnished name.line trivial
  | lambda routine =>
      have framed : Framed record.lines ⟨.routine routine, analysis, full⟩ frames :=
        .beside here.framed rfl List.mem_cons_self
      exact runs_act (make_function_leads here.furnished ⟨_, frames, framed, rfl, here.lies,
        fun yields => absurd yields Bool.false_ne_true⟩)

end Expressions

end Record

end Lox
