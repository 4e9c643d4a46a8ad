import Lox.Proofs.Scoping.Evaluations

/-!
Statements and bodies keep to the contract. What a statement declares, the walk
has marked when it leaves the statement, so that the next one finds the scopes
ready; blocks and bodies begin in new scopes, ready for what comes first.
-/

namespace Lox

namespace World

variable {known : Site → Prop} {table : Std.TreeMap Nat Nat} {base : Site} {world : World}
  {machine : Machine}

theorem exact_later {later : World} {after : Machine} {scopes : List StaticScope}
    (exact : world.Exact scopes machine.current)
    (onward : Onward known none world machine later after)
    (inside : machine.current < world.scopes.size) :
    later.Exact scopes machine.current where
  names inner isInner name found :=
    exact.names inner isInner name (onward.before.others _ inside nofun name found)
  settled name member := exact.settled name (onward.pending ▸ member)

/-- The machine is where the next statement can run. -/
theorem there_next {first next : Site} {later : World} {after : Machine}
    {declaring : Option ScopeId}
    (there : There known table base world machine first anyName)
    (onward : Onward known declaring world machine later after) (isKnown : known next)
    (near : base.Near next) (full : next.full = first.full)
    (ready : later.Ready anyName next.analysis.scopes machine.current) :
    There known table base later after next anyName where
  holds := onward.holds
  table := onward.distances.trans there.table
  isKnown := isKnown
  near := near
  stands := by
    rw [onward.current]
    exact ⟨Nat.lt_of_lt_of_le there.stands.inside onward.before.size,
      (onward.before.view _ there.stands.inside).trans (there.stands.view.trans full.symm), ready⟩

theorem marked_ready {before after : List StaticScope} {name : String} {id : ScopeId}
    (marked : Marked name before after) (ready : world.Ready anyName before id)
    (declared : world.scopes.declares id name = true) : world.Ready anyName after id := by
  cases before with
  | nil =>
      cases marked
      trivial
  | cons inner outer =>
      obtain ⟨last, rfl, names⟩ := marked
      refine ⟨fun key _ mark found => ?_, ready.2⟩
      rw [names] at found
      split_ifs at found with same
      · exact .inl (same ▸ declared)
      · exact ready.1 key trivial mark found

section Defined

variable {name : String} {value : Value} {pending : List (ScopeId × String)}
  {before : List StaticScope} {site : Site} (inside : machine.current < world.scopes.size)
  (awaited : ∀ other key, (other, key) ∈ world.pending → (other, key) ∉ pending →
    other = machine.current ∧ key = name)
  (marked : Marked name before site.after.scopes)

include inside awaited marked

/-- Once a name is declared, the scopes are as the walk leaves its declaration. -/
theorem defined_completes (ready : world.Ready anyName before machine.current)
    (names : ∀ inner ∈ before.head?, ∀ key,
      world.scopes.declares machine.current key = true → inner.contains key = true)
    (settled : ∀ key, (machine.current, key) ∉ pending) :
    Completes known site machine.current (world.defined machine.current name value pending)
      .normal := by
  have later : Before (some machine.current) world
      (world.defined machine.current name value pending) := before_defined inside awaited
  have declared : (world.defined machine.current name value pending).scopes.declares
      machine.current name = true := by
    simp [defined, declares_define, inside]
  refine ⟨marked_ready marked (ready_later later ready) declared, ⟨?_, settled⟩⟩
  intro last isLast key found
  refine marked.head_names ?_ last isLast
  rw [defined, declares_define, Bool.or_eq_true] at found
  rcases found with here | there
  · exact .inl (of_decide_eq_true here).2.2
  · exact .inr fun inner isInner => names inner isInner key there

end Defined

section Constructs

variable (charted : Charted table known)

include charted

theorem runs_in_order {orders : List Statement} {analysis : Analysis} {full : List StaticScope}
    (here : Here known table base world machine ⟨.statements orders, analysis, full⟩ anyName)
    (exact : world.Exact analysis.scopes machine.current) :
    Runs known table base (some machine.current)
      (Completes known ⟨.statements orders, analysis, full⟩ machine.current) world machine
      (Parts.asked.inOrder orders) := by
  induction orders generalizing world machine analysis with
  | nil => exact runs_pure here.holds ⟨here.stands.ready, exact⟩
  | cons first rest induction =>
      apply runs_bind (runs_execute (here.part charted List.mem_cons_self rfl rfl) exact)
      intro later after completion onward completes
      cases completion with
      | returned value => exact runs_pure onward.holds completes
      | normal =>
          obtain ⟨ready, exactLater⟩ := completes
          have member : ⟨.statements rest, first.analyse analysis, full⟩ ∈
              (Site.mk (.statements (first :: rest)) analysis full).parts :=
            List.mem_cons_of_mem _ List.mem_cons_self
          have next := there_next here.toThere onward (charted.part here.isKnown member)
            (here.inside _ member) rfl ready
          have runs := induction (next.list rfl) (onward.current.symm ▸ exactLater)
          rw [onward.current] at runs
          exact runs

/-- A body runs in a new scope that holds what the walk has marked before it. -/
theorem runs_body {body : List Statement} {entered : Analysis} {inner last : StaticScope}
    {outer full : List StaticScope} {parent : ScopeId} {names : Names Value}
    (sound : world.Sound known) (tableSame : world.distances = table)
    (scopes : entered.scopes = inner :: outer)
    (final : (Statement.analyseAll body entered).scopes = last :: outer)
    (isKnown : known (Site.ofBody body entered full))
    (near : base.Near (Site.ofBody body entered full)) (inside : parent < world.scopes.size)
    (view : world.view parent = full) (ready : world.Ready anyName outer parent)
    (marked : ∀ name, names.contains name = true ↔ inner.contains name = true)
    (holds : (world.opened parent names last).Holds known machine) :
    Runs known table base (some world.scopes.size)
      (fun later completion => ∀ value, completion = .returned value → later.Fits known value)
      (world.opened parent names last) machine
      (Setting.within world.scopes.size (Parts.asked.inOrder body)) := by
  have moved : (world.opened parent names last).Holds known
      { machine with current := world.scopes.size } := holds_after holds rfl rfl rfl rfl
  have readyBody : (world.opened parent names last).Ready anyName entered.scopes
      world.scopes.size := by
    rw [scopes]
    refine ⟨fun name _ mark found => .inl ?_, parent, opened_parent inside,
      ready_later before_opened ready⟩
    rw [opened, declares_extend, if_pos rfl, marked, Names.contains, found]
    rfl
  have there : There known table base (world.opened parent names last)
      { machine with current := world.scopes.size } (Site.ofBody body entered full) anyName := by
    refine ⟨moved, tableSame, isKnown, near, ?_, ?_, readyBody⟩
    · simp [opened, Scopes.size_extend]
    · simp [opened, Site.ofBody, final, view]
  have exact : (world.opened parent names last).Exact entered.scopes world.scopes.size := by
    constructor
    · intro first isFirst name found
      rw [scopes] at isFirst
      cases isFirst
      rw [opened, declares_extend, if_pos rfl] at found
      exact (marked name).mp found
    · intro name member
      exact absurd (sound.awaited _ name member).inside (Nat.lt_irrefl _)
  apply runs_within
  refine runs_mono (runs_in_order charted (there.list rfl) exact) ?_
  rintro later before _ completion completes value rfl
  exact completes

/-- A call keeps to the contract if the statements of its body do. -/
theorem application_runs {closure : Closure} {arguments : List Value} {analysis : Analysis}
    {full : List StaticScope} (holds : world.Holds known machine)
    (tableSame : world.distances = table)
    (isKnown : known ⟨.routine closure.routine, analysis, full⟩)
    (stands : world.At ⟨.routine closure.routine, analysis, full⟩ anyName closure.scope)
    (argumentsFit : ∀ value ∈ arguments, world.Fits known value)
    (enough : arguments.length = closure.routine.arity) :
    Runs known table ⟨.routine closure.routine, analysis, full⟩ none
      (fun later result => later.Fits known result) world machine
      (Parts.asked.application closure arguments) := by
  obtain ⟨inner, scopes, names⟩ := Site.entered_names closure.routine analysis
  have bodyKnown : known (Site.ofBody closure.routine.body
      (Site.entered closure.routine analysis) full) := charted.part isKnown List.mem_cons_self
  have grows := (Site.mk (.statements closure.routine.body)
    (Site.entered closure.routine analysis) full).keeps_scopes.1
  rw [scopes] at grows
  obtain ⟨last, final, within⟩ := grows.of_cons
  have marked (name : String) :
      (Run.parameterNames closure.routine arguments).contains name = true ↔
        inner.contains name = true := by
    rw [names, Run.parameterNames, Names.contains_of_list, List.map_fst_zip]
    rw [enough, Routine.arity_eq, List.length_map]
  have fit (name : String) (value : Value)
      (found : (Run.parameterNames closure.routine arguments).find? name = some value) :
      world.Fits known value :=
    argumentsFit value (List.of_mem_zip (Names.mem_of_find found)).2
  apply runs_open holds stands.inside (fun name found => within name ((marked name).mp found)) fit
  intro after opened
  refine runs_bind (runs_body charted holds.sound tableSame scopes final bodyKnown
    (.part .self (.inl rfl) List.mem_cons_self) stands.inside stands.view stands.ready marked
    opened) ?_
  intro later afterBody completion onward fits
  exact runs_act (result_leads onward.holds closure fits)

omit charted in
/-- A declaration whose value fits as soon as the name is declared. -/
theorem runs_define {before : List StaticScope} {site : Site} {name : String} (value : Value)
    (here : Here known table base world machine site anyName) (covered : site.Covered)
    (marked : Marked name before site.after.scopes)
    (ready : world.Ready anyName before machine.current)
    (exact : world.Exact before machine.current)
    (fits : (world.defined machine.current name value world.pending).Ready anyName
      site.after.scopes machine.current →
      (world.defined machine.current name value world.pending).Fits known value) :
    Runs known table base (some machine.current) (Completes known site machine.current)
      world machine
      (Setting.act (Run.define name value) >>= fun _ => pure .normal) := by
  have inside := here.stands.inside
  have awaited : ∀ other key, (other, key) ∈ world.pending → (other, key) ∉ world.pending →
      other = machine.current ∧ key = name := fun _ _ member gone => absurd member gone
  have completes : Completes known site machine.current
      (world.defined machine.current name value world.pending) .normal :=
    defined_completes inside awaited marked ready
      (fun inner isInner key => exact.names inner isInner key) exact.settled
  have sound : (world.defined machine.current name value world.pending).Sound known := by
    apply sound_defined inside awaited here.holds.sound (fits completes.1)
    · intro _ inner isInner
      rw [here.stands.view] at isInner
      exact marked.head_contains covered inner isInner
    · refine fun other key member => ⟨member, ?_⟩
      rintro ⟨rfl, rfl⟩
      exact exact.settled key member
  exact ⟨_, before_defined inside awaited, holds_defined here.holds inside awaited sound,
    ⟨rfl, rfl⟩, rfl,
    completes⟩

theorem known_routine {declared : List Routine} {analysis : Analysis} {full : List StaticScope}
    (isKnown : known ⟨.routines declared, analysis, full⟩) {routine : Routine}
    (member : routine ∈ declared) :
    ∃ reached : Analysis, reached.scopes = analysis.scopes ∧
      known ⟨.routine routine, reached, full⟩ := by
  induction declared generalizing analysis with
  | nil => cases member
  | cons first rest induction =>
      rcases List.mem_cons.mp member with rfl | member
      · exact ⟨analysis, rfl, charted.part isKnown List.mem_cons_self⟩
      · obtain ⟨reached, scopes, reachedKnown⟩ :=
          induction (charted.part isKnown (List.mem_cons_of_mem _ List.mem_cons_self)) member
        exact ⟨reached, scopes.trans (Site.routine_after first analysis), reachedKnown⟩

/-- The methods of a class are written among its own scopes. -/
theorem known_method {name : Token} {superclass : Option Occurrence}
    {methods classMethods : List Routine} {analysis : Analysis} {full : List StaticScope}
    (isKnown : known ⟨.statement (.classDeclaration name superclass methods classMethods),
      analysis, full⟩) {routine : Routine}
    (member : routine ∈ methods ∨ routine ∈ classMethods) :
    ∃ reached : Analysis, reached.scopes = (analysis.enterClass name superclass).scopes ∧
      known ⟨.routine routine, reached, Analysis.receiverScope ::
        ((superclass.map fun _ => Analysis.superclassScope).toList ++ full)⟩ := by
  have scopes := analysis.enter_class_scopes name superclass
  have among (own : Nat) (same : (analysis.enterClass name superclass).scopes.take own =
        Analysis.receiverScope :: (superclass.map fun _ => Analysis.superclassScope).toList)
      (partsKnown : ∀ part ∈ Site.ofMethods methods classMethods
        (analysis.enterClass name superclass) own full, known part) :
      ∃ reached : Analysis, reached.scopes = (analysis.enterClass name superclass).scopes ∧
        known ⟨.routine routine, reached, Analysis.receiverScope ::
          ((superclass.map fun _ => Analysis.superclassScope).toList ++ full)⟩ := by
    simp only [Site.ofMethods, same, List.cons_append, List.forall_mem_cons] at partsKnown
    rcases member with member | member
    · exact known_routine charted partsKnown.1 member
    · obtain ⟨reached, reachedScopes, reachedKnown⟩ :=
        known_routine charted partsKnown.2.1 member
      exact ⟨reached, reachedScopes.trans (Site.routines_after methods _), reachedKnown⟩
  cases superclass with
  | none =>
      apply among 1
      · rw [scopes]
        rfl
      · exact fun part => charted.part isKnown
  | some place =>
      apply among 2
      · rw [scopes]
        rfl
      · exact fun part partMember => charted.part isKnown (List.mem_cons_of_mem _ partMember)

theorem made_class_fits {later : World} {name : Token} {superclass : Option Occurrence}
    {methods classMethods : List Routine} {analysis : Analysis} {full : List StaticScope}
    {parent : Option Class} {current : ScopeId} {value : Value}
    (isKnown : known ⟨.statement (.classDeclaration name superclass methods classMethods),
      analysis, full⟩) (same : parent.isSome = superclass.isSome)
    (made : MadeClass known methods classMethods parent current world value)
    (inside : current < world.scopes.size) (view : world.view current = full)
    {declaring : Option ScopeId} (before : Before declaring world later)
    (ready : later.Ready anyName (analysis.declareClass name).scopes current) :
    later.Fits known value := by
  obtain ⟨cls, scope, rfl, stems, lies⟩ := made
  intro key method found
  rcases stems key method found with ⟨routine, member, rfl, rfl⟩ | inherited
  · obtain ⟨reached, scopes, reachedKnown⟩ := known_method charted isKnown member
    rw [analysis.enter_class_scopes] at scopes
    refine ⟨_, _, _, reachedKnown, rfl, scopes, rfl, ?_⟩
    cases superclass with
    | none =>
        cases parent with
        | some cls => cases same
        | none =>
            dsimp only at lies
            rw [lies]
            exact ⟨Nat.lt_of_lt_of_le inside before.size,
              (before.view _ inside).trans view, ready⟩
    | some place =>
        cases parent with
        | none => cases same
        | some cls =>
            obtain ⟨present, viewScope, around, declared⟩ := lies
            refine ⟨Nat.lt_of_lt_of_le present before.size, ?_, ?_, current, ?_, ready⟩
            · rw [before.view _ present, viewScope, view]
              rfl
            · intro name _ mark marked
              rw [Analysis.superclassScope, Names.find_set, Names.find_empty] at marked
              split_ifs at marked with isSuper
              exact .inl (before.declared _ _ (isSuper ▸ declared))
            · rw [before.parent _ present, around]
  · exact method_fits_later before inherited

omit charted in
/-- The name just marked does not matter to those who do not look it up. -/
theorem ready_unheeded {heeded : String → Prop} {before after : List StaticScope} {name : String}
    {id : ScopeId} (marked : Marked name before after)
    (unheeded : ∀ key, heeded key → key ≠ name) (ready : world.Ready anyName before id) :
    world.Ready heeded after id := by
  cases before with
  | nil =>
      cases marked
      trivial
  | cons inner outer =>
      obtain ⟨last, rfl, names⟩ := marked
      obtain ⟨here, parent, around, rest⟩ := ready
      refine ⟨fun key isHeeded mark found => ?_, parent, around, ready_heeding rest⟩
      rw [names, if_neg (unheeded key isHeeded)] at found
      exact here key trivial mark found

theorem runs_superclass_of {name : Token} {superclass : Option Occurrence}
    {methods classMethods : List Routine} {analysis : Analysis} {full : List StaticScope}
    (here : Here known table base world machine
      ⟨.statement (.classDeclaration name superclass methods classMethods), analysis, full⟩
      anyName) :
    Runs known table base none
      (fun later parent => parent.isSome = superclass.isSome ∧
        ∀ cls, parent = some cls → later.ClassFits known cls)
      world machine (Parts.asked.superclassOf superclass) := by
  cases superclass with
  | none => exact runs_pure here.holds ⟨rfl, nofun⟩
  | some place =>
      have isKnown : known
        ⟨.expression (.reference place), analysis.atSuperclass name place, full⟩ :=
        charted.part here.isKnown List.mem_cons_self
      have different : place.name.lexeme ≠ name.lexeme := by
        intro same
        have none := Site.clean_before (charted.clean isKnown)
        simp [Analysis.atSuperclass, same, Analysis.report] at none
      have marked : Marked name.lexeme analysis.scopes
          (analysis.atSuperclass name place).scopes := by
        rw [Analysis.at_superclass_scopes]
        exact Marked.of_declare_class analysis name
      have ready : world.Ready (Expression.reference place).heeds
          (analysis.atSuperclass name place).scopes machine.current := by
        refine ready_unheeded marked ?_ here.stands.ready
        rintro key rfl
        exact different
      apply runs_bind (runs_evaluate ⟨here.holds, here.table, isKnown,
        here.inside _ List.mem_cons_self, here.stands.inside, here.stands.view, ready⟩)
      intro later after value onward fits
      cases value with
      | classValue cls =>
          refine runs_pure onward.holds ⟨rfl, ?_⟩
          rintro _ ⟨rfl⟩
          exact fits
      | nil | boolean | number | string | native | function | object =>
          exact runs_act (fail_leads onward.holds _ _)

theorem class_declaration_runs {name : Token} {superclass : Option Occurrence}
    {methods classMethods : List Routine} {analysis : Analysis} {full : List StaticScope}
    (here : Here known table base world machine
      ⟨.statement (.classDeclaration name superclass methods classMethods), analysis, full⟩
      anyName)
    (exact : world.Exact analysis.scopes machine.current) :
    Runs known table base (some machine.current)
      (Completes known
        ⟨.statement (.classDeclaration name superclass methods classMethods), analysis, full⟩
        machine.current)
      world machine
      (Parts.asked.execution (.classDeclaration name superclass methods classMethods)) := by
  apply runs_bind_quiet (runs_superclass_of charted here)
  rintro later after parent onward ⟨same, fits⟩
  have there := here.onward onward
  apply runs_bind_quiet (runs_act (make_class_leads onward.holds there.stands.inside name methods
    classMethods fits))
  intro last afterLast value onwardLast made
  have both := onward.trans onwardLast
  have standing := here.onward both
  have exactLast := exact_later exact both here.stands.inside
  have after_scopes : (Site.mk (.statement (.classDeclaration name superclass methods
      classMethods)) analysis full).after.scopes = (analysis.declareClass name).scopes :=
    Site.class_after name superclass methods classMethods analysis
  have marked := Marked.of_declare_class analysis name
  rw [← after_scopes] at marked
  have runs := runs_define value standing (charted.covered here.isKnown) marked
    standing.stands.ready
  rw [both.current] at runs
  apply runs exactLast
  intro ready
  rw [after_scopes] at ready
  rw [onward.current] at made
  have awaited : ∀ other key, (other, key) ∈ last.pending → (other, key) ∉ last.pending →
      other = machine.current ∧ key = name.lexeme := fun _ _ member gone => absurd member gone
  have inside : machine.current < last.scopes.size := by
    rw [← both.current]
    exact standing.stands.inside
  have before : Before (some machine.current) last
      (last.defined machine.current name.lexeme value last.pending) :=
    before_defined inside awaited
  have view : last.view machine.current = full := by
    rw [← both.current]
    exact standing.stands.view
  exact made_class_fits charted here.isKnown same made inside view before ready

omit charted in
/-- The name of a variable is marked before its initializer, and is awaited from
then on. -/
theorem ready_declared {analysis : Analysis} {name : Token}
    {id : ScopeId} (ready : world.Ready anyName analysis.scopes id)
    (awaited : analysis.scopes ≠ [] → (id, name.lexeme) ∈ world.pending) :
    world.Ready anyName (analysis.declare name).scopes id := by
  rw [Analysis.declare_scopes]
  cases scopes : analysis.scopes with
  | nil =>
      have none : (analysis.mark name.lexeme false).scopes = [] := by
        rw [Analysis.mark, scopes]
        exact scopes
      rw [none]
      trivial
  | cons inner outer =>
      rw [analysis.mark_cons scopes]
      rw [scopes] at ready
      refine ⟨fun key _ mark found => ?_, ready.2⟩
      rw [Names.find_set] at found
      split_ifs at found with same
      · cases found
        exact .inr ⟨rfl, same ▸ awaited (by simp [scopes])⟩
      · exact ready.1 key trivial mark found

/-- The walk has entered a scope just where the run has left the top level. -/
theorem scopes_empty_iff {site : Site} {heeded : String → Prop}
    (here : Here known table base world machine site heeded) :
    site.analysis.scopes = [] ↔ machine.current = machine.globals := by
  have lengths := (Site.covered_before (charted.covered here.isKnown)).length_eq
  rw [← List.length_eq_zero_iff, lengths, List.length_eq_zero_iff, ← here.stands.view,
    here.holds.globals]
  constructor
  · intro empty
    by_contra apart
    obtain ⟨inner, parent, view, -⟩ := here.holds.sound.linked _ here.stands.inside apart
    rw [view] at empty
    cases empty
  · intro same
    rw [same]
    exact here.holds.sound.outermost

/-- No variable is declared where it is about to be initialized. -/
theorem initialized_absent {name : Token} {value : Expression} {analysis : Analysis}
    {full : List StaticScope}
    (isKnown : known ⟨.statement (.variableDeclaration name (some value)), analysis, full⟩)
    {inner : StaticScope} {outer : List StaticScope} (scopes : analysis.scopes = inner :: outer) :
    inner.contains name.lexeme = false := by
  have clean := Site.clean_before (charted.clean (charted.part isKnown List.mem_cons_self))
  by_contra present
  rw [Bool.not_eq_false] at present
  simp [Analysis.declare, Analysis.declaredHere, scopes, present, Analysis.report] at clean

/-- A local variable that is about to be initialized is written in its scope, but
not declared yet. -/
theorem initialized_awaited {name : Token} {value : Expression} {analysis : Analysis}
    {full : List StaticScope}
    (here : Here known table base world machine
      ⟨.statement (.variableDeclaration name (some value)), analysis, full⟩ anyName)
    (exact : world.Exact analysis.scopes machine.current)
    (nested : machine.current ≠ machine.globals) :
    world.Awaited machine.current name.lexeme where
  inside := here.stands.inside
  absent := by
    cases scopes : analysis.scopes with
    | nil => exact absurd ((scopes_empty_iff charted here).mp scopes) nested
    | cons inner outer =>
        by_contra found
        have contained := exact.names inner (by simp [scopes]) _ (Bool.not_eq_false _ ▸ found)
        rw [initialized_absent charted here.isKnown scopes] at contained
        cases contained
  written := by
    have marked : Marked name.lexeme analysis.scopes
        (Site.mk (.statement (.variableDeclaration name (some value))) analysis
          full).after.scopes :=
      Marked.of_define (Site.expression_after value (analysis.declare name))
    have apart : machine.current ≠ world.globals := here.holds.globals ▸ nested
    obtain ⟨inner, parent, view, -⟩ :=
      here.holds.sound.linked _ here.stands.inside apart
    refine ⟨inner, by rw [view]; rfl, ?_⟩
    apply marked.head_contains (charted.covered here.isKnown)
    rw [← here.stands.view, view]
    rfl

/-- The world while the initializer of a variable runs. -/
def awaiting (world : World) (machine : Machine) (name : Token) (value : Expression) : World :=
  world.reopened world.distances
    ((Task.execution (.variableDeclaration name (some value))).initializing machine ++
      world.pending)

omit charted in
theorem mem_awaiting {name : Token} {value : Expression} {id : ScopeId} {key : String} :
    (id, key) ∈ (world.awaiting machine name value).pending ↔ (id, key) ∈ world.pending ∨
      (machine.current ≠ machine.globals ∧ id = machine.current ∧ key = name.lexeme) := by
  unfold awaiting reopened Task.initializing
  dsimp only
  split_ifs with top
  · simp [top]
  · simp only [List.cons_append, List.nil_append, List.mem_cons, Prod.mk.injEq, Ne, top,
      not_false_eq_true, true_and]
    exact or_comm

omit charted in
theorem before_awaiting (name : Token) (value : Expression) :
    Before none world (world.awaiting machine name value) :=
  before_reopened fun _ _ member => mem_awaiting.mpr (.inl member)

theorem holds_awaiting {name : Token} {value : Expression} {analysis : Analysis}
    {full : List StaticScope}
    (here : Here known table base world machine
      ⟨.statement (.variableDeclaration name (some value)), analysis, full⟩ anyName)
    (exact : world.Exact analysis.scopes machine.current) :
    (world.awaiting machine name value).Holds known machine := by
  have awaited (id : ScopeId) (key : String)
      (member : (id, key) ∈ (world.awaiting machine name value).pending) :
      world.Awaited id key := by
    rcases mem_awaiting.mp member with old | ⟨nested, rfl, rfl⟩
    · exact here.holds.sound.awaited id key old
    · exact initialized_awaited charted here exact nested
  have same : { machine with distances := world.distances } = machine := by
    rw [← here.holds.distances]
  rw [← same]
  exact holds_reopened (fun _ _ member => mem_awaiting.mpr (.inl member)) (fun _ => id) here.holds
    awaited

/-- The initializer finds its scopes ready, but for the variable that waits for it. -/
theorem initializer_there {name : Token} {value : Expression} {analysis : Analysis}
    {full : List StaticScope}
    (here : Here known table base world machine
      ⟨.statement (.variableDeclaration name (some value)), analysis, full⟩ anyName)
    (exact : world.Exact analysis.scopes machine.current) :
    There known table base (world.awaiting machine name value) machine
      ⟨.expression value, analysis.declare name, full⟩ value.heeds := by
  have ready : (world.awaiting machine name value).Ready anyName (analysis.declare name).scopes
      machine.current := by
    apply ready_declared (ready_later (before_awaiting name value) here.stands.ready)
    intro nested
    have apart := fun top => nested ((scopes_empty_iff charted here).mpr top)
    exact mem_awaiting.mpr (.inr ⟨apart, rfl, rfl⟩)
  exact ⟨holds_awaiting charted here exact, here.table,
    charted.part here.isKnown List.mem_cons_self, here.inside _ List.mem_cons_self,
    here.stands.inside, here.stands.view, ready_heeding ready⟩

/-- When the initializer has come to its end, the variable is declared. -/
theorem initialized_leads {name : Token} {value : Expression} {analysis : Analysis}
    {full : List StaticScope} {result : Value} {after : Machine}
    (here : Here known table base world machine
      ⟨.statement (.variableDeclaration name (some value)), analysis, full⟩ anyName)
    (exact : world.Exact analysis.scopes machine.current)
    (initialized : Leads known none (fun later result => later.Fits known result)
      (world.awaiting machine name value) machine.current (.ok result after)) :
    Leads known (some machine.current)
      (Completes known ⟨.statement (.variableDeclaration name (some value)), analysis, full⟩
        machine.current) world machine.current
      (.ok .normal { after with
        scopes := after.scopes.define after.current name.lexeme result }) := by
  obtain ⟨later, before, holds, ⟨pendingSame, distances⟩, current, fits⟩ := initialized
  let declaredAt (scope : ScopeId) : Machine :=
    { after with scopes := after.scopes.define scope name.lexeme result }
  change Leads known _ _ world machine.current (.ok Completion.normal (declaredAt after.current))
  rw [current]
  have inside := here.stands.inside
  have through : Before none world later := (before_awaiting name value).trans before
  have insideLater : machine.current < later.scopes.size :=
    Nat.lt_of_lt_of_le inside through.size
  have ends (id : ScopeId) (key : String) (member : (id, key) ∈ later.pending)
      (gone : (id, key) ∉ world.pending) : id = machine.current ∧ key = name.lexeme := by
    rw [pendingSame] at member
    rcases mem_awaiting.mp member with old | ⟨-, same⟩
    · exact absurd old gone
    · exact same
  have more (id : ScopeId) (key : String) (member : (id, key) ∈ world.pending) :
      (id, key) ∈ later.pending := by
    rw [pendingSame]
    exact mem_awaiting.mpr (.inl member)
  have marked : Marked name.lexeme analysis.scopes
      (Site.mk (.statement (.variableDeclaration name (some value))) analysis full).after.scopes :=
    Marked.of_define (Site.expression_after value (analysis.declare name))
  have completes : Completes known
      ⟨.statement (.variableDeclaration name (some value)), analysis, full⟩ machine.current
      (later.defined machine.current name.lexeme result world.pending) .normal := by
    apply defined_completes insideLater ends marked (ready_later through here.stands.ready)
    · intro inner isInner key found
      exact exact.names inner isInner key (through.others _ inside nofun key found)
    · exact exact.settled
  have define : Before (some machine.current) later
      (later.defined machine.current name.lexeme result world.pending) :=
    before_defined insideLater ends
  have sound : (later.defined machine.current name.lexeme result world.pending).Sound known := by
    apply sound_defined insideLater ends holds.sound (fits_later define fits)
    · intro _ inner isInner
      rw [through.view _ inside, here.stands.view] at isInner
      exact marked.head_contains (charted.covered here.isKnown) inner isInner
    · refine fun id key member => ⟨more id key member, ?_⟩
      rintro ⟨rfl, rfl⟩
      exact exact.settled _ member
  exact ⟨_, through.weaken.trans define, holds_defined holds insideLater ends sound,
    ⟨rfl, distances⟩, current, completes⟩

/-- The variable is awaited while its initializer runs, and declared right after. -/
theorem initialized_declaration_meets {name : Token} {value : Expression} {analysis : Analysis}
    {full : List StaticScope}
    (here : Here known table base world machine
      ⟨.statement (.variableDeclaration name (some value)), analysis, full⟩ anyName)
    (exact : world.Exact analysis.scopes machine.current) :
    (Parts.asked.execution (.variableDeclaration name (some value)) machine).Meets
      ((alignment known table).under fun _ =>
        ⟨(Task.execution (.variableDeclaration name (some value))).initializing machine ++
          world.pending, (· = base)⟩)
      (Leads known (some machine.current)
        (Completes known ⟨.statement (.variableDeclaration name (some value)), analysis, full⟩
          machine.current) world machine.current) := by
  apply Plan.meets_followed_by
  refine Plan.meets_mono (runs_evaluate (initializer_there charted here exact))
    fun ending leads => ?_
  cases ending with
  | error halt after =>
      obtain ⟨later, before, holds⟩ := leads
      exact ⟨later, ((before_awaiting name value).trans before).weaken, holds⟩
  | ok result after => exact initialized_leads charted here exact leads

omit charted in
/-- Nothing has changed for the statements after this one. -/
theorem completes_quietly {site : Site} {later : World}
    (here : Here known table base world machine site anyName)
    (exact : world.Exact site.analysis.scopes machine.current)
    (before : Before none world later) (pending : later.pending = world.pending)
    (same : site.after.scopes = site.analysis.scopes) :
    Completes known site machine.current later .normal := by
  unfold Completes
  rw [same]
  refine ⟨ready_later before here.stands.ready, ?_, fun name => pending ▸ exact.settled name⟩
  intro inner isInner name found
  exact exact.names inner isInner name (before.others _ here.stands.inside nofun name found)

omit charted in
theorem completes_like {site part : Site} {current : ScopeId} {later : World}
    {completion : Completion} (completes : Completes known part current later completion)
    (same : part.after.scopes = site.after.scopes) :
    Completes known site current later completion := by
  cases completion with
  | normal =>
      unfold Completes at completes ⊢
      rw [← same]
      exact completes
  | returned value => exact completes

theorem block_runs {orders : List Statement} {analysis : Analysis} {full : List StaticScope}
    (here : Here known table base world machine
      ⟨.statement (.block orders), analysis, full⟩ anyName) :
    Runs known table base none
      (fun later completion => ∀ value, completion = .returned value → later.Fits known value)
      world machine (Parts.asked.execution (.block orders)) := by
  have grows := (Site.mk (.statements orders) analysis.enter full).keeps_scopes.1
  obtain ⟨last, final, within⟩ := grows.of_cons
  have bodyKnown : known (Site.ofBody orders analysis.enter full) :=
    charted.part here.isKnown List.mem_cons_self
  have near : base.Near (Site.ofBody orders analysis.enter full) :=
    here.inside _ List.mem_cons_self
  have runs : Runs known table base none
      (fun later completion => ∀ value, completion = .returned value → later.Fits known value)
      world machine (Setting.act (Run.openScope machine.current .empty) >>= fun scope =>
        Setting.within scope (Parts.asked.inOrder orders)) := by
    refine runs_open here.holds here.stands.inside within ?_ fun after opened => ?_
    · intro name value found
      cases found
    · exact runs_body charted here.holds.sound here.table rfl final bodyKnown near
        here.stands.inside here.stands.view here.stands.ready (fun name => Iff.rfl) opened
  exact runs

theorem runs_branch {whole : Statement} {branch : Statement} {analysis reached : Analysis}
    {full : List StaticScope} {later : World} {after : Machine}
    (here : Here known table base world machine ⟨.statement whole, analysis, full⟩ anyName)
    (exact : world.Exact analysis.scopes machine.current)
    (onward : Onward known none world machine later after)
    (member : ⟨.statement branch, reached, full⟩ ∈
      (Site.mk (.statement whole) analysis full).parts)
    (scopes : reached.scopes = analysis.scopes) (undeclaring : whole.isDeclaration = false)
    (branchUndeclaring : branch.isDeclaration = false) :
    Runs known table base (some machine.current)
      (Completes known ⟨.statement whole, analysis, full⟩ machine.current) later after
      (Parts.asked.execute branch) := by
  have exactLater := exact_later exact onward here.stands.inside
  rw [← scopes] at exactLater
  have there : There known table base later after ⟨.statement branch, reached, full⟩ anyName :=
    (here.onward onward).part charted member rfl scopes
  have runs := runs_execute there (onward.current.symm ▸ exactLater)
  rw [onward.current] at runs
  refine runs_mono runs fun last before pending completion completes => ?_
  apply completes_like completes
  rw [charted.undeclaring_after there.isKnown rfl branchUndeclaring,
    charted.undeclaring_after here.isKnown rfl undeclaring]
  exact scopes

theorem conditional_runs {condition : Expression} {thenBranch : Statement}
    {elseBranch : Option Statement} {analysis : Analysis} {full : List StaticScope}
    (here : Here known table base world machine
      ⟨.statement (.conditional condition thenBranch elseBranch), analysis, full⟩ anyName)
    (exact : world.Exact analysis.scopes machine.current) :
    Runs known table base (some machine.current)
      (Completes known ⟨.statement (.conditional condition thenBranch elseBranch), analysis, full⟩
        machine.current) world machine
      (Parts.asked.execution (.conditional condition thenBranch elseBranch)) := by
  have shaped := charted.shaped here.isKnown
  have first : ⟨.expression condition, analysis, full⟩ ∈
      (Site.mk (.statement (.conditional condition thenBranch elseBranch)) analysis
        full).parts := by
    cases elseBranch <;> exact List.mem_cons_self
  have second : ⟨.statement thenBranch, condition.analyse analysis, full⟩ ∈
      (Site.mk (.statement (.conditional condition thenBranch elseBranch)) analysis
        full).parts := by
    cases elseBranch <;> exact List.mem_cons_of_mem _ List.mem_cons_self
  have scopes := Site.expression_after condition analysis
  apply runs_bind_quiet (runs_evaluate (here.part charted first rfl rfl))
  intro later after result onward _
  split_ifs
  · exact runs_branch charted here exact onward second scopes rfl shaped.1
  · cases elseBranch with
    | none =>
        exact runs_pure onward.holds (completes_quietly here exact onward.before onward.pending
          (charted.undeclaring_after here.isKnown rfl rfl))
    | some branch =>
        have third : ⟨.statement branch, thenBranch.analyse (condition.analyse analysis), full⟩ ∈
            (Site.mk (.statement (.conditional condition thenBranch (some branch))) analysis
              full).parts :=
          List.mem_cons_of_mem _ (List.mem_cons_of_mem _ List.mem_cons_self)
        have thenKnown : known ⟨.statement thenBranch, condition.analyse analysis, full⟩ :=
          charted.part here.isKnown second
        exact runs_branch charted here exact onward third
          ((charted.undeclaring_after thenKnown rfl shaped.1).trans scopes) rfl
          (shaped.2 branch rfl)

theorem loop_runs {condition : Expression} {body : Statement} {analysis : Analysis}
    {full : List StaticScope}
    (here : Here known table base world machine ⟨.statement (.loop condition body), analysis, full⟩
      anyName)
    (exact : world.Exact analysis.scopes machine.current) :
    Runs known table base (some machine.current)
      (Completes known ⟨.statement (.loop condition body), analysis, full⟩ machine.current) world
      machine (Parts.asked.execution (.loop condition body)) := by
  have shaped := charted.shaped here.isKnown
  apply runs_bind_quiet (runs_evaluate (here.part charted List.mem_cons_self rfl rfl))
  intro later after result onward _
  split_ifs
  · have begun := runs_branch charted here exact onward (List.mem_cons_of_mem _
      List.mem_cons_self) (Site.expression_after condition analysis) rfl shaped
    rw [← onward.current] at begun ⊢
    apply runs_bind begun
    intro last afterLast completion onwardLast completes
    cases completion with
    | returned value => exact runs_pure onwardLast.holds completes
    | normal =>
        -- The loop is at its own site again, and the scopes are what they were.
        obtain ⟨ready, exactLast⟩ := completes
        rw [charted.undeclaring_after here.isKnown rfl rfl] at ready exactLast
        have again := there_next (here.onward onward).toThere onwardLast here.isKnown here.near rfl
          ready
        have runs := runs_execute again (onwardLast.current.symm ▸ exactLast)
        rw [onwardLast.current] at runs
        exact runs
  · exact runs_pure onward.holds (completes_quietly here exact onward.before onward.pending
      (charted.undeclaring_after here.isKnown rfl rfl))

/-- A function sees its own name, which is declared as soon as it is made. -/
theorem routine_declaration_runs {declared : Routine} {analysis : Analysis}
    {full : List StaticScope}
    (here : Here known table base world machine
      ⟨.statement (.routineDeclaration declared), analysis, full⟩ anyName)
    (exact : world.Exact analysis.scopes machine.current) :
    Runs known table base (some machine.current)
      (Completes known ⟨.statement (.routineDeclaration declared), analysis, full⟩ machine.current)
      world machine (Parts.asked.execution (.routineDeclaration declared)) := by
  have named := charted.shaped here.isKnown
  obtain ⟨written, parameters, body⟩ := declared
  obtain ⟨name, rfl⟩ := Option.isSome_iff_exists.mp named
  apply runs_bind_quiet (runs_act (close_over_leads here.holds _))
  rintro later after value onward ⟨identity, rfl⟩
  have there := here.onward onward
  let routine : Routine := ⟨some name, parameters, body⟩
  have scopes : (Site.mk (.statement (.routineDeclaration routine)) analysis full).after.scopes =
      (analysis.declareAll [name]).scopes := Site.routine_after routine _
  have marked : Marked name.lexeme analysis.scopes (analysis.declareAll [name]).scopes :=
    Marked.of_define rfl
  have partKnown : known ⟨.routine routine, analysis.declareAll [name], full⟩ :=
    charted.part here.isKnown List.mem_cons_self
  have runs := runs_define (.function identity ⟨routine, machine.current, false⟩) there
    (charted.covered here.isKnown) (scopes ▸ marked) there.stands.ready
  have stands := there.stands
  rw [onward.current] at runs stands
  apply runs (exact_later exact onward here.stands.inside)
  intro ready
  rw [scopes] at ready
  refine ⟨_, partKnown, rfl, ?_, stands.view, ready⟩
  exact (Scopes.size_define ..).symm ▸ stands.inside

/-- Every statement keeps to the contract if its parts do. -/
theorem execution_meets {order : Statement} {analysis : Analysis} {full : List StaticScope}
    (here : Here known table base world machine ⟨.statement order, analysis, full⟩ anyName)
    (exact : world.Exact analysis.scopes machine.current) :
    (Parts.asked.execution order machine).Meets
      ((alignment known table).under fun _ =>
        ⟨(Task.execution order).initializing machine ++ world.pending, (· = base)⟩)
      (Leads known (some machine.current)
        (Completes known ⟨.statement order, analysis, full⟩ machine.current) world
        machine.current) := by
  cases order with
  | variableDeclaration name initializer =>
      cases initializer with
      | some value => exact initialized_declaration_meets charted here exact
      | none =>
          exact runs_define .nil here (charted.covered here.isKnown) (Marked.of_define rfl)
            here.stands.ready exact fun _ => trivial
  | expression value =>
      apply runs_bind_quiet (runs_evaluate (here.part charted List.mem_cons_self rfl rfl))
      intro later after result onward _
      exact runs_pure onward.holds (completes_quietly here exact onward.before onward.pending
        (Site.expression_after value analysis))
  | print value =>
      apply runs_bind_quiet (runs_evaluate (here.part charted List.mem_cons_self rfl rfl))
      intro later after result onward _
      apply runs_bind_quiet (runs_act (print_leads onward.holds result))
      intro last afterLast _ onwardLast _
      have both := onward.trans onwardLast
      exact runs_pure onwardLast.holds (completes_quietly here exact both.before both.pending
        (Site.expression_after value analysis))
  | block orders =>
      apply runs_weaken
      refine runs_mono (block_runs charted here) ?_
      intro later before pending completion fits
      cases completion with
      | returned value => exact fits value rfl
      | normal =>
          exact completes_quietly here exact before pending
            (charted.undeclaring_after here.isKnown rfl rfl)
  | conditional condition thenBranch elseBranch => exact conditional_runs charted here exact
  | loop condition body => exact loop_runs charted here exact
  | routineDeclaration declared => exact routine_declaration_runs charted here exact
  | exit keyword value =>
      cases value with
      | none => exact runs_pure here.holds trivial
      | some value =>
          have scopes : (if analysis.inRoutine then analysis
              else analysis.report keyword .topLevelReturn).scopes = analysis.scopes := by
            split_ifs <;> rfl
          apply runs_bind_quiet (runs_evaluate (here.part charted List.mem_cons_self rfl scopes))
          intro later after result onward fits
          exact runs_pure onward.holds fits
  | classDeclaration name superclass methods classMethods =>
      exact class_declaration_runs charted here exact

/-- A task keeps to its contract if its parts, which it asks for at its own site, do. -/
theorem task_meets_there {around : Surroundings} {task : Task} {site : Site}
    (stands : Stands known table around task machine world site) :
    (task.plan machine).Meets
      ((alignment known table).under fun _ =>
        ⟨task.initializing machine ++ around.pending, (· = site)⟩)
      (Ends known world machine site task) := by
  obtain ⟨holds, tableSame, pendingSame, isKnown, ⟨node, -⟩, begins⟩ := stands
  rw [← pendingSame]
  obtain ⟨_, analysis, full⟩ := site
  cases node
  cases task with
  | evaluation value =>
      exact evaluation_runs charted (There.itself ⟨holds, tableSame, isKnown, .self, begins⟩) rfl
  | execution order =>
      exact execution_meets charted (There.itself ⟨holds, tableSame, isKnown, .self, begins.1⟩)
        begins.2
  | call closure arguments =>
      obtain ⟨there, argumentsFit, enough, -⟩ := begins
      exact application_runs charted holds tableSame isKnown there argumentsFit enough

omit charted in
theorem stands_among {around wider : Surroundings} {task : Task} {site : Site}
    (stands : Stands known table around task machine world site)
    (pending : wider.pending = around.pending)
    (asking : ∀ outer, around.asking outer → wider.asking outer) :
    Stands known table wider task machine world site := by
  obtain ⟨holds, tableSame, pendingSame, isKnown, ⟨node, reachable⟩, begins⟩ := stands
  have pendingWider := pendingSame.trans pending.symm
  cases task with
  | call =>
      obtain ⟨there, argumentsFit, enough, caller, isAsking, among⟩ := begins
      exact ⟨holds, tableSame, pendingWider, isKnown, ⟨node, reachable⟩, there, argumentsFit,
        enough, caller, asking caller isAsking, among⟩
  | evaluation | execution =>
      obtain ⟨outer, isAsking, near⟩ := reachable
      exact ⟨holds, tableSame, pendingWider, isKnown, ⟨node, outer, asking outer isAsking, near⟩,
        begins⟩

theorem task_meets {around : Surroundings} {task : Task} {site : Site}
    (stands : Stands known table around task machine world site) :
    (task.plan machine).Meets
      ((alignment known table).under fun calls =>
        (alignment known table).inside around calls task machine)
      (Ends known world machine site task) := by
  have wider (start : Machine) (asked : Task) (place : Site) (there : World)
      (inside : Stands known table ⟨task.initializing machine ++ around.pending, (· = site)⟩
        asked start there place) : Stands known table
        ((alignment known table).inside around 0 task machine) asked start there place := by
    refine stands_among inside ?_ ?_
    · rfl
    · rintro outer rfl
      exact stands.placed
  apply Plan.meets_eased (task_meets_there charted stands)
  · rintro calls asked start ⟨there, place, inside⟩
    exact ⟨there, place, wider start asked place there inside⟩
  · intro calls asked start ending effect there place inside
    exact effect there place (wider start asked place there inside)

/-- Every task keeps the scopes of the run in step with those of the analysis. -/
theorem alignment_kept : (alignment known table).Kept where
  exhausted around task machine _ world site stands := by
    cases task <;> exact ⟨world, .refl _, stands.holds⟩
  planned around task machine duty := by
    obtain ⟨world, site, stands⟩ := duty
    let places := { place : World × Site //
      Stands known table around task machine place.1 place.2 }
    have meets := Plan.meets_forall (⟨(world, site), stands⟩ : places)
      fun place => task_meets charted place.2
    exact Plan.meets_mono meets fun ending all world site stands => all ⟨(world, site), stands⟩

end Constructs

end World

end Lox
