import Lox.Proofs.Names.Charted

/-!
The names that one scope gets. In a program without violations they are all
different: a parameter, a variable, a function and a class of one scope never share
a name.
-/

namespace Lox

namespace Statement

/-- The variable that a statement declares where it stands. -/
def locals : Statement → List Token
  | .variableDeclaration name _ => [name]
  | _ => []

/-- The name that a statement declares where it stands. -/
def binder? : Statement → Option Token
  | .variableDeclaration name _ | .classDeclaration name _ _ _ => some name
  | .routineDeclaration routine => routine.name
  | _ => none

theorem binder_of_local {order : Statement} {name : Token} (member : name ∈ order.locals) :
    order.binder? = some name := by
  cases order with
  | variableDeclaration => rw [List.mem_singleton.mp member]; rfl
  | expression | print | block | conditional | loop | routineDeclaration | exit
  | classDeclaration => cases member

end Statement

namespace Node

/-- The parameters and variables that live in the scope of a block or a routine. -/
def locals : Node → List Token
  | .statement (.block orders) => orders.flatMap Statement.locals
  | .routine declared => declared.parameters.getD [] ++ declared.body.flatMap Statement.locals
  | _ => []

/-- All names that are declared in the scope of a block or a routine. -/
def binders : Node → List Token
  | .statement (.block orders) => orders.filterMap Statement.binder?
  | .routine declared =>
      declared.parameters.getD [] ++ declared.body.filterMap Statement.binder?
  | _ => []

theorem binder_of_local {node : Node} {name : Token} (member : name ∈ node.locals) :
    name ∈ node.binders := by
  have body {orders : List Statement} (member : name ∈ orders.flatMap Statement.locals) :
      name ∈ orders.filterMap Statement.binder? := by
    obtain ⟨order, isOrder, own⟩ := List.mem_flatMap.mp member
    exact List.mem_filterMap.mpr ⟨order, isOrder, Statement.binder_of_local own⟩
  unfold locals at member
  split at member
  · exact body member
  · exact List.mem_append.mpr ((List.mem_append.mp member).imp_right body)
  · cases member

end Node

/-- Over some declarations a scope gets these names, all of them new and no two of
them the same. -/
structure StaticScope.Gains (names : List String) (before after : StaticScope) : Prop where
  distinct : names.Nodup
  fresh : ∀ name ∈ names, before.contains name = false
  held : ∀ name, name ∈ names ∨ before.contains name = true → after.contains name = true

namespace StaticScope.Gains

variable {names more : List String} {first second third : StaticScope}

theorem none (within : first.Within second) : Gains [] first second where
  distinct := List.nodup_nil
  fresh := nofun
  held name found := within name (found.resolve_left List.not_mem_nil)

theorem trans (before : Gains names first second) (after : Gains more second third) :
    Gains (names ++ more) first third where
  distinct := by
    refine List.nodup_append.mpr
      ⟨before.distinct, after.distinct, fun name early other late same => ?_⟩
    have absent := after.fresh other late
    rw [← same, before.held name (.inl early)] at absent
    cases absent
  fresh name member := by
    rcases List.mem_append.mp member with early | late
    · exact before.fresh name early
    · by_contra found
      have absent := after.fresh name late
      rw [before.held name (.inr (by simpa using found))] at absent
      cases absent
  held name found := by
    rw [List.mem_append] at found
    rcases found with (early | late) | found
    · exact after.held name (.inr (before.held name (.inl early)))
    · exact after.held name (.inl late)
    · exact after.held name (.inr (before.held name (.inr found)))

theorem of_marked {name : String} {outer after : List StaticScope}
    (marked : Marked name (first :: outer) after) (fresh : first.contains name = false) :
    ∃ last, after = last :: outer ∧ Gains [name] first last := by
  have named := marked.head_names (.inl rfl)
  have kept {key : String} (found : first.contains key = true) :
      ∀ last ∈ after.head?, last.contains key = true :=
    marked.head_names (.inr fun inner isInner => by cases isInner; exact found)
  obtain ⟨last, rfl, -⟩ := marked
  refine ⟨last, rfl, List.nodup_cons.mpr ⟨List.not_mem_nil, List.nodup_nil⟩, ?_, ?_⟩
  · simpa using fresh
  · rintro key (same | found)
    · rw [List.mem_singleton.mp same]
      exact named last rfl
    · exact kept found last rfl

end StaticScope.Gains

namespace Analysis

variable {analysis : Analysis}

@[simp] theorem mark_violations (name : String) (ready : Bool) :
    (analysis.mark name ready).violations = analysis.violations := by
  unfold mark
  split <;> rfl

@[simp] theorem define_violations (name : Token) :
    (analysis.define name).violations = analysis.violations := analysis.mark_violations _ _

/-- A declaration about which nothing is reported is new in its scope. -/
theorem declared_new {later : Analysis} {name : Token} {inner : StaticScope}
    {outer : List StaticScope} (scopes : analysis.scopes = inner :: outer)
    (clean : later.violations = [])
    (before : (analysis.declare name).violations <:+ later.violations) :
    inner.contains name.lexeme = false := by
  rw [clean, List.suffix_nil] at before
  by_contra here
  have isHere : analysis.declaredHere name.lexeme = true := by
    simpa [declaredHere, scopes] using here
  rw [declare, if_pos isHere] at before
  cases before

theorem declare_all_gains {names : List Token} {inner : StaticScope} {outer : List StaticScope}
    (scopes : analysis.scopes = inner :: outer)
    (clean : (analysis.declareAll names).violations = []) :
    ∃ last, (analysis.declareAll names).scopes = last :: outer ∧
      StaticScope.Gains (names.map Token.lexeme) inner last := by
  induction names generalizing analysis inner with
  | nil => exact ⟨inner, scopes, .none fun _ found => found⟩
  | cons first rest induction =>
      have further := (declare_all_reports ((analysis.declare first).define first) rest).violations
      rw [define_violations] at further
      have fresh := declared_new scopes clean further
      have marked : Marked first.lexeme analysis.scopes
          ((analysis.declare first).define first).scopes := .of_define rfl
      rw [scopes] at marked
      obtain ⟨middle, defined, gains⟩ := StaticScope.Gains.of_marked marked fresh
      obtain ⟨last, final, others⟩ := induction defined clean
      exact ⟨last, final, gains.trans others⟩

/-- Whatever is reported of the name of a class is known when the walk enters it. -/
theorem enter_class_declares (analysis : Analysis) (name : Token) (superclass : Option Occurrence) :
    (({ analysis with classContext := .withoutSuperclass } : Analysis).declare name).violations <:+
      (analysis.enterClass name superclass).violations := by
  have declared : (({ analysis with classContext := .withoutSuperclass } : Analysis).declare
      name).violations = (analysis.declareClass name).violations := by
    rw [declareClass, define_violations]
  cases superclass with
  | none =>
      rw [enterClass, mark_violations, declared]
      exact List.suffix_rfl
  | some place =>
      obtain ⟨checked, reports, -, read⟩ := (analysis.atSuperclass name place).read_checked place
      have above : (analysis.declareClass name).violations <:+
          (analysis.atSuperclass name place).violations := by
        unfold atSuperclass
        dsimp only
        split_ifs
        · exact List.suffix_cons _ _
        · exact List.suffix_rfl
      rw [enterClass, mark_violations, declared]
      change _ <:+ (Analysis.mark _ _ _).violations
      rw [mark_violations]
      change _ <:+ ((analysis.atSuperclass name place).read place).violations
      rw [read, bind_violations]
      exact above.trans reports.violations

end Analysis

namespace Site

theorem order_gains {order : Statement} {analysis : Analysis} {full : List StaticScope}
    (clean : (Site.mk (.statement order) analysis full).Clean) {inner : StaticScope}
    {outer : List StaticScope} (scopes : analysis.scopes = inner :: outer) :
    ∃ last, (order.analyse analysis).scopes = last :: outer ∧
      StaticScope.Gains (order.binder?.toList.map Token.lexeme) inner last := by
  have undeclaring (none : order.binder? = none) : ∃ last,
      (order.analyse analysis).scopes = last :: outer ∧
        StaticScope.Gains (order.binder?.toList.map Token.lexeme) inner last := by
    have grows := (Site.mk (.statement order) analysis full).keeps_scopes.1
    rw [scopes] at grows
    obtain ⟨last, final, within⟩ := grows.of_cons
    rw [none]
    exact ⟨last, final, .none within⟩
  have declaring {name : Token} {middle : Analysis} (named : order.binder? = some name)
      (before : (middle.declare name).violations <:+ (order.analyse analysis).violations)
      (same : middle.scopes = analysis.scopes)
      (marked : Marked name.lexeme analysis.scopes (order.analyse analysis).scopes) : ∃ last,
      (order.analyse analysis).scopes = last :: outer ∧
        StaticScope.Gains (order.binder?.toList.map Token.lexeme) inner last := by
    rw [scopes] at marked
    rw [named]
    exact StaticScope.Gains.of_marked marked
      (Analysis.declared_new (same.trans scopes) clean before)
  cases order with
  | expression | print | block | conditional | loop | exit => exact undeclaring rfl
  | variableDeclaration name initializer =>
      cases initializer with
      | none =>
          refine declaring rfl ?_ rfl (.of_define rfl)
          rw [Statement.analyse, Analysis.define_violations]
      | some value =>
          have walked := (Site.mk (.expression value) (analysis.declare name) full).violations_stay
          refine declaring rfl ?_ rfl (.of_define (expression_after value _))
          rw [Statement.analyse, Analysis.define_violations]
          exact walked
  | routineDeclaration declared =>
      obtain ⟨name, parameters, body⟩ := declared
      cases name with
      | none => exact undeclaring rfl
      | some name =>
          let written : Routine := ⟨some name, parameters, body⟩
          have walked := (Site.mk (.routine written)
            ((analysis.declare name).define name) full).violations_stay
          have after := routine_after written ((analysis.declare name).define name)
          refine declaring rfl ?_ rfl ?_
          · change ((analysis.declare name).define name).violations <:+ _ at walked
            rwa [Analysis.define_violations] at walked
          · change Marked _ _ (written.analyse ((analysis.declare name).define name)).scopes
            rw [after]
            exact .of_define rfl
  | classDeclaration name superclass methods classMethods =>
      have entered := analysis.enter_class_declares name superclass
      have walked : (analysis.enterClass name superclass).violations <:+ _ :=
        (Site.mk (.routines methods) (analysis.enterClass name superclass)
          full).violations_stay.trans (Site.mk (.routines classMethods) _ full).violations_stay
      refine declaring rfl (entered.trans ?_) rfl ?_
      · cases superclass <;> exact walked
      · rw [class_after]
        exact .of_declare_class analysis name

theorem orders_gain {orders : List Statement} {analysis : Analysis} {full : List StaticScope}
    (clean : (Site.mk (.statements orders) analysis full).Clean) {inner : StaticScope}
    {outer : List StaticScope} (scopes : analysis.scopes = inner :: outer) :
    ∃ last, (Statement.analyseAll orders analysis).scopes = last :: outer ∧
      StaticScope.Gains ((orders.filterMap Statement.binder?).map Token.lexeme) inner last := by
  induction orders generalizing analysis inner with
  | nil => exact ⟨inner, scopes, .none fun _ found => found⟩
  | cons first rest induction =>
      have head := part_clean clean List.mem_cons_self
      have tail := part_clean clean (List.mem_cons_of_mem _ List.mem_cons_self)
      obtain ⟨middle, defined, gains⟩ := order_gains head scopes
      obtain ⟨last, final, others⟩ := induction tail defined
      refine ⟨last, final, ?_⟩
      have all := gains.trans others
      rw [← List.map_append] at all
      cases named : first.binder? with
      | none =>
          rw [named] at all
          rwa [List.filterMap_cons_none named]
      | some name =>
          rw [named] at all
          rwa [List.filterMap_cons_some named]

/-- No two names in the scope of a node are the same. -/
theorem binders_distinct {site : Site} (clean : site.Clean) :
    (site.node.binders.map Token.lexeme).Nodup := by
  obtain ⟨node, analysis, full⟩ := site
  cases node with
  | expression | expressions | statements | routines => exact List.nodup_nil
  | statement order =>
      cases order with
      | block orders =>
          obtain ⟨last, -, gains⟩ := orders_gain (part_clean clean List.mem_cons_self) rfl
          exact gains.distinct
      | expression | print | variableDeclaration | conditional | loop | routineDeclaration | exit
      | classDeclaration => exact List.nodup_nil
  | routine declared =>
      have body := part_clean clean List.mem_cons_self
      obtain ⟨inner, begun, parameters⟩ := Analysis.declare_all_gains rfl (clean_before body)
      obtain ⟨last, -, others⟩ := orders_gain body begun
      have all := parameters.trans others
      rw [← List.map_append] at all
      exact all.distinct

end Site

end Lox
