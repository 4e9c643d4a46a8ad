import Lox.Proofs.Names.Charted
import Lox.Proofs.Names.Rules
import Mathlib.Algebra.BigOperators.Group.Multiset.Basic
import Mathlib.Tactic.Abel

/-!
What the walk reports. The violations found in a site are those that it reports at the
node itself, by the state in which it comes there, and those found in the parts. So a
way to count violations that adds up over the parts in the same manner counts all that
the walk reports.
-/

namespace Lox

/-- The tokens at which a rule is reported broken, without their order. -/
def tally (cause : BindingError) (violations : List Violation) : Multiset Token :=
  ((violations.filter (·.cause = cause)).map Violation.place : List Token)

theorem tally_cons (cause other : BindingError) (place : Token) (violations : List Violation) :
    tally cause (⟨place, other⟩ :: violations) =
      (if other = cause then {place} else 0) + tally cause violations := by
  unfold tally
  by_cases same : other = cause
  · rw [List.filter_cons_of_pos (by simpa using same), if_pos same]
    rfl
  · rw [List.filter_cons_of_neg (by simpa using same), if_neg same, zero_add]

namespace Analysis

variable (analysis : Analysis)

/-- What else the rules look at, beside the scopes. -/
def context : Bool × ClassContext := (analysis.inRoutine, analysis.classContext)

@[simp] theorem report_context (place : Token) (cause : BindingError) :
    (analysis.report place cause).context = analysis.context := rfl

@[simp] theorem enter_context : analysis.enter.context = analysis.context := rfl

@[simp] theorem leave_context : analysis.leave.context = analysis.context := rfl

@[simp] theorem mark_context (name : String) (ready : Bool) :
    (analysis.mark name ready).context = analysis.context := by
  unfold mark
  split <;> rfl

@[simp] theorem declare_context (name : Token) :
    (analysis.declare name).context = analysis.context := by
  unfold declare
  dsimp only
  split_ifs <;> simp

@[simp] theorem define_context (name : Token) :
    (analysis.define name).context = analysis.context := analysis.mark_context _ _

@[simp] theorem bind_context (place : Occurrence) :
    (analysis.bind place).context = analysis.context := by
  unfold bind
  split <;> rfl

@[simp] theorem read_context (place : Occurrence) :
    (analysis.read place).context = analysis.context := by
  unfold read
  dsimp only
  split_ifs <;> simp

@[simp] theorem declare_all_context (names : List Token) :
    (analysis.declareAll names).context = analysis.context := by
  induction names generalizing analysis with
  | nil => rfl
  | cons name rest induction => exact (induction _).trans (by simp)

theorem declare_class_context (name : Token) :
    (analysis.declareClass name).context = (analysis.inRoutine, .withoutSuperclass) :=
  (define_context _ name).trans (declare_context _ name)

theorem at_superclass_context (name : Token) (place : Occurrence) :
    (analysis.atSuperclass name place).context = (analysis.inRoutine, .withSuperclass) := by
  have kept : (analysis.declareClass name).inRoutine = analysis.inRoutine :=
    congrArg Prod.fst (analysis.declare_class_context name)
  unfold atSuperclass context
  dsimp only
  split_ifs <;> simp [report, kept]

/-- What is looked at stays the same, and nothing is reported. -/
structure Silent (before after : Analysis) : Prop where
  context : after.context = before.context
  violations : after.violations = before.violations

namespace Silent

theorem refl (analysis : Analysis) : analysis.Silent analysis := ⟨rfl, rfl⟩

end Silent

theorem mark_silent (name : String) (ready : Bool) :
    analysis.Silent (analysis.mark name ready) :=
  ⟨analysis.mark_context name ready, by unfold mark; split <;> rfl⟩

theorem bind_silent (place : Occurrence) : analysis.Silent (analysis.bind place) :=
  ⟨analysis.bind_context place, analysis.bind_violations place⟩

/-- The names that are in the innermost scope already when it is their turn. -/
def clashes (names : List Token) : List Token :=
  match analysis.scopes with
  | [] => []
  | inner :: _ => repeatedAfter inner.contains names

end Analysis

theorem repeated_after_append (taken : String → Bool) (first second : List Token) :
    repeatedAfter taken (first ++ second) = repeatedAfter taken first ++
      repeatedAfter (fun name => taken name || decide (name ∈ first.map Token.lexeme)) second := by
  induction first generalizing taken with
  | nil => simp [repeatedAfter]
  | cons token rest induction =>
      rw [List.cons_append, repeatedAfter, induction, repeatedAfter, List.append_assoc]
      congr 3
      funext name
      by_cases same : name = token.lexeme <;> simp [same]

/-- The innermost scope, if there is one, has got these names more. -/
def Declares (names : List Token) : List StaticScope → List StaticScope → Prop
  | [], after => after = []
  | inner :: _, after => ∃ last outer, after = last :: outer ∧
      ∀ name, last.contains name =
        (inner.contains name || decide (name ∈ names.map Token.lexeme))

namespace Declares

variable {names others : List Token} {first second third : List StaticScope}

theorem refl (scopes : List StaticScope) : Declares [] scopes scopes := by
  cases scopes with
  | nil => rfl
  | cons inner outer => exact ⟨inner, outer, rfl, fun name => by simp⟩

theorem trans (before : Declares names first second) (after : Declares others second third) :
    Declares (names ++ others) first third := by
  cases first with
  | nil =>
      cases before
      exact after
  | cons inner outer =>
      obtain ⟨middle, around, rfl, here⟩ := before
      obtain ⟨last, outer, rfl, there⟩ := after
      refine ⟨last, outer, rfl, fun name => ?_⟩
      rw [there, here]
      simp [Bool.or_assoc]

theorem nil_iff (declares : Declares names first second) : first = [] ↔ second = [] := by
  cases first with
  | nil =>
      cases declares
      exact .rfl
  | cons inner outer =>
      obtain ⟨last, outer, rfl, -⟩ := declares
      exact ⟨nofun, nofun⟩

theorem of_marked {name : Token} (marked : Marked name.lexeme first second) :
    Declares [name] first second := by
  cases first with
  | nil => exact marked
  | cons inner outer =>
      obtain ⟨last, rfl, names⟩ := marked
      refine ⟨last, outer, rfl, fun key => ?_⟩
      rw [Names.contains, names, Names.contains]
      by_cases same : key = name.lexeme <;> simp [same]

/-- Names clash with what was declared before, and with each other. -/
theorem clashes_append {analysis later : Analysis}
    (declares : Declares names analysis.scopes later.scopes) (others : List Token) :
    analysis.clashes (names ++ others) = analysis.clashes names ++ later.clashes others := by
  unfold Analysis.clashes
  cases begun : analysis.scopes with
  | nil =>
      rw [begun] at declares
      rw [declares]
      rfl
  | cons inner outer =>
      rw [begun] at declares
      obtain ⟨last, outer, same, contained⟩ := declares
      rw [same]
      dsimp only
      rw [repeated_after_append]
      congr 2
      funext name
      exact (contained name).symm

end Declares

namespace Analysis

@[simp] theorem clashes_nil (analysis : Analysis) : analysis.clashes [] = [] := by
  unfold clashes
  cases analysis.scopes <;> rfl

theorem clashes_singleton (analysis : Analysis) (name : Token) :
    analysis.clashes [name] = if analysis.declaredHere name.lexeme then [name] else [] := by
  unfold clashes declaredHere
  cases analysis.scopes with
  | nil => rfl
  | cons inner outer => exact List.append_nil _

theorem declare_tally (analysis : Analysis) (name : Token) (cause : BindingError) :
    tally cause (analysis.declare name).violations =
      (if .redeclared = cause then (analysis.clashes [name] : Multiset Token) else 0) +
        tally cause analysis.violations := by
  have marked := (analysis.mark_silent name.lexeme false).violations
  rw [clashes_singleton]
  unfold declare
  dsimp only
  split_ifs <;> simp [report, tally_cons, *]

theorem declare_define_tally (analysis : Analysis) (name : Token) (cause : BindingError) :
    tally cause ((analysis.declare name).define name).violations =
      (if .redeclared = cause then (analysis.clashes [name] : Multiset Token) else 0) +
        tally cause analysis.violations := by
  rw [define, (mark_silent _ _ _).violations, declare_tally]

theorem declare_all_declares (analysis : Analysis) (names : List Token) :
    Declares names analysis.scopes (analysis.declareAll names).scopes := by
  induction names generalizing analysis with
  | nil => exact .refl _
  | cons name rest induction =>
      have marked : Marked name.lexeme analysis.scopes
          ((analysis.declare name).define name).scopes := .of_define rfl
      exact (Declares.of_marked marked).trans (induction _)

theorem declare_all_tally (analysis : Analysis) (names : List Token) (cause : BindingError) :
    tally cause (analysis.declareAll names).violations =
      (if .redeclared = cause then (analysis.clashes names : Multiset Token) else 0) +
        tally cause analysis.violations := by
  induction names generalizing analysis with
  | nil => simp [declareAll, clashes_nil]
  | cons name rest induction =>
      have marked : Declares [name] analysis.scopes
          ((analysis.declare name).define name).scopes := analysis.declare_all_declares [name]
      have after := (induction ((analysis.declare name).define name)).trans
        (congrArg _ (analysis.declare_define_tally name cause))
      rw [← List.singleton_append, marked.clashes_append]
      refine after.trans ?_
      split_ifs
      · rw [← Multiset.coe_add]
        abel
      · rw [zero_add]

end Analysis

/-- What the rules look at inside of a node, by what they look at around it. -/
def Node.inside : Node → Bool × ClassContext → Bool × ClassContext
  | .routine _, (_, classContext) => (true, classContext)
  | .statement (.classDeclaration _ superclass _ _), (inRoutine, _) =>
      (inRoutine, if superclass.isSome then .withSuperclass else .withoutSuperclass)
  | _, context => context

namespace Site

/-- Where the walk reports a rule broken at the node itself. -/
def own : BindingError → Site → Multiset Token
  | .topLevelReturn, site => if site.analysis.inRoutine = false then site.node.exits else 0
  | .selfOutsideClass, site =>
      if site.analysis.classContext = .outside then site.node.receivers else 0
  | .superOutsideClass, site =>
      if site.analysis.classContext = .outside then site.node.inheritances else 0
  | .superWithoutSuperclass, site =>
      if site.analysis.classContext = .withoutSuperclass then site.node.inheritances else 0
  | .redeclared, site =>
      (site.analysis.clashes site.node.introduced ++
        repeatedAfter (fun _ => false) site.node.parameters : List Token)
  | .inheritsFromItself, site => site.node.selfInheritances
  | .ownInitializer, site =>
      (site.node.references.filter (site.analysis.inOwnInitializer ·.lexeme) : List Token)

/-- The walk goes from one site to the next, and reports nothing in between. -/
def Chained : Analysis → List Site → Analysis → Prop
  | first, [], last => first.Silent last
  | first, part :: rest, last => first.Silent part.analysis ∧ Chained part.after rest last

/-- The walk reports what there is to report at the node itself, and then goes through the
parts. -/
def Reported (site : Site) : Prop :=
  ∃ first last, first.context = site.node.inside site.analysis.context ∧
    (∀ cause, tally cause first.violations =
      own cause site + tally cause site.analysis.violations) ∧
    Chained first site.parts last ∧ site.after.violations = last.violations ∧
    (last.context = first.context → site.after.context = site.analysis.context)

/-- At most nodes there is nothing to report. -/
theorem reported_of_chained {site : Site}
    (idle : ∀ cause, own cause site = 0) (inside : site.node.inside = id)
    (chained : Chained site.analysis site.parts site.after) : site.Reported :=
  ⟨site.analysis, site.after, by rw [inside]; rfl, fun cause => by rw [idle, zero_add],
    chained, rfl, id⟩

theorem reported_of_leaf {site : Site} (leaf : site.parts = []) (inside : site.node.inside = id)
    (context : site.after.context = site.analysis.context)
    (reports : ∀ cause, tally cause site.after.violations =
      own cause site + tally cause site.analysis.violations) : site.Reported :=
  ⟨site.after, site.after, by rw [inside]; exact context, reports, by rw [leaf]; exact .refl _,
    rfl, fun _ => context⟩

theorem expression_reported (value : Expression) (analysis : Analysis)
    (full : List StaticScope) : (Site.mk (.expression value) analysis full).Reported := by
  have idle (references : (Node.expression value).references = [])
      (receivers : (Node.expression value).receivers = [])
      (inheritances : (Node.expression value).inheritances = []) (cause : BindingError) :
      own cause ⟨.expression value, analysis, full⟩ = 0 := by
    cases cause <;> simp_all [own, repeatedAfter]
  cases value with
  | literal => exact reported_of_chained (idle rfl rfl rfl) rfl (.refl _)
  | grouping | unary | get | lambda =>
      exact reported_of_chained (idle rfl rfl rfl) rfl ⟨.refl _, .refl _⟩
  | assign place value =>
      exact reported_of_chained (idle rfl rfl rfl) rfl ⟨.refl _, Analysis.bind_silent _ place⟩
  | binary | logical | call | set =>
      exact reported_of_chained (idle rfl rfl rfl) rfl ⟨.refl _, .refl _, .refl _⟩
  | conditional =>
      exact reported_of_chained (idle rfl rfl rfl) rfl ⟨.refl _, .refl _, .refl _, .refl _⟩
  | reference place =>
      refine reported_of_leaf rfl rfl (analysis.read_context place) fun cause => ?_
      have bound : (analysis.read place).violations =
          (if analysis.inOwnInitializer place.name.lexeme then
            analysis.report place.name .ownInitializer else analysis).violations :=
        Analysis.bind_violations _ place
      change tally cause (analysis.read place).violations = _
      rw [bound]
      cases cause <;> split_ifs with early <;>
        simp [own, repeatedAfter, Analysis.report, tally_cons, early]
  | receiver place =>
      have context : (analysis.receiver place).context = analysis.context := by
        unfold Analysis.receiver
        split_ifs <;> simp
      refine reported_of_leaf rfl rfl context fun cause => ?_
      change tally cause (analysis.receiver place).violations = _
      unfold Analysis.receiver
      split_ifs with outside
      · cases cause <;> simp [own, repeatedAfter, Analysis.report, tally_cons, outside]
      · rw [Analysis.bind_violations]
        cases cause <;> simp [own, repeatedAfter, outside]
  | inherited place method =>
      have context : (analysis.inherited place).context = analysis.context := by
        unfold Analysis.inherited
        cases analysis.classContext <;> simp
      refine reported_of_leaf rfl rfl context fun cause => ?_
      change tally cause (analysis.inherited place).violations = _
      unfold Analysis.inherited
      dsimp only
      rw [Analysis.bind_violations]
      cases around : analysis.classContext <;> cases cause <;>
        simp [own, repeatedAfter, Analysis.report, tally_cons, around]

theorem class_declaration_reported (name : Token) (superclass : Option Occurrence)
    (methods classMethods : List Routine) (analysis : Analysis) (full : List StaticScope) :
    (Site.mk (.statement (.classDeclaration name superclass methods classMethods)) analysis
      full).Reported := by
  have left {first last : Analysis} {around : ClassContext}
      (opened : first.context = (analysis.inRoutine, around))
      (same : last.context = first.context) :
      (last.leaveClass superclass analysis.classContext).context = analysis.context := by
    have kept : last.inRoutine = analysis.inRoutine :=
      congrArg Prod.fst (same.trans opened)
    cases superclass <;> exact Prod.ext kept rfl
  have declared (cause : BindingError) :
      tally cause (analysis.declareClass name).violations =
        (if .redeclared = cause then (analysis.clashes [name] : Multiset Token) else 0) +
          tally cause analysis.violations := by
    unfold Analysis.declareClass
    rw [Analysis.declare_define_tally]
    rfl
  cases superclass with
  | none =>
      have opened := analysis.declare_class_context name
      have entered := Analysis.mark_silent (analysis.declareClass name).enter receiverName true
      refine ⟨analysis.declareClass name, _, opened, fun cause => ?_,
        ⟨⟨entered.context, entered.violations⟩, .refl _, .refl _⟩, rfl, left opened⟩
      rw [declared]
      cases cause <;> simp [own, repeatedAfter]
  | some place =>
      have opened := analysis.at_superclass_context name place
      have above := Analysis.mark_silent
        ((analysis.atSuperclass name place).read place).enter superclassName true
      have entered := Analysis.mark_silent
        (((analysis.atSuperclass name place).read place).enter.mark superclassName true).enter
        receiverName true
      refine ⟨analysis.atSuperclass name place, _, opened, fun cause => ?_,
        ⟨.refl _, ⟨entered.context.trans above.context,
          entered.violations.trans above.violations⟩, .refl _, .refl _⟩, rfl, left opened⟩
      have declared := declared cause
      unfold Analysis.atSuperclass
      dsimp only
      split_ifs with same <;> cases cause <;>
        simp_all [own, repeatedAfter, Analysis.report, tally_cons]

theorem statement_reported (order : Statement) (analysis : Analysis)
    (full : List StaticScope) : (Site.mk (.statement order) analysis full).Reported := by
  have idle (exits : (Node.statement order).exits = [])
      (introduced : (Node.statement order).introduced = [])
      (selfInheritances : (Node.statement order).selfInheritances = []) (cause : BindingError) :
      own cause ⟨.statement order, analysis, full⟩ = 0 := by
    cases cause <;> simp_all [own, repeatedAfter]
  cases order with
  | expression | print => exact reported_of_chained (idle rfl rfl rfl) rfl ⟨.refl _, .refl _⟩
  | block orders =>
      exact reported_of_chained (idle rfl rfl rfl) rfl ⟨⟨rfl, rfl⟩, rfl, rfl⟩
  | conditional condition thenBranch elseBranch =>
      cases elseBranch with
      | none => exact reported_of_chained (idle rfl rfl rfl) rfl ⟨.refl _, .refl _, .refl _⟩
      | some branch =>
          exact reported_of_chained (idle rfl rfl rfl) rfl ⟨.refl _, .refl _, .refl _, .refl _⟩
  | loop => exact reported_of_chained (idle rfl rfl rfl) rfl ⟨.refl _, .refl _, .refl _⟩
  | variableDeclaration name initializer =>
      have reports (cause : BindingError) : tally cause (analysis.declare name).violations =
          own cause ⟨.statement (.variableDeclaration name initializer), analysis, full⟩ +
            tally cause analysis.violations := by
        rw [Analysis.declare_tally]
        cases cause <;> simp [own, repeatedAfter]
      cases initializer with
      | none =>
          exact ⟨analysis.declare name, _, analysis.declare_context name, reports,
            Analysis.mark_silent _ name.lexeme true, rfl,
            fun same => same.trans (analysis.declare_context name)⟩
      | some value =>
          exact ⟨analysis.declare name, _, analysis.declare_context name, reports,
            ⟨.refl _, Analysis.mark_silent _ name.lexeme true⟩, rfl,
            fun same => same.trans (analysis.declare_context name)⟩
  | routineDeclaration declared =>
      refine ⟨analysis.declareAll declared.name.toList, _, analysis.declare_all_context _,
        fun cause => ?_, ⟨.refl _, .refl _⟩, rfl,
        fun same => same.trans (analysis.declare_all_context _)⟩
      rw [Analysis.declare_all_tally]
      cases cause <;> simp [own, repeatedAfter]
  | exit keyword value =>
      have reports (cause : BindingError) :
          tally cause (if analysis.inRoutine then analysis
            else analysis.report keyword .topLevelReturn).violations =
          own cause ⟨.statement (.exit keyword value), analysis, full⟩ +
            tally cause analysis.violations := by
        cases cause <;> split_ifs with inside <;>
          simp [own, repeatedAfter, Analysis.report, tally_cons, inside]
      have context : (if analysis.inRoutine then analysis
          else analysis.report keyword .topLevelReturn).context = analysis.context := by
        split_ifs <;> rfl
      cases value with
      | none => exact ⟨_, _, context, reports, .refl _, rfl, fun _ => context⟩
      | some value =>
          exact ⟨_, _, context, reports, ⟨.refl _, .refl _⟩, rfl, fun same => same.trans context⟩
  | classDeclaration name superclass methods classMethods =>
      exact class_declaration_reported name superclass methods classMethods analysis full

theorem entered_context (declared : Routine) (analysis : Analysis) :
    (entered declared analysis).context = (true, analysis.classContext) :=
  Analysis.declare_all_context _ _

theorem entered_tally (declared : Routine) (analysis : Analysis) (cause : BindingError) :
    tally cause (entered declared analysis).violations =
      (if .redeclared = cause then
        (repeatedAfter (fun _ => false) (declared.parameters.getD []) : Multiset Token) else 0) +
        tally cause analysis.violations :=
  Analysis.declare_all_tally _ _ cause

/-- The walk at any site reports what there is to report at its node, and goes through its
parts in order. -/
theorem reported (site : Site) : site.Reported := by
  obtain ⟨node, analysis, full⟩ := site
  cases node with
  | expression value => exact expression_reported value analysis full
  | statement order => exact statement_reported order analysis full
  | routine declared =>
      obtain ⟨name, parameters, body⟩ := declared
      have opened := entered_context ⟨name, parameters, body⟩ analysis
      refine ⟨entered ⟨name, parameters, body⟩ analysis, _, opened, fun cause => ?_,
        ⟨.refl _, .refl _⟩, rfl, fun same => ?_⟩
      · rw [entered_tally]
        cases cause <;> simp [own]
      · have kept := congrArg Prod.snd (same.trans opened)
        exact Prod.ext rfl kept
  | expressions values =>
      have idle (cause : BindingError) : own cause ⟨.expressions values, analysis, full⟩ = 0 := by
        cases cause <;> simp [own, repeatedAfter]
      cases values with
      | nil => exact reported_of_chained idle rfl (.refl _)
      | cons first rest => exact reported_of_chained idle rfl ⟨.refl _, .refl _, .refl _⟩
  | statements orders =>
      have idle (cause : BindingError) : own cause ⟨.statements orders, analysis, full⟩ = 0 := by
        cases cause <;> simp [own, repeatedAfter]
      cases orders with
      | nil => exact reported_of_chained idle rfl (.refl _)
      | cons first rest => exact reported_of_chained idle rfl ⟨.refl _, .refl _, .refl _⟩
  | routines declared =>
      have idle (cause : BindingError) : own cause ⟨.routines declared, analysis, full⟩ = 0 := by
        cases cause <;> simp [own, repeatedAfter]
      cases declared with
      | nil => exact reported_of_chained idle rfl (.refl _)
      | cons first rest => exact reported_of_chained idle rfl ⟨.refl _, .refl _, .refl _⟩

theorem chained_context {parts : List Site} {first last : Analysis}
    (chained : Chained first parts last)
    (each : ∀ part ∈ parts, part.after.context = part.analysis.context) :
    last.context = first.context ∧ ∀ part ∈ parts, part.analysis.context = first.context := by
  induction parts generalizing first with
  | nil => exact ⟨chained.context, nofun⟩
  | cons part rest induction =>
      obtain ⟨silent, chained⟩ := chained
      rw [List.forall_mem_cons] at each ⊢
      obtain ⟨ended, others⟩ := induction chained each.2
      have through := each.1.trans silent.context
      exact ⟨ended.trans through, silent.context, fun other member =>
        (others other member).trans through⟩

/-- The walk leaves a site with the same rules in force. -/
theorem keeps_context (site : Site) : site.after.context = site.analysis.context := by
  induction site using induction_along_parts with
  | step site parts =>
    obtain ⟨first, last, -, -, chained, -, restored⟩ := site.reported
    exact restored (chained_context chained parts).1

theorem part_context {site part : Site} (member : part ∈ site.parts) :
    part.analysis.context = site.node.inside site.analysis.context := by
  obtain ⟨first, last, opened, -, chained, -⟩ := site.reported
  exact ((chained_context chained fun part _ => part.keeps_context).2 part member).trans opened

theorem chained_tally {cause : BindingError} {count : Site → Multiset Token} {parts : List Site}
    {first last : Analysis} (chained : Chained first parts last)
    (each : ∀ part ∈ parts, tally cause part.after.violations =
      count part + tally cause part.analysis.violations) :
    tally cause last.violations = (parts.map count).sum + tally cause first.violations := by
  induction parts generalizing first with
  | nil => rw [chained.violations, List.map_nil, List.sum_nil, zero_add]
  | cons part rest induction =>
      obtain ⟨silent, chained⟩ := chained
      rw [List.forall_mem_cons] at each
      rw [induction chained each.2, each.1, silent.violations, List.map_cons, List.sum_cons]
      abel

/-- A count that adds up over the parts as the reports do counts the reports. -/
theorem tally_of_count {cause : BindingError} {count : Site → Multiset Token}
    {holds : Site → Prop} (closed : ∀ site, holds site → ∀ part ∈ site.parts, holds part)
    (adds : ∀ site, holds site → count site = own cause site + (site.parts.map count).sum)
    (site : Site) (held : holds site) : tally cause site.after.violations =
      count site + tally cause site.analysis.violations := by
  induction site using induction_along_parts with
  | step site parts =>
    obtain ⟨first, last, -, reports, chained, ended, -⟩ := site.reported
    rw [ended, chained_tally chained fun part member =>
      parts part member (closed site held part member),
      reports, adds site held]
    abel

end Site

end Lox
