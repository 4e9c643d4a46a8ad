import Lox.Proofs.Names.Site
import Mathlib.Data.List.Forall2
import Mathlib.Data.List.Infix

/-!
What the walk of the analysis leaves behind. Expressions and routines leave the
scopes as they were; statements add names to the innermost scope at most. Each
occurrence adds its own bond and nothing else does, and violations stay once
they are there; so a program without violations has none at any of its sites.
-/

namespace Lox

/-- All names of one scope are in another. -/
def StaticScope.Within (inner outer : StaticScope) : Prop :=
  ∀ name, inner.contains name = true → outer.contains name = true

/-- The innermost scope may have got more names, and the others are the same. -/
def InnermostGrows : List StaticScope → List StaticScope → Prop
  | [], [] => True
  | inner :: outer, inner' :: outer' => inner.Within inner' ∧ outer = outer'
  | _, _ => False

namespace InnermostGrows

theorem refl (scopes : List StaticScope) : InnermostGrows scopes scopes := by
  cases scopes with
  | nil => trivial
  | cons inner outer => exact ⟨fun _ found => found, rfl⟩

theorem trans {first second third : List StaticScope} (before : InnermostGrows first second)
    (after : InnermostGrows second third) : InnermostGrows first third := by
  cases first <;> cases second <;> cases third
  all_goals first
    | trivial
    | exact before.elim
    | exact after.elim
    | exact ⟨fun name found => after.1 name (before.1 name found), before.2.trans after.2⟩

theorem tail {first second : List StaticScope} (grows : InnermostGrows first second) :
    second.tail = first.tail := by
  cases first <;> cases second
  all_goals first
    | rfl
    | exact grows.elim
    | exact grows.2.symm

theorem of_cons {inner : StaticScope} {outer later : List StaticScope}
    (grows : InnermostGrows (inner :: outer) later) :
    ∃ inner', later = inner' :: outer ∧ inner.Within inner' := by
  cases later with
  | nil => exact grows.elim
  | cons inner' outer' =>
      obtain ⟨smaller, rfl⟩ := grows
      exact ⟨inner', rfl, smaller⟩

end InnermostGrows

namespace Analysis

variable (analysis : Analysis)

@[simp] theorem report_scopes (place : Token) (cause : BindingError) :
    (analysis.report place cause).scopes = analysis.scopes := rfl

@[simp] theorem enter_scopes : analysis.enter.scopes = .empty :: analysis.scopes := rfl

@[simp] theorem leave_scopes : analysis.leave.scopes = analysis.scopes.drop 1 := rfl

@[simp] theorem bind_scopes (place : Occurrence) :
    (analysis.bind place).scopes = analysis.scopes := by
  unfold bind
  split <;> rfl

@[simp] theorem read_scopes (place : Occurrence) :
    (analysis.read place).scopes = analysis.scopes := by
  unfold read
  split_ifs <;> simp

@[simp] theorem receiver_scopes (place : Occurrence) :
    (analysis.receiver place).scopes = analysis.scopes := by
  unfold receiver
  split_ifs <;> simp

@[simp] theorem inherited_scopes (place : Occurrence) :
    (analysis.inherited place).scopes = analysis.scopes := by
  unfold inherited
  cases analysis.classContext <;> simp

@[simp] theorem declare_scopes (name : Token) :
    (analysis.declare name).scopes = (analysis.mark name.lexeme false).scopes := by
  unfold declare
  dsimp only
  split_ifs <;> rfl

theorem mark_cons {inner : StaticScope} {outer : List StaticScope}
    (scopes : analysis.scopes = inner :: outer) (name : String) (ready : Bool) :
    (analysis.mark name ready).scopes = inner.set name ready :: outer := by
  simp [mark, scopes]

theorem mark_grows (name : String) (ready : Bool) :
    InnermostGrows analysis.scopes (analysis.mark name ready).scopes := by
  unfold mark
  cases same : analysis.scopes with
  | nil => simp [same, InnermostGrows]
  | cons inner outer =>
      refine ⟨fun other found => ?_, rfl⟩
      rw [Names.contains_set, found, Bool.or_true]

theorem declare_grows (name : Token) :
    InnermostGrows analysis.scopes (analysis.declare name).scopes := by
  rw [declare_scopes]
  exact analysis.mark_grows name.lexeme false

theorem define_grows (name : Token) :
    InnermostGrows analysis.scopes (analysis.define name).scopes :=
  analysis.mark_grows name.lexeme true

theorem declare_all_grows (names : List Token) :
    InnermostGrows analysis.scopes (analysis.declareAll names).scopes := by
  induction names generalizing analysis with
  | nil => exact .refl _
  | cons name rest induction =>
      exact (analysis.declare_grows name).trans
        (((analysis.declare name).define_grows name).trans (induction _))

theorem declare_class_grows (name : Token) :
    InnermostGrows analysis.scopes (analysis.declareClass name).scopes :=
  ({ analysis with classContext := .withoutSuperclass } : Analysis).declare_grows name |>.trans
    (define_grows _ name)

@[simp] theorem at_superclass_scopes (name : Token) (place : Occurrence) :
    (analysis.atSuperclass name place).scopes = (analysis.declareClass name).scopes := by
  unfold atSuperclass
  dsimp only
  split_ifs <;> rfl

/-- The scope that holds nothing but the receiver of a method. -/
def receiverScope : StaticScope := Names.empty.set receiverName true

/-- The scope that holds nothing but the superclass of a class. -/
def superclassScope : StaticScope := Names.empty.set superclassName true

theorem enter_class_scopes (name : Token) (superclass : Option Occurrence) :
    (analysis.enterClass name superclass).scopes =
      receiverScope :: ((superclass.map fun _ => superclassScope).toList ++
        (analysis.declareClass name).scopes) := by
  cases superclass with
  | none => rfl
  | some place => simp [enterClass, mark, receiverScope, superclassScope]

theorem leave_class_scopes (superclass : Option Occurrence) (outer : ClassContext) :
    (analysis.leaveClass superclass outer).scopes =
      analysis.scopes.drop (1 + (superclass.map fun _ => superclassScope).toList.length) := by
  cases superclass <;> simp [leaveClass]

end Analysis

/-- Statements may declare something where they stand; nothing else does. -/
def Node.isQuiet : Node → Bool
  | .statement _ | .statements _ => false
  | _ => true

namespace Site

/-- Nothing but the innermost scope changes, and that only by a declaration. -/
def KeepsScopes (site : Site) : Prop :=
  InnermostGrows site.analysis.scopes site.after.scopes ∧
    (site.node.isQuiet = true → site.after.scopes = site.analysis.scopes)

theorem expression_keeps_scopes {value : Expression} {analysis : Analysis}
    {full : List StaticScope}
    (parts : ∀ part ∈ (Site.mk (.expression value) analysis full).parts, part.KeepsScopes) :
    (value.analyse analysis).scopes = analysis.scopes := by
  cases value with
  | literal value => rfl
  | reference place => exact analysis.read_scopes place
  | receiver place => exact analysis.receiver_scopes place
  | inherited place method => exact analysis.inherited_scopes place
  | assign place value =>
      simp only [Site.parts, List.forall_mem_cons] at parts
      exact (Analysis.bind_scopes _ place).trans (parts.1.2 rfl)
  | grouping | unary | get | lambda =>
      simp only [Site.parts, List.forall_mem_cons] at parts
      exact parts.1.2 rfl
  | binary | logical | call | set =>
      simp only [Site.parts, List.forall_mem_cons] at parts
      exact (parts.2.1.2 rfl).trans (parts.1.2 rfl)
  | conditional condition thenBranch elseBranch =>
      simp only [Site.parts, List.forall_mem_cons] at parts
      exact (parts.2.2.1.2 rfl).trans ((parts.2.1.2 rfl).trans (parts.1.2 rfl))

theorem statement_grows_scopes {order : Statement} {analysis : Analysis} {full : List StaticScope}
    (parts : ∀ part ∈ (Site.mk (.statement order) analysis full).parts, part.KeepsScopes) :
    InnermostGrows analysis.scopes (order.analyse analysis).scopes := by
  cases order with
  | expression value | print value =>
      simp only [Site.parts, List.forall_mem_cons] at parts
      exact parts.1.1
  | variableDeclaration name initializer =>
      cases initializer with
      | none => exact (analysis.declare_grows name).trans (Analysis.define_grows _ name)
      | some value =>
          simp only [Site.parts, List.forall_mem_cons] at parts
          exact (analysis.declare_grows name).trans (parts.1.1.trans (Analysis.define_grows _ name))
  | block orders =>
      simp only [Site.parts, List.forall_mem_cons] at parts
      have same := parts.1.1.tail
      rw [Statement.analyse, Analysis.leave_scopes, List.drop_one]
      refine same ▸ ?_
      exact .refl _
  | conditional condition thenBranch elseBranch =>
      cases elseBranch <;> simp only [Site.parts, List.forall_mem_cons] at parts
      · exact parts.1.1.trans parts.2.1.1
      · exact parts.1.1.trans (parts.2.1.1.trans parts.2.2.1.1)
  | loop condition body =>
      simp only [Site.parts, List.forall_mem_cons] at parts
      exact parts.1.1.trans parts.2.1.1
  | routineDeclaration declared =>
      simp only [Site.parts, List.forall_mem_cons] at parts
      exact (analysis.declare_all_grows _).trans parts.1.1
  | exit keyword value =>
      cases value with
      | none =>
          rw [Statement.analyse]
          split_ifs <;> exact .refl _
      | some value =>
          simp only [Site.parts, List.forall_mem_cons] at parts
          refine .trans ?_ parts.1.1
          dsimp only
          split_ifs <;> exact .refl _
  | classDeclaration name superclass methods classMethods =>
      have entered := analysis.enter_class_scopes name superclass
      have walked : (Routine.analyseAll classMethods (Routine.analyseAll methods
          (analysis.enterClass name superclass))).scopes =
            (analysis.enterClass name superclass).scopes := by
        cases superclass <;> simp only [Site.parts, Site.ofMethods, List.forall_mem_cons] at parts
        · exact (parts.2.1.2 rfl).trans (parts.1.2 rfl)
        · exact (parts.2.2.1.2 rfl).trans (parts.2.1.2 rfl)
      rw [Statement.analyse, Analysis.leave_class_scopes, walked, entered]
      cases superclass <;> exact analysis.declare_class_grows name

theorem keeps_scopes (site : Site) : site.KeepsScopes := by
  induction site using induction_along_parts with
  | step site parts =>
    obtain ⟨node, analysis, full⟩ := site
    cases node with
    | expression value =>
        have same := expression_keeps_scopes parts
        exact ⟨same ▸ .refl _, fun _ => same⟩
    | expressions values =>
        have same : (Expression.analyseAll values analysis).scopes = analysis.scopes := by
          cases values with
          | nil => rfl
          | cons first rest =>
              simp only [Site.parts, List.forall_mem_cons] at parts
              exact (parts.2.1.2 rfl).trans (parts.1.2 rfl)
        exact ⟨same ▸ .refl _, fun _ => same⟩
    | statement order => exact ⟨statement_grows_scopes parts, nofun⟩
    | statements orders =>
        refine ⟨?_, nofun⟩
        cases orders with
        | nil => exact .refl _
        | cons first rest =>
            simp only [Site.parts, List.forall_mem_cons] at parts
            exact parts.1.1.trans parts.2.1.1
    | routine declared =>
        have same : (declared.analyse analysis).scopes = analysis.scopes := by
          simp only [Site.parts, List.forall_mem_cons] at parts
          have entered : (Site.entered declared analysis).scopes.tail = analysis.scopes :=
            (Analysis.declare_all_grows _ _).tail
          obtain ⟨name, parameters, body⟩ := declared
          rw [Routine.analyse]
          exact (List.drop_one ..).trans (parts.1.1.tail.trans entered)
        exact ⟨same ▸ .refl _, fun _ => same⟩
    | routines declared =>
        have same : (Routine.analyseAll declared analysis).scopes = analysis.scopes := by
          cases declared with
          | nil => rfl
          | cons first rest =>
              simp only [Site.parts, List.forall_mem_cons] at parts
              exact (parts.2.1.2 rfl).trans (parts.1.2 rfl)
        exact ⟨same ▸ .refl _, fun _ => same⟩

end Site

namespace Analysis

/-- The scope that a name is found in, as its distance. -/
def distance? (analysis : Analysis) (name : String) : Option Nat :=
  analysis.scopes.findIdx? (·.contains name)

theorem bind_bonds (analysis : Analysis) (place : Occurrence) :
    (analysis.bind place).bonds =
      ((analysis.distance? place.name.lexeme).map (Bond.mk place)).toList ++ analysis.bonds := by
  unfold bind distance?
  cases analysis.scopes.findIdx? (·.contains place.name.lexeme) <;> rfl

theorem bind_violations (analysis : Analysis) (place : Occurrence) :
    (analysis.bind place).violations = analysis.violations := by
  unfold bind
  split <;> rfl

/-- On the way from one state to another, nothing is recorded but violations. -/
structure Reports (before after : Analysis) : Prop where
  bonds : after.bonds = before.bonds
  violations : before.violations <:+ after.violations

namespace Reports

theorem refl (analysis : Analysis) : analysis.Reports analysis := ⟨rfl, List.suffix_rfl⟩

theorem trans {first second third : Analysis} (before : first.Reports second)
    (after : second.Reports third) : first.Reports third :=
  ⟨after.bonds.trans before.bonds, before.violations.trans after.violations⟩

end Reports

theorem report_reports (analysis : Analysis) (place : Token) (cause : BindingError) :
    analysis.Reports (analysis.report place cause) := ⟨rfl, List.suffix_cons _ _⟩

theorem mark_reports (analysis : Analysis) (name : String) (ready : Bool) :
    analysis.Reports (analysis.mark name ready) := by
  unfold mark
  split <;> exact ⟨rfl, List.suffix_rfl⟩

theorem declare_reports (analysis : Analysis) (name : Token) :
    analysis.Reports (analysis.declare name) := by
  have marked := analysis.mark_reports name.lexeme false
  unfold declare
  dsimp only
  split_ifs
  · exact marked.trans (report_reports _ _ _)
  · exact marked

theorem declare_define_reports (analysis : Analysis) (name : Token) :
    analysis.Reports ((analysis.declare name).define name) :=
  (analysis.declare_reports name).trans (mark_reports _ _ _)

theorem declare_all_reports (analysis : Analysis) (names : List Token) :
    analysis.Reports (analysis.declareAll names) := by
  induction names generalizing analysis with
  | nil => exact .refl _
  | cons name rest induction => exact (analysis.declare_define_reports name).trans (induction _)

theorem declare_class_reports (analysis : Analysis) (name : Token) :
    analysis.Reports (analysis.declareClass name) := by
  have declared :=
    declare_define_reports { analysis with classContext := .withoutSuperclass } name
  exact ⟨declared.bonds, declared.violations⟩

theorem at_superclass_reports (analysis : Analysis) (name : Token) (place : Occurrence) :
    analysis.Reports (analysis.atSuperclass name place) := by
  have declared := analysis.declare_class_reports name
  unfold atSuperclass
  dsimp only
  split_ifs
  · exact declared.trans ⟨rfl, List.suffix_cons _ _⟩
  · exact ⟨declared.bonds, declared.violations⟩

/-- A name that is read is bound, once its rules are checked. -/
theorem read_checked (analysis : Analysis) (place : Occurrence) :
    ∃ checked : Analysis, analysis.Reports checked ∧ checked.scopes = analysis.scopes ∧
      analysis.read place = checked.bind place := by
  unfold read
  dsimp only
  split_ifs
  · exact ⟨_, analysis.report_reports _ _, rfl, rfl⟩
  · exact ⟨_, .refl _, rfl, rfl⟩

theorem inherited_checked (analysis : Analysis) (place : Occurrence) :
    ∃ checked : Analysis, analysis.Reports checked ∧ checked.scopes = analysis.scopes ∧
      analysis.inherited place = checked.bind place := by
  unfold inherited
  cases analysis.classContext with
  | outside => exact ⟨_, analysis.report_reports _ _, rfl, rfl⟩
  | withoutSuperclass => exact ⟨_, analysis.report_reports _ _, rfl, rfl⟩
  | withSuperclass => exact ⟨_, .refl _, rfl, rfl⟩

end Analysis

namespace Site

/-- The walk goes from one site to the next, and reports violations in between
at most. -/
def Threaded : Analysis → List Site → Analysis → Prop
  | first, [], last => first.Reports last
  | first, part :: rest, last => first.Reports part.analysis ∧ Threaded part.after rest last

/-- The bond that the node of a site itself adds. -/
def bond? (site : Site) : Option Bond :=
  match site.node with
  | .expression (.receiver place) =>
      if site.analysis.classContext = .outside then none
      else (site.analysis.distance? place.name.lexeme).map (Bond.mk place)
  | node => node.place?.bind fun place =>
      (site.analysis.distance? place.name.lexeme).map (Bond.mk place)

/-- The walk goes through the parts, and then adds the bond of the node itself. -/
def Walked (site : Site) : Prop :=
  ∃ last, Threaded site.analysis site.parts last ∧
    site.after.bonds = site.bond?.toList ++ last.bonds ∧
    last.violations <:+ site.after.violations

theorem walked_of_threaded {site : Site} (unbound : site.node.place? = none)
    (threaded : Threaded site.analysis site.parts site.after) : site.Walked := by
  refine ⟨site.after, threaded, ?_, List.suffix_rfl⟩
  have none : site.bond? = none := by
    obtain ⟨node, analysis, full⟩ := site
    cases node with
    | expression value => cases value <;> first | rfl | cases unbound
    | _ => rfl
  rw [none]
  rfl

theorem bind_walked {site : Site} {place : Occurrence} {checked : Analysis}
    (reports : site.analysis.Reports checked ∧ checked.scopes = site.analysis.scopes ∧
      site.after = checked.bind place) (leaf : site.parts = [])
    (bond : site.bond? = (site.analysis.distance? place.name.lexeme).map (Bond.mk place)) :
    site.Walked := by
  obtain ⟨reports, scopes, after⟩ := reports
  refine ⟨checked, ?_, ?_, ?_⟩
  · rw [leaf]
    exact reports
  · rw [after, Analysis.bind_bonds, bond, Analysis.distance?, scopes]
    rfl
  · rw [after, Analysis.bind_violations]

theorem expression_walked (value : Expression) (analysis : Analysis) (full : List StaticScope) :
    (Site.mk (.expression value) analysis full).Walked := by
  cases value with
  | literal value => exact walked_of_threaded rfl (.refl _)
  | reference place =>
      obtain ⟨checked, reports⟩ := analysis.read_checked place
      exact bind_walked reports rfl rfl
  | assign place value =>
      refine ⟨value.analyse analysis, ⟨.refl _, .refl _⟩,
        (Analysis.bind_bonds _ place).trans ?_,
        (Analysis.bind_violations _ place) ▸ List.suffix_rfl⟩
      have same := (keeps_scopes ⟨.expression value, analysis, full⟩).2 rfl
      have scopes : (value.analyse analysis).scopes = analysis.scopes := same
      simp only [Analysis.distance?, scopes]
      rfl
  | receiver place =>
      refine ⟨analysis, .refl _, ?_, ?_⟩
      · simp only [Site.after, Node.analyse, Expression.analyse, Analysis.receiver, bond?]
        split_ifs
        · rfl
        · exact analysis.bind_bonds place
      · simp only [Site.after, Node.analyse, Expression.analyse, Analysis.receiver]
        split_ifs
        · exact List.suffix_cons _ _
        · exact (analysis.bind_violations place) ▸ List.suffix_rfl
  | inherited place method =>
      obtain ⟨checked, reports⟩ := analysis.inherited_checked place
      exact bind_walked reports rfl rfl
  | grouping | unary | get | lambda =>
      exact walked_of_threaded rfl ⟨.refl _, .refl _⟩
  | binary | logical | call | set =>
      exact walked_of_threaded rfl ⟨.refl _, .refl _, .refl _⟩
  | conditional condition thenBranch elseBranch =>
      exact walked_of_threaded rfl ⟨.refl _, .refl _, .refl _, .refl _⟩

theorem statement_walked (order : Statement) (analysis : Analysis) (full : List StaticScope) :
    (Site.mk (.statement order) analysis full).Walked := by
  apply walked_of_threaded rfl
  cases order with
  | expression | print => exact ⟨.refl _, .refl _⟩
  | block orders => exact ⟨⟨rfl, List.suffix_rfl⟩, rfl, List.suffix_rfl⟩
  | loop condition body => exact ⟨.refl _, .refl _, .refl _⟩
  | variableDeclaration name initializer =>
      cases initializer with
      | none => exact analysis.declare_define_reports name
      | some value => exact ⟨analysis.declare_reports name, Analysis.mark_reports _ _ _⟩
  | conditional condition thenBranch elseBranch =>
      cases elseBranch with
      | none => exact ⟨.refl _, .refl _, .refl _⟩
      | some branch => exact ⟨.refl _, .refl _, .refl _, .refl _⟩
  | routineDeclaration declared => exact ⟨analysis.declare_all_reports _, .refl _⟩
  | exit keyword value =>
      have reports : analysis.Reports
          (if analysis.inRoutine then analysis else analysis.report keyword .topLevelReturn) := by
        split_ifs
        · exact .refl _
        · exact analysis.report_reports _ _
      cases value with
      | none => exact reports
      | some value => exact ⟨reports, .refl _⟩
  | classDeclaration name superclass methods classMethods =>
      cases superclass with
      | none =>
          have declared := analysis.declare_class_reports name
          have entered := Analysis.mark_reports (analysis.declareClass name).enter receiverName true
          exact ⟨⟨entered.bonds.trans declared.bonds, declared.violations.trans entered.violations⟩,
            .refl _, rfl, List.suffix_rfl⟩
      | some place =>
          have above := Analysis.mark_reports
            ((analysis.atSuperclass name place).read place).enter superclassName true
          have entered := Analysis.mark_reports
            (((analysis.atSuperclass name place).read place).enter.mark superclassName true).enter
            receiverName true
          exact ⟨analysis.at_superclass_reports name place,
            ⟨entered.bonds.trans above.bonds, above.violations.trans entered.violations⟩,
            .refl _, rfl, List.suffix_rfl⟩

/-- The walk from any site goes through its parts in order. -/
theorem walked (site : Site) : site.Walked := by
  obtain ⟨node, analysis, full⟩ := site
  cases node with
  | expression value => exact expression_walked value analysis full
  | statement order => exact statement_walked order analysis full
  | routine declared =>
      obtain ⟨name, parameters, body⟩ := declared
      have entered := Analysis.declare_all_reports
        ({ analysis with inRoutine := true } : Analysis).enter (parameters.getD [])
      exact walked_of_threaded rfl
        ⟨⟨entered.bonds, entered.violations⟩, rfl, List.suffix_rfl⟩
  | expressions values =>
      cases values with
      | nil => exact walked_of_threaded rfl (.refl _)
      | cons first rest => exact walked_of_threaded rfl ⟨.refl _, .refl _, .refl _⟩
  | statements orders =>
      cases orders with
      | nil => exact walked_of_threaded rfl (.refl _)
      | cons first rest => exact walked_of_threaded rfl ⟨.refl _, .refl _, .refl _⟩
  | routines declared =>
      cases declared with
      | nil => exact walked_of_threaded rfl (.refl _)
      | cons first rest => exact walked_of_threaded rfl ⟨.refl _, .refl _, .refl _⟩

end Site

end Lox
