import Lox.Proofs.Names.Settled

/-!
What programs promise to whoever runs them. In a program without violations no
part has one, every scope is covered by the names that it declares in the end,
and the table of distances agrees with the walk at every occurrence. A set of
sites with these properties is charted.
-/

namespace Lox

theorem InnermostGrows.covered {earlier later full : List StaticScope}
    (grows : InnermostGrows earlier later) (covered : List.Forall₂ StaticScope.Within later full) :
    List.Forall₂ StaticScope.Within earlier full := by
  cases covered with
  | nil =>
      cases earlier with
      | nil => exact .nil
      | cons inner outer => exact grows.elim
  | cons inside rest =>
      cases earlier with
      | nil => exact grows.elim
      | cons inner outer =>
          obtain ⟨smaller, rfl⟩ := grows
          exact .cons (fun name found => inside name (smaller name found)) rest

namespace Site

/-- The walk finds no violation in the site, nor has found one before. -/
def Clean (site : Site) : Prop := site.after.violations = []

theorem threaded_violations {parts : List Site} {first last : Analysis}
    (threaded : Threaded first parts last)
    (each : ∀ part ∈ parts, part.analysis.violations <:+ part.after.violations) :
    first.violations <:+ last.violations ∧
      ∀ part ∈ parts, part.after.violations <:+ last.violations := by
  induction parts generalizing first with
  | nil => exact ⟨threaded.violations, nofun⟩
  | cons part rest induction =>
      obtain ⟨reports, threaded⟩ := threaded
      obtain ⟨before, others⟩ := induction threaded
        fun other member => each other (List.mem_cons_of_mem _ member)
      refine ⟨reports.violations.trans ((each part List.mem_cons_self).trans before), ?_⟩
      intro other member
      rcases List.mem_cons.mp member with rfl | member
      · exact before
      · exact others other member

theorem violations_stay (site : Site) : site.analysis.violations <:+ site.after.violations := by
  induction site using induction_along_parts with
  | step site parts =>
    obtain ⟨last, threaded, -, violations⟩ := site.walked
    exact (threaded_violations threaded parts).1.trans violations

theorem part_clean {site part : Site} (clean : site.Clean) (member : part ∈ site.parts) :
    part.Clean := by
  obtain ⟨last, threaded, -, violations⟩ := site.walked
  have within := (threaded_violations threaded fun part _ => part.violations_stay).2 part member
  have none := within.trans violations
  rw [clean] at none
  exact List.suffix_nil.mp none

theorem clean_before {site : Site} (clean : site.Clean) : site.analysis.violations = [] := by
  have before := site.violations_stay
  rw [clean] at before
  exact List.suffix_nil.mp before

/-- When the walk leaves the site, all names are in the scopes that the site says
there will be. -/
def Covered (site : Site) : Prop := List.Forall₂ StaticScope.Within site.after.scopes site.full

theorem covered_beside {site part : Site} (covered : site.Covered) (full : part.full = site.full)
    (grows : InnermostGrows part.after.scopes site.after.scopes) : part.Covered := by
  unfold Covered
  rw [full]
  exact grows.covered covered

theorem covered_before {site : Site} (covered : site.Covered) :
    List.Forall₂ StaticScope.Within site.analysis.scopes site.full :=
  site.keeps_scopes.1.covered covered

theorem quiet_after {site : Site} (quiet : site.node.isQuiet = true) :
    site.after.scopes = site.analysis.scopes := site.keeps_scopes.2 quiet

theorem declare_all_names (names : List Token) {inner : StaticScope} {outer : List StaticScope}
    (analysis : Analysis) (scopes : analysis.scopes = inner :: outer) :
    ∃ last, (analysis.declareAll names).scopes = last :: outer ∧
      ∀ name, last.contains name = true ↔
        inner.contains name = true ∨ name ∈ names.map Token.lexeme := by
  induction names generalizing analysis inner with
  | nil => exact ⟨inner, scopes, fun name => by simp⟩
  | cons first rest induction =>
      have declared : (analysis.declare first).scopes = inner.set first.lexeme false :: outer := by
        rw [Analysis.declare_scopes, analysis.mark_cons scopes]
      have defined := (analysis.declare first).mark_cons declared first.lexeme true
      obtain ⟨last, final, contained⟩ := induction _ defined
      refine ⟨last, final, fun name => ?_⟩
      rw [contained, Names.contains_set, Names.contains_set]
      by_cases same : name = first.lexeme <;> simp [same]

/-- The body of a routine begins with its parameters in scope. -/
theorem entered_names (declared : Routine) (analysis : Analysis) :
    ∃ inner, (entered declared analysis).scopes = inner :: analysis.scopes ∧
      ∀ name, inner.contains name = true ↔
        name ∈ (declared.parameters.getD []).map Token.lexeme := by
  obtain ⟨inner, scopes, names⟩ := declare_all_names (declared.parameters.getD [])
    ({ analysis with inRoutine := true } : Analysis).enter rfl
  refine ⟨inner, scopes, fun name => ?_⟩
  rw [names, Names.contains, Names.find_empty]
  simp

theorem body_covered {body : List Statement} {entered : Analysis} {inner : StaticScope}
    {outer full : List StaticScope} (scopes : entered.scopes = inner :: outer)
    (around : List.Forall₂ StaticScope.Within outer full) :
    (ofBody body entered full).Covered := by
  have grows := (Site.mk (.statements body) entered full).keeps_scopes.1
  rw [scopes] at grows
  obtain ⟨last, final, -⟩ := grows.of_cons
  have finalScopes : (Statement.analyseAll body entered).scopes = last :: outer := final
  unfold Covered ofBody after Node.analyse
  dsimp only
  rw [finalScopes]
  exact .cons (fun _ found => found) around

theorem expression_after (value : Expression) (analysis : Analysis) :
    (value.analyse analysis).scopes = analysis.scopes :=
  (Site.mk (.expression value) analysis []).keeps_scopes.2 rfl

theorem routines_after (declared : List Routine) (analysis : Analysis) :
    (Routine.analyseAll declared analysis).scopes = analysis.scopes :=
  (Site.mk (.routines declared) analysis []).keeps_scopes.2 rfl

theorem routine_after (declared : Routine) (analysis : Analysis) :
    (declared.analyse analysis).scopes = analysis.scopes :=
  (Site.mk (.routine declared) analysis []).keeps_scopes.2 rfl

/-- Quiet parts are walked among the scopes of the whole. -/
theorem quiet_part_covered {site part : Site} (covered : site.Covered)
    (quiet : part.node.isQuiet = true) (full : part.full = site.full)
    (grows : InnermostGrows part.analysis.scopes site.after.scopes) : part.Covered := by
  apply covered_beside covered full
  rw [quiet_after quiet]
  exact grows

theorem expression_part_covered {value : Expression} {analysis : Analysis}
    {full : List StaticScope} (covered : (Site.mk (.expression value) analysis full).Covered) :
    ∀ part ∈ (Site.mk (.expression value) analysis full).parts, part.Covered := by
  have beside {part : Site} (quiet : part.node.isQuiet = true) (fullSame : part.full = full)
      (scopes : part.analysis.scopes = analysis.scopes) : part.Covered := by
    apply quiet_part_covered covered quiet fullSame
    rw [scopes, quiet_after rfl]
    exact .refl _
  cases value with
  | literal | reference | receiver | inherited => exact nofun
  | grouping | unary | assign | get | lambda =>
      simp only [parts, List.forall_mem_singleton]
      exact beside rfl rfl rfl
  | binary | logical | call | set =>
      simp only [parts, List.forall_mem_cons, List.not_mem_nil, false_implies, implies_true,
        and_true]
      exact ⟨beside rfl rfl rfl, beside rfl rfl (expression_after _ _)⟩
  | conditional condition thenBranch elseBranch =>
      simp only [parts, List.forall_mem_cons, List.not_mem_nil, false_implies, implies_true,
        and_true]
      exact ⟨beside rfl rfl rfl, beside rfl rfl (expression_after _ _),
        beside rfl rfl ((expression_after _ _).trans (expression_after _ _))⟩

theorem class_after (name : Token) (superclass : Option Occurrence)
    (methods classMethods : List Routine) (analysis : Analysis) :
    ((Statement.classDeclaration name superclass methods classMethods).analyse analysis).scopes =
      (analysis.declareClass name).scopes := by
  rw [Statement.analyse, Analysis.leave_class_scopes, routines_after, routines_after,
    Analysis.enter_class_scopes]
  cases superclass <;> rfl

/-- The scopes of a class lie around its methods, and hold nothing else later on. -/
theorem class_scopes_covered {scopes full : List StaticScope} (own : List StaticScope)
    (covered : List.Forall₂ StaticScope.Within scopes full) :
    List.Forall₂ StaticScope.Within (own ++ scopes) ((own ++ scopes).take own.length ++ full) := by
  rw [List.take_left]
  induction own with
  | nil => exact covered
  | cons inner outer induction => exact .cons (fun _ found => found) induction

theorem methods_covered {methods classMethods : List Routine} {entered : Analysis}
    {full : List StaticScope} {own : Nat}
    (covered : List.Forall₂ StaticScope.Within entered.scopes (entered.scopes.take own ++ full)) :
    ∀ part ∈ ofMethods methods classMethods entered own full, part.Covered := by
  simp only [ofMethods, List.forall_mem_cons, List.not_mem_nil, false_implies, implies_true,
    and_true, Covered, after, Node.analyse, routines_after]
  exact ⟨covered, covered⟩

theorem statement_part_covered {order : Statement} {analysis : Analysis}
    {full : List StaticScope} (covered : (Site.mk (.statement order) analysis full).Covered) :
    ∀ part ∈ (Site.mk (.statement order) analysis full).parts, part.Covered := by
  cases order with
  | expression | print =>
      simp only [parts, List.forall_mem_singleton]
      exact covered_beside covered rfl (.refl _)
  | variableDeclaration name initializer =>
      cases initializer with
      | none => exact List.forall_mem_nil _
      | some value =>
          simp only [parts, List.forall_mem_singleton]
          exact covered_beside covered rfl (Analysis.define_grows _ name)
  | block orders =>
      simp only [parts, List.forall_mem_singleton]
      exact body_covered rfl (covered_before covered)
  | conditional condition thenBranch elseBranch =>
      cases elseBranch with
      | none =>
          simp only [parts, List.forall_mem_cons, List.not_mem_nil, false_implies, implies_true,
            and_true]
          exact ⟨covered_beside covered rfl (keeps_scopes ⟨.statement _, _, full⟩).1,
            covered_beside covered rfl (.refl _)⟩
      | some branch =>
          simp only [parts, List.forall_mem_cons, List.not_mem_nil, false_implies, implies_true,
            and_true]
          have last := (keeps_scopes ⟨.statement branch,
            thenBranch.analyse (condition.analyse analysis), full⟩).1
          have middle := (keeps_scopes ⟨.statement thenBranch,
            condition.analyse analysis, full⟩).1
          exact ⟨covered_beside covered rfl (middle.trans last),
            covered_beside covered rfl last, covered_beside covered rfl (.refl _)⟩
  | loop condition body =>
      simp only [parts, List.forall_mem_cons, List.not_mem_nil, false_implies, implies_true,
        and_true]
      exact ⟨covered_beside covered rfl (keeps_scopes ⟨.statement _, _, full⟩).1,
        covered_beside covered rfl (.refl _)⟩
  | routineDeclaration declared =>
      simp only [parts, List.forall_mem_singleton]
      exact covered_beside covered rfl (.refl _)
  | exit keyword value =>
      cases value with
      | none => exact List.forall_mem_nil _
      | some value =>
          simp only [parts, List.forall_mem_singleton]
          exact covered_beside covered rfl (.refl _)
  | classDeclaration name superclass methods classMethods =>
      have declared : List.Forall₂ StaticScope.Within (analysis.declareClass name).scopes full := by
        rw [← class_after name superclass methods classMethods]
        exact covered
      have scopes := analysis.enter_class_scopes name superclass
      cases superclass with
      | none =>
          apply methods_covered
          rw [scopes]
          exact class_scopes_covered [Analysis.receiverScope] declared
      | some place =>
          simp only [parts, List.forall_mem_cons]
          refine ⟨?_, methods_covered ?_⟩
          · unfold Covered after Node.analyse
            rw [expression_after, Analysis.at_superclass_scopes]
            exact declared
          · rw [scopes]
            exact class_scopes_covered [Analysis.receiverScope, Analysis.superclassScope] declared

/-- Whatever covers a site covers its parts. -/
theorem part_covered {site part : Site} (covered : site.Covered) (member : part ∈ site.parts) :
    part.Covered := by
  obtain ⟨node, analysis, full⟩ := site
  cases node with
  | expression value => exact expression_part_covered covered part member
  | statement order => exact statement_part_covered covered part member
  | expressions values =>
      cases values with
      | nil => cases member
      | cons first rest =>
          have grows := (keeps_scopes ⟨.expressions rest, first.analyse analysis, full⟩).1
          rcases List.mem_pair.mp member with rfl | rfl
          · exact covered_beside covered rfl grows
          · exact covered_beside covered rfl (.refl _)
  | statements orders =>
      cases orders with
      | nil => cases member
      | cons first rest =>
          have grows := (keeps_scopes ⟨.statements rest, first.analyse analysis, full⟩).1
          rcases List.mem_pair.mp member with rfl | rfl
          · exact covered_beside covered rfl grows
          · exact covered_beside covered rfl (.refl _)
  | routine declared =>
      obtain ⟨inner, scopes, -⟩ := entered_names declared analysis
      rcases List.mem_singleton.mp member with rfl
      exact body_covered scopes (covered_before covered)
  | routines declared =>
      cases declared with
      | nil => cases member
      | cons first rest =>
          have grows := (keeps_scopes ⟨.routines rest, first.analyse analysis, full⟩).1
          rcases List.mem_pair.mp member with rfl | rfl
          · exact covered_beside covered rfl grows
          · exact covered_beside covered rfl (.refl _)

/-- A clean site binds its occurrence wherever its name is declared. -/
theorem clean_bond {site : Site} (clean : site.Clean) {place : Occurrence}
    (isPlace : site.node.place? = some place) :
    site.bond?.map Bond.distance = site.analysis.distance? place.name.lexeme := by
  have through {distance : Option Nat} : (distance.map (Bond.mk place)).map Bond.distance =
      distance := by
    cases distance <;> rfl
  obtain ⟨node, analysis, full⟩ := site
  cases node with
  | expression value =>
      cases value with
      | reference | assign | inherited =>
          cases isPlace
          exact through
      | receiver =>
          cases isPlace
          have inClass : analysis.classContext ≠ .outside := by
            intro outside
            simp [Clean, after, Node.analyse, Expression.analyse, Analysis.receiver, outside,
              Analysis.report] at clean
          simp only [bond?, inClass, if_false]
          exact through
      | literal | grouping | unary | binary | logical | conditional | call | get | set | lambda =>
          cases isPlace
  | expressions | statement | statements | routine | routines => cases isPlace

end Site

/-- The innermost scope, if there is one, has got one name more whose declaration
lies behind the walk. -/
def Marked (name : String) : List StaticScope → List StaticScope → Prop
  | [], after => after = []
  | inner :: outer, after => ∃ last, after = last :: outer ∧
      ∀ key, last.find? key = if key = name then some true else inner.find? key

namespace Marked

theorem of_define {analysis middle : Analysis} {name : Token}
    (scopes : middle.scopes = (analysis.declare name).scopes) :
    Marked name.lexeme analysis.scopes (middle.define name).scopes := by
  rw [Analysis.declare_scopes] at scopes
  cases begun : analysis.scopes with
  | nil =>
      have none : middle.scopes = [] := by
        rw [scopes, Analysis.mark, begun]
        exact begun
      unfold Analysis.define Analysis.mark
      rw [none]
      exact none
  | cons inner outer =>
      rw [analysis.mark_cons begun] at scopes
      refine ⟨_, middle.mark_cons scopes name.lexeme true, fun key => ?_⟩
      rw [Names.find_set, Names.find_set]
      split_ifs <;> rfl

theorem of_declare_class (analysis : Analysis) (name : Token) :
    Marked name.lexeme analysis.scopes (analysis.declareClass name).scopes := by
  let inside : Analysis := { analysis with classContext := .withoutSuperclass }
  have marked : Marked name.lexeme inside.scopes ((inside.declare name).define name).scopes :=
    of_define rfl
  exact marked

variable {name : String} {before after : List StaticScope}

theorem head_contains {full : List StaticScope} (marked : Marked name before after)
    (covered : List.Forall₂ StaticScope.Within after full) :
    ∀ inner ∈ full.head?, inner.contains name = true := by
  intro inner isInner
  cases before with
  | nil =>
      cases marked
      cases covered
      cases isInner
  | cons first outer =>
      obtain ⟨last, rfl, names⟩ := marked
      cases covered with
      | cons within rest =>
          cases isInner
          apply within
          rw [Names.contains, names, if_pos rfl]
          rfl

theorem head_names {key : String} (marked : Marked name before after)
    (found : key = name ∨ ∀ inner ∈ before.head?, inner.contains key = true) :
    ∀ last ∈ after.head?, last.contains key = true := by
  intro last isLast
  cases before with
  | nil =>
      cases marked
      cases isLast
  | cons first outer =>
      obtain ⟨last, rfl, names⟩ := marked
      cases isLast
      rw [Names.contains, names]
      split_ifs with same
      · rfl
      · rcases found with same' | held
        · exact absurd same' same
        · exact held first rfl

end Marked

/-- What is known of the sites of the programs that have been accepted. -/
structure Charted (table : Std.TreeMap Nat Nat) (known : Site → Prop) : Prop where
  part {site part : Site} : known site → part ∈ site.parts → known part
  clean {site : Site} : known site → site.Clean
  covered {site : Site} : known site → site.Covered
  settled {site : Site} {place : Occurrence} : known site → site.node.place? = some place →
    table[place.id]? = site.analysis.distance? place.name.lexeme
  shaped {site : Site} : known site → site.node.WellShaped

/-- Statements other than declarations leave the scopes as they were. -/
theorem Charted.undeclaring_after {table : Std.TreeMap Nat Nat} {known : Site → Prop}
    (charted : Charted table known) {site : Site} (isKnown : known site) {order : Statement}
    (node : site.node = .statement order) (undeclaring : order.isDeclaration = false) :
    site.after.scopes = site.analysis.scopes := by
  induction site using Site.induction_along_parts generalizing order with
  | step site parts =>
    obtain ⟨_, analysis, full⟩ := site
    cases node
    have shaped := charted.shaped isKnown
    have partKnown : ∀ part ∈ (Site.mk (.statement order) analysis full).parts, known part :=
      fun part => charted.part isKnown
    cases order with
    | expression | print => exact Site.expression_after _ _
    | variableDeclaration | routineDeclaration | classDeclaration => cases undeclaring
    | block orders =>
        have grows := (Site.mk (.statements orders) analysis.enter []).keeps_scopes.1
        exact (List.drop_one ..).trans grows.tail
    | conditional condition thenBranch elseBranch =>
        cases elseBranch with
        | none =>
            simp only [Site.parts, List.forall_mem_cons] at parts partKnown
            exact (parts.2.1 partKnown.2.1 rfl shaped.1).trans (Site.expression_after _ _)
        | some branch =>
            simp only [Site.parts, List.forall_mem_cons] at parts partKnown
            exact (parts.2.2.1 partKnown.2.2.1 rfl (shaped.2 branch rfl)).trans
              ((parts.2.1 partKnown.2.1 rfl shaped.1).trans (Site.expression_after _ _))
    | loop condition body =>
        simp only [Site.parts, List.forall_mem_cons] at parts partKnown
        exact (parts.2.1 partKnown.2.1 rfl shaped).trans (Site.expression_after _ _)
    | exit keyword value =>
        have checked : (if analysis.inRoutine then analysis
            else analysis.report keyword .topLevelReturn).scopes = analysis.scopes := by
          split_ifs <;> rfl
        cases value with
        | none => exact checked
        | some value => exact (Site.expression_after _ _).trans checked

end Lox
