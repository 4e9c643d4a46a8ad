import Lox.Proofs.Names.Charted
import Lox.Proofs.Renaming.Relabel

/-!
Walks of the analysis that go the same way. What a walk has found so far does not change where it
goes. So if what it has found is rewritten, and the tree gets other labels with the same texts, the
walk comes out as before, with what it finds rewritten in the same manner.
-/

namespace Lox

def Bond.relabel (labels : Labels) (bond : Bond) : Bond :=
  ⟨bond.place.relabel labels, bond.distance⟩

def Violation.relabel (labels : Labels) (violation : Violation) : Violation :=
  ⟨labels.token violation.place, violation.cause⟩

def Analysis.relabel (labels : Labels) (analysis : Analysis) : Analysis :=
  { analysis with
    bonds := analysis.bonds.map (Bond.relabel labels)
    violations := analysis.violations.map (Violation.relabel labels) }

/-- All texts stay. -/
def Labels.Textual (labels : Labels) : Prop := ∀ token, (labels.token token).lexeme = token.lexeme

/-- A way to rewrite what a walk has found: whatever it finds next comes to the front, with new
labels. -/
structure Rewriting where
  labels : Labels
  bonds : List Bond → List Bond
  violations : List Violation → List Violation
  textual : labels.Textual
  bond_cons (bond : Bond) (rest : List Bond) :
    bonds (bond :: rest) = bond.relabel labels :: bonds rest
  violation_cons (violation : Violation) (rest : List Violation) :
    violations (violation :: rest) = violation.relabel labels :: violations rest

namespace Rewriting

variable (rewriting : Rewriting)

/-- The state of a walk with all that it has found rewritten. -/
def state (analysis : Analysis) : Analysis :=
  { analysis with
    bonds := rewriting.bonds analysis.bonds
    violations := rewriting.violations analysis.violations }

section Steps

variable (analysis : Analysis)

theorem report (place : Token) (cause : BindingError) :
    (rewriting.state analysis).report (rewriting.labels.token place) cause =
      rewriting.state (analysis.report place cause) := by
  unfold Analysis.report state
  rw [rewriting.violation_cons]
  rfl

theorem mark (name : String) (ready : Bool) :
    (rewriting.state analysis).mark name ready = rewriting.state (analysis.mark name ready) := by
  obtain ⟨scopes, _, _, _, _⟩ := analysis
  cases scopes <;> rfl

theorem declare (name : Token) :
    (rewriting.state analysis).declare (rewriting.labels.token name) =
      rewriting.state (analysis.declare name) := by
  unfold Analysis.declare
  rw [rewriting.textual, rewriting.mark]
  dsimp only
  rw [rewriting.report]
  change (if analysis.declaredHere name.lexeme then _ else _) = _
  split_ifs <;> rfl

theorem define (name : Token) :
    (rewriting.state analysis).define (rewriting.labels.token name) =
      rewriting.state (analysis.define name) := by
  unfold Analysis.define
  rw [rewriting.textual, rewriting.mark]

theorem declare_all (names : List Token) :
    (rewriting.state analysis).declareAll (names.map rewriting.labels.token) =
      rewriting.state (analysis.declareAll names) := by
  induction names generalizing analysis with
  | nil => rfl
  | cons first rest induction =>
      simp only [Analysis.declareAll, List.map_cons, List.foldl_cons] at induction ⊢
      rw [rewriting.declare, rewriting.define, induction]

theorem bind (place : Occurrence) :
    (rewriting.state analysis).bind (place.relabel rewriting.labels) =
      rewriting.state (analysis.bind place) := by
  unfold Analysis.bind Occurrence.relabel
  dsimp only
  rw [rewriting.textual, show (rewriting.state analysis).scopes = analysis.scopes from rfl]
  cases analysis.scopes.findIdx? (·.contains place.name.lexeme) with
  | none => rfl
  | some distance =>
      unfold state
      dsimp only
      rw [rewriting.bond_cons]
      rfl

theorem read (place : Occurrence) :
    (rewriting.state analysis).read (place.relabel rewriting.labels) =
      rewriting.state (analysis.read place) := by
  unfold Analysis.read
  rw [show (place.relabel rewriting.labels).name = rewriting.labels.token place.name from rfl,
    rewriting.textual, rewriting.report]
  change (if analysis.inOwnInitializer place.name.lexeme then _ else _ : Analysis).bind _ = _
  split_ifs <;> exact rewriting.bind _ place

theorem receiver (place : Occurrence) :
    (rewriting.state analysis).receiver (place.relabel rewriting.labels) =
      rewriting.state (analysis.receiver place) := by
  unfold Analysis.receiver
  rw [show (rewriting.state analysis).classContext = analysis.classContext from rfl]
  split_ifs
  · exact rewriting.report analysis place.name _
  · exact rewriting.bind analysis place

theorem inherited (place : Occurrence) :
    (rewriting.state analysis).inherited (place.relabel rewriting.labels) =
      rewriting.state (analysis.inherited place) := by
  unfold Analysis.inherited
  rw [show (rewriting.state analysis).classContext = analysis.classContext from rfl,
    show (place.relabel rewriting.labels).name = rewriting.labels.token place.name from rfl,
    rewriting.report, rewriting.report]
  cases analysis.classContext <;> exact rewriting.bind _ place

theorem declare_class (name : Token) :
    (rewriting.state analysis).declareClass (rewriting.labels.token name) =
      rewriting.state (analysis.declareClass name) := by
  let inside : Analysis := { analysis with classContext := .withoutSuperclass }
  change ((rewriting.state inside).declare _).define _ = _
  rw [rewriting.declare, rewriting.define]
  rfl

theorem at_superclass (name : Token) (place : Occurrence) :
    (rewriting.state analysis).atSuperclass (rewriting.labels.token name)
        (place.relabel rewriting.labels) =
      rewriting.state (analysis.atSuperclass name place) := by
  unfold Analysis.atSuperclass
  rw [rewriting.declare_class,
    show (place.relabel rewriting.labels).name = rewriting.labels.token place.name from rfl,
    rewriting.textual, rewriting.textual]
  dsimp only
  rw [rewriting.report]
  split_ifs <;> rfl

theorem enter_class (name : Token) (superclass : Option Occurrence) :
    (rewriting.state analysis).enterClass (rewriting.labels.token name)
        (superclass.map (Occurrence.relabel rewriting.labels)) =
      rewriting.state (analysis.enterClass name superclass) := by
  have enter (analysis : Analysis) :
      (rewriting.state analysis).enter = rewriting.state analysis.enter := rfl
  cases superclass with
  | none =>
      simp only [Option.map_none, Analysis.enterClass]
      rw [rewriting.declare_class, enter, rewriting.mark]
  | some place =>
      simp only [Option.map_some, Analysis.enterClass]
      rw [rewriting.at_superclass, rewriting.read, enter, rewriting.mark, enter, rewriting.mark]

theorem exit (keyword : Token) :
    (if (rewriting.state analysis).inRoutine then rewriting.state analysis
      else (rewriting.state analysis).report (rewriting.labels.token keyword) .topLevelReturn) =
      rewriting.state (if analysis.inRoutine then analysis
        else analysis.report keyword .topLevelReturn) := by
  rw [show (rewriting.state analysis).inRoutine = analysis.inRoutine from rfl, rewriting.report]
  split_ifs <;> rfl

theorem entered (declared : Routine) :
    Site.entered (declared.relabel rewriting.labels) (rewriting.state analysis) =
      rewriting.state (Site.entered declared analysis) := by
  obtain ⟨name, parameters, body⟩ := declared
  unfold Site.entered
  let inside : Analysis := { analysis with inRoutine := true }
  have names : ((Routine.relabel rewriting.labels ⟨name, parameters, body⟩).parameters.getD []) =
      (parameters.getD []).map rewriting.labels.token := by
    cases parameters <;> rfl
  rw [names]
  exact rewriting.declare_all inside.enter _

end Steps

theorem analyse_statement (order : Statement)
    (parts : ∀ part ∈ (Node.statement order).parts, ∀ analysis : Analysis,
      (part.relabel rewriting.labels).analyse (rewriting.state analysis) =
        rewriting.state (part.analyse analysis))
    (analysis : Analysis) :
    (order.relabel rewriting.labels).analyse (rewriting.state analysis) =
      rewriting.state (order.analyse analysis) := by
  cases order with
  | expression value | print value =>
      simp only [Node.parts, List.forall_mem_cons] at parts
      exact parts.1 analysis
  | variableDeclaration name initializer =>
      cases initializer with
      | none =>
          simp only [Statement.relabel, Statement.analyse]
          rw [rewriting.declare, rewriting.define]
      | some value =>
          simp only [Node.parts, List.forall_mem_cons] at parts
          have inside := parts.1 (analysis.declare name)
          simp only [Node.relabel, Node.analyse] at inside
          simp only [Statement.relabel, Statement.analyse]
          rw [rewriting.declare, inside, rewriting.define]
  | block orders =>
      simp only [Node.parts, List.forall_mem_cons] at parts
      exact congrArg Analysis.leave (parts.1 analysis.enter)
  | conditional condition thenBranch elseBranch =>
      cases elseBranch <;> simp only [Node.parts, List.forall_mem_cons] at parts
      · exact (congrArg _ (parts.1 analysis)).trans (parts.2.1 _)
      · exact (congrArg _ ((congrArg _ (parts.1 analysis)).trans (parts.2.1 _))).trans
          (parts.2.2.1 _)
  | loop condition body =>
      simp only [Node.parts, List.forall_mem_cons] at parts
      exact (congrArg _ (parts.1 analysis)).trans (parts.2.1 _)
  | routineDeclaration declared =>
      simp only [Node.parts, List.forall_mem_cons] at parts
      have inside := parts.1 (analysis.declareAll declared.name.toList)
      rw [← rewriting.declare_all] at inside
      obtain ⟨name, parameters, body⟩ := declared
      cases name <;> exact inside
  | exit keyword value =>
      cases value with
      | none => exact rewriting.exit analysis keyword
      | some value =>
          simp only [Node.parts, List.forall_mem_cons] at parts
          exact (congrArg _ (rewriting.exit analysis keyword)).trans (parts.1 _)
  | classDeclaration name superclass methods classMethods =>
      have inside : Routine.analyseAll (Routine.relabelAll rewriting.labels classMethods)
          (Routine.analyseAll (Routine.relabelAll rewriting.labels methods)
            ((rewriting.state analysis).enterClass (rewriting.labels.token name)
              (superclass.map (Occurrence.relabel rewriting.labels)))) =
          rewriting.state (Routine.analyseAll classMethods (Routine.analyseAll methods
            (analysis.enterClass name superclass))) := by
        rw [rewriting.enter_class]
        cases superclass <;> simp only [Node.parts, List.forall_mem_cons] at parts
        · exact (congrArg _ (parts.1 _)).trans (parts.2.1 _)
        · exact (congrArg _ (parts.2.1 _)).trans (parts.2.2.1 _)
      simp only [Statement.relabel, Statement.analyse]
      rw [inside]
      cases superclass <;> rfl

/-- The walk over the tree with new labels goes the same way, whatever was found before. -/
theorem analyse (node : Node) (analysis : Analysis) :
    (node.relabel rewriting.labels).analyse (rewriting.state analysis) =
      rewriting.state (node.analyse analysis) := by
  induction node using Node.induction_along_parts generalizing analysis with
  | step node parts =>
    cases node with
    | expression value =>
        cases value <;> simp only [Node.parts, List.forall_mem_cons] at parts
        case literal => rfl
        case reference place => exact rewriting.read analysis place
        case receiver place => exact rewriting.receiver analysis place
        case inherited place method => exact rewriting.inherited analysis place
        case assign place value =>
          exact (congrArg (Analysis.bind · (place.relabel rewriting.labels))
            (parts.1 analysis)).trans (rewriting.bind _ place)
        case grouping | unary | get | lambda => exact parts.1 analysis
        case binary | logical | call | set =>
          exact (congrArg _ (parts.1 analysis)).trans (parts.2.1 _)
        case conditional =>
          exact (congrArg _ ((congrArg _ (parts.1 analysis)).trans (parts.2.1 _))).trans
            (parts.2.2.1 _)
    | expressions values =>
        cases values with
        | nil => rfl
        | cons first rest =>
            simp only [Node.parts, List.forall_mem_cons] at parts
            exact (congrArg _ (parts.1 analysis)).trans (parts.2.1 _)
    | statement order => exact rewriting.analyse_statement order parts analysis
    | statements orders =>
        cases orders with
        | nil => rfl
        | cons first rest =>
            simp only [Node.parts, List.forall_mem_cons] at parts
            exact (congrArg _ (parts.1 analysis)).trans (parts.2.1 _)
    | routine declared =>
        simp only [Node.parts, List.forall_mem_cons] at parts
        have inside := parts.1 (Site.entered declared analysis)
        rw [← rewriting.entered] at inside
        obtain ⟨name, parameters, body⟩ := declared
        exact congrArg
          (fun walked : Analysis => { walked.leave with inRoutine := analysis.inRoutine }) inside
    | routines declared =>
        cases declared with
        | nil => rfl
        | cons first rest =>
            simp only [Node.parts, List.forall_mem_cons] at parts
            exact (congrArg _ (parts.1 analysis)).trans (parts.2.1 _)

end Rewriting

/-- New labels for all that was found. -/
def Labels.Textual.rewriting {labels : Labels} (textual : labels.Textual) : Rewriting where
  labels := labels
  bonds := List.map (Bond.relabel labels)
  violations := List.map (Violation.relabel labels)
  textual := textual
  bond_cons _ _ := rfl
  violation_cons _ _ := rfl

/-- The walk over the tree with new labels ends like the walk over the old one. -/
theorem Node.analyse_relabel {labels : Labels} (textual : labels.Textual) (node : Node)
    (analysis : Analysis) :
    (node.relabel labels).analyse (analysis.relabel labels) =
      (node.analyse analysis).relabel labels :=
  textual.rewriting.analyse node analysis

end Lox
