import Lox.Diagnostic
import Lox.Names
import Lox.Syntax

/-!
The static analysis of names. One walk over a program decides for every
occurrence how many scopes outwards its binding lives, and finds the violations
of the rules that need no running program. Names at the top level are not
scoped: an occurrence that no enclosing scope declares gets no bond and means a
global.
-/

namespace Lox

/-- An occurrence together with the distance to the scope that binds it. -/
structure Bond where
  place : Occurrence
  distance : Nat
deriving DecidableEq, Repr

/-- A violated rule at the token it is reported at. -/
structure Violation where
  place : Token
  cause : BindingError
deriving DecidableEq, Repr

def Violation.diagnostic (violation : Violation) : Diagnostic :=
  .binding violation.place violation.cause

/-- The class whose body is being walked, as far as `self` and `super` care. -/
inductive ClassContext where
  | outside
  | withoutSuperclass
  | withSuperclass
deriving DecidableEq, Repr

/-- The names declared so far in one block, and for each whether its
initializer lies behind us. -/
abbrev StaticScope := Names Bool

/-- The state of the walk. -/
structure Analysis where
  /-- The enclosing scopes, innermost first. -/
  scopes : List StaticScope
  inRoutine : Bool
  classContext : ClassContext
  /-- Newest first. -/
  bonds : List Bond
  /-- Newest first. -/
  violations : List Violation
deriving Repr

namespace Analysis

/-- The walk at the start of a program. -/
def start : Analysis := ⟨[], false, .outside, [], []⟩

def report (analysis : Analysis) (place : Token) (cause : BindingError) : Analysis :=
  { analysis with violations := ⟨place, cause⟩ :: analysis.violations }

def enter (analysis : Analysis) : Analysis :=
  { analysis with scopes := .empty :: analysis.scopes }

def leave (analysis : Analysis) : Analysis :=
  { analysis with scopes := analysis.scopes.drop 1 }

/-- Set a name in the innermost scope, if there is one. -/
def mark (analysis : Analysis) (name : String) (ready : Bool) : Analysis :=
  match analysis.scopes with
  | [] => analysis
  | scope :: outer => { analysis with scopes := scope.set name ready :: outer }

def declaredHere (analysis : Analysis) (name : String) : Bool :=
  (analysis.scopes.head?.any (·.contains name))

/-- A declaration whose initializer is still to come. -/
def declare (analysis : Analysis) (name : Token) : Analysis :=
  let marked := analysis.mark name.lexeme false
  if analysis.declaredHere name.lexeme then marked.report name .redeclared else marked

/-- The end of a declaration. -/
def define (analysis : Analysis) (name : Token) : Analysis := analysis.mark name.lexeme true

/-- Bind an occurrence to the innermost scope that declares its name. -/
def bind (analysis : Analysis) (place : Occurrence) : Analysis :=
  match analysis.scopes.findIdx? (·.contains place.name.lexeme) with
  | some distance => { analysis with bonds := ⟨place, distance⟩ :: analysis.bonds }
  | none => analysis

/-- Whether the name is being initialized in the innermost scope. -/
def inOwnInitializer (analysis : Analysis) (name : String) : Bool :=
  analysis.scopes.head?.any fun scope => scope.find? name == some false

/-- The occurrence of a name that is read. -/
def read (analysis : Analysis) (place : Occurrence) : Analysis :=
  let checked :=
    if analysis.inOwnInitializer place.name.lexeme then
      analysis.report place.name .ownInitializer
    else analysis
  checked.bind place

/-- An occurrence of the receiver, which means nothing outside of a class. -/
def receiver (analysis : Analysis) (place : Occurrence) : Analysis :=
  if analysis.classContext = .outside then analysis.report place.name .selfOutsideClass
  else analysis.bind place

/-- An occurrence of the superclass. -/
def inherited (analysis : Analysis) (place : Occurrence) : Analysis :=
  let checked := match analysis.classContext with
    | .outside => analysis.report place.name .superOutsideClass
    | .withoutSuperclass => analysis.report place.name .superWithoutSuperclass
    | .withSuperclass => analysis
  checked.bind place

def declareAll (analysis : Analysis) (names : List Token) : Analysis :=
  names.foldl (fun analysis name => (analysis.declare name).define name) analysis

/-- The declaration of a class by its name. -/
def declareClass (analysis : Analysis) (name : Token) : Analysis :=
  ({ analysis with classContext := .withoutSuperclass }.declare name).define name

/-- The walk at the place that names the superclass of a class. -/
def atSuperclass (analysis : Analysis) (name : Token) (place : Occurrence) : Analysis :=
  let declared := analysis.declareClass name
  let checked :=
    if place.name.lexeme = name.lexeme then declared.report place.name .inheritsFromItself
    else declared
  { checked with classContext := .withSuperclass }

/-- The head of a class, up to the scopes that its methods are written in: one
that holds the superclass, if there is one, and one that holds the receiver. -/
def enterClass (analysis : Analysis) (name : Token) : Option Occurrence → Analysis
  | none => (analysis.declareClass name).enter.mark receiverName true
  | some place =>
      (((analysis.atSuperclass name place).read place).enter.mark superclassName
        true).enter.mark receiverName true

def leaveClass (analysis : Analysis) (superclass : Option Occurrence) (outer : ClassContext) :
    Analysis :=
  let left := match superclass with
    | none => analysis.leave
    | some _ => analysis.leave.leave
  { left with classContext := outer }

end Analysis

mutual

def Expression.analyse : Expression → Analysis → Analysis
  | .literal _, analysis => analysis
  | .grouping inner, analysis => inner.analyse analysis
  | .unary _ operand, analysis => operand.analyse analysis
  | .binary left _ right, analysis => right.analyse (left.analyse analysis)
  | .logical left _ right, analysis => right.analyse (left.analyse analysis)
  | .conditional condition thenBranch elseBranch, analysis =>
      elseBranch.analyse (thenBranch.analyse (condition.analyse analysis))
  | .reference place, analysis => analysis.read place
  | .assign place value, analysis => (value.analyse analysis).bind place
  | .call callee _ arguments, analysis =>
      Expression.analyseAll arguments (callee.analyse analysis)
  | .get object _, analysis => object.analyse analysis
  | .set object _ value, analysis => object.analyse (value.analyse analysis)
  | .lambda routine, analysis => routine.analyse analysis
  | .receiver place, analysis => analysis.receiver place
  | .inherited place _, analysis => analysis.inherited place

def Expression.analyseAll : List Expression → Analysis → Analysis
  | [], analysis => analysis
  | first :: rest, analysis => Expression.analyseAll rest (first.analyse analysis)

/-- Parameters and body share one scope. -/
def Routine.analyse : Routine → Analysis → Analysis
  | ⟨_, parameters, body⟩, analysis =>
      let entered :=
        ({ analysis with inRoutine := true }.enter).declareAll (parameters.getD [])
      { (Statement.analyseAll body entered).leave with inRoutine := analysis.inRoutine }

def Routine.analyseAll : List Routine → Analysis → Analysis
  | [], analysis => analysis
  | first :: rest, analysis => Routine.analyseAll rest (first.analyse analysis)

def Statement.analyse : Statement → Analysis → Analysis
  | .expression value, analysis => value.analyse analysis
  | .print value, analysis => value.analyse analysis
  | .variableDeclaration name none, analysis => (analysis.declare name).define name
  | .variableDeclaration name (some initializer), analysis =>
      (initializer.analyse (analysis.declare name)).define name
  | .block statements, analysis => (Statement.analyseAll statements analysis.enter).leave
  | .conditional condition thenBranch none, analysis =>
      thenBranch.analyse (condition.analyse analysis)
  | .conditional condition thenBranch (some elseBranch), analysis =>
      elseBranch.analyse (thenBranch.analyse (condition.analyse analysis))
  | .loop condition body, analysis => body.analyse (condition.analyse analysis)
  | .routineDeclaration routine, analysis =>
      routine.analyse (analysis.declareAll routine.name.toList)
  | .exit keyword none, analysis =>
      if analysis.inRoutine then analysis else analysis.report keyword .topLevelReturn
  | .exit keyword (some value), analysis =>
      value.analyse
        (if analysis.inRoutine then analysis else analysis.report keyword .topLevelReturn)
  | .classDeclaration name superclass methods classMethods, analysis =>
      let walked :=
        Routine.analyseAll classMethods
          (Routine.analyseAll methods (analysis.enterClass name superclass))
      walked.leaveClass superclass analysis.classContext

def Statement.analyseAll : List Statement → Analysis → Analysis
  | [], analysis => analysis
  | first :: rest, analysis => Statement.analyseAll rest (first.analyse analysis)

end

/-- What the analysis finds in a program, in the order in which it comes upon
it. -/
structure Bindings where
  bonds : List Bond
  violations : List Violation
deriving Repr

def Analysis.finish (analysis : Analysis) : Bindings :=
  ⟨analysis.bonds.reverse, analysis.violations.reverse⟩

def Bindings.ofProgram (statements : List Statement) : Bindings :=
  (Statement.analyseAll statements .start).finish

def Bindings.ofExpression (value : Expression) : Bindings := (value.analyse .start).finish

end Lox
