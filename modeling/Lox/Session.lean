import Lox.Evaluation
import Lox.Syntax.Parse
import Lox.Token.Stream

/-!
Sessions: programs and lines that are run one after the other on the same
machine, so that later ones see what earlier ones declared. A source text with
a static error is not run at all. Numbers of occurrences are never given twice
within a session, and so the bonds of earlier functions stay what they were.
-/

namespace Lox

inductive Outcome where
  | success
  | staticError
  | runtimeError
deriving DecidableEq, Repr

/-- The conventional exit status of a program that ended this way. -/
def Outcome.exitCode : Outcome → Nat
  | .success => 0
  | .staticError => 65
  | .runtimeError => 70

structure Session where
  machine : Machine
  /-- The first number that no occurrence was given so far. -/
  nextId : Nat

def Session.start (sink : Sink) (time : Nat) : Session := ⟨.start sink time, 0⟩

/-- What came of running a program. -/
structure Report where
  outcome : Outcome
  output : String
  /-- In the order in which they were reported. -/
  diagnostics : List Diagnostic
deriving DecidableEq, Repr

/-- What came of a line typed at a prompt. -/
structure LineReport where
  /-- The text of the value, if the line was an expression that has one. -/
  echo : Option String
  output : String
  diagnostics : List Diagnostic
deriving DecidableEq, Repr

def lexicalDiagnostics (items : List Item) : List Diagnostic :=
  (lexicalErrorsOf items).map fun (line, cause) => .lexical line cause

/-- Read a source text and analyse its names. The tokens that are left are read
even after lexical errors, but then the tree is not analysed. Bonds are
recorded even if some rule is violated. -/
def Session.prepare {α : Type} (session : Session) (source : String)
    (parse : List Token → Nat → Parsed α) (bindings : α → Bindings) :
    Except (List Diagnostic) α × Session :=
  let items := scan source
  let lexical := lexicalDiagnostics items
  let parsed := parse (tokensOf items) session.nextId
  let numbered := { session with nextId := parsed.nextId }
  match parsed.outcome with
  | .error complaints => (.error (lexical ++ complaints.map Complaint.diagnostic), numbered)
  | .ok tree =>
      if lexical.isEmpty then
        let found := bindings tree
        let bonded := { numbered with machine := numbered.machine.bondAll found.bonds }
        if found.violations.isEmpty then (.ok tree, bonded)
        else (.error (found.violations.map Violation.diagnostic), bonded)
      else (.error lexical, numbered)

/-- The session after a run, and the output of that run. -/
def Session.close (session : Session) (after : Machine) : String × Session :=
  (after.sink.text, { session with machine := { after with sink := after.sink.emptied } })

/-- Run a whole program; nothing if the supply does not suffice. -/
def Session.run (supply : Nat) (session : Session) (source : String) :
    Option (Report × Session) :=
  match session.prepare source parseProgram Bindings.ofProgram with
  | (.error diagnostics, session) => some (⟨.staticError, "", diagnostics⟩, session)
  | (.ok statements, session) =>
      match runProgram supply statements session.machine with
      | .ok () after =>
          let (output, session) := session.close after
          some (⟨.success, output, []⟩, session)
      | .error (.failed diagnostic) after =>
          let (output, session) := session.close after
          some (⟨.runtimeError, output, [diagnostic]⟩, session)
      | .error .exhausted _ => none

/-- The names in a line. -/
def Bindings.ofLine : Line → Bindings
  | .statements statements => .ofProgram statements
  | .expression value => .ofExpression value

/-- A line: statements for their effect, an expression for its value. -/
def Parts.line {m : Type → Type} [Setting m] (parts : Parts m) : Line → m (Option Value)
  | .statements statements => do
      parts.program statements
      return none
  | .expression tree => do
      let value ← parts.evaluate tree
      return some value

def Line.run (supply : Nat) (line : Line) : Run (Option Value) :=
  (Parts.supplied supply).line line

/-- Run one line typed at a prompt; nothing if the supply does not suffice. -/
def Session.runLine (supply : Nat) (session : Session) (source : String) :
    Option (LineReport × Session) :=
  match session.prepare source parseLine Bindings.ofLine with
  | (.error diagnostics, session) => some (⟨none, "", diagnostics⟩, session)
  | (.ok line, session) =>
      match line.run supply session.machine with
      | .ok value after =>
          let (output, session) := session.close after
          some (⟨value.map Value.text, output, []⟩, session)
      | .error (.failed diagnostic) after =>
          let (output, session) := session.close after
          some (⟨none, output, [diagnostic]⟩, session)
      | .error .exhausted _ => none

end Lox
