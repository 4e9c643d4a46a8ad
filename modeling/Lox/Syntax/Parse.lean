import Lox.Syntax.Grammar

/-!
Reading whole token lists: as a program, as exactly one expression, or as a
line typed at a prompt, which may be either.
-/

namespace Lox

/-- Every complaint about the input, or its tree; in both cases the first number
that no occurrence was given. -/
structure Parsed (α : Type) where
  outcome : Except (List Complaint) α
  nextId : Nat

/-- A tree counts only if reading it gave no reason to complain. -/
def Reading.finish {α : Type} (reading : Reading) (tree : α) : Parsed α :=
  ⟨if reading.complaints.isEmpty then .ok tree else .error reading.complaints, reading.nextId⟩

/-- How deep rules can nest on so many tokens. -/
def nesting (tokens : List Token) : Nat := 8 * (tokens.length + 1)

def Reading.start (tokens : List Token) (firstId : Nat) : Reading := ⟨tokens, firstId, []⟩

def parseProgram (tokens : List Token) (firstId : Nat) : Parsed (List Statement) :=
  let bound := nesting tokens
  match Rule.declarations (Rule.declaration bound) (· = .endOfInput) bound
      (.start tokens firstId) with
  | .ok statements after => after.finish statements
  | .error complaint after => ⟨.error (after.note complaint).complaints, after.nextId⟩

def parseExpression (tokens : List Token) (firstId : Nat) : Parsed Expression :=
  match Rule.expression (nesting tokens) (.start tokens firstId) with
  | .ok tree after =>
      if after.atEnd then after.finish tree
      else (after.note ⟨after.next, .expected .endOfExpression⟩).finish tree
  | .error complaint after => ⟨.error (after.note complaint).complaints, after.nextId⟩

/-- What can be typed at a prompt. -/
inductive Line where
  | statements (statements : List Statement)
  /-- One expression without a semicolon, whose value is shown. -/
  | expression (value : Expression)

/-- An expression that takes the whole line, or else a program. Numbers given to
occurrences by the first attempt are not given again. -/
def parseLine (tokens : List Token) (firstId : Nat) : Parsed Line :=
  let asProgram (firstId : Nat) : Parsed Line :=
    let program := parseProgram tokens firstId
    ⟨program.outcome.map .statements, program.nextId⟩
  match Rule.expression (nesting tokens) (.start tokens firstId) with
  | .ok tree after =>
      if after.atEnd then after.finish (.expression tree) else asProgram after.nextId
  | .error _ after => asProgram after.nextId

end Lox
