import Lox.Diagnostic
import Lox.Syntax

/-!
The state of reading a token list: what is left of it, the next free number for
an occurrence, and the complaints made so far. Some complaints stop the rule
that makes them; others are only noted, because what follows can be read as if
nothing had happened.
-/

namespace Lox

/-- A syntax error at the token where it was noticed. -/
structure Complaint where
  place : Token
  cause : SyntaxError
deriving DecidableEq, Repr

def Complaint.diagnostic (complaint : Complaint) : Diagnostic :=
  .grammatical complaint.place complaint.cause

structure Reading where
  rest : List Token
  nextId : Nat
  /-- In the order in which they were made. -/
  complaints : List Complaint
deriving Repr

/-- A grammar rule. It either reads a tree or stops with a complaint, and in
both cases says how far it came. -/
abbrev Rule := EStateM Complaint Reading

/-- The token to be read next. A list that just stops is taken to end there. -/
def Reading.next (reading : Reading) : Token :=
  reading.rest.headD ⟨.endOfInput, "", 1⟩

def Reading.atEnd (reading : Reading) : Bool := reading.next.kind = .endOfInput

def Reading.note (reading : Reading) (complaint : Complaint) : Reading :=
  { reading with complaints := reading.complaints ++ [complaint] }

namespace Rule

def next : Rule Token := return (← get).next

/-- Step over the next token. -/
def skip : Rule Unit := modify fun reading => { reading with rest := reading.rest.drop 1 }

/-- Stop with the complaint that something is missing before the next token. -/
def missing {α : Type} (item : Missing) : Rule α := do
  throw ⟨← next, .expected item⟩

/-- Note a complaint and go on. -/
def note (place : Token) (cause : SyntaxError) : Rule Unit := modify (·.note ⟨place, cause⟩)

/-- The next token, if it is of one of these kinds. -/
def acceptAny (kinds : List Kind) : Rule (Option Token) := do
  let token ← next
  if kinds.contains token.kind then
    skip
    return some token
  else
    return none

def accept (kind : Kind) : Rule (Option Token) := acceptAny [kind]

/-- The next token, which has to be of this kind. -/
def expect (kind : Kind) (item : Missing) : Rule Token := do
  match ← accept kind with
  | some token => return token
  | none => missing item

def fresh : Rule Nat :=
  modifyGet fun reading => (reading.nextId, { reading with nextId := reading.nextId + 1 })

/-- Items with commas between them; an item beyond the two hundred and
fifty-fifth is read like the others, but noted as one too many. -/
def commaSeparated {α : Type} (item : Rule α) (excess : SyntaxError) :
    (bound count : Nat) → Rule (List α)
  | 0, _ => missing .expression
  | bound + 1, count => do
      if 255 ≤ count then
        note (← next) excess
      let first ← item
      match ← accept .comma with
      | some _ => return first :: (← commaSeparated item excess bound (count + 1))
      | none => return [first]

/-- An item, and the others where a comma follows it. -/
def items {α : Type} (item : Rule α) (others : Rule (List α)) : Rule (List α) := do
  let first ← item
  match ← accept .comma with
  | some _ => return first :: (← others)
  | none => return [first]

theorem comma_separated_succ {α : Type} (item : Rule α) (excess : SyntaxError)
    (bound count : Nat) : commaSeparated item excess (bound + 1) count =
      if 255 ≤ count then next >>= fun token => note token excess >>= fun _ =>
        items item (commaSeparated item excess bound (count + 1))
      else items item (commaSeparated item excess bound (count + 1)) := rfl

end Rule

/-- Words that start a statement or declaration, where reading can resume after
a complaint. -/
def Kind.startsStatement : Kind → Bool
  | .classWord | .funWord | .varWord | .forWord | .ifWord | .whileWord | .printWord
  | .returnWord => true
  | _ => false

/-- The tokens from the next statement boundary on, where `afterSemicolon` says
whether the token just dropped was a semicolon. -/
def fromBoundary (afterSemicolon : Bool) : List Token → List Token
  | [] => []
  | token :: rest =>
      if token.kind = .endOfInput || afterSemicolon || token.kind.startsStatement then
        token :: rest
      else fromBoundary (token.kind = .semicolon) rest

/-- Drop the token that could not be read, and go on to the next boundary. -/
def Reading.resume (reading : Reading) : Reading :=
  match reading.rest with
  | [] => reading
  | token :: rest =>
      if token.kind = .endOfInput then reading
      else { reading with rest := fromBoundary (token.kind = .semicolon) rest }

/-- Read a declaration; if it stops with a complaint, skip to the next boundary
and note the complaint there. -/
def Rule.recovering {α : Type} (declaration : Rule α) : Rule (Option α) := fun reading =>
  match declaration reading with
  | .ok tree after => .ok (some tree) after
  | .error complaint after => .ok none (after.resume.note complaint)

/-- Declarations up to a token of a kind that closes the list. -/
def Rule.declarations {α : Type} (declaration : Rule α) (closes : Kind → Bool) :
    (bound : Nat) → Rule (List α)
  | 0 => return []
  | bound + 1 => do
      if closes (← next).kind then return []
      let first ← recovering declaration
      let others ← declarations declaration closes bound
      return first.toList ++ others

end Lox
