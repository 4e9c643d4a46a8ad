import Lox.Proofs.Names.Node
import Mathlib.Data.List.Forall2
import Mathlib.Data.Option.Basic
import Mathlib.Logic.Equiv.Basic

/-!
Programs that differ in what no run can see. Their occurrences may be numbered
differently, and one name may stand for another in some of their local scopes:
where such a scope declares it, and at the occurrences that are bound there. The
flags beside a node say which of the scopes around it are renamed, innermost
first.
-/

namespace Lox

/-- How the second of two programs differs from the first. -/
structure Recast where
  number : Nat → Nat
  /-- How far out an occurrence of the first program is bound, by its number. -/
  reach : Nat → Option Nat
  old : String
  new : String
  /-- The names that methods find around them cannot be chosen. -/
  old_written : old ≠ receiverName ∧ old ≠ superclassName
  new_written : new ≠ receiverName ∧ new ≠ superclassName

namespace Recast

variable (recast : Recast)

/-- The names in the second program that stand for those in the first, in a scope
that is renamed or is not. Both names change places, so that none is lost. -/
def spelling : (renamed : Bool) → Equiv.Perm String
  | false => Equiv.refl String
  | true => Equiv.swap recast.old recast.new

/-- The new name is no name of the first program, unless nothing is renamed. -/
def Fresh (name : String) : Prop := name = recast.new → recast.old = recast.new

/-- A name that is declared in a renamed scope and yet stays. -/
def Keeps (renamed : Bool) (name : String) : Prop :=
  recast.spelling renamed name = name ∧ recast.Fresh name

/-- The second token stands where the first does, with its text respelled or not. -/
def Matches (token token' : Token) : Prop :=
  ∃ renamed, token' = { token with lexeme := recast.spelling renamed token.lexeme }

/-- The second token stands where the first does, for a name in such a scope. -/
structure Spells (renamed : Bool) (token token' : Token) : Prop where
  same : token' = { token with lexeme := recast.spelling renamed token.lexeme }
  fresh : recast.Fresh token.lexeme

/-- Whether the scope at a distance is renamed; the top level never is. -/
def renamedAt (flags : List Bool) (distance : Option Nat) : Bool :=
  (distance.bind (flags[·]?)).getD false

structure Occurs (flags : List Bool) (place place' : Occurrence) : Prop where
  id : place'.id = recast.number place.id
  name : recast.Spells (renamedAt flags (recast.reach place.id)) place.name place'.name

end Recast

/-- Two nodes that differ in nothing else, among scopes of which some are renamed. -/
inductive Node.Alike (recast : Recast) : (flags : List Bool) → Node → Node → Prop where
  | literal {flags : List Bool} {value : Literal} :
      Alike recast flags (.expression (.literal value)) (.expression (.literal value))
  | grouping {flags : List Bool} {inner inner' : Expression}
      (inside : Alike recast flags (.expression inner) (.expression inner')) :
      Alike recast flags (.expression (.grouping inner)) (.expression (.grouping inner'))
  | unary {flags : List Bool} {operator operator' : Token} {operand operand' : Expression}
      (sign : recast.Matches operator operator')
      (inside : Alike recast flags (.expression operand) (.expression operand')) :
      Alike recast flags (.expression (.unary operator operand))
        (.expression (.unary operator' operand'))
  | binary {flags : List Bool} {operator operator' : Token} {left left' right right' : Expression}
      (sign : recast.Matches operator operator')
      (first : Alike recast flags (.expression left) (.expression left'))
      (second : Alike recast flags (.expression right) (.expression right')) :
      Alike recast flags (.expression (.binary left operator right))
        (.expression (.binary left' operator' right'))
  | logical {flags : List Bool} {operator operator' : Token} {left left' right right' : Expression}
      (sign : recast.Matches operator operator')
      (first : Alike recast flags (.expression left) (.expression left'))
      (second : Alike recast flags (.expression right) (.expression right')) :
      Alike recast flags (.expression (.logical left operator right))
        (.expression (.logical left' operator' right'))
  | choice {flags : List Bool}
      {condition condition' thenBranch thenBranch' elseBranch elseBranch' : Expression}
      (first : Alike recast flags (.expression condition) (.expression condition'))
      (second : Alike recast flags (.expression thenBranch) (.expression thenBranch'))
      (third : Alike recast flags (.expression elseBranch) (.expression elseBranch')) :
      Alike recast flags (.expression (.conditional condition thenBranch elseBranch))
        (.expression (.conditional condition' thenBranch' elseBranch'))
  | reference {flags : List Bool} {place place' : Occurrence}
      (occurs : recast.Occurs flags place place') :
      Alike recast flags (.expression (.reference place)) (.expression (.reference place'))
  | assign {flags : List Bool} {place place' : Occurrence} {value value' : Expression}
      (occurs : recast.Occurs flags place place')
      (inside : Alike recast flags (.expression value) (.expression value')) :
      Alike recast flags (.expression (.assign place value))
        (.expression (.assign place' value'))
  | call {flags : List Bool} {callee callee' : Expression} {closing closing' : Token}
      {arguments arguments' : List Expression} (sign : recast.Matches closing closing')
      (first : Alike recast flags (.expression callee) (.expression callee'))
      (second : Alike recast flags (.expressions arguments) (.expressions arguments')) :
      Alike recast flags (.expression (.call callee closing arguments))
        (.expression (.call callee' closing' arguments'))
  | get {flags : List Bool} {object object' : Expression} {name : Token}
      (inside : Alike recast flags (.expression object) (.expression object')) :
      Alike recast flags (.expression (.get object name)) (.expression (.get object' name))
  | set {flags : List Bool} {object object' value value' : Expression} {name : Token}
      (first : Alike recast flags (.expression value) (.expression value'))
      (second : Alike recast flags (.expression object) (.expression object')) :
      Alike recast flags (.expression (.set object name value))
        (.expression (.set object' name value'))
  | lambda {flags : List Bool} {routine routine' : Routine}
      (inside : Alike recast flags (.routine routine) (.routine routine')) :
      Alike recast flags (.expression (.lambda routine)) (.expression (.lambda routine'))
  | receiver {flags : List Bool} {place place' : Occurrence}
      (occurs : recast.Occurs flags place place') :
      Alike recast flags (.expression (.receiver place)) (.expression (.receiver place'))
  | inherited {flags : List Bool} {place place' : Occurrence} {method : Token}
      (occurs : recast.Occurs flags place place') :
      Alike recast flags (.expression (.inherited place method))
        (.expression (.inherited place' method))
  | noExpressions {flags : List Bool} : Alike recast flags (.expressions []) (.expressions [])
  | expressions {flags : List Bool} {first first' : Expression} {rest rest' : List Expression}
      (head : Alike recast flags (.expression first) (.expression first'))
      (tail : Alike recast flags (.expressions rest) (.expressions rest')) :
      Alike recast flags (.expressions (first :: rest)) (.expressions (first' :: rest'))
  | evaluation {flags : List Bool} {value value' : Expression}
      (inside : Alike recast flags (.expression value) (.expression value')) :
      Alike recast flags (.statement (.expression value)) (.statement (.expression value'))
  | print {flags : List Bool} {value value' : Expression}
      (inside : Alike recast flags (.expression value) (.expression value')) :
      Alike recast flags (.statement (.print value)) (.statement (.print value'))
  | uninitialized {flags : List Bool} {name name' : Token}
      (spells : recast.Spells (flags.headD false) name name') :
      Alike recast flags (.statement (.variableDeclaration name none))
        (.statement (.variableDeclaration name' none))
  | initialized {flags : List Bool} {name name' : Token} {value value' : Expression}
      (spells : recast.Spells (flags.headD false) name name')
      (inside : Alike recast flags (.expression value) (.expression value')) :
      Alike recast flags (.statement (.variableDeclaration name (some value)))
        (.statement (.variableDeclaration name' (some value')))
  | block {flags : List Bool} {orders orders' : List Statement} (renamed : Bool)
      (inside : Alike recast (renamed :: flags) (.statements orders) (.statements orders')) :
      Alike recast flags (.statement (.block orders)) (.statement (.block orders'))
  | conditional {flags : List Bool} {condition condition' : Expression}
      {thenBranch thenBranch' : Statement}
      (first : Alike recast flags (.expression condition) (.expression condition'))
      (second : Alike recast flags (.statement thenBranch) (.statement thenBranch')) :
      Alike recast flags (.statement (.conditional condition thenBranch none))
        (.statement (.conditional condition' thenBranch' none))
  | alternative {flags : List Bool} {condition condition' : Expression}
      {thenBranch thenBranch' elseBranch elseBranch' : Statement}
      (first : Alike recast flags (.expression condition) (.expression condition'))
      (second : Alike recast flags (.statement thenBranch) (.statement thenBranch'))
      (third : Alike recast flags (.statement elseBranch) (.statement elseBranch')) :
      Alike recast flags (.statement (.conditional condition thenBranch (some elseBranch)))
        (.statement (.conditional condition' thenBranch' (some elseBranch')))
  | loop {flags : List Bool} {condition condition' : Expression} {body body' : Statement}
      (first : Alike recast flags (.expression condition) (.expression condition'))
      (second : Alike recast flags (.statement body) (.statement body')) :
      Alike recast flags (.statement (.loop condition body))
        (.statement (.loop condition' body'))
  | routineDeclaration {flags : List Bool} {routine routine' : Routine}
      (keeps : ∀ name ∈ routine.name, recast.Keeps (flags.headD false) name.lexeme)
      (kept : recast.spelling (flags.headD false) routine.label = routine.label)
      (inside : Alike recast flags (.routine routine) (.routine routine')) :
      Alike recast flags (.statement (.routineDeclaration routine))
        (.statement (.routineDeclaration routine'))
  | exit {flags : List Bool} {keyword keyword' : Token}
      (sign : recast.Matches keyword keyword') :
      Alike recast flags (.statement (.exit keyword none)) (.statement (.exit keyword' none))
  | exitWith {flags : List Bool} {keyword keyword' : Token} {value value' : Expression}
      (sign : recast.Matches keyword keyword')
      (inside : Alike recast flags (.expression value) (.expression value')) :
      Alike recast flags (.statement (.exit keyword (some value)))
        (.statement (.exit keyword' (some value')))
  | base {flags : List Bool} {name : Token}
      {methods methods' classMethods classMethods' : List Routine}
      (keeps : recast.Keeps (flags.headD false) name.lexeme)
      (first : Alike recast (false :: flags) (.routines methods) (.routines methods'))
      (second : Alike recast (false :: flags) (.routines classMethods)
        (.routines classMethods')) :
      Alike recast flags (.statement (.classDeclaration name none methods classMethods))
        (.statement (.classDeclaration name none methods' classMethods'))
  | derived {flags : List Bool} {name : Token} {place place' : Occurrence}
      {methods methods' classMethods classMethods' : List Routine}
      (keeps : recast.Keeps (flags.headD false) name.lexeme)
      (occurs : recast.Occurs flags place place')
      (first : Alike recast (false :: false :: flags) (.routines methods) (.routines methods'))
      (second : Alike recast (false :: false :: flags) (.routines classMethods)
        (.routines classMethods')) :
      Alike recast flags (.statement (.classDeclaration name (some place) methods classMethods))
        (.statement (.classDeclaration name (some place') methods' classMethods'))
  | noStatements {flags : List Bool} : Alike recast flags (.statements []) (.statements [])
  | statements {flags : List Bool} {first first' : Statement} {rest rest' : List Statement}
      (head : Alike recast flags (.statement first) (.statement first'))
      (tail : Alike recast flags (.statements rest) (.statements rest')) :
      Alike recast flags (.statements (first :: rest)) (.statements (first' :: rest'))
  | routine {flags : List Bool} {name : Option Token} {parameters parameters' : Option (List Token)}
      {body body' : List Statement} (renamed : Bool)
      (spells : Option.Rel (List.Forall₂ (recast.Spells renamed)) parameters parameters')
      (inside : Alike recast (renamed :: flags) (.statements body) (.statements body')) :
      Alike recast flags (.routine ⟨name, parameters, body⟩) (.routine ⟨name, parameters', body'⟩)
  | noRoutines {flags : List Bool} : Alike recast flags (.routines []) (.routines [])
  | routines {flags : List Bool} {first first' : Routine} {rest rest' : List Routine}
      (head : Alike recast flags (.routine first) (.routine first'))
      (tail : Alike recast flags (.routines rest) (.routines rest')) :
      Alike recast flags (.routines (first :: rest)) (.routines (first' :: rest'))

namespace Recast

variable {recast : Recast} {renamed : Bool} {name : String}

theorem spelling_of_same (same : recast.old = recast.new) (renamed : Bool) (name : String) :
    recast.spelling renamed name = name := by
  cases renamed with
  | false => rfl
  | true => rw [spelling, same, Equiv.swap_self, Equiv.refl_apply]

theorem spelling_receiver (renamed : Bool) :
    recast.spelling renamed receiverName = receiverName := by
  cases renamed with
  | false => rfl
  | true =>
      exact Equiv.swap_apply_of_ne_of_ne recast.old_written.1.symm recast.new_written.1.symm

theorem fresh_receiver : recast.Fresh receiverName :=
  fun same => absurd same.symm recast.new_written.1

theorem fresh_superclass : recast.Fresh superclassName :=
  fun same => absurd same.symm recast.new_written.2

/-- A name of the first program stays or is replaced by the new one. -/
theorem spelling_fresh (fresh : recast.Fresh name) (renamed : Bool) :
    recast.spelling renamed name = name ∨
      name = recast.old ∧ recast.spelling renamed name = recast.new := by
  cases renamed with
  | false => exact .inl rfl
  | true =>
      by_cases isOld : name = recast.old
      · exact .inr ⟨isOld, by rw [isOld, spelling, Equiv.swap_apply_left]⟩
      · by_cases isNew : name = recast.new
        · exact .inl (spelling_of_same (fresh isNew) true name)
        · exact .inl (Equiv.swap_apply_of_ne_of_ne isOld isNew)

/-- Only a spelling of its own can take a name to one that the first program has. -/
theorem spelling_of_fresh (fresh : recast.Fresh name)
    (fresh' : recast.Fresh (recast.spelling renamed name)) :
    recast.spelling renamed name = name := by
  cases renamed with
  | false => rfl
  | true =>
      rw [spelling] at fresh' ⊢
      by_cases isOld : name = recast.old
      · rw [isOld, Equiv.swap_apply_left] at fresh' ⊢
        exact (fresh' rfl).symm
      · by_cases isNew : name = recast.new
        · rw [fresh isNew, Equiv.swap_self, Equiv.refl_apply]
        · exact Equiv.swap_apply_of_ne_of_ne isOld isNew

theorem Matches.refl (token : Token) : recast.Matches token token := ⟨false, rfl⟩

theorem Matches.kind {token token' : Token} (sign : recast.Matches token token') :
    token'.kind = token.kind := by
  obtain ⟨renamed, rfl⟩ := sign
  rfl

theorem Matches.line {token token' : Token} (sign : recast.Matches token token') :
    token'.line = token.line := by
  obtain ⟨renamed, rfl⟩ := sign
  rfl

/-- When nothing is renamed, tokens that match are the same. -/
theorem Matches.of_same (same : recast.old = recast.new) {token token' : Token}
    (sign : recast.Matches token token') : token' = token := by
  obtain ⟨renamed, rfl⟩ := sign
  rw [spelling_of_same same]

theorem Spells.line {token token' : Token} (spells : recast.Spells renamed token token') :
    token'.line = token.line := by rw [spells.same]

theorem Spells.lexeme {token token' : Token} (spells : recast.Spells renamed token token') :
    token'.lexeme = recast.spelling renamed token.lexeme := by rw [spells.same]

theorem Keeps.spells {token : Token} (keeps : recast.Keeps renamed token.lexeme) :
    recast.Spells renamed token token where
  same := by rw [keeps.1]
  fresh := keeps.2

end Recast

end Lox
