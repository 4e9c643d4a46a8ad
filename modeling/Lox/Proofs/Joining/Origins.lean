import Lox.Proofs.Grammar.Numbering
import Lox.Proofs.Renaming.Words
import Lox.Syntax.Grammar

/-!
Where the tokens of a tree come from. A rule draws on what is left to read: it puts
into its tree only tokens that it has stepped over, and no rule steps over the end of
the input. What rules draw is said here for the ways to combine them.
-/

namespace Lox

namespace Node

/-- The tokens of the node itself, apart from those of its parts. -/
def ownTokens : Node → List Token
  | .expression value =>
      match value with
      | .literal _ | .grouping _ | .conditional _ _ _ | .lambda _ => []
      | .unary operator _ | .binary _ operator _ | .logical _ operator _ => [operator]
      | .reference place | .assign place _ | .receiver place => [place.name]
      | .call _ closing _ => [closing]
      | .get _ name | .set _ name _ => [name]
      | .inherited place method => [place.name, method]
  | .statement order =>
      match order with
      | .expression _ | .print _ | .block _ | .conditional _ _ _ | .loop _ _
      | .routineDeclaration _ => []
      | .variableDeclaration name _ | .classDeclaration name _ _ _ => [name]
      | .exit keyword _ => [keyword]
  | .routine declared => declared.name.toList ++ declared.parameters.getD []
  | .expressions _ | .statements _ | .routines _ => []

/-- All tokens in the node are of some origin. -/
def From (origin : Token → Prop) (node : Node) : Prop :=
  ∀ inner, node.Contains inner → ∀ token ∈ inner.ownTokens, origin token

variable {origin : Token → Prop}

theorem from_iff {node : Node} : node.From origin ↔
    (∀ token ∈ node.ownTokens, origin token) ∧ ∀ part ∈ node.parts, part.From origin :=
  everywhere_iff

theorem From.build {node : Node} (own : ∀ token ∈ node.ownTokens, origin token)
    (parts : ∀ part ∈ node.parts, part.From origin) : node.From origin :=
  from_iff.mpr ⟨own, parts⟩

theorem expressions_from {values : List Expression}
    (each : ∀ value ∈ values, (Node.expression value).From origin) :
    (Node.expressions values).From origin :=
  (Numbered.everywhere_gathered Numbered.expressions_gather fun _ => List.forall_mem_nil _).mpr each

theorem statements_from {orders : List Statement}
    (each : ∀ order ∈ orders, (Node.statement order).From origin) :
    (Node.statements orders).From origin :=
  (Numbered.everywhere_gathered Numbered.statements_gather fun _ => List.forall_mem_nil _).mpr each

theorem routines_from {declared : List Routine}
    (each : ∀ routine ∈ declared, (Node.routine routine).From origin) :
    (Node.routines declared).From origin :=
  (Numbered.everywhere_gathered Numbered.routines_gather fun _ => List.forall_mem_nil _).mpr each

end Node

/-- What is left to read is of some origin, up to the end of the input. -/
def Reading.Offers (origin : Token → Prop) (reading : Reading) : Prop :=
  ∀ token ∈ reading.rest, token.kind ≠ .endOfInput → origin token

namespace Rule

variable {α β : Type} {origin : Token → Prop}

/-- From what is of some origin the rule makes what is good. -/
def Draws (origin : Token → Prop) (rule : Rule α) (good : α → Prop) : Prop :=
  ∀ reading : Reading, reading.Offers origin → match rule reading with
    | .ok tree after => after.Offers origin ∧ good tree
    | .error _ after => after.Offers origin

section Combined

variable {rule : Rule α} {good : α → Prop} {wanted : β → Prop}

theorem pure_draws {tree : α} (isGood : good tree) : Draws origin (pure tree) good :=
  fun _ offers => ⟨offers, isGood⟩

theorem bind_draws {next : α → Rule β} (first : rule.Draws origin good)
    (rest : ∀ tree, good tree → (next tree).Draws origin wanted) :
    Draws origin (rule >>= next) wanted := by
  intro reading offers
  have begun := first reading offers
  cases ended : rule reading <;> rw [ended] at begun
  · rw [bind_ok ended]
    exact rest _ begun.2 _ begun.1
  · rw [bind_error ended]
    exact begun

theorem map_draws {make : α → β} (draws : rule.Draws origin good)
    (makes : ∀ tree, good tree → wanted (make tree)) : Draws origin (make <$> rule) wanted := by
  rw [map_eq_pure_bind]
  exact bind_draws draws fun tree isGood => pure_draws (makes tree isGood)

/-- Going on after a rule whose result does not matter. -/
theorem after_draws {next : α → Rule β} (first : rule.Draws origin good)
    (rest : ∀ tree, (next tree).Draws origin wanted) : Draws origin (rule >>= next) wanted :=
  bind_draws first fun tree _ => rest tree

theorem draws_when {chosen : Prop} [Decidable chosen] {other : Rule α}
    (yes : rule.Draws origin good) (no : other.Draws origin good) :
    Draws origin (if chosen then rule else other) good := by
  split_ifs
  · exact yes
  · exact no

/-- Going on after either of two rules. -/
theorem either_draws {chosen : Prop} [Decidable chosen] {other : Rule α} {next : α → Rule β}
    (yes : rule.Draws origin good) (no : other.Draws origin good)
    (rest : ∀ tree, good tree → (next tree).Draws origin wanted) :
    Draws origin (if chosen then rule >>= next else other >>= next) wanted :=
  draws_when (bind_draws yes rest) (bind_draws no rest)

end Combined

section Tokens

theorem next_draws :
    next.Draws origin fun token => token.kind ≠ .endOfInput → origin token := by
  intro reading offers
  refine ⟨offers, fun inner => ?_⟩
  obtain ⟨rest, nextId, complaints⟩ := reading
  cases rest with
  | nil => exact absurd rfl inner
  | cons token rest => exact offers token List.mem_cons_self inner

theorem skip_draws : skip.Draws origin fun _ => True :=
  fun _ offers => ⟨fun token member => offers token (List.mem_of_mem_drop member), trivial⟩

theorem missing_draws {good : α → Prop} (item : Missing) : (missing item).Draws origin good :=
  fun _ offers => offers

theorem note_draws (place : Token) (cause : SyntaxError) :
    (note place cause).Draws origin fun _ => True := fun _ offers => ⟨offers, trivial⟩

theorem fresh_draws : fresh.Draws origin fun _ => True := fun _ offers => ⟨offers, trivial⟩

theorem accept_any_draws {kinds : List Kind} (inner : Kind.endOfInput ∉ kinds) :
    (acceptAny kinds).Draws origin fun found => ∀ token ∈ found, origin token := by
  refine bind_draws next_draws fun token drawn => ?_
  split_ifs with accepted
  · refine after_draws skip_draws fun _ => pure_draws fun found same => ?_
    cases same
    refine drawn fun ends => inner ?_
    rwa [List.contains_iff_mem, ends] at accepted
  · exact pure_draws nofun

theorem accept_draws {kind : Kind} (inner : kind ≠ .endOfInput) :
    (accept kind).Draws origin fun found => ∀ token ∈ found, origin token :=
  accept_any_draws (by simpa using inner.symm)

theorem expect_draws {kind : Kind} (item : Missing) (inner : kind ≠ .endOfInput) :
    (expect kind item).Draws origin origin := by
  refine bind_draws (accept_draws inner) fun found drawn => ?_
  cases found with
  | none => exact missing_draws item
  | some token => exact pure_draws (drawn token rfl)

end Tokens

section Lists

variable {rule : Rule α} {good : α → Prop} (each : rule.Draws origin good)

include each

theorem comma_separated_draws (excess : SyntaxError) (bound count : Nat) :
    (commaSeparated rule excess bound count).Draws origin fun trees =>
      ∀ tree ∈ trees, good tree := by
  induction bound generalizing count with
  | zero => exact missing_draws _
  | succ bound induction =>
      have others : Draws origin (items rule (commaSeparated rule excess bound (count + 1)))
          fun trees => ∀ tree ∈ trees, good tree := by
        refine bind_draws each fun first isGood =>
          after_draws (accept_draws (by decide)) fun comma => ?_
        cases comma with
        | none => exact pure_draws (by simpa using isGood)
        | some comma =>
            exact bind_draws (induction _) fun rest areGood =>
              pure_draws (List.forall_mem_cons.mpr ⟨isGood, areGood⟩)
      rw [comma_separated_succ]
      split_ifs
      · exact after_draws next_draws fun token => after_draws (note_draws _ _) fun _ => others
      · exact others

theorem following_draws {kind : Kind} (inner : kind ≠ .endOfInput) :
    (following kind rule).Draws origin fun found => ∀ tree ∈ found, good tree := by
  refine after_draws (accept_draws inner) fun token => draws_when ?_ (pure_draws nofun)
  exact map_draws each fun tree isGood found same => Option.some.inj same ▸ isGood

theorem recovering_draws :
    (recovering rule).Draws origin fun found => ∀ tree ∈ found, good tree := by
  intro reading offers
  have drawn := each reading offers
  unfold recovering
  cases ended : rule reading <;> rw [ended] at drawn
  · exact ⟨drawn.1, fun tree same => Option.some.inj same ▸ drawn.2⟩
  · next complaint after =>
      refine ⟨fun token member => drawn token ?_, nofun⟩
      obtain ⟨rest, nextId, complaints⟩ := after
      cases rest with
      | nil => exact member
      | cons first rest =>
          unfold Reading.note Reading.resume at member
          dsimp only at member
          split_ifs at member
          · exact member
          · exact List.mem_cons_of_mem _ ((from_boundary_suffix _ rest).mem member)

theorem declarations_draws (closes : Kind → Bool) (bound : Nat) :
    (declarations rule closes bound).Draws origin fun trees => ∀ tree ∈ trees, good tree := by
  induction bound with
  | zero => exact pure_draws nofun
  | succ bound induction =>
      refine after_draws next_draws fun token => draws_when (pure_draws nofun) ?_
      refine bind_draws (recovering_draws each) fun first isGood =>
        bind_draws induction fun others areGood => pure_draws fun tree member => ?_
      rcases List.mem_append.mp member with isFirst | isOther
      · exact isGood tree (Option.mem_toList.mp isFirst)
      · exact areGood tree isOther

end Lists

end Rule

end Lox
