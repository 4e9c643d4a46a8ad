import Lox.Proofs.Grammar.Statements

/-!
Well-formed trees. The trees of the syntax leave room for more than the grammar can write: any
token for an operator, arguments without end, functions without parameters. What is read without a
complaint makes no use of that room, wherever in a program it stands; the analysis of names and the
rules of evaluation count on it. A rule is said to build what is good if its tree is good whenever
it has nothing to complain about.
-/

namespace Lox

namespace Node

/-- The operators, names and lengths of the node itself are those that the grammar can write. -/
def Lawful : Node → Prop
  | .expression value =>
      match value with
      | .literal _ | .grouping _ | .conditional _ _ _ => True
      | .unary operator _ => operator.kind ∈ [Kind.bang, .minus]
      | .binary _ operator _ =>
          operator.kind ∈ [Kind.plus, .minus, .star, .slash, .equalEqual, .bangEqual, .less,
            .lessEqual, .greater, .greaterEqual]
      | .logical _ operator _ => operator.kind ∈ [Kind.andWord, .orWord]
      | .reference place | .assign place _ => place.name.kind = .identifier
      | .call _ closing arguments => closing.kind = .rightParen ∧ arguments.length ≤ 255
      | .get _ name | .set _ name _ => name.kind = .identifier
      | .lambda written => written.name = none ∧ written.parameters.isSome = true
      | .receiver place => place.name.kind = .selfWord
      | .inherited place method => place.name.kind = .superWord ∧ method.kind = .identifier
  | .statement order =>
      match order with
      | .expression _ | .print _ | .block _ | .conditional _ _ _ | .loop _ _ => True
      | .variableDeclaration name _ => name.kind = .identifier
      | .routineDeclaration declared =>
          declared.name.isSome = true ∧ declared.parameters.isSome = true
      | .exit keyword _ => keyword.kind = .returnWord
      | .classDeclaration name _ methods classMethods =>
          name.kind = .identifier ∧ ∀ member ∈ methods ++ classMethods, member.name.isSome = true
  | .routine declared =>
      (∀ name ∈ declared.name, name.kind = .identifier) ∧
        ∀ names ∈ declared.parameters, names.length ≤ 255 ∧ ∀ name ∈ names, name.kind = .identifier
  | .expressions _ | .statements _ | .routines _ => True

/-- Everything in the node is as the grammar writes it. -/
abbrev WellFormed (node : Node) : Prop := node.Everywhere Lawful

theorem expressions_well_formed {values : List Expression} :
    (Node.expressions values).WellFormed ↔ ∀ value ∈ values, (Node.expression value).WellFormed :=
  Numbered.everywhere_gathered Numbered.expressions_gather fun _ => trivial

theorem statements_well_formed {orders : List Statement} :
    (Node.statements orders).WellFormed ↔ ∀ order ∈ orders, (Node.statement order).WellFormed :=
  Numbered.everywhere_gathered Numbered.statements_gather fun _ => trivial

theorem routines_well_formed {declared : List Routine} :
    (Node.routines declared).WellFormed ↔
      ∀ routine ∈ declared, (Node.routine routine).WellFormed :=
  Numbered.everywhere_gathered Numbered.routines_gather fun _ => trivial

end Node

namespace Rule

variable {α β : Type}

/-- Without a complaint the rule builds only what is good. -/
def Builds (rule : Rule α) (good : α → Prop) : Prop := rule.Reads fun _ _ tree _ => good tree

section Combined

variable {rule : Rule α} {good : α → Prop} {wanted : β → Prop}

theorem builds_mono {wider : α → Prop} (builds : rule.Builds good)
    (wide : ∀ tree, good tree → wider tree) : rule.Builds wider :=
  builds.weaken fun _ _ tree _ => wide tree

theorem pure_builds {tree : α} (isGood : good tree) : Builds (pure tree) good :=
  .pure fun _ => isGood

/-- What comes second is good only as far as what it is built from. -/
theorem bind_builds {next : α → Rule β} (first : rule.Builds good)
    (rest : ∀ tree, (next tree).Builds fun result => good tree → wanted result) :
    Builds (rule >>= next) wanted :=
  first.bind fun tree => (rest tree).weaken fun _ _ _ _ means _ _ isGood => means isGood

theorem map_builds {make : α → β} (builds : rule.Builds good)
    (makes : ∀ tree, good tree → wanted (make tree)) : Builds (make <$> rule) wanted := by
  rw [map_eq_pure_bind]
  exact bind_builds builds fun tree => pure_builds (makes tree)

/-- Going on after a rule whose result does not matter. -/
theorem after_builds {next : α → Rule β} (first : rule.Builds good)
    (rest : ∀ tree, (next tree).Builds wanted) : Builds (rule >>= next) wanted :=
  bind_builds first fun tree => builds_mono (rest tree) fun _ isGood _ => isGood

theorem builds_when {chosen : Prop} [Decidable chosen] {other : Rule α}
    (yes : rule.Builds good) (no : other.Builds good) :
    Builds (if chosen then rule else other) good := by
  split_ifs
  · exact yes
  · exact no

/-- Going on after either of two rules. -/
theorem either_builds {chosen : Prop} [Decidable chosen] {other : Rule α} {next : α → Rule β}
    (yes : rule.Builds good) (no : other.Builds good)
    (rest : ∀ tree, (next tree).Builds fun result => good tree → wanted result) :
    Builds (if chosen then rule >>= next else other >>= next) wanted :=
  builds_when (bind_builds yes rest) (bind_builds no rest)

end Combined

section Tokens

theorem next_builds : next.Builds fun _ => True := next_reads.weaken fun _ _ _ _ _ => trivial

theorem skip_builds : skip.Builds fun _ => True := skip_reads.weaken fun _ _ _ _ _ => trivial

theorem fresh_builds : fresh.Builds fun _ => True := fresh_reads.weaken fun _ _ _ _ _ => trivial

theorem missing_builds {good : α → Prop} (item : Missing) : (missing item).Builds good :=
  missing_reads item

theorem note_builds (place : Token) (cause : SyntaxError) :
    (note place cause).Builds fun _ => False := note_reads place cause

theorem accept_any_builds {kinds : List Kind} (inner : Kind.endOfInput ∉ kinds) :
    (acceptAny kinds).Builds fun found => ∀ token ∈ found, token.kind ∈ kinds :=
  (accept_any_reads inner).weaken fun _ _ _ _ means => means.2.1

theorem accept_builds {kind : Kind} (inner : kind ≠ .endOfInput) :
    (accept kind).Builds fun found => ∀ token ∈ found, token.kind = kind := by
  refine builds_mono (accept_any_builds (by simpa using inner.symm)) ?_
  exact fun found fits token isFound => List.mem_singleton.mp (fits token isFound)

theorem expect_builds {kind : Kind} (item : Missing) (inner : kind ≠ .endOfInput) :
    (expect kind item).Builds fun token => token.kind = kind := by
  refine bind_builds (accept_builds inner) fun found => ?_
  cases found with
  | none => exact missing_builds item
  | some token => exact pure_builds fun fits => fits token rfl

end Tokens

section Lists

variable {rule : Rule α} {good : α → Prop} (each : rule.Builds good)

include each

/-- Items beyond the limit are noted, so that what is read quietly keeps to it. -/
theorem comma_separated_builds (excess : SyntaxError) (bound count : Nat) :
    (commaSeparated rule excess bound count).Builds fun trees =>
      trees.length + count ≤ 255 ∧ ∀ tree ∈ trees, good tree := by
  induction bound generalizing count with
  | zero => exact missing_builds _
  | succ bound induction =>
      have others : Builds (items rule (commaSeparated rule excess bound (count + 1)))
          fun trees => count < 255 → trees.length + count ≤ 255 ∧ ∀ tree ∈ trees, good tree := by
        refine bind_builds each fun first => bind_builds (accept_builds (by decide)) fun comma => ?_
        cases comma with
        | none =>
            refine pure_builds fun _ isGood few => ⟨?_, List.forall_mem_singleton.mpr isGood⟩
            rw [List.length_singleton]
            omega
        | some comma =>
            refine bind_builds (induction (count + 1)) fun rest => pure_builds ?_
            rintro ⟨fits, areGood⟩ - isGood few
            refine ⟨?_, List.forall_mem_cons.mpr ⟨isGood, areGood⟩⟩
            rw [List.length_cons]
            omega
      rw [comma_separated_succ]
      split_ifs with full
      · refine after_builds next_builds fun token => bind_builds (note_builds _ _) fun _ => ?_
        exact builds_mono others fun _ _ impossible => impossible.elim
      · exact builds_mono others fun _ means => means (Nat.lt_of_not_le full)

theorem following_builds {kind : Kind} (inner : kind ≠ .endOfInput) :
    (following kind rule).Builds fun found => ∀ tree ∈ found, good tree := by
  refine after_builds (accept_builds inner) fun token => builds_when ?_ (pure_builds nofun)
  exact map_builds each fun tree isGood found same => Option.some.inj same ▸ isGood

theorem declarations_build (closes : Kind → Bool) (bound : Nat) :
    (declarations rule closes bound).Builds fun trees => ∀ tree ∈ trees, good tree := by
  induction bound with
  | zero => exact pure_builds (List.forall_mem_nil _)
  | succ bound induction =>
      refine after_builds next_builds fun token =>
        builds_when (pure_builds (List.forall_mem_nil _)) ?_
      have first : (recovering rule).Builds fun found => ∃ tree, found = some tree ∧ good tree :=
        recovering_reads each
      refine bind_builds first fun found => bind_builds induction fun others => pure_builds ?_
      rintro areGood ⟨tree, rfl, isGood⟩
      exact List.forall_mem_cons.mpr ⟨isGood, areGood⟩

end Lists

end Rule

end Lox
