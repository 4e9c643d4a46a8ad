import Lox.Syntax
import Mathlib.Logic.Relation

/-!
Programs as trees of nodes. The parts of a node come in the order in which the
analysis of names walks them. Facts about trees are shown by induction along the
parts, and a fact about all pieces of a program is a fact about every node that
the program contains.
-/

namespace Lox

inductive Node where
  | expression (expression : Expression)
  | expressions (expressions : List Expression)
  | statement (statement : Statement)
  | statements (statements : List Statement)
  | routine (routine : Routine)
  | routines (routines : List Routine)

namespace Node

def parts : Node → List Node
  | .expression value =>
      match value with
      | .literal _ | .reference _ | .receiver _ | .inherited _ _ => []
      | .grouping inner | .unary _ inner | .assign _ inner | .get inner _ => [.expression inner]
      | .binary left _ right | .logical left _ right => [.expression left, .expression right]
      | .conditional condition thenBranch elseBranch =>
          [.expression condition, .expression thenBranch, .expression elseBranch]
      | .call callee _ arguments => [.expression callee, .expressions arguments]
      | .set object _ value => [.expression value, .expression object]
      | .lambda written => [.routine written]
  | .expressions [] => []
  | .expressions (first :: rest) => [.expression first, .expressions rest]
  | .statement order =>
      match order with
      | .variableDeclaration _ none | .exit _ none => []
      | .expression value | .print value | .variableDeclaration _ (some value)
      | .exit _ (some value) => [.expression value]
      | .block orders => [.statements orders]
      | .conditional condition thenBranch none => [.expression condition, .statement thenBranch]
      | .conditional condition thenBranch (some elseBranch) =>
          [.expression condition, .statement thenBranch, .statement elseBranch]
      | .loop condition body => [.expression condition, .statement body]
      | .routineDeclaration declared => [.routine declared]
      | .classDeclaration _ none methods classMethods => [.routines methods, .routines classMethods]
      | .classDeclaration _ (some place) methods classMethods =>
          [.expression (.reference place), .routines methods, .routines classMethods]
  | .statements [] => []
  | .statements (first :: rest) => [.statement first, .statements rest]
  | .routine declared => [.statements declared.body]
  | .routines [] => []
  | .routines (first :: rest) => [.routine first, .routines rest]

theorem part_smaller (node : Node) : ∀ part ∈ node.parts, sizeOf part < sizeOf node := by
  cases node with
  | expression value => cases value <;> simp [parts] <;> omega
  | expressions values => cases values <;> simp [parts]; omega
  | statement order =>
      cases order with
      | variableDeclaration name initializer => cases initializer <;> simp [parts]; omega
      | conditional condition thenBranch elseBranch =>
          cases elseBranch <;> simp [parts] <;> omega
      | exit keyword value => cases value <;> simp [parts]; omega
      | classDeclaration name superclass methods classMethods =>
          cases superclass <;> simp [parts] <;> omega
      | expression | print | block | loop | routineDeclaration => simp [parts] <;> omega
  | statements orders => cases orders <;> simp [parts]; omega
  | routine declared =>
      obtain ⟨name, parameters, body⟩ := declared
      simp only [parts, List.mem_singleton, forall_eq, statements.sizeOf_spec, routine.sizeOf_spec,
        Routine.mk.sizeOf_spec]
      omega
  | routines declared => cases declared <;> simp [parts]; omega

/-- Whatever holds of a node as soon as it holds of its parts holds of all nodes. -/
theorem induction_along_parts {motive : Node → Prop}
    (step : ∀ node, (∀ part ∈ node.parts, motive part) → motive node) (node : Node) :
    motive node :=
  step node fun part _ => induction_along_parts step part
termination_by node
decreasing_by exact part_smaller node part ‹_›

/-- The node and all nodes inside of it. -/
def Contains : Node → Node → Prop := Relation.ReflTransGen fun whole part => part ∈ whole.parts

theorem contains_iff {whole inner : Node} :
    whole.Contains inner ↔ inner = whole ∨ ∃ part ∈ whole.parts, part.Contains inner :=
  Relation.ReflTransGen.cases_head_iff.trans (or_congr_left eq_comm)

/-- Every node inside of this one, and it itself, has a property of its own. -/
def Everywhere (own : Node → Prop) (node : Node) : Prop :=
  ∀ inner, node.Contains inner → own inner

theorem everywhere_iff {own : Node → Prop} {node : Node} :
    node.Everywhere own ↔ own node ∧ ∀ part ∈ node.parts, part.Everywhere own := by
  constructor
  · intro all
    refine ⟨all node .refl, fun part isPart inner below => all inner ?_⟩
    exact contains_iff.mpr (.inr ⟨part, isPart, below⟩)
  · rintro ⟨here, parts⟩ inner contained
    rcases contains_iff.mp contained with rfl | ⟨part, isPart, below⟩
    · exact here
    · exact parts part isPart inner below

theorem Everywhere.build {own : Node → Prop} {node : Node} (here : own node)
    (parts : ∀ part ∈ node.parts, part.Everywhere own) : node.Everywhere own :=
  everywhere_iff.mpr ⟨here, parts⟩

/-- The node and all nodes inside of it, one after the other. -/
def all (node : Node) : List Node := node :: node.parts.attach.flatMap fun part => part.1.all
termination_by node
decreasing_by exact part_smaller node part.1 part.2

theorem all_eq (node : Node) : node.all = node :: node.parts.flatMap all := by
  rw [all, List.flatMap_subtype, List.unattach_attach]
  intro part member
  rfl

theorem contains_iff_mem {whole inner : Node} : whole.Contains inner ↔ inner ∈ whole.all := by
  induction whole using induction_along_parts with
  | step whole parts =>
    rw [contains_iff, all_eq, List.mem_cons, List.mem_flatMap]
    exact or_congr_right (exists_congr fun part => and_congr_right (parts part))

def isList : Node → Bool
  | .expressions _ | .statements _ | .routines _ => true
  | _ => false

/-- The occurrence that the node itself is. -/
def place? : Node → Option Occurrence
  | .expression (.reference place) | .expression (.assign place _) | .expression (.receiver place)
  | .expression (.inherited place _) => some place
  | _ => none

/-- The occurrences in a node, in the order of the walk. -/
def occurrences (node : Node) : List Occurrence :=
  (node.parts.attach.flatMap fun part => part.1.occurrences) ++ node.place?.toList
termination_by node
decreasing_by exact part_smaller node part.1 part.2

theorem occurrences_eq (node : Node) :
    node.occurrences = node.parts.flatMap occurrences ++ node.place?.toList := by
  rw [occurrences, List.flatMap_subtype, List.unattach_attach]
  intro part member
  rfl

end Node

/-- Only a list of statements has room for declarations. -/
def Statement.isDeclaration : Statement → Bool
  | .variableDeclaration _ _ | .routineDeclaration _ | .classDeclaration _ _ _ _ => true
  | _ => false

/-- Branches declare nothing, and what is declared as a routine has a name. -/
def Node.WellShaped : Node → Prop
  | .statement (.conditional _ thenBranch elseBranch) =>
      thenBranch.isDeclaration = false ∧ ∀ branch ∈ elseBranch, branch.isDeclaration = false
  | .statement (.loop _ body) => body.isDeclaration = false
  | .statement (.routineDeclaration declared) => declared.name.isSome = true
  | _ => True

end Lox
