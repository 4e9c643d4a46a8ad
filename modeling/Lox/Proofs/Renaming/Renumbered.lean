import Lox.Proofs.Renaming.Likeness
import Lox.Proofs.Renaming.Relabel

/-!
Programs that differ in the numbers of their occurrences and in nothing else. As no name is
respelled, they are alike as soon as one number stands for the other at every occurrence.
-/

namespace Lox

/-- The tokens as they are, and no numbers. -/
def Labels.unnumbered : Labels := ⟨id, fun _ => 0⟩

namespace Recast

variable {recast : Recast} (same : recast.old = recast.new)

include same

theorem spells_itself (renamed : Bool) (token : Token) : recast.Spells renamed token token :=
  ⟨by rw [spelling_of_same same], fun _ => same⟩

theorem keeps_all (renamed : Bool) (name : String) : recast.Keeps renamed name :=
  ⟨spelling_of_same same renamed name, fun _ => same⟩

theorem spells_all (renamed : Bool) (tokens : Option (List Token)) :
    Option.Rel (List.Forall₂ (recast.Spells renamed)) tokens tokens := by
  cases tokens with
  | none => exact .none
  | some tokens =>
      exact .some (List.forall₂_same.mpr fun token _ => spells_itself same renamed token)

end Recast

namespace Node

/-- Two trees that differ in the numbers of their occurrences alone. -/
def SameButNumbers (node node' : Node) : Prop :=
  node'.relabel .unnumbered = node.relabel .unnumbered

/-- The occurrences of the second tree have the numbers that stand for those in the first. -/
def Renumbered (number : Nat → Nat) (node node' : Node) : Prop :=
  node'.occurrences.map Occurrence.id = node.occurrences.map fun place => number place.id

section Parts

variable {number : Nat → Nat} {node node' : Node}

theorem SameButNumbers.parts (shape : node.SameButNumbers node') :
    List.Forall₂ SameButNumbers node.parts node'.parts := by
  have same := congrArg Node.parts shape
  rw [parts_relabel, parts_relabel, ← List.forall₂_eq_eq_eq, List.forall₂_map_left_iff,
    List.forall₂_map_right_iff] at same
  exact same.flip

theorem SameButNumbers.count (shape : node.SameButNumbers node') :
    node'.occurrences.length = node.occurrences.length := by
  have same := congrArg (List.length ∘ occurrences) shape
  simpa [occurrences_relabel] using same

/-- Numbers stand for each other part by part, and then for the own occurrence. -/
theorem renumbered_parts {motive : Node → Node → Prop} {parts parts' : List Node}
    {own own' : List Nat} (shapes : List.Forall₂ SameButNumbers parts parts')
    (numbers : (parts'.flatMap occurrences).map Occurrence.id ++ own' =
      (parts.flatMap occurrences).map (fun place => number place.id) ++ own)
    (each : ∀ part ∈ parts, ∀ part', part.SameButNumbers part' → part.Renumbered number part' →
      motive part part') : List.Forall₂ motive parts parts' ∧ own' = own := by
  induction shapes with
  | nil => exact ⟨.nil, numbers⟩
  | @cons part part' rest rest' shape shapes induction =>
      simp only [List.flatMap_cons, List.map_append, List.append_assoc] at numbers
      obtain ⟨here, further⟩ := List.append_inj numbers (by simpa using shape.count)
      rw [List.forall_mem_cons] at each
      obtain ⟨others, owns⟩ := induction further each.2
      exact ⟨.cons (each.1 part' shape here) others, owns⟩

end Parts

section Alike

variable {recast : Recast} (same : recast.old = recast.new)

include same

theorem expression_alike_renumbered {value value' : Expression} (flags : List Bool)
    (shape : value'.relabel .unnumbered = value.relabel .unnumbered)
    (inside : List.Forall₂ (fun part part' => ∀ flags, part.Alike recast flags part')
      (Node.expression value).parts (Node.expression value').parts)
    (own : ∀ place place', (Node.expression value).place? = some place →
      (Node.expression value').place? = some place' → place'.id = recast.number place.id) :
    (Node.expression value).Alike recast flags (.expression value') := by
  have occurs (place place' : Occurrence) (name : place'.name = place.name)
      (first : (Node.expression value).place? = some place)
      (second : (Node.expression value').place? = some place') :
      recast.Occurs flags place place' :=
    ⟨own place place' first second, by rw [name]; exact Recast.spells_itself same _ _⟩
  cases value <;> cases value' <;>
    simp only [Expression.relabel, Occurrence.relabel, Labels.unnumbered, id_eq, reduceCtorEq,
      Expression.literal.injEq, Expression.grouping.injEq, Expression.unary.injEq,
      Expression.binary.injEq, Expression.logical.injEq, Expression.conditional.injEq,
      Expression.reference.injEq, Expression.assign.injEq, Expression.call.injEq,
      Expression.get.injEq, Expression.set.injEq, Expression.lambda.injEq,
      Expression.receiver.injEq, Expression.inherited.injEq, Occurrence.mk.injEq,
      true_and] at shape <;>
    simp only [Node.parts, List.forall₂_cons] at inside
  case literal.literal =>
    obtain rfl := shape
    exact .literal
  case reference.reference => exact .reference (occurs _ _ shape rfl rfl)
  case receiver.receiver => exact .receiver (occurs _ _ shape rfl rfl)
  case inherited.inherited =>
    obtain ⟨name, rfl⟩ := shape
    exact .inherited (occurs _ _ name rfl rfl)
  case assign.assign => exact .assign (occurs _ _ shape.1 rfl rfl) (inside.1 flags)
  case grouping.grouping => exact .grouping (inside.1 flags)
  case unary.unary =>
    obtain ⟨rfl, -⟩ := shape
    exact .unary (.refl _) (inside.1 flags)
  case get.get =>
    obtain ⟨-, rfl⟩ := shape
    exact .get (inside.1 flags)
  case lambda.lambda => exact .lambda (inside.1 flags)
  case binary.binary =>
    obtain ⟨-, rfl, -⟩ := shape
    exact .binary (.refl _) (inside.1 flags) (inside.2.1 flags)
  case logical.logical =>
    obtain ⟨-, rfl, -⟩ := shape
    exact .logical (.refl _) (inside.1 flags) (inside.2.1 flags)
  case call.call =>
    obtain ⟨-, rfl, -⟩ := shape
    exact .call (.refl _) (inside.1 flags) (inside.2.1 flags)
  case set.set =>
    obtain ⟨-, rfl, -⟩ := shape
    exact .set (inside.1 flags) (inside.2.1 flags)
  case conditional.conditional =>
    exact .choice (inside.1 flags) (inside.2.1 flags) (inside.2.2.1 flags)

theorem statement_alike_renumbered {order order' : Statement} (flags : List Bool)
    (shape : order'.relabel .unnumbered = order.relabel .unnumbered)
    (inside : List.Forall₂ (fun part part' => ∀ flags, part.Alike recast flags part')
      (Node.statement order).parts (Node.statement order').parts) :
    (Node.statement order).Alike recast flags (.statement order') := by
  cases order <;> cases order' <;>
    simp only [Statement.relabel, Statement.variable_declaration_relabel,
      Statement.conditional_relabel, Statement.exit_relabel, Labels.unnumbered, id_eq,
      reduceCtorEq, Statement.expression.injEq, Statement.print.injEq,
      Statement.variableDeclaration.injEq, Statement.block.injEq, Statement.conditional.injEq,
      Statement.loop.injEq, Statement.routineDeclaration.injEq, Statement.exit.injEq,
      Statement.classDeclaration.injEq] at shape
  case expression.expression =>
    simp only [Node.parts, List.forall₂_cons] at inside
    exact .evaluation (inside.1 flags)
  case print.print =>
    simp only [Node.parts, List.forall₂_cons] at inside
    exact .print (inside.1 flags)
  case block.block =>
    simp only [Node.parts, List.forall₂_cons] at inside
    exact .block false (inside.1 (false :: flags))
  case loop.loop =>
    simp only [Node.parts, List.forall₂_cons] at inside
    exact .loop (inside.1 flags) (inside.2.1 flags)
  case variableDeclaration.variableDeclaration name value name' value' =>
    obtain ⟨rfl, values⟩ := shape
    rcases value with - | value <;> rcases value' with - | value'
    · exact .uninitialized (Recast.spells_itself same _ _)
    · cases values
    · cases values
    · simp only [Node.parts, List.forall₂_cons] at inside
      exact .initialized (Recast.spells_itself same _ _) (inside.1 flags)
  case conditional.conditional condition thenBranch elseBranch condition' thenBranch' elseBranch' =>
    obtain ⟨-, -, branches⟩ := shape
    rcases elseBranch with - | elseBranch <;> rcases elseBranch' with - | elseBranch'
    · simp only [Node.parts, List.forall₂_cons] at inside
      exact .conditional (inside.1 flags) (inside.2.1 flags)
    · cases branches
    · cases branches
    · simp only [Node.parts, List.forall₂_cons] at inside
      exact .alternative (inside.1 flags) (inside.2.1 flags) (inside.2.2.1 flags)
  case exit.exit keyword value keyword' value' =>
    obtain ⟨rfl, values⟩ := shape
    rcases value with - | value <;> rcases value' with - | value'
    · exact .exit (.refl _)
    · cases values
    · cases values
    · simp only [Node.parts, List.forall₂_cons] at inside
      exact .exitWith (.refl _) (inside.1 flags)
  case routineDeclaration.routineDeclaration routine routine' =>
    simp only [Node.parts, List.forall₂_cons] at inside
    exact .routineDeclaration (fun _ _ => Recast.keeps_all same _ _)
      (Recast.spelling_of_same same _ _) (inside.1 flags)
  case classDeclaration.classDeclaration name superclass _ _ name' superclass' _ _ =>
    obtain ⟨rfl, above, -⟩ := shape
    rcases superclass with - | superclass <;> rcases superclass' with - | superclass'
    · simp only [Node.parts, List.forall₂_cons] at inside
      exact .base (Recast.keeps_all same _ _) (inside.1 (false :: flags))
        (inside.2.1 (false :: flags))
    · cases above
    · cases above
    · simp only [Node.parts, List.forall₂_cons] at inside
      obtain ⟨place, methods, classMethods, -⟩ := inside
      cases place flags with
      | reference occurs =>
          exact .derived (Recast.keeps_all same _ _) occurs (methods (false :: false :: flags))
            (classMethods (false :: false :: flags))

/-- Trees are alike if they differ in their numbers alone and each number stands for the other. -/
theorem alike_renumbered {node node' : Node} (shape : node.SameButNumbers node')
    (numbers : node.Renumbered recast.number node') (flags : List Bool) :
    node.Alike recast flags node' := by
  induction node using induction_along_parts generalizing node' flags with
  | step node parts =>
    have split := numbers
    unfold Renumbered at split
    rw [occurrences_eq, occurrences_eq, List.map_append, List.map_append] at split
    have both : List.Forall₂ (fun part part' => ∀ flags, part.Alike recast flags part')
        node.parts node'.parts ∧ _ :=
      renumbered_parts shape.parts split fun part member part' shape numbers flags =>
        parts part member shape numbers flags
    obtain ⟨inside, own⟩ := both
    clear parts numbers split
    cases node <;> cases node' <;>
      simp only [SameButNumbers, relabel, reduceCtorEq, expression.injEq, expressions.injEq,
        statement.injEq, statements.injEq, routine.injEq, routines.injEq] at shape
    case expression.expression value value' =>
      refine expression_alike_renumbered same flags shape inside fun place place' first second => ?_
      rw [first, second] at own
      exact List.singleton_inj.mp own
    case statement.statement order order' =>
      exact statement_alike_renumbered same flags shape inside
    case expressions.expressions values values' =>
      rcases values with - | ⟨value, values⟩ <;> rcases values' with - | ⟨value', values'⟩
      · exact .noExpressions
      · cases shape
      · cases shape
      · simp only [Node.parts, List.forall₂_cons] at inside
        exact .expressions (inside.1 flags) (inside.2.1 flags)
    case statements.statements orders orders' =>
      rcases orders with - | ⟨order, orders⟩ <;> rcases orders' with - | ⟨order', orders'⟩
      · exact .noStatements
      · cases shape
      · cases shape
      · simp only [Node.parts, List.forall₂_cons] at inside
        exact .statements (inside.1 flags) (inside.2.1 flags)
    case routines.routines declared declared' =>
      rcases declared with - | ⟨routine, declared⟩ <;>
        rcases declared' with - | ⟨routine', declared'⟩
      · exact .noRoutines
      · cases shape
      · cases shape
      · simp only [Node.parts, List.forall₂_cons] at inside
        exact .routines (inside.1 flags) (inside.2.1 flags)
    case routine.routine declared declared' =>
      obtain ⟨name, parameters, body⟩ := declared
      obtain ⟨name', parameters', body'⟩ := declared'
      simp only [Node.parts, List.forall₂_cons] at inside
      simp only [Routine.relabel, Labels.unnumbered, Routine.mk.injEq, List.map_id_fun, id_eq,
        Option.map_id_fun, Option.map_id'] at shape
      obtain ⟨rfl, rfl, -⟩ := shape
      exact .routine false (Recast.spells_all same _ _) (inside.1 (false :: flags))

end Alike

end Node

end Lox
