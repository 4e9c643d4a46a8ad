import Lox.Proofs.Names.Node

/-!
Trees with other tokens and other numbers in the same places. What becomes of a
tree depends only on what becomes of its tokens and of the numbers of its
occurrences.
-/

namespace Lox

/-- What to put in the place of each token and of each number. -/
structure Labels where
  token : Token → Token
  number : Nat → Nat

/-- Labels that leave all tokens and numbers as they are. -/
def Labels.same : Labels := ⟨id, id⟩

def Occurrence.relabel (labels : Labels) (place : Occurrence) : Occurrence :=
  ⟨labels.number place.id, labels.token place.name⟩

mutual

def Expression.relabel (labels : Labels) : Expression → Expression
  | .literal value => .literal value
  | .grouping inner => .grouping (inner.relabel labels)
  | .unary operator operand => .unary (labels.token operator) (operand.relabel labels)
  | .binary left operator right =>
      .binary (left.relabel labels) (labels.token operator) (right.relabel labels)
  | .logical left operator right =>
      .logical (left.relabel labels) (labels.token operator) (right.relabel labels)
  | .conditional condition thenBranch elseBranch =>
      .conditional (condition.relabel labels) (thenBranch.relabel labels)
        (elseBranch.relabel labels)
  | .reference place => .reference (place.relabel labels)
  | .assign place value => .assign (place.relabel labels) (value.relabel labels)
  | .call callee closing arguments =>
      .call (callee.relabel labels) (labels.token closing) (Expression.relabelAll labels arguments)
  | .get object name => .get (object.relabel labels) (labels.token name)
  | .set object name value =>
      .set (object.relabel labels) (labels.token name) (value.relabel labels)
  | .lambda routine => .lambda (routine.relabel labels)
  | .receiver place => .receiver (place.relabel labels)
  | .inherited place method => .inherited (place.relabel labels) (labels.token method)

def Expression.relabelAll (labels : Labels) : List Expression → List Expression
  | [] => []
  | first :: rest => first.relabel labels :: Expression.relabelAll labels rest

def Routine.relabel (labels : Labels) : Routine → Routine
  | ⟨name, parameters, body⟩ =>
      ⟨name.map labels.token, parameters.map (·.map labels.token),
        Statement.relabelAll labels body⟩

def Routine.relabelAll (labels : Labels) : List Routine → List Routine
  | [] => []
  | first :: rest => first.relabel labels :: Routine.relabelAll labels rest

def Statement.relabel (labels : Labels) : Statement → Statement
  | .expression value => .expression (value.relabel labels)
  | .print value => .print (value.relabel labels)
  | .variableDeclaration name none => .variableDeclaration (labels.token name) none
  | .variableDeclaration name (some value) =>
      .variableDeclaration (labels.token name) (some (value.relabel labels))
  | .block statements => .block (Statement.relabelAll labels statements)
  | .conditional condition thenBranch none =>
      .conditional (condition.relabel labels) (thenBranch.relabel labels) none
  | .conditional condition thenBranch (some elseBranch) =>
      .conditional (condition.relabel labels) (thenBranch.relabel labels)
        (some (elseBranch.relabel labels))
  | .loop condition body => .loop (condition.relabel labels) (body.relabel labels)
  | .routineDeclaration routine => .routineDeclaration (routine.relabel labels)
  | .exit keyword none => .exit (labels.token keyword) none
  | .exit keyword (some value) => .exit (labels.token keyword) (some (value.relabel labels))
  | .classDeclaration name superclass methods classMethods =>
      .classDeclaration (labels.token name) (superclass.map (·.relabel labels))
        (Routine.relabelAll labels methods) (Routine.relabelAll labels classMethods)

def Statement.relabelAll (labels : Labels) : List Statement → List Statement
  | [] => []
  | first :: rest => first.relabel labels :: Statement.relabelAll labels rest

end

section Lists

variable (labels : Labels)

theorem Expression.relabel_all_eq (values : List Expression) :
    Expression.relabelAll labels values = values.map (·.relabel labels) := by
  induction values with
  | nil => rfl
  | cons first rest induction => rw [relabelAll, induction, List.map_cons]

theorem Statement.relabel_all_eq (orders : List Statement) :
    Statement.relabelAll labels orders = orders.map (·.relabel labels) := by
  induction orders with
  | nil => rfl
  | cons first rest induction => rw [relabelAll, induction, List.map_cons]

theorem Routine.relabel_all_eq (declared : List Routine) :
    Routine.relabelAll labels declared = declared.map (·.relabel labels) := by
  induction declared with
  | nil => rfl
  | cons first rest induction => rw [relabelAll, induction, List.map_cons]

end Lists

section Options

variable (labels : Labels)

theorem Statement.variable_declaration_relabel (name : Token) (initializer : Option Expression) :
    (Statement.variableDeclaration name initializer).relabel labels =
      .variableDeclaration (labels.token name) (initializer.map (Expression.relabel labels)) := by
  cases initializer <;> rfl

theorem Statement.conditional_relabel (condition : Expression) (thenBranch : Statement)
    (elseBranch : Option Statement) :
    (Statement.conditional condition thenBranch elseBranch).relabel labels =
      .conditional (condition.relabel labels) (thenBranch.relabel labels)
        (elseBranch.map (Statement.relabel labels)) := by
  cases elseBranch <;> rfl

theorem Statement.exit_relabel (keyword : Token) (value : Option Expression) :
    (Statement.exit keyword value).relabel labels =
      .exit (labels.token keyword) (value.map (Expression.relabel labels)) := by
  cases value <;> rfl

end Options

namespace Node

def relabel (labels : Labels) : Node → Node
  | .expression value => .expression (value.relabel labels)
  | .expressions values => .expressions (Expression.relabelAll labels values)
  | .statement order => .statement (order.relabel labels)
  | .statements orders => .statements (Statement.relabelAll labels orders)
  | .routine declared => .routine (declared.relabel labels)
  | .routines declared => .routines (Routine.relabelAll labels declared)

theorem part_occurrences {node part : Node} (member : part ∈ node.parts) {place : Occurrence}
    (inside : place ∈ part.occurrences) : place ∈ node.occurrences := by
  rw [occurrences_eq]
  exact List.mem_append_left _ (List.mem_flatMap.mpr ⟨part, member, inside⟩)

theorem own_occurrence {node : Node} {place : Occurrence} (own : node.place? = some place) :
    place ∈ node.occurrences := by
  rw [occurrences_eq, own]
  exact List.mem_append_right _ List.mem_cons_self

section Labels

variable (labels : Labels)

theorem parts_relabel (node : Node) :
    (node.relabel labels).parts = node.parts.map (relabel labels) := by
  cases node with
  | expression value => cases value <;> rfl
  | expressions values => cases values <;> rfl
  | statement order =>
      cases order with
      | variableDeclaration name value => cases value <;> rfl
      | conditional condition thenBranch elseBranch => cases elseBranch <;> rfl
      | exit keyword value => cases value <;> rfl
      | classDeclaration name superclass methods classMethods => cases superclass <;> rfl
      | _ => rfl
  | statements orders => cases orders <;> rfl
  | routine declared => cases declared; rfl
  | routines declared => cases declared <;> rfl

theorem place_relabel (node : Node) :
    (node.relabel labels).place? = node.place?.map (Occurrence.relabel labels) := by
  cases node with
  | expression value => cases value <;> rfl
  | expressions | statement | statements | routine | routines => rfl

theorem occurrences_relabel (node : Node) :
    (node.relabel labels).occurrences = node.occurrences.map (Occurrence.relabel labels) := by
  induction node using induction_along_parts with
  | step node parts =>
    have below : node.parts.map (fun part => (part.relabel labels).occurrences) =
        node.parts.map fun part => part.occurrences.map (Occurrence.relabel labels) :=
      List.map_congr_left parts
    rw [occurrences_eq, occurrences_eq, parts_relabel, place_relabel, List.map_append,
      List.map_flatMap, List.flatMap_map, Option.toList_map, List.flatMap_def, List.flatMap_def,
      below]

/-- Labels put on other labels. -/
theorem relabel_relabel (other : Labels) (node : Node) :
    (node.relabel labels).relabel other =
      node.relabel ⟨other.token ∘ labels.token, other.number ∘ labels.number⟩ := by
  induction node using induction_along_parts with
  | step node parts =>
    cases node with
    | expression value =>
        cases value <;> simp_all [Node.parts, relabel, Expression.relabel, Occurrence.relabel]
    | expressions values => cases values <;> simp_all [Node.parts, relabel, Expression.relabelAll]
    | statement order =>
        cases order with
        | variableDeclaration name value =>
            cases value <;> simp_all [Node.parts, relabel, Statement.relabel]
        | conditional condition thenBranch elseBranch =>
            cases elseBranch <;> simp_all [Node.parts, relabel, Statement.relabel]
        | exit keyword value =>
            cases value <;> simp_all [Node.parts, relabel, Statement.relabel]
        | classDeclaration name superclass methods classMethods =>
            cases superclass <;>
              simp_all [Node.parts, relabel, Statement.relabel, Expression.relabel]
        | expression | print | block | loop | routineDeclaration =>
            simp_all [Node.parts, relabel, Statement.relabel]
    | statements orders => cases orders <;> simp_all [Node.parts, relabel, Statement.relabelAll]
    | routine declared =>
        obtain ⟨name, parameters, body⟩ := declared
        cases parameters <;> simp_all [Node.parts, relabel, Routine.relabel]
    | routines declared =>
        cases declared <;> simp_all [Node.parts, relabel, Routine.relabelAll]

theorem relabel_same (node : Node) : node.relabel .same = node := by
  have place (place : Occurrence) : place.relabel .same = place := rfl
  have token (token : Token) : Labels.same.token token = token := rfl
  have option (found : Option Token) : found.map Labels.same.token = found := Option.map_id_apply
  have tokens (found : Option (List Token)) :
      (found.map fun tokens => tokens.map Labels.same.token) = found := by
    cases found with
    | none => rfl
    | some tokens => exact congrArg some (List.map_id tokens)
  induction node using induction_along_parts with
  | step node parts =>
    cases node with
    | expression value =>
        cases value <;>
          simp_all [Node.parts, relabel, Expression.relabel]
    | expressions values =>
        cases values <;> simp_all [Node.parts, relabel, Expression.relabelAll]
    | statement order =>
        cases order with
        | variableDeclaration name value =>
            cases value <;> simp_all [Node.parts, relabel, Statement.relabel]
        | conditional condition thenBranch elseBranch =>
            cases elseBranch <;> simp_all [Node.parts, relabel, Statement.relabel]
        | exit keyword value =>
            cases value <;> simp_all [Node.parts, relabel, Statement.relabel]
        | classDeclaration name superclass methods classMethods =>
            cases superclass <;>
              simp_all [Node.parts, relabel, Statement.relabel, Expression.relabel]
        | expression | print | block | loop | routineDeclaration =>
            simp_all [Node.parts, relabel, Statement.relabel]
    | statements orders =>
        cases orders <;> simp_all [Node.parts, relabel, Statement.relabelAll]
    | routine declared =>
        obtain ⟨name, parameters, body⟩ := declared
        simp_all [Node.parts, relabel, Routine.relabel]
    | routines declared =>
        cases declared <;> simp_all [Node.parts, relabel, Routine.relabelAll]

end Labels

end Node

end Lox
