import Lox.Diagnostic
import Lox.Proofs.Names.Node
import Mathlib.Data.List.Basic

/-!
The rules on names, read off the tree alone. Each rule names the tokens at which a
program breaks it; it looks at the tree from where the rule applies, up to where
something inside of it makes the rule apply no more. Nothing here knows of the walk
that checks the rules.
-/

namespace Lox

namespace Node

/-- The node and what is inside of it, but nothing inside of a node at the border. -/
def upTo (border : Node → Bool) (node : Node) : List Node :=
  node :: if border node then [] else node.parts.attach.flatMap fun part => part.1.upTo border
termination_by node
decreasing_by exact part_smaller node part.1 part.2

theorem up_to_eq (border : Node → Bool) (node : Node) :
    node.upTo border = node :: if border node then [] else node.parts.flatMap (upTo border) := by
  rw [upTo, List.flatMap_subtype (fun _ _ => rfl), List.unattach_attach]

theorem mem_up_to_self (border : Node → Bool) (node : Node) : node ∈ node.upTo border := by
  rw [up_to_eq]
  exact List.mem_cons_self

/-- Whatever is part of something inside that is no border is inside as well. -/
theorem mem_up_to_part {border : Node → Bool} {whole node part : Node}
    (inside : node ∈ whole.upTo border) (passable : border node = false)
    (member : part ∈ node.parts) : part ∈ whole.upTo border := by
  induction whole using induction_along_parts with
  | step whole parts =>
    rw [up_to_eq, List.mem_cons] at inside ⊢
    right
    rcases inside with rfl | inside
    · rw [passable]
      exact List.mem_flatMap.mpr ⟨part, member, mem_up_to_self border part⟩
    · split_ifs at inside ⊢
      · cases inside
      · obtain ⟨middle, isPart, below⟩ := List.mem_flatMap.mp inside
        exact List.mem_flatMap.mpr ⟨middle, isPart, parts middle isPart below⟩

/-- Whatever is inside of something that is inside is inside as well. -/
theorem up_to_inside {border : Node → Bool} {whole node inner : Node}
    (inside : node ∈ whole.upTo border) (member : inner ∈ node.upTo border) :
    inner ∈ whole.upTo border := by
  induction node using induction_along_parts with
  | step node parts =>
    rw [up_to_eq, List.mem_cons] at member
    rcases member with rfl | member
    · exact inside
    · split_ifs at member with passable
      · cases member
      · obtain ⟨part, isPart, below⟩ := List.mem_flatMap.mp member
        exact parts part isPart
          (mem_up_to_part inside (Bool.eq_false_iff.mpr passable) isPart) below

theorem member_up_to {border : Node → Bool} {orders : List Statement} {order : Statement}
    (lists : ∀ orders, border (.statements orders) = false) (member : order ∈ orders) :
    .statement order ∈ (Node.statements orders).upTo border := by
  induction orders with
  | nil => cases member
  | cons first rest induction =>
      have itself := mem_up_to_self border (.statements (first :: rest))
      rcases List.mem_cons.mp member with rfl | later
      · exact mem_up_to_part itself (lists _) List.mem_cons_self
      · have tail := mem_up_to_part itself (lists _)
          (List.mem_cons_of_mem _ (List.mem_singleton.mpr rfl))
        exact up_to_inside tail (induction later)

/-- Without a border, nothing is left out. -/
theorem all_eq_up_to (node : Node) : node.all = node.upTo fun _ => false := by
  induction node using induction_along_parts with
  | step node parts =>
    rw [all_eq, up_to_eq, if_neg Bool.false_ne_true]
    congr 1
    exact List.flatMap_congr parts

@[simp] def isRoutine : Node → Bool
  | .routine _ => true
  | _ => false

@[simp] def isClass : Node → Bool
  | .statement (.classDeclaration _ _ _ _) => true
  | _ => false

@[simp] def isBlock : Node → Bool
  | .statement (.block _) => true
  | _ => false

/-- What is declared inside of the node is not declared around it. -/
def opensScope (node : Node) : Bool := node.isBlock || node.isRoutine || node.isClass

@[simp] def exits : Node → List Token
  | .statement (.exit keyword _) => [keyword]
  | _ => []

@[simp] def receivers : Node → List Token
  | .expression (.receiver place) => [place.name]
  | _ => []

@[simp] def inheritances : Node → List Token
  | .expression (.inherited place _) => [place.name]
  | _ => []

@[simp] def references : Node → List Token
  | .expression (.reference place) => [place.name]
  | _ => []

/-- The name that the node declares where it stands. -/
@[simp] def introduced : Node → List Token
  | .statement (.variableDeclaration name _) => [name]
  | .statement (.routineDeclaration declared) => declared.name.toList
  | .statement (.classDeclaration name _ _ _) => [name]
  | _ => []

/-- The places of superclasses that are named as their class is. -/
@[simp] def selfInheritances : Node → List Token
  | .statement (.classDeclaration name (some place) _ _) =>
      if place.name.lexeme = name.lexeme then [place.name] else []
  | _ => []

/-- Within a class that has no superclass, where its methods ask for it. -/
@[simp] def vainInheritances : Node → List Token
  | .statement (.classDeclaration _ none methods classMethods) =>
      ((Node.routines methods).upTo isClass).flatMap inheritances ++
        ((Node.routines classMethods).upTo isClass).flatMap inheritances
  | _ => []

/-- Within a declaration, the reads of its own name before it has a value. -/
@[simp] def ownReads : Node → List Token
  | .statement (.variableDeclaration name (some initializer)) =>
      (((Node.expression initializer).upTo isRoutine).flatMap references).filter
        (·.lexeme = name.lexeme)
  | _ => []

/-- The nodes whose declarations share the scope of the node itself. -/
def region (node : Node) : List Node := node.upTo opensScope

end Node

/-- The tokens whose name is taken, or that of an earlier one. -/
def repeatedAfter (taken : String → Bool) : List Token → List Token
  | [] => []
  | first :: rest =>
      (if taken first.lexeme then [first] else []) ++
        repeatedAfter (fun name => name = first.lexeme || taken name) rest

namespace Node

/-- The names that the scope of the node itself begins with. -/
@[simp] def parameters : Node → List Token
  | .routine declared => declared.parameters.getD []
  | _ => []

/-- What declares the other names of the scope of the node itself, if it has one. -/
@[simp] def body? : Node → Option Node
  | .statement (.block body) => some (.statements body)
  | .routine declared => some (.statements declared.body)
  | _ => none

/-- The names declared in the scope of the node itself for a second time. -/
def redeclarations (node : Node) : List Token :=
  node.body?.toList.flatMap fun body =>
    repeatedAfter (fun _ => false) (node.parameters ++ body.region.flatMap introduced)

/-- The reads of the variables of the node's scope in their own initializers. -/
def prematureReads (node : Node) : List Token :=
  node.body?.toList.flatMap fun body => body.region.flatMap ownReads

/-- Where a program breaks a rule. Names at the top level are in no scope, so that they may
be declared again. -/
def breaches (program : Node) : BindingError → List Token
  | .topLevelReturn => (program.upTo isRoutine).flatMap exits
  | .selfOutsideClass => (program.upTo isClass).flatMap receivers
  | .superOutsideClass => (program.upTo isClass).flatMap inheritances
  | .superWithoutSuperclass => program.all.flatMap vainInheritances
  | .redeclared => program.all.flatMap redeclarations
  | .inheritsFromItself => program.all.flatMap selfInheritances
  | .ownInitializer => program.all.flatMap prematureReads

end Node

end Lox
