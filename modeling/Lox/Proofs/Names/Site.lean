import Lox.Binding
import Lox.Proofs.Names.Node

/-!
Program points. A site is a node together with the state in which the walk of
the analysis comes to it and with the scopes around it as they are when the walk
leaves them, so that everything declared anywhere in them is in there. The walk
only ever adds: names to the innermost scope, bonds and violations.
-/

namespace Lox

def Node.analyse : Node → Analysis → Analysis
  | .expression value => value.analyse
  | .expressions values => Expression.analyseAll values
  | .statement order => order.analyse
  | .statements orders => Statement.analyseAll orders
  | .routine declared => declared.analyse
  | .routines declared => Routine.analyseAll declared

structure Site where
  node : Node
  analysis : Analysis
  /-- The scopes around the node, innermost first, each with all that is declared in it. -/
  full : List StaticScope

namespace Site

def after (site : Site) : Analysis := site.node.analyse site.analysis

/-- The site of some statements in a scope of their own. -/
def ofBody (body : List Statement) (entered : Analysis) (full : List StaticScope) : Site :=
  ⟨.statements body, entered, (Statement.analyseAll body entered).scopes.take 1 ++ full⟩

/-- The sites of the methods of a class, which lie in some scopes of their own. -/
def ofMethods (methods classMethods : List Routine) (entered : Analysis) (own : Nat)
    (full : List StaticScope) : List Site :=
  [⟨.routines methods, entered, entered.scopes.take own ++ full⟩,
    ⟨.routines classMethods, Routine.analyseAll methods entered,
      entered.scopes.take own ++ full⟩]

/-- The walk inside of a routine, where its body begins. -/
def entered (declared : Routine) (analysis : Analysis) : Analysis :=
  ({ analysis with inRoutine := true }.enter).declareAll (declared.parameters.getD [])

/-- The sites of the parts of a node, in the order of the walk. -/
def parts : Site → List Site
  | ⟨.expression value, analysis, full⟩ =>
      match value with
      | .literal _ | .reference _ | .receiver _ | .inherited _ _ => []
      | .grouping inner | .unary _ inner | .assign _ inner | .get inner _ =>
          [⟨.expression inner, analysis, full⟩]
      | .binary left _ right | .logical left _ right =>
          [⟨.expression left, analysis, full⟩,
            ⟨.expression right, left.analyse analysis, full⟩]
      | .conditional condition thenBranch elseBranch =>
          [⟨.expression condition, analysis, full⟩,
            ⟨.expression thenBranch, condition.analyse analysis, full⟩,
            ⟨.expression elseBranch, thenBranch.analyse (condition.analyse analysis), full⟩]
      | .call callee _ arguments =>
          [⟨.expression callee, analysis, full⟩,
            ⟨.expressions arguments, callee.analyse analysis, full⟩]
      | .set object _ value =>
          [⟨.expression value, analysis, full⟩,
            ⟨.expression object, value.analyse analysis, full⟩]
      | .lambda written => [⟨.routine written, analysis, full⟩]
  | ⟨.expressions [], _, _⟩ => []
  | ⟨.expressions (first :: rest), analysis, full⟩ =>
      [⟨.expression first, analysis, full⟩, ⟨.expressions rest, first.analyse analysis, full⟩]
  | ⟨.statement order, analysis, full⟩ =>
      match order with
      | .variableDeclaration _ none | .exit _ none => []
      | .expression value | .print value => [⟨.expression value, analysis, full⟩]
      | .variableDeclaration name (some value) =>
          [⟨.expression value, analysis.declare name, full⟩]
      | .block orders => [ofBody orders analysis.enter full]
      | .conditional condition thenBranch none =>
          [⟨.expression condition, analysis, full⟩,
            ⟨.statement thenBranch, condition.analyse analysis, full⟩]
      | .conditional condition thenBranch (some elseBranch) =>
          [⟨.expression condition, analysis, full⟩,
            ⟨.statement thenBranch, condition.analyse analysis, full⟩,
            ⟨.statement elseBranch, thenBranch.analyse (condition.analyse analysis), full⟩]
      | .loop condition body =>
          [⟨.expression condition, analysis, full⟩,
            ⟨.statement body, condition.analyse analysis, full⟩]
      | .routineDeclaration declared =>
          [⟨.routine declared, analysis.declareAll declared.name.toList, full⟩]
      | .exit keyword (some value) =>
          [⟨.expression value,
            if analysis.inRoutine then analysis else analysis.report keyword .topLevelReturn,
            full⟩]
      | .classDeclaration name none methods classMethods =>
          ofMethods methods classMethods (analysis.enterClass name none) 1 full
      | .classDeclaration name (some place) methods classMethods =>
          ⟨.expression (.reference place), analysis.atSuperclass name place, full⟩ ::
            ofMethods methods classMethods (analysis.enterClass name (some place)) 2 full
  | ⟨.statements [], _, _⟩ => []
  | ⟨.statements (first :: rest), analysis, full⟩ =>
      [⟨.statement first, analysis, full⟩, ⟨.statements rest, first.analyse analysis, full⟩]
  | ⟨.routine declared, analysis, full⟩ => [ofBody declared.body (entered declared analysis) full]
  | ⟨.routines [], _, _⟩ => []
  | ⟨.routines (first :: rest), analysis, full⟩ =>
      [⟨.routine first, analysis, full⟩, ⟨.routines rest, first.analyse analysis, full⟩]

theorem part_nodes (site : Site) : site.parts.map Site.node = site.node.parts := by
  obtain ⟨node, analysis, full⟩ := site
  cases node with
  | expression value => cases value <;> rfl
  | expressions values => cases values <;> rfl
  | statement order =>
      cases order with
      | variableDeclaration name initializer => cases initializer <;> rfl
      | conditional condition thenBranch elseBranch => cases elseBranch <;> rfl
      | exit keyword value => cases value <;> rfl
      | classDeclaration name superclass methods classMethods => cases superclass <;> rfl
      | expression | print | block | loop | routineDeclaration => rfl
  | statements orders => cases orders <;> rfl
  | routine declared => rfl
  | routines declared => cases declared <;> rfl

theorem part_node_member {site part : Site} (member : part ∈ site.parts) :
    part.node ∈ site.node.parts := by
  rw [← part_nodes]
  exact List.mem_map_of_mem member

theorem induction_along_parts {motive : Site → Prop}
    (step : ∀ site, (∀ part ∈ site.parts, motive part) → motive site) (site : Site) :
    motive site :=
  step site fun part _ => induction_along_parts step part
termination_by site.node
decreasing_by exact Node.part_smaller _ _ (part_node_member ‹_›)

/-- The site itself and all sites inside of it. -/
def Contains : Site → Site → Prop := Relation.ReflTransGen fun whole part => part ∈ whole.parts

theorem contains_iff {whole inner : Site} :
    whole.Contains inner ↔ inner = whole ∨ ∃ part ∈ whole.parts, part.Contains inner :=
  Relation.ReflTransGen.cases_head_iff.trans (or_congr_left eq_comm)

/-- The site itself, its parts, and the members of lists among these. -/
inductive Near (site : Site) : Site → Prop where
  | self : Near site site
  | part {middle inner : Site} (near : Near site middle)
      (direct : middle = site ∨ middle.node.isList = true) (member : inner ∈ middle.parts) :
      Near site inner

theorem contains_node {whole inner : Site} (contained : whole.Contains inner) :
    whole.node.Contains inner.node :=
  contained.lift Site.node fun _ _ member => part_node_member member

end Site

end Lox
