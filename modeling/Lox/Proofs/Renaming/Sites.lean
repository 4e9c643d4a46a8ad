import Lox.Proofs.Renaming.Walks

/-!
The program points of a tree with other labels, as long as the texts of its tokens stay. The walk
comes to the same program points with the same scopes, and binds the same with the new labels.
-/

namespace Lox

/-- A program point of the new tree, where the walk comes as it comes to the old one. -/
def Site.relabel (labels : Labels) (site : Site) : Site :=
  ⟨site.node.relabel labels, site.analysis.relabel labels, site.full⟩

namespace Site

variable {labels : Labels} (textual : labels.Textual)

include textual

theorem after_relabel (site : Site) : (site.relabel labels).after = site.after.relabel labels :=
  Node.analyse_relabel textual site.node site.analysis

theorem body_relabel (body : List Statement) (entered : Analysis) (full : List StaticScope) :
    ofBody (Statement.relabelAll labels body) (entered.relabel labels) full =
      (ofBody body entered full).relabel labels := by
  have walked := Node.analyse_relabel textual (.statements body) entered
  simp only [Node.relabel, Node.analyse] at walked
  unfold ofBody
  rw [walked]
  rfl

theorem methods_relabel (methods classMethods : List Routine) (entered : Analysis) (own : Nat)
    (full : List StaticScope) :
    ofMethods (Routine.relabelAll labels methods) (Routine.relabelAll labels classMethods)
        (entered.relabel labels) own full =
      (ofMethods methods classMethods entered own full).map (relabel labels) := by
  have walked := Node.analyse_relabel textual (.routines methods) entered
  simp only [Node.relabel, Node.analyse] at walked
  unfold ofMethods
  rw [walked]
  rfl

theorem expression_parts_relabel (value : Expression) (analysis : Analysis)
    (full : List StaticScope) :
    ((Site.mk (.expression value) analysis full).relabel labels).parts =
      (Site.mk (.expression value) analysis full).parts.map (relabel labels) := by
  have walked (value : Expression) (analysis : Analysis) :
      (value.relabel labels).analyse (analysis.relabel labels) =
        (value.analyse analysis).relabel labels :=
    Node.analyse_relabel textual (.expression value) analysis
  cases value <;> simp [relabel, Node.relabel, Expression.relabel, parts, walked]

theorem statement_parts_relabel (order : Statement) (analysis : Analysis)
    (full : List StaticScope) :
    ((Site.mk (.statement order) analysis full).relabel labels).parts =
      (Site.mk (.statement order) analysis full).parts.map (relabel labels) := by
  have evaluated (value : Expression) (analysis : Analysis) :
      (value.relabel labels).analyse (analysis.relabel labels) =
        (value.analyse analysis).relabel labels :=
    Node.analyse_relabel textual (.expression value) analysis
  have executed (order : Statement) (analysis : Analysis) :
      (order.relabel labels).analyse (analysis.relabel labels) =
        (order.analyse analysis).relabel labels :=
    Node.analyse_relabel textual (.statement order) analysis
  cases order with
  | expression | print | loop =>
      simp [relabel, Node.relabel, Statement.relabel, parts, evaluated]
  | variableDeclaration name initializer =>
      cases initializer with
      | none => rfl
      | some value =>
          exact congrArg (fun declared => [Site.mk _ declared full])
            (textual.rewriting.declare analysis name)
  | block orders =>
      exact congrArg (fun body => [body]) (body_relabel textual orders analysis.enter full)
  | conditional condition thenBranch elseBranch =>
      cases elseBranch <;>
        simp [relabel, Node.relabel, Statement.relabel, parts, evaluated, executed]
  | routineDeclaration declared =>
      have declares := textual.rewriting.declare_all analysis declared.name.toList
      obtain ⟨name, parameters, body⟩ := declared
      cases name <;>
        exact congrArg (fun inside => [Site.mk _ inside full]) declares
  | exit keyword value =>
      cases value with
      | none => rfl
      | some value =>
          exact congrArg (fun checked => [Site.mk _ checked full])
            (textual.rewriting.exit analysis keyword)
  | classDeclaration name superclass methods classMethods =>
      have entered : (analysis.relabel labels).enterClass (labels.token name)
          (superclass.map (Occurrence.relabel labels)) =
            (analysis.enterClass name superclass).relabel labels :=
        textual.rewriting.enter_class analysis name superclass
      have inside := methods_relabel textual methods classMethods
      cases superclass with
      | none =>
          change ofMethods _ _
            ((analysis.relabel labels).enterClass (labels.token name) none) 1 _ = _
          rw [show (analysis.relabel labels).enterClass (labels.token name) none = _ from entered,
            inside]
          rfl
      | some place =>
          have above : (analysis.relabel labels).atSuperclass (labels.token name)
              (place.relabel labels) = (analysis.atSuperclass name place).relabel labels :=
            textual.rewriting.at_superclass analysis name place
          change Site.mk _ ((analysis.relabel labels).atSuperclass (labels.token name)
              (place.relabel labels)) full :: ofMethods _ _
                ((analysis.relabel labels).enterClass (labels.token name)
                  (some (place.relabel labels))) 2 _ = _
          rw [show (analysis.relabel labels).enterClass (labels.token name)
            (some (place.relabel labels)) = _ from entered, inside, above]
          rfl

/-- The new tree has the program points of the old one. -/
theorem parts_relabel (site : Site) :
    (site.relabel labels).parts = site.parts.map (relabel labels) := by
  obtain ⟨node, analysis, full⟩ := site
  cases node with
  | expression value => exact expression_parts_relabel textual value analysis full
  | statement order => exact statement_parts_relabel textual order analysis full
  | routine declared =>
      have entered : Site.entered (declared.relabel labels) (analysis.relabel labels) =
          (Site.entered declared analysis).relabel labels :=
        textual.rewriting.entered analysis declared
      obtain ⟨name, parameters, body⟩ := declared
      change [ofBody (Statement.relabelAll labels body)
        (Site.entered (Routine.relabel labels ⟨name, parameters, body⟩) (analysis.relabel labels))
        full] = _
      rw [entered, body_relabel textual]
      rfl
  | expressions values =>
      cases values with
      | nil => rfl
      | cons first rest =>
          have walked := Node.analyse_relabel textual (.expression first) analysis
          exact congrArg (fun middle => [Site.mk _ _ full, Site.mk _ middle full]) walked
  | statements orders =>
      cases orders with
      | nil => rfl
      | cons first rest =>
          have walked := Node.analyse_relabel textual (.statement first) analysis
          exact congrArg (fun middle => [Site.mk _ _ full, Site.mk _ middle full]) walked
  | routines declared =>
      cases declared with
      | nil => rfl
      | cons first rest =>
          have walked := Node.analyse_relabel textual (.routine first) analysis
          exact congrArg (fun middle => [Site.mk _ _ full, Site.mk _ middle full]) walked

theorem contains_relabel {site inner : Site} (contained : site.Contains inner) :
    (site.relabel labels).Contains (inner.relabel labels) := by
  refine contained.lift (relabel labels) fun whole part member => ?_
  change part.relabel labels ∈ (whole.relabel labels).parts
  rw [parts_relabel textual]
  exact List.mem_map_of_mem member

theorem bond_relabel (site : Site) :
    (site.relabel labels).bond? = site.bond?.map (Bond.relabel labels) := by
  have bound (place : Occurrence) (analysis : Analysis) :
      ((analysis.relabel labels).distance? (place.relabel labels).name.lexeme).map
          (Bond.mk (place.relabel labels)) =
        ((analysis.distance? place.name.lexeme).map (Bond.mk place)).map (Bond.relabel labels) := by
    have same : (analysis.relabel labels).distance? (place.relabel labels).name.lexeme =
        analysis.distance? place.name.lexeme :=
      congrArg analysis.distance? (textual place.name)
    rw [same]
    cases analysis.distance? place.name.lexeme <;> rfl
  obtain ⟨node, analysis, full⟩ := site
  cases node with
  | expression value =>
      cases value with
      | reference place | assign place | inherited place => exact bound place analysis
      | receiver place =>
          change (if analysis.classContext = .outside then none else _) =
            Option.map _ (if analysis.classContext = .outside then none else _)
          by_cases outside : analysis.classContext = .outside
          · rw [if_pos outside, if_pos outside]
            rfl
          · rw [if_neg outside, if_neg outside]
            exact bound place analysis
      | literal | grouping | unary | binary | logical | conditional | call | get | set
      | lambda => rfl
  | expressions | statement | statements | routine | routines => rfl

end Site

end Lox
