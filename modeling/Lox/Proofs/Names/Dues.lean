import Lox.Proofs.Names.Tally

/-!
What the walk has to report in a site. That is what the rules say of the tree, together with
what the state in which the walk comes there says of the tree around. Here are the rules that
look at the routines and classes around a token: they are in force up to a border.
-/

namespace Lox

theorem coe_flatMap (nodes : List Node) (take : Node → List Token) :
    (nodes.flatMap take : Multiset Token) =
      (nodes.map fun node => (take node : Multiset Token)).sum := by
  induction nodes with
  | nil => rfl
  | cons first rest induction =>
      rw [List.flatMap_cons, ← Multiset.coe_add, induction, List.map_cons, List.sum_cons]

/-- What there is to take from the nodes up to a border, without order. -/
def Node.gather (border : Node → Bool) (take : Node → List Token) (node : Node) :
    Multiset Token :=
  ((node.upTo border).flatMap take : List Token)

namespace Site

theorem gather_eq (border : Node → Bool) (take : Node → List Token) (site : Site) :
    site.node.gather border take = (take site.node : Multiset Token) +
      if border site.node then 0
      else (site.parts.map fun part => part.node.gather border take).sum := by
  have through : (site.parts.map fun part => part.node.gather border take) =
      site.node.parts.map fun part => part.gather border take := by
    rw [← part_nodes, List.map_map]
    rfl
  rw [through, Node.gather, Node.up_to_eq, List.flatMap_cons, ← Multiset.coe_add]
  split_ifs
  · rfl
  · rw [List.flatMap_assoc, coe_flatMap]
    rfl

theorem gather_all_eq (take : Node → List Token) (site : Site) :
    site.node.gather (fun _ => false) take = (take site.node : Multiset Token) +
      (site.parts.map fun part => part.node.gather (fun _ => false) take).sum :=
  (gather_eq _ take site).trans (if_neg Bool.false_ne_true ▸ rfl)

/-- A rule that is in force up to a border finds what there is up to there. -/
theorem bordered_adds (inForce : Bool × ClassContext → Prop) [DecidablePred inForce]
    (border : Node → Bool) (take : Node → List Token)
    (inside : ∀ node context,
      inForce (node.inside context) ↔ inForce context ∧ border node = false) (site : Site) :
    (if inForce site.analysis.context then site.node.gather border take else 0) =
      (if inForce site.analysis.context then (take site.node : Multiset Token) else 0) +
        (site.parts.map fun part =>
          if inForce part.analysis.context then part.node.gather border take else 0).sum := by
  have parts : (site.parts.map fun part =>
      if inForce part.analysis.context then part.node.gather border take else 0) =
      site.parts.map fun part =>
        if inForce site.analysis.context ∧ border site.node = false then
          part.node.gather border take else 0 :=
    List.map_congr_left fun part member => by simp only [part_context member, inside]
  rw [parts, gather_eq]
  by_cases here : inForce site.analysis.context <;> cases border site.node <;> simp [here]

/-- What the walk has to report in a site, by the state in which it comes there. -/
def due : BindingError → Site → Multiset Token
  | .topLevelReturn, site =>
      if site.analysis.inRoutine = false then site.node.gather Node.isRoutine Node.exits else 0
  | .selfOutsideClass, site =>
      if site.analysis.classContext = .outside then
        site.node.gather Node.isClass Node.receivers else 0
  | .superOutsideClass, site =>
      if site.analysis.classContext = .outside then
        site.node.gather Node.isClass Node.inheritances else 0
  | .superWithoutSuperclass, site =>
      (if site.analysis.classContext = .withoutSuperclass then
        site.node.gather Node.isClass Node.inheritances else 0) +
        site.node.gather (fun _ => false) Node.vainInheritances
  | .redeclared, site =>
      (site.analysis.clashes (site.node.region.flatMap Node.introduced) : Multiset Token) +
        site.node.gather (fun _ => false) Node.redeclarations
  | .inheritsFromItself, site => site.node.gather (fun _ => false) Node.selfInheritances
  | .ownInitializer, site =>
      (if site.analysis.scopes = [] then 0
        else (site.node.region.flatMap Node.ownReads : Multiset Token)) +
        ((((site.node.upTo Node.isRoutine).flatMap Node.references).filter
          (site.analysis.inOwnInitializer ·.lexeme) : List Token) : Multiset Token) +
        site.node.gather (fun _ => false) Node.prematureReads

/-- What is due at the node and what is due in its parts is what is due in the site. -/
def Adds (cause : BindingError) (site : Site) : Prop :=
  due cause site = own cause site + (site.parts.map (due cause)).sum

theorem exits_add (site : Site) : site.Adds .topLevelReturn := by
  have outside (node : Node) (context : Bool × ClassContext) :
      (node.inside context).1 = false ↔ context.1 = false ∧ node.isRoutine = false := by
    cases node with
    | statement order => cases order <;> simp [Node.inside]
    | _ => simp [Node.inside]
  exact bordered_adds (fun context => context.1 = false) _ _ outside site

theorem outside_class (node : Node) (context : Bool × ClassContext) :
    (node.inside context).2 = .outside ↔ context.2 = .outside ∧ node.isClass = false := by
  cases node with
  | statement order =>
      cases order with
      | classDeclaration name superclass => cases superclass <;> simp [Node.inside]
      | _ => simp [Node.inside]
  | _ => simp [Node.inside]

theorem receivers_add (site : Site) : site.Adds .selfOutsideClass :=
  bordered_adds (fun context => context.2 = .outside) _ _ outside_class site

theorem inheritances_add (site : Site) : site.Adds .superOutsideClass :=
  bordered_adds (fun context => context.2 = .outside) _ _ outside_class site

theorem self_inheritances_add (site : Site) : site.Adds .inheritsFromItself :=
  gather_all_eq Node.selfInheritances site

theorem inside_not_class {node : Node} (notClass : node.isClass = false)
    (context : Bool × ClassContext) : (node.inside context).2 = context.2 := by
  cases node with
  | statement order =>
      cases order with
      | classDeclaration => cases notClass
      | _ => rfl
  | _ => rfl

/-- Within a class without superclass, its methods may ask for none. -/
theorem vain_of_class {site : Site} (isClass : site.node.isClass = true) :
    (site.node.vainInheritances : Multiset Token) =
      if (site.node.inside site.analysis.context).2 = .withoutSuperclass then
        (site.parts.map fun part => part.node.gather Node.isClass Node.inheritances).sum
      else 0 := by
  obtain ⟨node, analysis, full⟩ := site
  cases node with
  | statement order =>
      cases order with
      | classDeclaration name superclass =>
          cases superclass <;> simp [Node.inside, parts, ofMethods, Node.gather]
      | _ => cases isClass
  | _ => cases isClass

theorem vain_of_not_class {node : Node} (notClass : node.isClass = false) :
    node.vainInheritances = [] := by
  cases node with
  | statement order =>
      cases order with
      | classDeclaration => cases notClass
      | _ => rfl
  | _ => rfl

theorem vain_inheritances_add (site : Site) : site.Adds .superWithoutSuperclass := by
  have parts : (site.parts.map (due .superWithoutSuperclass)).sum =
      (if (site.node.inside site.analysis.context).2 = .withoutSuperclass then
        (site.parts.map fun part => part.node.gather Node.isClass Node.inheritances).sum
      else 0) +
        (site.parts.map fun part =>
          part.node.gather (fun _ => false) Node.vainInheritances).sum := by
    split_ifs with vain
    · rw [← List.sum_map_add]
      congr 1
      refine List.map_congr_left fun part member => ?_
      rw [← part_context member] at vain
      exact congrArg (· + _) (if_pos vain)
    · rw [zero_add]
      congr 1
      refine List.map_congr_left fun part member => ?_
      rw [← part_context member] at vain
      exact (congrArg (· + _) (if_neg vain)).trans (zero_add _)
  rw [Adds, parts, due, own, gather_all_eq, gather_eq]
  cases isClass : site.node.isClass with
  | true => rw [vain_of_class isClass, if_pos rfl, add_zero]
  | false =>
      have around : (site.node.inside site.analysis.context).2 = site.analysis.classContext :=
        inside_not_class isClass _
      rw [vain_of_not_class isClass, around, if_neg Bool.false_ne_true]
      split_ifs <;> simp [add_assoc]

end Site

end Lox
