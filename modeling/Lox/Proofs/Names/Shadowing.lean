import Lox.Proofs.Names.Charted

/-!
Programs in which no scope takes away a name from the scopes around it. That a
program is of this kind is said about its tree alone; the scopes of the analysis
that lie around a site are then those of the nodes around it, and the first one
with a name that the walk has marked is the only one that ever gets the name.
-/

namespace Lox

/-- The names that a statement declares where it stands. -/
def Statement.declares : Statement → List String
  | .variableDeclaration name _ | .classDeclaration name _ _ _ => [name.lexeme]
  | .routineDeclaration routine => [routine.label]
  | .conditional _ thenBranch none => thenBranch.declares
  | .conditional _ thenBranch (some elseBranch) => thenBranch.declares ++ elseBranch.declares
  | .loop _ body => body.declares
  | .expression _ | .print _ | .block _ | .exit _ _ => []

namespace Node

/-- What a node declares where it stands. -/
def declares : Node → List String
  | .statement order => order.declares
  | .statements orders => orders.flatMap Statement.declares
  | _ => []

/-- The names that stand in the scope of a block or a routine. -/
def written : Node → List String
  | .statement (.block orders) => orders.flatMap Statement.declares
  | .routine declared =>
      (declared.parameters.getD []).map Token.lexeme ++ declared.body.flatMap Statement.declares
  | _ => []

/-- The names that methods find in the scopes around them, though nobody wrote
them there. -/
def implied : Node → List String
  | .statement (.classDeclaration _ none _ _) => [receiverName]
  | .statement (.classDeclaration _ (some _) _ _) => [receiverName, superclassName]
  | _ => []

/-- The inner node is inside of the outer one and not all of it. -/
def Encloses (outer inner : Node) : Prop := ∃ part ∈ outer.parts, part.Contains inner

/-- No scope in the program has a name that a scope around it has as well, or that
is at the top level. -/
structure Unshadowed (program : Node) (top : List String) : Prop where
  nested : ∀ outer inner, program.Contains outer → outer.Encloses inner →
    List.Disjoint inner.written (outer.written ++ outer.implied)
  apart : ∀ inner, program.Contains inner → List.Disjoint inner.written top

theorem encloses_iff_mem {outer inner : Node} :
    outer.Encloses inner ↔ inner ∈ outer.parts.flatMap all := by
  rw [List.mem_flatMap]
  exact exists_congr fun part => and_congr_right fun _ => contains_iff_mem

/-- To check a program, its nodes are gone through one by one. -/
theorem unshadowed_iff {program : Node} {top : List String} :
    program.Unshadowed top ↔
      (∀ outer ∈ program.all, ∀ inner ∈ outer.parts.flatMap all,
        List.Disjoint inner.written (outer.written ++ outer.implied)) ∧
      ∀ inner ∈ program.all, List.Disjoint inner.written top := by
  simp only [← contains_iff_mem, ← encloses_iff_mem]
  constructor
  · rintro ⟨nested, apart⟩
    exact ⟨fun outer isOuter inner => nested outer inner isOuter, apart⟩
  · rintro ⟨nested, apart⟩
    exact ⟨fun outer inner isOuter => nested outer isOuter inner, apart⟩

theorem Encloses.inward {outer middle inner : Node} (encloses : outer.Encloses middle)
    (contains : middle.Contains inner) : outer.Encloses inner := by
  obtain ⟨part, member, contained⟩ := encloses
  exact ⟨part, member, contained.trans contains⟩

end Node

/-- Which nodes of a program the scopes around one of its nodes belong to: scopes
of blocks and routines with what is written there, and scopes of classes, which
are complete as soon as the walk enters them. -/
inductive Around (program : Node) : Node → (marked full : List StaticScope) → Prop where
  | outermost {inner : Node} : Around program inner [] []
  | written {opener inner : Node} {marked full : StaticScope} {outer fullOuter : List StaticScope}
      (contained : program.Contains opener) (encloses : opener.Encloses inner)
      (names : ∀ name, full.contains name = true → name ∈ opener.written)
      (around : Around program opener outer fullOuter) :
      Around program inner (marked :: outer) (full :: fullOuter)
  | implied {opener inner : Node} {marked full : StaticScope} {outer fullOuter : List StaticScope}
      (contained : program.Contains opener) (encloses : opener.Encloses inner)
      (names : ∀ name, full.contains name = true → name ∈ opener.implied)
      (complete : full.Within marked) (around : Around program inner outer fullOuter) :
      Around program inner (marked :: outer) (full :: fullOuter)

namespace Around

variable {program node inner : Node} {marked full : List StaticScope}

theorem inward (around : Around program node marked full) (contains : node.Contains inner) :
    Around program inner marked full := by
  induction around generalizing inner with
  | outermost => exact .outermost
  | written contained encloses names around =>
      exact .written contained (encloses.inward contains) names around
  | implied contained encloses names complete around induction =>
      exact .implied contained (encloses.inward contains) names complete (induction contains)

theorem grown {later : List StaticScope} (around : Around program node marked full)
    (grows : InnermostGrows marked later) : Around program node later full := by
  cases around with
  | outermost =>
      cases later with
      | nil => exact .outermost
      | cons => exact grows.elim
  | written contained encloses names around =>
      obtain ⟨first, rfl, -⟩ := grows.of_cons
      exact .written contained encloses names around
  | implied contained encloses names complete around =>
      obtain ⟨first, rfl, more⟩ := grows.of_cons
      exact .implied contained encloses names (fun name found => more name (complete name found))
        around

/-- Whoever has a name in these scopes encloses the node. -/
theorem opener_of_name (around : Around program node marked full) {scope : StaticScope}
    (member : scope ∈ full) {name : String} (found : scope.contains name = true) :
    ∃ opener, program.Contains opener ∧ opener.Encloses node ∧
      name ∈ opener.written ++ opener.implied := by
  induction around with
  | outermost => cases member
  | written contained encloses names around induction =>
      rcases List.mem_cons.mp member with rfl | further
      · exact ⟨_, contained, encloses, List.mem_append_left _ (names name found)⟩
      · obtain ⟨opener, isContained, above, has⟩ := induction further
        obtain ⟨part, isPart, inside⟩ := encloses
        exact ⟨opener, isContained, above.inward (.head isPart inside), has⟩
  | implied contained encloses names complete around induction =>
      rcases List.mem_cons.mp member with rfl | further
      · exact ⟨_, contained, encloses, List.mem_append_right _ (names name found)⟩
      · exact induction further

section Unshadowed

variable {top : List String} (unshadowed : program.Unshadowed top)
  (covered : List.Forall₂ StaticScope.Within marked full) {name : String}

include unshadowed covered

/-- Inside of the scope that the walk finds a name in, no scope ever gets it. -/
theorem none_nearer (around : Around program node marked full) {distance : Nat}
    (found : marked.findIdx? (·.contains name) = some distance) :
    ∀ scope ∈ full.take distance, scope.contains name = false := by
  induction around generalizing distance with
  | outermost => cases found
  | @written opener inner first last outer fullOuter contained encloses names around induction =>
      obtain ⟨-, further⟩ := List.forall₂_cons.mp covered
      rw [List.findIdx?_cons] at found
      split_ifs at found with here
      · cases found
        exact nofun
      · obtain ⟨beyond, foundOuter, rfl⟩ := Option.map_eq_some_iff.mp found
        rw [List.take_succ_cons, List.forall_mem_cons]
        refine ⟨?_, induction further foundOuter⟩
        -- The name would be written here and in a scope around.
        rw [Bool.eq_false_iff]
        intro again
        obtain ⟨inside, holds, -⟩ := List.findIdx?_eq_some_iff_getElem.mp foundOuter
        have fullInside : beyond < fullOuter.length := further.length_eq ▸ inside
        have has := (List.forall₂_iff_get.mp further).2 beyond inside fullInside name holds
        obtain ⟨owner, isContained, above, written⟩ :=
          around.opener_of_name (List.get_mem _ _) has
        exact unshadowed.nested owner opener isContained above (names name again) written
  | implied contained encloses names complete around induction =>
      obtain ⟨-, further⟩ := List.forall₂_cons.mp covered
      rw [List.findIdx?_cons] at found
      split_ifs at found with here
      · cases found
        exact nofun
      · obtain ⟨beyond, foundOuter, rfl⟩ := Option.map_eq_some_iff.mp found
        rw [List.take_succ_cons, List.forall_mem_cons]
        refine ⟨?_, induction further foundOuter⟩
        rw [Bool.eq_false_iff]
        exact fun again => here (complete name again)

omit covered in
/-- No scope gets a name of the top level that the walk does not find. -/
theorem none_local (around : Around program node marked full)
    (found : marked.findIdx? (·.contains name) = none) (isTop : name ∈ top) :
    ∀ scope ∈ full, scope.contains name = false := by
  induction around with
  | outermost => exact nofun
  | written contained encloses names around induction =>
      rw [List.findIdx?_cons] at found
      split_ifs at found with here
      rw [List.forall_mem_cons]
      refine ⟨?_, induction (Option.map_eq_none_iff.mp found)⟩
      rw [Bool.eq_false_iff]
      exact fun again => unshadowed.apart _ contained (names name again) isTop
  | implied contained encloses names complete around induction =>
      rw [List.findIdx?_cons] at found
      split_ifs at found with here
      rw [List.forall_mem_cons]
      refine ⟨?_, induction (Option.map_eq_none_iff.mp found)⟩
      rw [Bool.eq_false_iff]
      exact fun again => here (complete name again)

end Unshadowed

end Around

/-- The innermost scope gets these names at most. -/
def Declaring (names : List String) (before after : List StaticScope) : Prop :=
  ∀ last ∈ after.head?, ∀ name, last.contains name = true →
    name ∈ names ∨ ∃ first ∈ before.head?, first.contains name = true

namespace Declaring

variable {names more : List String} {first second third : List StaticScope}

theorem of_same (same : second = first) : Declaring names first second := by
  subst same
  exact fun last isLast name found => .inr ⟨last, isLast, found⟩

theorem trans (before : Declaring names first second) (after : Declaring more second third) :
    Declaring (names ++ more) first third := by
  intro last isLast name found
  rcases after last isLast name found with declared | ⟨middle, isMiddle, earlier⟩
  · exact .inl (List.mem_append_right names declared)
  · exact (before middle isMiddle name earlier).imp_left (List.mem_append_left more)

theorem of_marked {name : String} (marked : Marked name first second) :
    Declaring [name] first second := by
  intro last isLast key found
  cases first with
  | nil =>
      cases marked
      cases isLast
  | cons inner outer =>
      obtain ⟨head, rfl, entries⟩ := marked
      cases isLast
      rw [Names.contains, entries] at found
      split_ifs at found with same
      · exact .inl (List.mem_singleton.mpr same)
      · exact .inr ⟨inner, rfl, found⟩

end Declaring

namespace Site

/-- The walk over a site declares in the innermost scope what the node does. -/
def Declares (site : Site) : Prop :=
  Declaring site.node.declares site.analysis.scopes site.after.scopes

theorem statement_declares {order : Statement} {analysis : Analysis} {full : List StaticScope}
    (parts : ∀ part ∈ (Site.mk (.statement order) analysis full).parts, part.Declares) :
    Declaring order.declares analysis.scopes (order.analyse analysis).scopes := by
  cases order with
  | expression value | print value => exact .of_same (expression_after value analysis)
  | variableDeclaration name initializer =>
      cases initializer with
      | none => exact .of_marked (.of_define rfl)
      | some value => exact .of_marked (.of_define (expression_after value _))
  | block orders =>
      have grows := (Site.mk (.statements orders) analysis.enter []).keeps_scopes.1
      exact .of_same ((List.drop_one ..).trans grows.tail)
  | conditional condition thenBranch elseBranch =>
      have quiet : Declaring [] analysis.scopes (condition.analyse analysis).scopes :=
        .of_same (expression_after condition analysis)
      cases elseBranch with
      | none =>
          simp only [Site.parts, List.forall_mem_cons] at parts
          exact quiet.trans parts.2.1
      | some branch =>
          simp only [Site.parts, List.forall_mem_cons] at parts
          exact quiet.trans (parts.2.1.trans parts.2.2.1)
  | loop condition body =>
      have quiet : Declaring [] analysis.scopes (condition.analyse analysis).scopes :=
        .of_same (expression_after condition analysis)
      simp only [Site.parts, List.forall_mem_cons] at parts
      exact quiet.trans parts.2.1
  | routineDeclaration declared =>
      rw [Statement.analyse, routine_after]
      obtain ⟨name, parameters, body⟩ := declared
      cases name with
      | none => exact .of_same rfl
      | some name => exact .of_marked (.of_define rfl)
  | exit keyword value =>
      have checked : (if analysis.inRoutine then analysis
          else analysis.report keyword .topLevelReturn).scopes = analysis.scopes := by
        split_ifs <;> rfl
      cases value with
      | none => exact .of_same checked
      | some value => exact .of_same ((expression_after value _).trans checked)
  | classDeclaration name superclass methods classMethods =>
      rw [class_after]
      exact .of_marked (.of_declare_class analysis name)

theorem declares (site : Site) : site.Declares := by
  induction site using induction_along_parts with
  | step site parts =>
    obtain ⟨node, analysis, full⟩ := site
    cases node with
    | statement order => exact statement_declares parts
    | statements orders =>
        cases orders with
        | nil => exact .of_same rfl
        | cons first rest =>
            simp only [Site.parts, List.forall_mem_cons] at parts
            exact parts.1.trans parts.2.1
    | expression | expressions | routine | routines =>
        exact .of_same (keeps_scopes _ |>.2 rfl)

/-- The scope of some statements has the names that they declare and those that
were there at the outset. -/
theorem body_names (body : List Statement) {entered : Analysis} {inner : StaticScope}
    {outer : List StaticScope} (scopes : entered.scopes = inner :: outer) :
    ∃ last, (Statement.analyseAll body entered).scopes = last :: outer ∧
      ∀ name, last.contains name = true →
        name ∈ body.flatMap Statement.declares ∨ inner.contains name = true := by
  have grows := (Site.mk (.statements body) entered []).keeps_scopes.1
  rw [scopes] at grows
  obtain ⟨last, final, -⟩ := grows.of_cons
  have finalScopes : (Statement.analyseAll body entered).scopes = last :: outer := final
  refine ⟨last, finalScopes, fun name found => ?_⟩
  have declared := (Site.mk (.statements body) entered []).declares
  rw [Declares, final] at declared
  rcases declared last rfl name found with written | ⟨first, isFirst, earlier⟩
  · exact .inl written
  · rw [scopes] at isFirst
    cases isFirst
    exact .inr earlier

/-- The scopes around the site belong to nodes around its node. -/
def Among (program : Node) (site : Site) : Prop :=
  Around program site.node site.analysis.scopes site.full

section Parts

variable {program : Node} {site part : Site}

theorem among_beside (among : site.Among program) (isPart : part.node ∈ site.node.parts)
    (full : part.full = site.full)
    (grows : InnermostGrows site.analysis.scopes part.analysis.scopes) : part.Among program := by
  unfold Among
  rw [full]
  exact (among.inward (.single isPart)).grown grows

theorem among_body {body : List Statement} {opener : Node} {entered : Analysis}
    {inner : StaticScope} {outer full : List StaticScope} (contained : program.Contains opener)
    (around : Around program opener outer full) (scopes : entered.scopes = inner :: outer)
    (isPart : .statements body ∈ opener.parts)
    (written : ∀ name, name ∈ body.flatMap Statement.declares ∨ inner.contains name = true →
      name ∈ opener.written) :
    (ofBody body entered full).Among program := by
  obtain ⟨last, final, names⟩ := body_names body scopes
  unfold Among ofBody
  dsimp only
  rw [scopes, final]
  exact .written contained ⟨_, isPart, .refl⟩ (fun name found => written name (names name found))
    around

theorem among_methods {methods classMethods : List Routine} {opener : Node} {entered : Analysis}
    {own : List StaticScope} {outer full : List StaticScope} (contained : program.Contains opener)
    (around : Around program opener outer full) (scopes : entered.scopes = own ++ outer)
    (isMethods : .routines methods ∈ opener.parts)
    (isClassMethods : .routines classMethods ∈ opener.parts)
    (implied : ∀ scope ∈ own, ∀ name, scope.contains name = true → name ∈ opener.implied) :
    ∀ part ∈ ofMethods methods classMethods entered own.length full, part.Among program := by
  have inside {declared : List Routine} (isPart : .routines declared ∈ opener.parts) :
      Around program (.routines declared) (own ++ outer) (own ++ full) := by
    clear scopes
    induction own with
    | nil => exact around.inward (.single isPart)
    | cons first rest induction =>
        exact .implied contained ⟨_, isPart, .refl⟩ (implied first List.mem_cons_self)
          (fun _ found => found) (induction (fun scope member =>
            implied scope (List.mem_cons_of_mem _ member)))
  have taken : entered.scopes.take own.length = own := by rw [scopes, List.take_left]
  simp only [ofMethods, List.forall_mem_cons, List.not_mem_nil, false_implies, implies_true,
    and_true, Among, routines_after, taken]
  rw [scopes]
  exact ⟨inside isMethods, inside isClassMethods⟩

theorem single_contains {name key : String}
    (found : (Names.empty.set name true : StaticScope).contains key = true) : key = name := by
  rw [Names.contains_set] at found
  simpa [Names.contains, Names.find_empty] using found

theorem class_part_among {name : Token} {superclass : Option Occurrence}
    {methods classMethods : List Routine} {analysis : Analysis} {full : List StaticScope}
    (among : (Site.mk (.statement (.classDeclaration name superclass methods classMethods))
      analysis full).Among program)
    (contained : program.Contains
      (.statement (.classDeclaration name superclass methods classMethods))) :
    ∀ part ∈ (Site.mk (.statement (.classDeclaration name superclass methods classMethods))
      analysis full).parts, part.Among program := by
  have scopes := analysis.enter_class_scopes name superclass
  have around := among.grown (analysis.declare_class_grows name)
  cases superclass with
  | none =>
      have own : (analysis.enterClass name none).scopes =
          [Analysis.receiverScope] ++ (analysis.declareClass name).scopes := scopes
      refine among_methods contained around own List.mem_cons_self
        (List.mem_cons_of_mem _ List.mem_cons_self) ?_
      intro scope member key found
      cases List.mem_singleton.mp member
      exact List.mem_singleton.mpr (single_contains found)
  | some place =>
      simp only [parts, List.forall_mem_cons]
      refine ⟨among_beside among List.mem_cons_self rfl ?_, ?_⟩
      · rw [Analysis.at_superclass_scopes]
        exact analysis.declare_class_grows name
      · have own : (analysis.enterClass name (some place)).scopes =
            [Analysis.receiverScope, Analysis.superclassScope] ++
              (analysis.declareClass name).scopes := scopes
        refine among_methods contained around own (List.mem_cons_of_mem _ List.mem_cons_self)
          (List.mem_cons_of_mem _ (List.mem_cons_of_mem _ List.mem_cons_self)) ?_
        intro scope member key found
        rcases List.mem_pair.mp member with rfl | rfl
        · exact List.mem_pair.mpr (.inl (single_contains found))
        · exact List.mem_pair.mpr (.inr (single_contains found))

theorem statement_part_among {order : Statement} {analysis : Analysis} {full : List StaticScope}
    (among : (Site.mk (.statement order) analysis full).Among program)
    (contained : program.Contains (.statement order)) :
    ∀ part ∈ (Site.mk (.statement order) analysis full).parts, part.Among program := by
  cases order with
  | expression | print =>
      simp only [parts, List.forall_mem_singleton]
      exact among_beside among List.mem_cons_self rfl (.refl _)
  | variableDeclaration name initializer =>
      cases initializer with
      | none => exact List.forall_mem_nil _
      | some value =>
          simp only [parts, List.forall_mem_singleton]
          exact among_beside among List.mem_cons_self rfl (analysis.declare_grows name)
  | block orders =>
      simp only [parts, List.forall_mem_singleton]
      apply among_body contained among rfl List.mem_cons_self
      rintro name (written | found)
      · exact written
      · cases found
  | conditional condition thenBranch elseBranch =>
      have quiet : InnermostGrows analysis.scopes (condition.analyse analysis).scopes := by
        rw [expression_after]
        exact .refl _
      cases elseBranch with
      | none =>
          simp only [parts, List.forall_mem_cons, List.not_mem_nil, false_implies, implies_true,
            and_true]
          exact ⟨among_beside among (by simp [Node.parts]) rfl (.refl _),
            among_beside among (by simp [Node.parts]) rfl quiet⟩
      | some branch =>
          simp only [parts, List.forall_mem_cons, List.not_mem_nil, false_implies, implies_true,
            and_true]
          have middle := (keeps_scopes ⟨.statement thenBranch, condition.analyse analysis, full⟩).1
          exact ⟨among_beside among (by simp [Node.parts]) rfl (.refl _),
            among_beside among (by simp [Node.parts]) rfl quiet,
            among_beside among (by simp [Node.parts]) rfl (quiet.trans middle)⟩
  | loop condition body =>
      simp only [parts, List.forall_mem_cons, List.not_mem_nil, false_implies, implies_true,
        and_true]
      refine ⟨among_beside among (by simp [Node.parts]) rfl (.refl _),
        among_beside among (by simp [Node.parts]) rfl ?_⟩
      rw [expression_after]
      exact .refl _
  | routineDeclaration declared =>
      simp only [parts, List.forall_mem_singleton]
      exact among_beside among List.mem_cons_self rfl (analysis.declare_all_grows _)
  | exit keyword value =>
      cases value with
      | none => exact List.forall_mem_nil _
      | some value =>
          have grows : InnermostGrows analysis.scopes (if analysis.inRoutine then analysis
              else analysis.report keyword .topLevelReturn).scopes := by
            split_ifs <;> exact .refl _
          simp only [parts, List.forall_mem_singleton]
          exact among_beside among List.mem_cons_self rfl grows
  | classDeclaration name superclass methods classMethods => exact class_part_among among contained

theorem part_among (among : site.Among program) (contained : program.Contains site.node)
    (member : part ∈ site.parts) : part.Among program := by
  have isPart := part_node_member member
  obtain ⟨node, analysis, full⟩ := site
  cases node with
  | statement order => exact statement_part_among among contained part member
  | routine declared =>
      obtain ⟨inner, scopes, names⟩ := entered_names declared analysis
      rcases List.mem_singleton.mp member with rfl
      apply among_body contained among scopes List.mem_cons_self
      rintro name (written | found)
      · exact List.mem_append_right _ written
      · exact List.mem_append_left _ ((names name).mp found)
  | expression value =>
      have beside : part.full = full ∧ part.analysis.scopes = analysis.scopes := by
        revert part
        cases value <;> simp [parts, expression_after]
      exact among_beside among isPart beside.1 (beside.2 ▸ .refl _)
  | expressions values =>
      have beside : part.full = full ∧ part.analysis.scopes = analysis.scopes := by
        revert part
        cases values <;> simp [parts, expression_after]
      exact among_beside among isPart beside.1 (beside.2 ▸ .refl _)
  | routines declared =>
      have beside : part.full = full ∧ part.analysis.scopes = analysis.scopes := by
        revert part
        cases declared <;> simp [parts, routine_after]
      exact among_beside among isPart beside.1 (beside.2 ▸ .refl _)
  | statements orders =>
      cases orders with
      | nil => cases member
      | cons first rest =>
          rcases List.mem_pair.mp member with rfl | rfl
          · exact among_beside among isPart rfl (.refl _)
          · exact among_beside among isPart rfl
              (keeps_scopes ⟨.statement first, analysis, full⟩).1

theorem contains_among {whole inner : Site} (among : whole.Among program)
    (contained : program.Contains whole.node) (contains : whole.Contains inner) :
    inner.Among program := by
  induction contains with
  | refl => exact among
  | tail below isPart induction =>
      exact part_among induction (contained.trans (contains_node below)) isPart

end Parts

end Site

end Lox
