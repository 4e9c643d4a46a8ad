import Lox.Proofs.Names.Tally
import Lox.Proofs.Receivers.Spellings
import Lox.Proofs.Scoping.Sessions

/-!
The scopes around a place in a program, and what they are there for. The receiver and the
superclass of a method have scopes of their own, and no other scope declares `self` or
`super`, since no identifier is spelled like a keyword. So the walk finds the receiver just
outside of the scopes of the innermost method, and the superclass of its class one further
out.
-/

namespace Lox

/-- What is known of accepted lines: their names are bound as the walk says, and spelled as
names are. -/
structure Vetted (table : Std.TreeMap Nat Nat) (lines : List Line) : Prop where
  charted : Charted table (sitesOf lines)
  spelled {site : Site} : sitesOf lines site → site.node.Spelled

/-- A class as it stands in the source, with the kind of its methods that is meant. -/
structure Home where
  name : Token
  superclass : Option Occurrence
  methods : List Routine
  classMethods : List Routine
  /-- The methods of the class itself are meant, and not those of its instances. -/
  ofClass : Bool

namespace Home

def declaration (home : Home) : Statement :=
  .classDeclaration home.name home.superclass home.methods home.classMethods

def routines (home : Home) : List Routine :=
  if home.ofClass then home.classMethods else home.methods

end Home

/-- What a scope is there for. -/
inductive Frame where
  /-- The names that are declared in a block or in a routine. -/
  | scope (opener : Node)
  | receiver (home : Home)
  | superclass (home : Home)

/-- Whether the receiver and whether the superclass is declared there. -/
def Frame.marks : Frame → Bool × Bool
  | .scope _ => (false, false)
  | .receiver _ => (true, false)
  | .superclass _ => (false, true)

def StaticScope.marks (scope : StaticScope) : Bool × Bool :=
  (scope.contains receiverName, scope.contains superclassName)

namespace Home

/-- The frames that a class has around its methods while they are not bound. -/
def around (home : Home) : List Frame :=
  (home.superclass.map fun _ => Frame.superclass home).toList

/-- The frames that a class has around its methods. -/
def frames (home : Home) : List Frame := .receiver home :: home.around

end Home

/-- The frames around a site of some lines, innermost first. -/
inductive Framed (lines : List Line) : Site → List Frame → Prop where
  | top {line : Line} (member : line ∈ lines) : Framed lines line.site []
  | beside {site part : Site} {frames : List Frame} (around : Framed lines site frames)
      (plain : site.node.opensScope = false) (member : part ∈ site.parts) :
      Framed lines part frames
  | body {site part : Site} {frames : List Frame} (around : Framed lines site frames)
      (opens : site.node.body?.isSome = true) (member : part ∈ site.parts) :
      Framed lines part (.scope site.node :: frames)
  | ancestor {site part : Site} {frames : List Frame} (around : Framed lines site frames)
      {home : Home} (isClass : site.node = .statement home.declaration)
      (member : part ∈ site.parts) {place : Occurrence}
      (reference : part.node = .expression (.reference place)) : Framed lines part frames
  | methods {site part : Site} {frames : List Frame} (around : Framed lines site frames)
      {home : Home} (isClass : site.node = .statement home.declaration)
      (member : part ∈ site.parts) (routines : part.node = .routines home.routines) :
      Framed lines part (home.frames ++ frames)

theorem Framed.isKnown {lines : List Line} {site : Site} {frames : List Frame}
    (framed : Framed lines site frames) : sitesOf lines site := by
  induction framed with
  | top member => exact ⟨_, member, .refl⟩
  | beside _ _ member known | body _ _ member known | ancestor _ _ member _ known
  | methods _ _ member _ known =>
      obtain ⟨line, isLine, contained⟩ := known
      exact ⟨line, isLine, contained.tail member⟩

section Marks

theorem Marked.marks {name : String} {before after : List StaticScope}
    (marked : Marked name before after) (free : Free name) :
    after.map StaticScope.marks = before.map StaticScope.marks := by
  cases before with
  | nil =>
      cases marked
      rfl
  | cons inner outer =>
      obtain ⟨last, rfl, names⟩ := marked
      have kept {key : String} (other : key ≠ name) : last.contains key = inner.contains key := by
        rw [Names.contains, names, if_neg other, Names.contains]
      rw [List.map_cons, List.map_cons, StaticScope.marks, StaticScope.marks,
        kept free.1.symm, kept free.2.symm]

namespace Analysis

theorem mark_marks (analysis : Analysis) {name : String} (free : Free name) (ready : Bool) :
    (analysis.mark name ready).scopes.map StaticScope.marks =
      analysis.scopes.map StaticScope.marks := by
  cases begun : analysis.scopes with
  | nil =>
      rw [mark, begun]
      exact congrArg _ begun
  | cons inner outer =>
      rw [analysis.mark_cons begun, List.map_cons, List.map_cons, StaticScope.marks,
        StaticScope.marks, Names.contains_set, Names.contains_set]
      simp [free.1.symm, free.2.symm]

theorem declare_marks (analysis : Analysis) {name : Token} (free : Free name.lexeme) :
    (analysis.declare name).scopes.map StaticScope.marks =
      analysis.scopes.map StaticScope.marks := by
  rw [declare_scopes]
  exact analysis.mark_marks free false

theorem declare_all_marks (analysis : Analysis) {names : List Token}
    (free : ∀ name ∈ names, Free name.lexeme) :
    (analysis.declareAll names).scopes.map StaticScope.marks =
      analysis.scopes.map StaticScope.marks := by
  induction names generalizing analysis with
  | nil => rfl
  | cons name rest induction =>
      rw [List.forall_mem_cons] at free
      exact (induction _ free.2).trans
        ((mark_marks _ free.1 true).trans (analysis.declare_marks free.1))

theorem declare_class_marks (analysis : Analysis) {name : Token} (free : Free name.lexeme) :
    (analysis.declareClass name).scopes.map StaticScope.marks =
      analysis.scopes.map StaticScope.marks :=
  (Marked.of_declare_class analysis name).marks free

theorem enter_class_marks (analysis : Analysis) {home : Home} (free : Free home.name.lexeme) :
    (analysis.enterClass home.name home.superclass).scopes.map StaticScope.marks =
      home.frames.map Frame.marks ++ analysis.scopes.map StaticScope.marks := by
  rw [enter_class_scopes, List.map_cons, List.map_append, analysis.declare_class_marks free]
  unfold Home.frames Home.around
  cases home.superclass <;> rfl

end Analysis

end Marks

/-- The superclass is named outside of the class, and its methods are written inside. -/
theorem class_part_scopes {site part : Site} {home : Home}
    (isClass : site.node = .statement home.declaration) (member : part ∈ site.parts) :
    (∃ place, part.node = .expression (.reference place) ∧
      part.analysis.scopes = (site.analysis.declareClass home.name).scopes) ∨
    ∃ declared, part.node = .routines declared ∧
      part.analysis.scopes = (site.analysis.enterClass home.name home.superclass).scopes := by
  obtain ⟨node, analysis, full⟩ := site
  obtain ⟨name, superclass, methods, classMethods, ofClass⟩ := home
  cases isClass
  have inside : ∀ {own : Nat}, part ∈ Site.ofMethods methods classMethods
      (analysis.enterClass name superclass) own full → ∃ declared, part.node = .routines declared ∧
        part.analysis.scopes = (analysis.enterClass name superclass).scopes := by
    intro own member
    rcases List.mem_pair.mp member with rfl | rfl
    · exact ⟨methods, rfl, rfl⟩
    · exact ⟨classMethods, rfl, Site.routines_after _ _⟩
  cases superclass with
  | none => exact .inr (inside member)
  | some place =>
      rcases List.mem_cons.mp member with rfl | member
      · exact .inl ⟨place, rfl, analysis.at_superclass_scopes name place⟩
      · exact .inr (inside member)

section Vetted

variable {table : Std.TreeMap Nat Nat} {lines : List Line} (vetted : Vetted table lines)

include vetted

namespace Vetted

theorem routine_free {declared : Routine} {analysis : Analysis} {full : List StaticScope}
    (isKnown : sitesOf lines ⟨.routine declared, analysis, full⟩) :
    ∀ name ∈ declared.name.toList ++ declared.parameters.getD [], Free name.lexeme :=
  fun _ member => vetted.spelled isKnown _ (List.mem_map_of_mem member)

theorem variable_free {name : Token} {initializer : Option Expression} {analysis : Analysis}
    {full : List StaticScope}
    (isKnown : sitesOf lines ⟨.statement (.variableDeclaration name initializer), analysis, full⟩) :
    Free name.lexeme :=
  vetted.spelled isKnown (.identifier, name) List.mem_cons_self

theorem class_free {home : Home} {site : Site} (isKnown : sitesOf lines site)
    (isClass : site.node = .statement home.declaration) : Free home.name.lexeme := by
  have spelled := vetted.spelled isKnown
  rw [isClass] at spelled
  exact spelled (.identifier, home.name) List.mem_cons_self

/-- No statement declares the receiver or the superclass. -/
theorem statement_marks {order : Statement} {analysis : Analysis} {full : List StaticScope}
    (isKnown : sitesOf lines ⟨.statement order, analysis, full⟩) :
    (order.analyse analysis).scopes.map StaticScope.marks =
      analysis.scopes.map StaticScope.marks := by
  cases order with
  | variableDeclaration name initializer =>
      have free := vetted.variable_free isKnown
      cases initializer with
      | none => exact (Marked.of_define rfl).marks free
      | some value => exact (Marked.of_define (Site.expression_after value _)).marks free
  | routineDeclaration declared =>
      have free := vetted.routine_free (vetted.charted.part isKnown List.mem_cons_self)
      rw [Statement.analyse, Site.routine_after]
      exact analysis.declare_all_marks fun name member => free name (List.mem_append_left _ member)
  | classDeclaration name superclass methods classMethods =>
      rw [Site.class_after]
      exact analysis.declare_class_marks
        (vetted.spelled isKnown (.identifier, name) List.mem_cons_self)
  | expression | print | block | conditional | loop | exit =>
      have same := vetted.charted.undeclaring_after isKnown rfl rfl
      exact congrArg _ same

/-- Whatever is walked in the scopes around it finds the receiver and the superclass there as
before. -/
theorem part_marks {site part : Site} (isKnown : sitesOf lines site)
    (plain : site.node.opensScope = false) (member : part ∈ site.parts) :
    part.analysis.scopes.map StaticScope.marks = site.analysis.scopes.map StaticScope.marks := by
  obtain ⟨node, analysis, full⟩ := site
  have same {scopes : List StaticScope} (unchanged : scopes = analysis.scopes) :
      scopes.map StaticScope.marks = analysis.scopes.map StaticScope.marks := by rw [unchanged]
  have partKnown (part : Site) (member : part ∈ (Site.mk node analysis full).parts) :
      sitesOf lines part := vetted.charted.part isKnown member
  revert part
  cases node with
  | expression value =>
      cases value with
      | literal | reference | receiver | inherited =>
          exact fun member => absurd member List.not_mem_nil
      | grouping | unary | assign | get | lambda =>
          simp only [Site.parts, List.forall_mem_singleton]
      | binary | logical | call | set =>
          simp only [Site.parts, List.forall_mem_cons, List.not_mem_nil, false_implies,
            implies_true, and_true, true_and]
          exact same (Site.expression_after _ _)
      | conditional =>
          simp only [Site.parts, List.forall_mem_cons, List.not_mem_nil, false_implies,
            implies_true, and_true, true_and]
          exact ⟨same (Site.expression_after _ _),
            same ((Site.expression_after _ _).trans (Site.expression_after _ _))⟩
  | expressions values =>
      cases values with
      | nil => exact fun member => absurd member List.not_mem_nil
      | cons first rest =>
          simp only [Site.parts, List.forall_mem_cons, List.not_mem_nil, false_implies,
            implies_true, and_true, true_and]
          exact same (Site.expression_after _ _)
  | statements orders =>
      cases orders with
      | nil => exact fun member => absurd member List.not_mem_nil
      | cons first rest =>
          have firstKnown := partKnown _ List.mem_cons_self
          simp only [Site.parts, List.forall_mem_cons, List.not_mem_nil, false_implies,
            implies_true, and_true, true_and]
          exact vetted.statement_marks firstKnown
  | routines declared =>
      cases declared with
      | nil => exact fun member => absurd member List.not_mem_nil
      | cons first rest =>
          simp only [Site.parts, List.forall_mem_cons, List.not_mem_nil, false_implies,
            implies_true, and_true, true_and]
          exact same (Site.routine_after _ _)
  | routine => cases plain
  | statement order =>
      cases order with
      | expression | print => simp only [Site.parts, List.forall_mem_singleton]
      | block | classDeclaration => cases plain
      | variableDeclaration name initializer =>
          cases initializer with
          | none => exact fun member => absurd member List.not_mem_nil
          | some value =>
              simp only [Site.parts, List.forall_mem_singleton]
              exact analysis.declare_marks (vetted.variable_free isKnown)
      | loop =>
          simp only [Site.parts, List.forall_mem_cons, List.not_mem_nil, false_implies,
            implies_true, and_true, true_and]
          exact same (Site.expression_after _ _)
      | conditional condition thenBranch elseBranch =>
          have after := same (Site.expression_after condition analysis)
          cases elseBranch with
          | none =>
              simp only [Site.parts, List.forall_mem_cons, List.not_mem_nil, false_implies,
                implies_true, and_true, true_and]
              exact after
          | some branch =>
              have thenKnown := partKnown _ (List.mem_cons_of_mem _ List.mem_cons_self)
              simp only [Site.parts, List.forall_mem_cons, List.not_mem_nil, false_implies,
                implies_true, and_true, true_and]
              exact ⟨after, (vetted.statement_marks thenKnown).trans after⟩
      | routineDeclaration declared =>
          have free := vetted.routine_free (partKnown _ List.mem_cons_self)
          simp only [Site.parts, List.forall_mem_singleton]
          exact analysis.declare_all_marks fun name member =>
            free name (List.mem_append_left _ member)
      | exit keyword value =>
          cases value with
          | none => exact fun member => absurd member List.not_mem_nil
          | some value =>
              simp only [Site.parts, List.forall_mem_singleton]
              split_ifs <;> rfl

/-- The body of a block or a routine is walked in one scope more. -/
theorem body_marks {site part : Site} (isKnown : sitesOf lines site)
    (opens : site.node.body?.isSome = true) (member : part ∈ site.parts) :
    part.analysis.scopes.map StaticScope.marks =
      (false, false) :: site.analysis.scopes.map StaticScope.marks := by
  obtain ⟨node, analysis, full⟩ := site
  cases node with
  | statement order =>
      cases order with
      | block orders =>
          rcases List.mem_singleton.mp member with rfl
          rfl
      | expression | print | variableDeclaration | conditional | loop | routineDeclaration | exit
      | classDeclaration => cases opens
  | routine declared =>
      have free := vetted.routine_free isKnown
      rcases List.mem_singleton.mp member with rfl
      exact Analysis.declare_all_marks _ fun name member =>
        free name (List.mem_append_right _ member)
  | expression | expressions | statements | routines => cases opens

/-- The walk finds the receiver and the superclass in the scopes that are there for them. -/
theorem framed_marks {site : Site} {frames : List Frame} (framed : Framed lines site frames) :
    site.analysis.scopes.map StaticScope.marks = frames.map Frame.marks := by
  induction framed with
  | top => rfl
  | beside around plain member induction =>
      exact (vetted.part_marks around.isKnown plain member).trans induction
  | body around opens member induction =>
      exact (vetted.body_marks around.isKnown opens member).trans (congrArg _ induction)
  | @ancestor site part frames around home isClass member place reference induction =>
      rcases class_part_scopes isClass member with ⟨_, -, scopes⟩ | ⟨_, node, -⟩
      · rw [scopes, ← induction]
        exact site.analysis.declare_class_marks (vetted.class_free around.isKnown isClass)
      · rw [reference] at node
        cases node
  | @methods site part frames around home isClass member routines induction =>
      rcases class_part_scopes isClass member with ⟨_, node, -⟩ | ⟨_, -, scopes⟩
      · rw [routines] at node
        cases node
      · rw [scopes, List.map_append, ← induction]
        exact site.analysis.enter_class_marks (vetted.class_free around.isKnown isClass)

end Vetted

end Vetted

namespace Node

theorem no_reference_around {node part : Node} (member : part ∈ node.parts) :
    node.references = [] := by
  cases node with
  | expression value =>
      cases value with
      | reference => cases member
      | _ => rfl
  | _ => rfl

theorem no_class_of_body {node : Node} (opens : node.body?.isSome = true) :
    node.isClass = false := by
  cases node with
  | statement order =>
      cases order with
      | classDeclaration => cases opens
      | _ => rfl
  | _ => rfl

/-- Only the declaration of a class changes what `self` and `super` may be used for. -/
theorem inside_class_context {node : Node} (plain : node.isClass = false)
    (context : Bool × ClassContext) : (node.inside context).2 = context.2 := by
  cases node with
  | statement order =>
      cases order with
      | classDeclaration => cases plain
      | _ => rfl
  | _ => rfl

end Node

/-- Where a node stands that is written in a class: among its methods, or in one of them and
within these blocks and routines, of which the method is the outermost. -/
inductive Home.Around (home : Home) : Node → List Node → Prop where
  | list {declared : List Routine} (written : ∀ routine ∈ declared, routine ∈ home.routines) :
      home.Around (.routines declared) []
  | head {routine : Routine} (written : routine ∈ home.routines) : home.Around (.routine routine) []
  | within {routine : Routine} {node : Node} {openers : List Node}
      (written : routine ∈ home.routines)
      (inside : node ∈ (Node.routine routine).upTo Node.isClass) :
      home.Around node (openers ++ [.routine routine])

namespace Home.Around

variable {home : Home} {node part : Node} {openers : List Node}

theorem beside (around : home.Around node openers) (plain : node.opensScope = false)
    (member : part ∈ node.parts) : home.Around part openers := by
  cases around with
  | @list declared written =>
      cases declared with
      | nil => cases member
      | cons first rest =>
          rw [List.forall_mem_cons] at written
          rcases List.mem_pair.mp member with rfl | rfl
          · exact .head written.1
          · exact .list written.2
  | head => cases plain
  | within written inside =>
      simp only [Node.opensScope, Bool.or_eq_false_iff] at plain
      exact .within written (Node.mem_up_to_part inside plain.2 member)

theorem body (around : home.Around node openers) (opens : node.body?.isSome = true)
    (member : part ∈ node.parts) : home.Around part (node :: openers) := by
  cases around with
  | list => cases opens
  | @head routine written =>
      have inside := Node.mem_up_to_part (Node.mem_up_to_self Node.isClass _) rfl member
      have around : home.Around part ([] ++ [.routine routine]) := .within written inside
      exact around
  | @within routine _ openers written inside =>
      have inside := Node.mem_up_to_part inside (Node.no_class_of_body opens) member
      have around : home.Around part ((node :: openers) ++ [.routine routine]) :=
        .within written inside
      exact around

end Home.Around

/-- The innermost class around a site, and the frames that its methods add. -/
structure Innermost (lines : List Line) (home : Home) (openers : List Node) (rest : List Frame)
    (site : Site) (frames : List Frame) : Prop where
  declared : ∃ line ∈ lines, line.node.Contains (.statement home.declaration)
  frames : frames = openers.map Frame.scope ++ (home.frames ++ rest)
  around : home.Around site.node openers
  context : site.analysis.classContext =
    if home.superclass.isSome then .withSuperclass else .withoutSuperclass

/-- A site is outside of all classes, or there is an innermost class around it. -/
theorem framed_innermost {lines : List Line} {site : Site} {frames : List Frame}
    (framed : Framed lines site frames) (plain : site.node.references = []) :
    ((∃ openers : List Node, frames = openers.map Frame.scope) ∧
      site.analysis.classContext = .outside) ∨
    ∃ home openers rest, Innermost lines home openers rest site frames := by
  have context {site part : Site} (isClass : site.node.isClass = false)
      (member : part ∈ site.parts) :
      part.analysis.classContext = site.analysis.classContext :=
    (congrArg Prod.snd (Site.part_context member)).trans (Node.inside_class_context isClass _)
  induction framed with
  | top => exact .inl ⟨⟨[], rfl⟩, rfl⟩
  | @beside site part frames around opens member induction =>
      have isPart := Site.part_node_member member
      have same := context (by simp_all [Node.opensScope]) member
      rcases induction (Node.no_reference_around isPart) with ⟨scopes, outside⟩ |
        ⟨home, openers, rest, innermost⟩
      · exact .inl ⟨scopes, same.trans outside⟩
      · exact .inr ⟨home, openers, rest, innermost.declared, innermost.frames,
          innermost.around.beside opens isPart, same.trans innermost.context⟩
  | @body site part frames around opens member induction =>
      have isPart := Site.part_node_member member
      have same := context (Node.no_class_of_body opens) member
      rcases induction (Node.no_reference_around isPart) with ⟨⟨openers, rfl⟩, outside⟩ |
        ⟨home, openers, rest, innermost⟩
      · exact .inl ⟨⟨site.node :: openers, rfl⟩, same.trans outside⟩
      · refine .inr ⟨home, site.node :: openers, rest, innermost.declared, ?_,
          innermost.around.body opens isPart, same.trans innermost.context⟩
        rw [innermost.frames]
        rfl
  | ancestor _ _ _ reference =>
      rw [reference] at plain
      cases plain
  | @methods site part frames around home isClass member routines induction =>
      refine .inr ⟨home, [], frames, ?_, rfl, ?_, ?_⟩
      · obtain ⟨line, isLine, contained⟩ := around.isKnown
        exact ⟨line, isLine, isClass ▸ Site.contains_node contained⟩
      · rw [routines]
        exact .list fun _ => id
      · have changed := congrArg Prod.snd (Site.part_context member)
        rw [isClass] at changed
        exact changed

namespace Innermost

variable {table : Std.TreeMap Nat Nat} {lines : List Line} {home : Home} {openers : List Node}
  {rest frames : List Frame} {site : Site}

theorem find_marks (vetted : Vetted table lines) (framed : Framed lines site frames)
    (innermost : Innermost lines home openers rest site frames) :
    site.analysis.scopes.map StaticScope.marks =
      List.replicate openers.length (false, false) ++
        (true, false) :: (home.around ++ rest).map Frame.marks := by
  have unmarked : (openers.map Frame.scope).map Frame.marks =
      List.replicate openers.length (false, false) := by
    simp [Function.comp_def, Frame.marks]
  rw [vetted.framed_marks framed, innermost.frames, List.map_append, unmarked]
  rfl

/-- The receiver is just outside of the scopes of the method. -/
theorem receiver_distance (vetted : Vetted table lines) (framed : Framed lines site frames)
    (innermost : Innermost lines home openers rest site frames) :
    site.analysis.distance? receiverName = some openers.length := by
  have marks := innermost.find_marks vetted framed
  have found : (site.analysis.scopes.map StaticScope.marks).findIdx? Prod.fst =
      some openers.length := by
    rw [marks]
    simp [List.findIdx?_append, List.findIdx?_cons]
  rwa [List.findIdx?_map] at found

/-- The superclass is one further out. -/
theorem superclass_distance (vetted : Vetted table lines) (framed : Framed lines site frames)
    (innermost : Innermost lines home openers rest site frames)
    (inherits : home.superclass.isSome = true) :
    site.analysis.distance? superclassName = some (openers.length + 1) := by
  have marks := innermost.find_marks vetted framed
  obtain ⟨place, isPlace⟩ := Option.isSome_iff_exists.mp inherits
  have found : (site.analysis.scopes.map StaticScope.marks).findIdx? Prod.snd =
      some (openers.length + 1) := by
    rw [marks]
    simp [List.findIdx?_append, List.findIdx?_cons, Home.around, isPlace, Frame.marks,
      Nat.add_comm]
  rwa [List.findIdx?_map] at found

end Innermost

end Lox
