import Lox.Proofs.Names.Tally

/-!
What the walk does to the innermost scope. Most nodes declare what they declare and then go
through their parts in the same scope; the others have a scope of their own, or let a name
wait for its value. So when the walk leaves a site, the innermost scope has got the names
that the tree declares there, and all of them have their values.
-/

namespace Lox

namespace Node

/-- The names that are declared in the scope around the node. -/
def names (node : Node) : List Token := node.region.flatMap introduced

theorem region_eq (node : Node) :
    node.region = node :: if node.opensScope then [] else node.parts.flatMap region :=
  up_to_eq opensScope node

/-- Only routines have quiet nodes around others. -/
theorem part_quiet {node : Node} (quiet : node.isQuiet = true) (inner : node.isRoutine = false) :
    ∀ part ∈ node.parts, part.isQuiet = true := by
  cases node with
  | expression value => cases value <;> simp [parts, isQuiet]
  | expressions values => cases values <;> simp [parts, isQuiet]
  | routines declared => cases declared <;> simp [parts, isQuiet]
  | routine => cases inner
  | statement | statements => cases quiet

theorem region_quiet {node : Node} (quiet : node.isQuiet = true) :
    ∀ inner ∈ node.region, inner.isQuiet = true := by
  induction node using induction_along_parts with
  | step node parts =>
    rw [region_eq]
    intro inner member
    rcases List.mem_cons.mp member with rfl | member
    · exact quiet
    · split_ifs at member with border
      · cases member
      · have isRoutine : node.isRoutine = false := by
          simp only [opensScope, Bool.or_eq_true, not_or, Bool.not_eq_true] at border
          exact border.1.2
        obtain ⟨part, isPart, below⟩ := List.mem_flatMap.mp member
        exact parts part isPart (part_quiet quiet isRoutine part isPart) inner below

theorem introduced_of_quiet {node : Node} (quiet : node.isQuiet = true) :
    node.introduced = [] ∧ node.ownReads = [] := by
  cases node with
  | statement => cases quiet
  | _ => exact ⟨rfl, rfl⟩

theorem names_of_quiet {node : Node} (quiet : node.isQuiet = true) : node.names = [] :=
  List.flatMap_eq_nil_iff.mpr fun inner member =>
    (introduced_of_quiet (region_quiet quiet inner member)).1

theorem own_reads_of_quiet {node : Node} (quiet : node.isQuiet = true) :
    node.region.flatMap ownReads = [] :=
  List.flatMap_eq_nil_iff.mpr fun inner member =>
    (introduced_of_quiet (region_quiet quiet inner member)).2

theorem names_eq (node : Node) :
    node.names = node.introduced ++ if node.opensScope then [] else node.parts.flatMap names := by
  rw [names, region_eq, List.flatMap_cons]
  split_ifs
  · rfl
  · rw [List.flatMap_assoc]
    rfl

/-- What the node declares, its parts declare in the same scope and at once. -/
def isPlain : Node → Bool
  | .statement (.block _) | .statement (.classDeclaration _ _ _ _) | .routine _
  | .statement (.variableDeclaration _ (some _)) => false
  | _ => true

/-- How a node deals with the scope around it. -/
inductive Manner : Node → Prop where
  | plain {node : Node} (plain : node.isPlain = true) : Manner node
  | routine (declared : Routine) : Manner (.routine declared)
  | block (orders : List Statement) : Manner (.statement (.block orders))
  | classDeclaration (name : Token) (superclass : Option Occurrence)
      (methods classMethods : List Routine) :
      Manner (.statement (.classDeclaration name superclass methods classMethods))
  | initialized (name : Token) (value : Expression) :
      Manner (.statement (.variableDeclaration name (some value)))

theorem manner (node : Node) : node.Manner := by
  cases node with
  | statement order =>
      cases order with
      | block orders => exact .block orders
      | classDeclaration => exact .classDeclaration _ _ _ _
      | variableDeclaration name initializer =>
          cases initializer with
          | none => exact .plain rfl
          | some value => exact .initialized name value
      | _ => exact .plain rfl
  | routine declared => exact .routine declared
  | _ => exact .plain rfl

end Node

/-- No name of the innermost scope waits for its value. -/
def Calm (scopes : List StaticScope) : Prop :=
  ∀ inner ∈ scopes.head?, ∀ name, inner.find? name ≠ some false

theorem Marked.calm {name : String} {before after : List StaticScope}
    (marked : Marked name before after) (calm : Calm before) : Calm after := by
  intro last isLast key
  cases before with
  | nil =>
      cases marked
      cases isLast
  | cons inner outer =>
      obtain ⟨last, rfl, names⟩ := marked
      cases isLast
      rw [names]
      split_ifs
      · exact nofun
      · exact calm inner rfl key

theorem Calm.not_waiting {analysis : Analysis} (calm : Calm analysis.scopes) (name : String) :
    analysis.inOwnInitializer name = false := by
  unfold Analysis.inOwnInitializer
  cases begun : analysis.scopes with
  | nil => rfl
  | cons inner outer =>
      rw [begun] at calm
      simpa using calm inner rfl name

namespace Site

/-- Each site lies among the scopes that the one before has left. -/
def Linked : List StaticScope → List Site → List StaticScope → Prop
  | first, [], last => last = first
  | first, part :: rest, last => part.analysis.scopes = first ∧ Linked part.after.scopes rest last

/-- At a plain node, the walk declares what the node does, and goes on in the same scope. -/
theorem plain_linked (site : Site) (plain : site.node.isPlain = true) :
    ∃ first, Lox.Declares site.node.introduced site.analysis.scopes first ∧
      (site.node.introduced = [] → first = site.analysis.scopes) ∧
      (Calm site.analysis.scopes → Calm first) ∧ Linked first site.parts site.after.scopes := by
  obtain ⟨node, analysis, full⟩ := site
  have unchanged {node : Node} (nothing : node.introduced = []) {last : List StaticScope}
      (linked : Linked analysis.scopes (Site.mk node analysis full).parts last) :
      ∃ first, Lox.Declares node.introduced analysis.scopes first ∧
        (node.introduced = [] → first = analysis.scopes) ∧
        (Calm analysis.scopes → Calm first) ∧
        Linked first (Site.mk node analysis full).parts last :=
    ⟨analysis.scopes, by rw [nothing]; exact .refl _, fun _ => rfl, id, linked⟩
  cases node with
  | expression value =>
      apply unchanged rfl
      cases value with
      | literal => rfl
      | reference | receiver | inherited => exact quiet_after rfl
      | grouping | unary | get | lambda => exact ⟨rfl, rfl⟩
      | assign => exact ⟨rfl, Analysis.bind_scopes _ _⟩
      | binary | logical | call | set => exact ⟨rfl, rfl, rfl⟩
      | conditional => exact ⟨rfl, rfl, rfl, rfl⟩
  | expressions values =>
      apply unchanged rfl
      cases values with
      | nil => rfl
      | cons first rest => exact ⟨rfl, rfl, rfl⟩
  | statements orders =>
      apply unchanged rfl
      cases orders with
      | nil => rfl
      | cons first rest => exact ⟨rfl, rfl, rfl⟩
  | routines declared =>
      apply unchanged rfl
      cases declared with
      | nil => rfl
      | cons first rest => exact ⟨rfl, rfl, rfl⟩
  | routine => cases plain
  | statement order =>
      cases order with
      | expression | print => exact unchanged rfl ⟨rfl, rfl⟩
      | loop => exact unchanged rfl ⟨rfl, rfl, rfl⟩
      | conditional condition thenBranch elseBranch =>
          apply unchanged rfl
          cases elseBranch with
          | none => exact ⟨rfl, rfl, rfl⟩
          | some branch => exact ⟨rfl, rfl, rfl, rfl⟩
      | exit keyword value =>
          have checked : (if analysis.inRoutine then analysis
              else analysis.report keyword .topLevelReturn).scopes = analysis.scopes := by
            split_ifs <;> rfl
          apply unchanged rfl
          cases value with
          | none => exact checked
          | some value => exact ⟨checked, rfl⟩
      | variableDeclaration name initializer =>
          cases initializer with
          | none =>
              have marked : Marked name.lexeme analysis.scopes
                  ((analysis.declare name).define name).scopes := .of_define rfl
              exact ⟨_, .of_marked marked, nofun, marked.calm, rfl⟩
          | some value => cases plain
      | routineDeclaration declared =>
          obtain ⟨name, parameters, body⟩ := declared
          cases name with
          | none => exact unchanged rfl ⟨rfl, rfl⟩
          | some name =>
              have marked : Marked name.lexeme analysis.scopes
                  ((analysis.declare name).define name).scopes := .of_define rfl
              exact ⟨_, .of_marked marked, nofun, marked.calm, rfl, rfl⟩
      | block | classDeclaration => cases plain

theorem part_names (site : Site) :
    site.node.parts.flatMap Node.names = site.parts.flatMap fun part => part.node.names := by
  rw [← part_nodes, List.flatMap_map]

theorem linked_declares {parts : List Site} {first last : List StaticScope}
    (linked : Linked first parts last)
    (each : ∀ part ∈ parts, Lox.Declares part.node.names part.analysis.scopes part.after.scopes) :
    Lox.Declares (parts.flatMap fun part => part.node.names) first last := by
  induction parts generalizing first with
  | nil =>
      cases linked
      exact .refl _
  | cons part rest induction =>
      obtain ⟨rfl, linked⟩ := linked
      rw [List.forall_mem_cons] at each
      exact each.1.trans (induction linked each.2)

theorem plain_around {node : Node} (plain : node.isPlain = true) : node.opensScope = false := by
  cases node with
  | statement order =>
      cases order with
      | block | classDeclaration => cases plain
      | _ => rfl
  | routine => cases plain
  | _ => rfl

theorem plain_own {node : Node} (plain : node.isPlain = true) :
    node.body? = none ∧ node.parameters = [] ∧ node.ownReads = [] := by
  cases node with
  | statement order =>
      cases order with
      | block => cases plain
      | variableDeclaration name initializer =>
          cases initializer with
          | none => exact ⟨rfl, rfl, rfl⟩
          | some => cases plain
      | _ => exact ⟨rfl, rfl, rfl⟩
  | routine => cases plain
  | _ => exact ⟨rfl, rfl, rfl⟩

theorem plain_quiet {node : Node} (plain : node.isPlain = true) (quiet : node.isQuiet = true) :
    ∀ part ∈ node.parts, part.isQuiet = true := by
  refine Node.part_quiet quiet ?_
  cases node with
  | routine => cases plain
  | _ => rfl

theorem plain_names {node : Node} (plain : node.isPlain = true) :
    node.names = node.introduced ++ node.parts.flatMap Node.names := by
  rw [Node.names_eq, plain_around plain, if_neg Bool.false_ne_true]

theorem names_of_initialized (name : Token) (value : Expression) :
    (Node.statement (.variableDeclaration name (some value))).names = [name] := by
  have quiet : (Node.expression value).names = [] := Node.names_of_quiet rfl
  rw [Node.names_eq]
  simp [Node.opensScope, Node.parts, quiet]

theorem names_of_class (name : Token) (superclass : Option Occurrence)
    (methods classMethods : List Routine) :
    (Node.statement (.classDeclaration name superclass methods classMethods)).names = [name] := by
  rw [Node.names_eq]
  simp [Node.opensScope]

theorem names_of_block (orders : List Statement) :
    (Node.statement (.block orders)).names = [] := by
  rw [Node.names_eq]
  simp [Node.opensScope]

theorem block_after (orders : List Statement) (analysis : Analysis) (full : List StaticScope) :
    (Site.mk (.statement (.block orders)) analysis full).after.scopes = analysis.scopes :=
  (List.drop_one ..).trans (Site.mk (.statements orders) analysis.enter []).keeps_scopes.1.tail

theorem class_marked (name : Token) (superclass : Option Occurrence)
    (methods classMethods : List Routine) (analysis : Analysis) :
    Marked name.lexeme analysis.scopes
      ((Statement.classDeclaration name superclass methods classMethods).analyse
        analysis).scopes := by
  rw [class_after]
  exact .of_declare_class analysis name

/-- When the walk leaves a site, what the site declares there is in the innermost scope. -/
theorem walk_declares (site : Site) :
    Lox.Declares site.node.names site.analysis.scopes site.after.scopes := by
  induction site using induction_along_parts with
  | step site parts =>
    obtain ⟨node, analysis, full⟩ := site
    cases node.manner with
    | plain plain =>
        obtain ⟨first, declares, -, -, linked⟩ := plain_linked ⟨node, analysis, full⟩ plain
        rw [plain_names plain, part_names ⟨node, analysis, full⟩]
        exact declares.trans (linked_declares linked parts)
    | routine declared =>
        rw [Node.names_of_quiet rfl, quiet_after rfl]
        exact .refl _
    | block orders =>
        rw [names_of_block, block_after]
        exact .refl _
    | classDeclaration name superclass methods classMethods =>
        rw [names_of_class]
        exact .of_marked (class_marked name superclass methods classMethods analysis)
    | initialized name value =>
        rw [names_of_initialized]
        exact .of_marked (.of_define (expression_after value (analysis.declare name)))

theorem class_parts_quiet {name : Token} {superclass : Option Occurrence}
    {methods classMethods : List Routine} {analysis : Analysis} {full : List StaticScope} :
    ∀ part ∈ (Site.mk (.statement (.classDeclaration name superclass methods classMethods))
      analysis full).parts, part.node.isQuiet = true := by
  cases superclass <;> simp [parts, ofMethods, Node.isQuiet]

theorem linked_calm {parts : List Site} {first last : List StaticScope}
    (linked : Linked first parts last) (calm : Calm first)
    (each : ∀ part ∈ parts, Calm part.analysis.scopes → Calm part.after.scopes) :
    (∀ part ∈ parts, Calm part.analysis.scopes) ∧ Calm last := by
  induction parts generalizing first with
  | nil =>
      cases linked
      exact ⟨nofun, calm⟩
  | cons part rest induction =>
      obtain ⟨rfl, linked⟩ := linked
      rw [List.forall_mem_cons] at each ⊢
      obtain ⟨others, ended⟩ := induction linked (each.1 calm) each.2
      exact ⟨⟨calm, others⟩, ended⟩

/-- The walk leaves no name behind that waits for its value. -/
theorem walk_calm (site : Site) (calm : Calm site.analysis.scopes) : Calm site.after.scopes := by
  induction site using induction_along_parts with
  | step site parts =>
    obtain ⟨node, analysis, full⟩ := site
    cases node.manner with
    | plain plain =>
        obtain ⟨first, -, -, begun, linked⟩ := plain_linked ⟨node, analysis, full⟩ plain
        exact (linked_calm linked (begun calm) parts).2
    | routine declared =>
        rw [quiet_after rfl]
        exact calm
    | block orders =>
        rw [block_after]
        exact calm
    | classDeclaration name superclass methods classMethods =>
        exact (class_marked name superclass methods classMethods analysis).calm calm
    | initialized name value =>
        have marked : Marked name.lexeme analysis.scopes
            ((value.analyse (analysis.declare name)).define name).scopes :=
          .of_define (expression_after value (analysis.declare name))
        exact marked.calm calm

theorem enter_calm (scopes : List StaticScope) : Calm (Names.empty :: scopes) := by
  intro inner isInner name
  cases isInner
  exact nofun

theorem entered_calm (declared : Routine) (analysis : Analysis) :
    Calm (entered declared analysis).scopes := by
  have all (names : List Token) (analysis : Analysis) (calm : Calm analysis.scopes) :
      Calm (analysis.declareAll names).scopes := by
    induction names generalizing analysis with
    | nil => exact calm
    | cons name rest induction =>
        have marked : Marked name.lexeme analysis.scopes
            ((analysis.declare name).define name).scopes := .of_define rfl
        exact induction _ (marked.calm calm)
  exact all _ _ (enter_calm _)

/-- The walk comes to no statement with a name waiting for its value. -/
def Steady (site : Site) : Prop := site.node.isQuiet = false → Calm site.analysis.scopes

theorem part_steady {site part : Site} (steady : site.Steady) (member : part ∈ site.parts) :
    part.Steady := by
  intro loud
  obtain ⟨node, analysis, full⟩ := site
  have absurd {site : Site} (quiet : part.node.isQuiet = true) : Calm site.analysis.scopes := by
    rw [loud] at quiet
    cases quiet
  cases node.manner with
  | plain plain =>
      cases quiet : node.isQuiet with
      | true => exact absurd (plain_quiet plain quiet _ (part_node_member member))
      | false =>
          obtain ⟨first, -, -, begun, linked⟩ := plain_linked ⟨node, analysis, full⟩ plain
          exact (linked_calm linked (begun (steady quiet)) fun part _ => part.walk_calm).1 _ member
  | routine declared =>
      rcases List.mem_singleton.mp member with rfl
      exact entered_calm declared analysis
  | block orders =>
      rcases List.mem_singleton.mp member with rfl
      exact enter_calm _
  | classDeclaration => exact absurd (class_parts_quiet part member)
  | initialized name value =>
      rcases List.mem_singleton.mp member with rfl
      cases loud

end Site

end Lox
