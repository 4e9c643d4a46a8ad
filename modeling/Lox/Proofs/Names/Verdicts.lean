import Lox.Proofs.Names.Dues
import Lox.Proofs.Names.Regions

/-!
The walk reports exactly the tokens at which a program breaks the rules on names. Two of the
rules look at the scope around a declaration; what these have to report adds up over the
parts as well, and so the walk through a whole program reports what breaks the rules.
-/

namespace Lox

namespace Site

theorem linked_clashes {parts : List Site} {first last : List StaticScope} {analysis : Analysis}
    (begun : analysis.scopes = first) (linked : Linked first parts last) :
    (analysis.clashes (parts.flatMap fun part => part.node.names) : Multiset Token) =
      (parts.map fun part => (part.analysis.clashes part.node.names : Multiset Token)).sum := by
  induction parts generalizing first analysis with
  | nil => exact congrArg _ analysis.clashes_nil
  | cons part rest induction =>
      obtain ⟨same, linked⟩ := linked
      have here : analysis.clashes part.node.names = part.analysis.clashes part.node.names := by
        unfold Analysis.clashes
        rw [begun, same]
      have declares := part.walk_declares
      rw [same, ← begun] at declares
      rw [List.flatMap_cons, declares.clashes_append, ← Multiset.coe_add, here, List.map_cons,
        List.sum_cons, induction rfl linked]

/-- Parts that declare nothing have nothing due. -/
theorem quiet_clashes {parts : List Site} (quiet : ∀ part ∈ parts, part.node.isQuiet = true) :
    (parts.map fun part => (part.analysis.clashes part.node.names : Multiset Token)).sum = 0 := by
  refine List.sum_eq_zero fun clashes member => ?_
  obtain ⟨part, isPart, rfl⟩ := List.mem_map.mp member
  rw [Node.names_of_quiet (quiet part isPart), Analysis.clashes_nil]
  rfl

/-- The names of a site clash where it declares them, or else in its parts. -/
def NamesAdd (site : Site) : Prop :=
  (site.analysis.clashes site.node.names : Multiset Token) + site.node.redeclarations =
    own .redeclared site +
      (site.parts.map fun part => (part.analysis.clashes part.node.names : Multiset Token)).sum

theorem plain_names_add {site : Site} (plain : site.node.isPlain = true) : site.NamesAdd := by
  obtain ⟨first, declares, -, -, linked⟩ := plain_linked _ plain
  let inside : Analysis := { site.analysis with scopes := first }
  have clashes : site.analysis.clashes site.node.names =
      site.analysis.clashes site.node.introduced ++
        inside.clashes (site.parts.flatMap fun part => part.node.names) := by
    rw [plain_names plain, part_names]
    have inner : Lox.Declares site.node.introduced site.analysis.scopes inside.scopes := declares
    exact inner.clashes_append _
  rw [NamesAdd, clashes, ← Multiset.coe_add, linked_clashes rfl linked, own,
    Node.redeclarations, (plain_own plain).1, (plain_own plain).2.1]
  simp [repeatedAfter]

/-- The parameters of a routine and the names of its body clash with each other alone. -/
theorem routine_names_add (declared : Routine) (analysis : Analysis) (full : List StaticScope) :
    (Site.mk (.routine declared) analysis full).NamesAdd := by
  let opened : Analysis := { analysis with inRoutine := true }.enter
  let names := declared.parameters.getD []
  have declares : Lox.Declares names opened.scopes (entered declared analysis).scopes :=
    opened.declare_all_declares names
  have clashes := declares.clashes_append (Node.statements declared.body).names
  have redeclarations : (Node.routine declared).redeclarations =
      opened.clashes (names ++ (Node.statements declared.body).names) := List.append_nil _
  have parameters : opened.clashes names = repeatedAfter (fun _ => false) names := rfl
  rw [NamesAdd, Node.names_of_quiet rfl, Analysis.clashes_nil, redeclarations, clashes, parameters]
  simp [own, parts, ofBody, names]

theorem block_names_add (orders : List Statement) (analysis : Analysis)
    (full : List StaticScope) : (Site.mk (.statement (.block orders)) analysis full).NamesAdd := by
  have redeclarations : (Node.statement (.block orders)).redeclarations =
      analysis.enter.clashes (Node.statements orders).names := List.append_nil _
  rw [NamesAdd, names_of_block, Analysis.clashes_nil, redeclarations]
  simp [own, parts, ofBody, repeatedAfter]

theorem names_add (site : Site) : site.NamesAdd := by
  obtain ⟨node, analysis, full⟩ := site
  cases node.manner with
  | plain plain => exact plain_names_add plain
  | routine declared => exact routine_names_add declared analysis full
  | block orders => exact block_names_add orders analysis full
  | classDeclaration name superclass methods classMethods =>
      rw [NamesAdd, names_of_class, quiet_clashes class_parts_quiet]
      simp [own, repeatedAfter, Node.redeclarations]
  | initialized name value =>
      have quiet : ∀ part ∈ (Site.mk (.statement
          (.variableDeclaration name (some value))) analysis full).parts,
          part.node.isQuiet = true := by
        simp [parts, Node.isQuiet]
      rw [NamesAdd, names_of_initialized, quiet_clashes quiet]
      simp [own, repeatedAfter, Node.redeclarations]

theorem redeclarations_add (site : Site) : site.Adds .redeclared := by
  have parts : (site.parts.map (due .redeclared)).sum =
      (site.parts.map fun part => (part.analysis.clashes part.node.names : Multiset Token)).sum +
        (site.parts.map fun part =>
          part.node.gather (fun _ => false) Node.redeclarations).sum :=
    List.sum_map_add
  rw [Adds, parts, due, gather_all_eq, ← add_assoc, ← add_assoc, ← site.names_add]
  rfl

/-- The reads that the declarations in a site forbid themselves. -/
def forbidden (site : Site) : Multiset Token :=
  if site.analysis.scopes = [] then 0 else (site.node.region.flatMap Node.ownReads : List Token)

/-- The reads in a site of names that wait for their values when the walk comes there. -/
def awaited (site : Site) : Multiset Token :=
  (((site.node.upTo Node.isRoutine).flatMap Node.references).filter
    (site.analysis.inOwnInitializer ·.lexeme) : List Token)

theorem calm_awaited {site : Site} (calm : Calm site.analysis.scopes) : site.awaited = 0 := by
  unfold awaited
  rw [List.filter_eq_nil_iff.mpr fun token _ => by simp [calm.not_waiting token.lexeme]]
  rfl

theorem quiet_forbidden {site : Site} (quiet : site.node.isQuiet = true) :
    site.forbidden = 0 := by
  unfold forbidden
  rw [Node.own_reads_of_quiet quiet]
  exact ite_self _

theorem linked_quiet {parts : List Site} {first last : List StaticScope}
    (linked : Linked first parts last) (quiet : ∀ part ∈ parts, part.node.isQuiet = true) :
    ∀ part ∈ parts, part.analysis.scopes = first := by
  induction parts generalizing first with
  | nil => exact nofun
  | cons part rest induction =>
      obtain ⟨rfl, linked⟩ := linked
      rw [List.forall_mem_cons] at quiet ⊢
      rw [quiet_after quiet.1] at linked
      exact ⟨rfl, induction linked quiet.2⟩

theorem awaited_eq {site : Site} (inner : site.node.isRoutine = false)
    (same : ∀ part ∈ site.parts, part.analysis.scopes = site.analysis.scopes) :
    site.awaited = own .ownInitializer site + (site.parts.map awaited).sum := by
  let waiting (token : Token) : Bool := site.analysis.inOwnInitializer token.lexeme
  have parts : (site.parts.map awaited) = site.node.parts.map fun part =>
      (((part.upTo Node.isRoutine).flatMap Node.references).filter waiting : Multiset Token) := by
    rw [← part_nodes, List.map_map]
    refine List.map_congr_left fun part member => ?_
    have agree : part.analysis.inOwnInitializer = site.analysis.inOwnInitializer := by
      funext name
      unfold Analysis.inOwnInitializer
      rw [same part member]
    unfold awaited
    rw [agree]
    rfl
  rw [parts, ← coe_flatMap, awaited, Node.up_to_eq, inner, if_neg Bool.false_ne_true]
  rw [List.flatMap_cons, List.filter_append, ← Multiset.coe_add, List.flatMap_assoc,
    List.filter_flatMap]
  rfl

/-- The reads of waiting names in a site are reported at once, or else in its parts. -/
def ReadsAdd (site : Site) : Prop :=
  site.forbidden + site.awaited + site.node.prematureReads =
    own .ownInitializer site + (site.parts.map fun part => part.forbidden + part.awaited).sum

theorem quiet_parts_forbidden {parts : List Site}
    (quiet : ∀ part ∈ parts, part.node.isQuiet = true) :
    (parts.map fun part => part.forbidden + part.awaited) = parts.map awaited :=
  List.map_congr_left fun part member => by rw [quiet_forbidden (quiet part member), zero_add]

theorem quiet_reads_add {site : Site} (plain : site.node.isPlain = true)
    (quiet : site.node.isQuiet = true) : site.ReadsAdd := by
  have quietParts (part : Site) (member : part ∈ site.parts) : part.node.isQuiet = true :=
    plain_quiet plain quiet _ (part_node_member member)
  have inner : site.node.isRoutine = false := by
    have around := plain_around plain
    simp only [Node.opensScope, Bool.or_eq_false_iff] at around
    exact around.1.2
  obtain ⟨first, -, begun, -, linked⟩ := plain_linked _ plain
  have same := linked_quiet linked quietParts
  rw [begun (Node.introduced_of_quiet quiet).1] at same
  rw [ReadsAdd, quiet_parts_forbidden quietParts, quiet_forbidden quiet, awaited_eq inner same,
    Node.prematureReads, (plain_own plain).1]
  simp

theorem linked_nil {parts : List Site} {first last : List StaticScope}
    (linked : Linked first parts last) :
    ∀ part ∈ parts, part.analysis.scopes = [] ↔ first = [] := by
  induction parts generalizing first with
  | nil => exact nofun
  | cons part rest induction =>
      obtain ⟨rfl, linked⟩ := linked
      rw [List.forall_mem_cons]
      refine ⟨.rfl, fun other member => (induction linked other member).trans ?_⟩
      exact part.walk_declares.nil_iff.symm

theorem plain_forbidden {site : Site} (plain : site.node.isPlain = true) :
    site.forbidden = (site.parts.map forbidden).sum := by
  obtain ⟨first, declares, -, -, linked⟩ := plain_linked _ plain
  have alike (part : Site) (member : part ∈ site.parts) :
      part.analysis.scopes = [] ↔ site.analysis.scopes = [] :=
    (linked_nil linked part member).trans declares.nil_iff.symm
  have parts : (site.parts.map forbidden) = site.node.parts.map fun part =>
      if site.analysis.scopes = [] then 0
      else (part.region.flatMap Node.ownReads : Multiset Token) := by
    rw [← part_nodes, List.map_map]
    refine List.map_congr_left fun part member => ?_
    simp only [forbidden, alike part member]
    rfl
  rw [parts, forbidden, Node.region_eq, plain_around plain, if_neg Bool.false_ne_true,
    List.flatMap_cons, (plain_own plain).2.2, List.nil_append, List.flatMap_assoc, coe_flatMap]
  split_ifs
  · simp
  · rfl

theorem loud_reads_add {site : Site} (plain : site.node.isPlain = true)
    (loud : site.node.isQuiet = false) (calm : Calm site.analysis.scopes) : site.ReadsAdd := by
  obtain ⟨first, -, -, begun, linked⟩ := plain_linked _ plain
  have calmParts := (linked_calm linked (begun calm) fun part _ => part.walk_calm).1
  have parts : (site.parts.map fun part => part.forbidden + part.awaited) =
      site.parts.map forbidden :=
    List.map_congr_left fun part member => by rw [calm_awaited (calmParts part member), add_zero]
  have references : site.node.references = [] := by
    cases node : site.node with
    | statement | statements => rfl
    | _ => simp [node, Node.isQuiet] at loud
  rw [ReadsAdd, parts, ← plain_forbidden plain, calm_awaited calm, Node.prematureReads,
    (plain_own plain).1, own, references]
  simp

theorem body_reads (body : List Statement) {begun : Analysis} (full : List StaticScope)
    (inside : begun.scopes ≠ []) (calm : Calm begun.scopes) :
    (ofBody body begun full).forbidden + (ofBody body begun full).awaited =
      ((Node.statements body).region.flatMap Node.ownReads : List Token) := by
  rw [calm_awaited calm, add_zero]
  exact if_neg inside

theorem routine_reads_add (declared : Routine) (analysis : Analysis) (full : List StaticScope) :
    (Site.mk (.routine declared) analysis full).ReadsAdd := by
  obtain ⟨inner, scopes, -⟩ := entered_names declared analysis
  have inside : (entered declared analysis).scopes ≠ [] := by
    rw [scopes]
    exact List.cons_ne_nil _ _
  have body := body_reads declared.body full inside
    (entered_calm declared analysis)
  have none : (Site.mk (.routine declared) analysis full).awaited = 0 := by
    rw [awaited, Node.up_to_eq]
    simp
  rw [ReadsAdd, quiet_forbidden rfl, none]
  simp only [parts, List.map_singleton, List.sum_singleton, body]
  simp [own, Node.prematureReads]

theorem block_reads_add {orders : List Statement} {analysis : Analysis} {full : List StaticScope}
    (calm : Calm analysis.scopes) :
    (Site.mk (.statement (.block orders)) analysis full).ReadsAdd := by
  have inside : analysis.enter.scopes ≠ [] := List.cons_ne_nil _ _
  have body := body_reads orders full inside (enter_calm _)
  have none : (Site.mk (.statement (.block orders)) analysis full).forbidden = 0 := by
    rw [forbidden, Node.region_eq]
    simp [Node.opensScope]
  rw [ReadsAdd, none, calm_awaited calm]
  simp only [parts, List.map_singleton, List.sum_singleton, body]
  simp [own, Node.prematureReads]

/-- The head of a class and its methods are no place where a name waits for its value. -/
theorem class_reads_add {name : Token} {superclass : Option Occurrence}
    {methods classMethods : List Routine} {analysis : Analysis} {full : List StaticScope}
    (calm : Calm analysis.scopes) : (Site.mk (.statement
      (.classDeclaration name superclass methods classMethods)) analysis full).ReadsAdd := by
  have none : (Site.mk (.statement (.classDeclaration name superclass methods classMethods))
      analysis full).forbidden = 0 := by
    rw [forbidden, Node.region_eq]
    simp [Node.opensScope]
  have declared := (Marked.of_declare_class analysis name).calm calm
  have entered : Calm (analysis.enterClass name superclass).scopes := by
    rw [Analysis.enter_class_scopes]
    intro inner isInner key
    cases isInner
    rw [Analysis.receiverScope, Names.find_set]
    split_ifs <;> simp [Names.find_empty]
  have calmParts : ∀ part ∈ (Site.mk (.statement
      (.classDeclaration name superclass methods classMethods)) analysis full).parts,
      Calm part.analysis.scopes := by
    cases superclass with
    | none =>
        simp only [parts, ofMethods, List.forall_mem_cons, routines_after]
        exact ⟨entered, entered, List.forall_mem_nil _⟩
    | some place =>
        simp only [parts, ofMethods, List.forall_mem_cons, routines_after,
          Analysis.at_superclass_scopes]
        exact ⟨declared, entered, entered, List.forall_mem_nil _⟩
  have parts : ((Site.mk (.statement (.classDeclaration name superclass methods classMethods))
      analysis full).parts.map fun part => part.forbidden + part.awaited).sum = 0 := by
    refine List.sum_eq_zero fun reads member => ?_
    obtain ⟨part, isPart, rfl⟩ := List.mem_map.mp member
    rw [quiet_forbidden (class_parts_quiet part isPart), calm_awaited (calmParts part isPart)]
    rfl
  rw [ReadsAdd, none, calm_awaited calm, parts]
  simp [own, Node.prematureReads]

/-- While a variable is initialized, its name and no other waits for a value. -/
theorem waiting_of_declare {analysis : Analysis} (inside : analysis.scopes ≠ [])
    (calm : Calm analysis.scopes) (name : Token) (key : String) :
    (analysis.declare name).inOwnInitializer key = decide (key = name.lexeme) := by
  cases begun : analysis.scopes with
  | nil => exact absurd begun inside
  | cons inner outer =>
      rw [begun] at calm
      have settled := calm inner rfl key
      unfold Analysis.inOwnInitializer
      rw [Analysis.declare_scopes, analysis.mark_cons begun]
      by_cases same : key = name.lexeme <;> simp [Names.find_set, same, settled]

theorem initializer_reads_add {name : Token} {value : Expression} {analysis : Analysis}
    {full : List StaticScope} (calm : Calm analysis.scopes) :
    (Site.mk (.statement (.variableDeclaration name (some value))) analysis full).ReadsAdd := by
  have quiet : (Node.expression value).region.flatMap Node.ownReads = [] :=
    Node.own_reads_of_quiet rfl
  have region : (Node.statement (.variableDeclaration name (some value))).region.flatMap
      Node.ownReads = (Node.statement (.variableDeclaration name (some value))).ownReads := by
    rw [Node.region_eq]
    simp [Node.opensScope, Node.parts, quiet]
  have part : (Site.mk (.expression value) (analysis.declare name) full).forbidden = 0 :=
    quiet_forbidden rfl
  rw [ReadsAdd, calm_awaited calm, forbidden, region]
  simp only [parts, List.map_singleton, List.sum_singleton, part]
  by_cases outside : analysis.scopes = []
  · have still : Calm (analysis.declare name).scopes := by
      rw [Analysis.declare_scopes, Analysis.mark, outside]
      rw [outside]
      rintro inner ⟨⟩
    rw [calm_awaited still]
    simp [outside, own, Node.prematureReads]
  · simp [outside, own, Node.prematureReads, awaited, waiting_of_declare outside calm]

theorem reads_add (site : Site) (steady : site.Steady) : site.ReadsAdd := by
  obtain ⟨node, analysis, full⟩ := site
  cases node.manner with
  | plain plain =>
      cases quiet : node.isQuiet with
      | true => exact quiet_reads_add plain quiet
      | false => exact loud_reads_add plain quiet (steady quiet)
  | routine declared => exact routine_reads_add declared analysis full
  | block orders => exact block_reads_add (steady rfl)
  | classDeclaration => exact class_reads_add (steady rfl)
  | initialized name value => exact initializer_reads_add (steady rfl)

theorem premature_reads_add (site : Site) (steady : site.Steady) : site.Adds .ownInitializer := by
  have parts : (site.parts.map (due .ownInitializer)).sum =
      (site.parts.map fun part => part.forbidden + part.awaited).sum +
        (site.parts.map fun part =>
          part.node.gather (fun _ => false) Node.prematureReads).sum :=
    List.sum_map_add
  rw [Adds, parts, due, gather_all_eq, ← add_assoc, ← add_assoc, ← site.reads_add steady]
  rfl

/-- Each rule adds up over the parts of a site. -/
theorem due_adds (site : Site) (steady : site.Steady) (cause : BindingError) :
    site.Adds cause := by
  cases cause with
  | topLevelReturn => exact exits_add site
  | selfOutsideClass => exact receivers_add site
  | superOutsideClass => exact inheritances_add site
  | superWithoutSuperclass => exact vain_inheritances_add site
  | redeclared => exact redeclarations_add site
  | inheritsFromItself => exact self_inheritances_add site
  | ownInitializer => exact premature_reads_add site steady

theorem gather_all (node : Node) (take : Node → List Token) :
    node.gather (fun _ => false) take = (node.all.flatMap take : List Token) := by
  rw [Node.gather, Node.all_eq_up_to]

/-- At the start of a program, what is due is what breaks the rules. -/
theorem due_of_program (statements : List Statement) (cause : BindingError) :
    due cause ⟨.statements statements, .start, []⟩ =
      ((Node.statements statements).breaches cause : List Token) := by
  cases cause with
  | topLevelReturn | selfOutsideClass | superOutsideClass => rfl
  | superWithoutSuperclass | inheritsFromItself | redeclared =>
      simp [due, Analysis.start, Analysis.clashes, gather_all, Node.breaches]
  | ownInitializer =>
      simp [due, Analysis.start, Analysis.inOwnInitializer, gather_all, Node.breaches]

end Site

/-- The walk reports exactly the breaches of the rules, one by one. -/
theorem violations_are_breaches (statements : List Statement) :
    (∀ cause, (((Bindings.ofProgram statements).violations.filter (·.cause = cause)).map
      Violation.place).Perm ((Node.statements statements).breaches cause)) ∧
    ((Bindings.ofProgram statements).violations = [] ↔
      ∀ cause, (Node.statements statements).breaches cause = []) := by
  let site : Site := ⟨.statements statements, .start, []⟩
  have steady : site.Steady := fun _ => nofun
  have each (cause : BindingError) : (((Bindings.ofProgram statements).violations.filter
      (·.cause = cause)).map Violation.place).Perm
        ((Node.statements statements).breaches cause) := by
    have counted := Site.tally_of_count (fun site steady part => site.part_steady steady)
      (fun site steady => site.due_adds steady cause) site steady
    have fresh : tally cause site.analysis.violations = 0 := rfl
    rw [Site.due_of_program, fresh, add_zero] at counted
    have found : (Bindings.ofProgram statements).violations = site.after.violations.reverse := rfl
    rw [found, List.filter_reverse, List.map_reverse]
    exact (List.reverse_perm _).trans (Multiset.coe_eq_coe.mp counted)
  refine ⟨each, fun none cause => ?_, fun none => ?_⟩
  · have same := each cause
    rw [none] at same
    exact same.symm.eq_nil
  · refine List.eq_nil_iff_forall_not_mem.mpr fun violation member => ?_
    have place : violation.place ∈ ((Bindings.ofProgram statements).violations.filter
        (·.cause = violation.cause)).map Violation.place :=
      List.mem_map_of_mem (List.mem_filter.mpr ⟨member, decide_eq_true rfl⟩)
    rw [(each violation.cause).mem_iff, none] at place
    cases place

end Lox
