import Lox.Proofs.Renaming.Marks

/-!
A variable that is respelled. Where the lines mark the variable, the tree with its new
name is like the tree with its old one, among scopes of which only that of the variable
is renamed.
-/

namespace Lox

/-- Which of the scopes around a site have the variable. -/
def holders (declared : Token) (openers : List Node) : List Bool :=
  openers.map fun opener => declared ∈ opener.locals

namespace Recast

section

variable {recast : Recast} {places : List Nat} {labels labels' : Labels} {declared : Token}
  {site : Site} {openers : List Node}

/-- An occurrence is meant if the scope that it is bound to has the variable. -/
theorem meant_iff {place : Occurrence} (isPlace : site.node.place? = some place)
    (sameName : place.name.lexeme = declared.lexeme) :
    site.meant? declared openers = some place ↔
      renamedAt (holders declared openers) (site.bond?.map Bond.distance) = true := by
  unfold Site.meant?
  cases found : site.bond? with
  | none => simp [renamedAt]
  | some bond =>
      obtain rfl : bond.place = place :=
        Option.some_inj.mp ((Site.place_of_bond found).symm.trans isPlace)
      cases around : openers[bond.distance]? with
      | none => simp [renamedAt, holders, around]
      | some opener => simp [renamedAt, holders, around, sameName, Option.filter]

end

namespace Marks

variable {recast : Recast} {places : List Nat} {labels labels' : Labels} {declared : Token}
  {site : Site} {openers : List Node}
  (marks : recast.Marks places labels declared site openers)
  (respells : recast.Respells places labels labels')
  (isOld : recast.old = declared.lexeme) (declaration : declared.line ∈ places)

section Tokens

include marks

/-- In the scope of the variable, its name is the declaration. -/
theorem binder_is_declared {opener : Node} (isHead : opener ∈ openers.head?)
    (isLocal : declared ∈ opener.locals) {name : Token} (isBinder : name ∈ opener.binders)
    (same : name.lexeme = declared.lexeme) : name = declared :=
  List.inj_on_of_nodup_map (marks.distinct opener isHead) isBinder
    (Node.binder_of_local isLocal) same

/-- What a scope with the variable declares besides it has another name. -/
theorem keeps {order : Statement} (isOrder : order ∈ site.node.orders) {name : Token}
    (isBinder : order.binder? = some name) (unmarked : name.line ∉ places)
    (fresh : name.lexeme ≠ recast.new) (isOld : recast.old = declared.lexeme)
    (declaration : declared.line ∈ places) :
    recast.Keeps ((holders declared openers).headD false) name.lexeme := by
  have isFresh : recast.Fresh name.lexeme := fun same => absurd same fresh
  refine ⟨?_, isFresh⟩
  cases openers with
  | nil => rfl
  | cons opener outer =>
      refine (spelling_fresh isFresh _).resolve_right ?_
      rintro ⟨same, changes⟩
      by_cases isLocal : declared ∈ opener.locals
      · have lives := (marks.lives order isOrder opener rfl).2 name isBinder
        have isDeclared := marks.binder_is_declared rfl isLocal lives (same.trans isOld)
        exact unmarked (isDeclared ▸ declaration)
      · rw [holders, List.map_cons, List.headD_cons, decide_eq_false isLocal] at changes
        exact fresh changes

/-- A name that says nothing of the variable is on a line that is not marked. -/
theorem unmentioned (silent : site.ownMentions declared openers = []) {word : Word}
    (isOwn : word ∈ site.node.ownWords) : word.2.line ∉ places := by
  rw [marks.own (List.mem_map_of_mem isOwn), silent]
  exact List.not_mem_nil

/-- Neither is the name of a routine, which is not among its parameters. -/
theorem routine_name_unmarked {written : Routine} (node : site.node = .routine written)
    {name : Token} (named : written.name = some name) : name.line ∉ places := by
  have ownLines : site.node.ownLines =
      name.line :: (written.parameters.getD []).map Token.line := by
    rw [node, Node.ownLines, Node.ownWords, named, List.map_map]
    rfl
  have own : site.ownMentions declared openers =
      (written.parameters.getD []).filter (· = declared) := by
    unfold Site.ownMentions
    rw [node]
  have distinct := marks.own_distinct
  rw [ownLines] at distinct
  rw [marks.own (ownLines ▸ List.mem_cons_self), own]
  intro found
  obtain ⟨token, mentioned, same⟩ := List.mem_map.mp found
  exact (List.nodup_cons.mp distinct).1
    (same ▸ List.mem_map_of_mem (List.mem_filter.mp mentioned).1)

/-- Neither is the name of a method of the superclass. -/
theorem inherited_name_unmarked {place : Occurrence} {method : Token}
    (node : site.node = .expression (.inherited place method)) : method.line ∉ places := by
  have ownLines : site.node.ownLines = [place.name.line, method.line] := by rw [node]; rfl
  have own : site.ownMentions declared openers =
      (site.meant? declared openers).toList.map Occurrence.name := by
    unfold Site.ownMentions
    rw [node]
  have distinct := marks.own_distinct
  rw [ownLines] at distinct
  rw [marks.own (ownLines ▸ List.mem_cons_of_mem _ List.mem_cons_self), own]
  intro found
  obtain ⟨token, mentioned, same⟩ := List.mem_map.mp found
  obtain ⟨other, isMeant, rfl⟩ := List.mem_map.mp mentioned
  have isPlace := (Site.meant_spec (Option.mem_toList.mp isMeant)).1
  rw [node] at isPlace
  cases isPlace
  exact (List.nodup_cons.mp distinct).1 (same ▸ List.mem_cons_self)

include respells isOld

theorem occurs {place : Occurrence} (isPlace : site.node.place? = some place)
    (own : site.ownMentions declared openers =
      (site.meant? declared openers).toList.map Occurrence.name)
    (isOwn : place.name ∈ site.node.ownWords.map Prod.snd) :
    recast.Occurs (holders declared openers) (place.relabel labels) (place.relabel labels') := by
  obtain ⟨word, isWord, sameWord⟩ := List.mem_map.mp isOwn
  refine ⟨respells.numbers place.id, ?_⟩
  change recast.Spells (renamedAt _ (recast.reach (labels.number place.id))) _ _
  rw [marks.reach site .refl place isPlace]
  refine respells.spells (sameWord ▸ marks.own_fresh isWord) fun same => ?_
  rw [← meant_iff isPlace (same.trans isOld), ← sameWord, marks.own (List.mem_map_of_mem isWord),
    own, sameWord]
  constructor
  · intro found
    obtain ⟨token, mentioned, -⟩ := List.mem_map.mp found
    obtain ⟨other, meant, -⟩ := List.mem_map.mp mentioned
    have isMeant : site.meant? declared openers = some other := by simpa using meant
    have sameOther := (Site.meant_spec isMeant).1.symm.trans isPlace
    rw [isMeant, sameOther]
  · intro meant
    simp [meant]

include declaration

theorem variable_spells {name : Token} {initializer : Option Expression}
    (node : site.node = .statement (.variableDeclaration name initializer)) :
    recast.Spells ((holders declared openers).headD false) (labels.token name)
      (labels'.token name) := by
  have isOwn : (Kind.identifier, name) ∈ site.node.ownWords := by
    rw [node]
    exact List.mem_cons_self
  have isOrder : .variableDeclaration name initializer ∈ site.node.orders := by
    rw [node]
    exact List.mem_cons_self
  have own : site.ownMentions declared openers =
      if openers.isEmpty then [] else [name].filter (· = declared) := by
    unfold Site.ownMentions
    rw [node]
  refine respells.spells (marks.own_fresh isOwn) fun same => ?_
  cases openers with
  | nil =>
      have unmarked := marks.unmentioned own isOwn
      exact ⟨fun found => absurd found unmarked, nofun⟩
  | cons opener outer =>
      obtain ⟨locals, binders⟩ := marks.lives _ isOrder opener rfl
      rw [holders, List.map_cons, List.headD_cons, decide_eq_true_eq]
      constructor
      · intro found
        rw [marks.own (List.mem_map_of_mem isOwn), own] at found
        obtain ⟨token, mentioned, -⟩ := List.mem_map.mp found
        obtain ⟨member, isDeclared⟩ := List.mem_filter.mp mentioned
        rw [← of_decide_eq_true isDeclared, List.mem_singleton.mp member]
        exact locals name List.mem_cons_self
      · intro isLocal
        have isDeclared := marks.binder_is_declared rfl isLocal (binders name rfl)
          (same.trans isOld)
        exact isDeclared ▸ declaration

theorem parameters_spell {written : Routine} (node : site.node = .routine written) :
    Option.Rel (List.Forall₂ (recast.Spells (declared ∈ (Node.routine written).locals)))
      (written.parameters.map (·.map labels.token))
      (written.parameters.map (·.map labels'.token)) := by
  have own : site.ownMentions declared openers =
      (written.parameters.getD []).filter (· = declared) := by
    unfold Site.ownMentions
    rw [node]
  have each (name : Token) (isParameter : name ∈ written.parameters.getD []) :
      recast.Spells (declared ∈ (Node.routine written).locals) (labels.token name)
        (labels'.token name) := by
    have isOwn : (Kind.identifier, name) ∈ site.node.ownWords := by
      rw [node]
      exact List.mem_map_of_mem (List.mem_append_right _ isParameter)
    refine respells.spells (marks.own_fresh isOwn) fun same => ?_
    rw [decide_eq_true_eq]
    constructor
    · intro found
      rw [marks.own (List.mem_map_of_mem isOwn), own] at found
      obtain ⟨token, mentioned, -⟩ := List.mem_map.mp found
      obtain ⟨member, isDeclared⟩ := List.mem_filter.mp mentioned
      rw [← of_decide_eq_true isDeclared]
      exact List.mem_append_left _ member
    · intro isLocal
      have distinct := Site.binders_distinct marks.clean
      rw [node] at distinct
      have isDeclared : name = declared := List.inj_on_of_nodup_map distinct
        (List.mem_append_left _ isParameter) (Node.binder_of_local isLocal) (same.trans isOld)
      exact isDeclared ▸ declaration
  cases listed : written.parameters with
  | none => exact .none
  | some names =>
      rw [listed] at each
      exact .some (List.forall₂_map_left_iff.mpr (List.forall₂_map_right_iff.mpr
        (List.forall₂_same.mpr each)))

end Tokens

theorem statement_alike_respelled {order : Statement} {analysis : Analysis}
    {full : List StaticScope}
    (marks : recast.Marks places labels declared ⟨.statement order, analysis, full⟩ openers)
    (respells : recast.Respells places labels labels')
    (isOld : recast.old = declared.lexeme) (declaration : declared.line ∈ places)
    (inside : ∀ part ∈ (Site.mk (.statement order) analysis full).parts,
      (part.node.relabel labels).Alike recast
        (holders declared ((Site.mk (.statement order) analysis full).around part openers))
        (part.node.relabel labels')) :
    ((Node.statement order).relabel labels).Alike recast (holders declared openers)
      ((Node.statement order).relabel labels') := by
  cases order with
  | expression value =>
      simp only [Site.parts, List.forall_mem_cons, Site.around_same] at inside
      exact .evaluation inside.1
  | print value =>
      simp only [Site.parts, List.forall_mem_cons, Site.around_same] at inside
      exact .print inside.1
  | variableDeclaration name value =>
      have spells := marks.variable_spells respells isOld declaration rfl
      cases value <;> simp only [Site.parts, List.forall_mem_cons, Site.around_same] at inside
      · exact .uninitialized spells
      · exact .initialized spells inside.1
  | block orders =>
      have body := inside _ List.mem_cons_self
      rw [Site.around_body rfl] at body
      exact .block _ body
  | conditional condition thenBranch elseBranch =>
      cases elseBranch <;>
        simp only [Site.parts, List.forall_mem_cons, Site.around_same] at inside
      · exact .conditional inside.1 inside.2.1
      · exact .alternative inside.1 inside.2.1 inside.2.2.1
  | loop condition body =>
      simp only [Site.parts, List.forall_mem_cons, Site.around_same] at inside
      exact .loop inside.1 inside.2.1
  | exit keyword value =>
      cases value <;> simp only [Site.parts, List.forall_mem_cons, Site.around_same] at inside
      · exact .exit (respells.sign keyword)
      · exact .exitWith (respells.sign keyword) inside.1
  | routineDeclaration written =>
      have routine := inside _ List.mem_cons_self
      have routineMarks := marks.part List.mem_cons_self
      rw [Site.around_same] at routine routineMarks
      obtain ⟨name, isName⟩ := Option.isSome_iff_exists.mp (marks.shaped _ .refl)
      have isOwn : (Kind.identifier, name) ∈ (Node.routine written).ownWords :=
        List.mem_map_of_mem (List.mem_append_left _ (Option.mem_toList.mpr isName))
      have keeps := marks.keeps List.mem_cons_self isName
        (routineMarks.routine_name_unmarked rfl isName) (routineMarks.own_fresh isOwn) isOld
        declaration
      rw [← respells.textual name] at keeps
      have named : (written.relabel labels).name = some (labels.token name) := by
        obtain ⟨_, _, _⟩ := written
        cases isName
        rfl
      refine .routineDeclaration (fun other isOther => ?_) ?_ routine
      · rw [named] at isOther
        cases isOther
        exact keeps
      · rw [Routine.label, named]
        exact keeps.1
  | classDeclaration name superclass methods classMethods =>
      have unmarked := marks.unmentioned rfl List.mem_cons_self
      have keeps := marks.keeps List.mem_cons_self rfl unmarked
        (marks.own_fresh List.mem_cons_self) isOld declaration
      rw [← respells.textual name] at keeps
      have scopes := analysis.enter_class_scopes name superclass
      have stays := respells.kept unmarked
      cases superclass with
      | none =>
          simp only [Site.parts, Site.ofMethods, List.forall_mem_cons, Site.around_within,
            scopes] at inside
          simp only [Node.relabel, Statement.relabel, Option.map_none, stays]
          exact .base keeps inside.1 inside.2.1
      | some place =>
          simp only [Site.parts, Site.ofMethods, List.forall_mem_cons, Site.around_same,
            Site.around_within, scopes] at inside
          simp only [Node.relabel, Statement.relabel, Option.map_some, stays]
          have superclass := inside.1
          cases superclass with
          | reference occurs => exact .derived keeps occurs inside.2.1 inside.2.2.1

/-- With its variable respelled, a node is like the node itself. -/
theorem alike_respelled (marks : recast.Marks places labels declared site openers)
    (respells : recast.Respells places labels labels')
    (isOld : recast.old = declared.lexeme) (declaration : declared.line ∈ places) :
    (site.node.relabel labels).Alike recast (holders declared openers)
      (site.node.relabel labels') := by
  induction site using Site.induction_along_parts generalizing openers with
  | step site parts =>
    have inside : ∀ part ∈ site.parts, (part.node.relabel labels).Alike recast
        (holders declared (site.around part openers)) (part.node.relabel labels') :=
      fun part isPart => parts part isPart (marks.part isPart)
    clear parts
    obtain ⟨node, analysis, full⟩ := site
    cases node with
    | expression value =>
        cases value <;> simp only [Site.parts, List.forall_mem_cons, Site.around_same] at inside
        case literal => exact .literal
        case reference place =>
          exact .reference (marks.occurs respells isOld rfl rfl List.mem_cons_self)
        case receiver place =>
          exact .receiver (marks.occurs respells isOld rfl rfl List.mem_cons_self)
        case inherited place method =>
          have stays := respells.kept (marks.inherited_name_unmarked rfl)
          simp only [Node.relabel, Expression.relabel, stays]
          exact .inherited (marks.occurs respells isOld rfl rfl List.mem_cons_self)
        case assign place value =>
          exact .assign (marks.occurs respells isOld rfl rfl List.mem_cons_self) inside.1
        case grouping => exact .grouping inside.1
        case unary => exact .unary (respells.sign _) inside.1
        case get object name =>
          have stays := respells.kept (marks.unmentioned rfl List.mem_cons_self)
          simp only [Node.relabel, Expression.relabel, stays]
          exact .get inside.1
        case lambda => exact .lambda inside.1
        case binary => exact .binary (respells.sign _) inside.1 inside.2.1
        case logical => exact .logical (respells.sign _) inside.1 inside.2.1
        case call => exact .call (respells.sign _) inside.1 inside.2.1
        case set object name value =>
          have stays := respells.kept (marks.unmentioned rfl List.mem_cons_self)
          simp only [Node.relabel, Expression.relabel, stays]
          exact .set inside.1 inside.2.1
        case conditional => exact .choice inside.1 inside.2.1 inside.2.2.1
    | expressions values =>
        cases values <;> simp only [Site.parts, List.forall_mem_cons, Site.around_same] at inside
        case nil => exact .noExpressions
        case cons => exact .expressions inside.1 inside.2.1
    | statement order => exact statement_alike_respelled marks respells isOld declaration inside
    | statements orders =>
        cases orders <;> simp only [Site.parts, List.forall_mem_cons, Site.around_same] at inside
        case nil => exact .noStatements
        case cons => exact .statements inside.1 inside.2.1
    | routine written =>
        have named : written.name.map labels'.token = written.name.map labels.token :=
          Option.map_congr fun name isName =>
            respells.kept (marks.routine_name_unmarked rfl isName)
        have spells := marks.parameters_spell respells isOld declaration rfl
        obtain ⟨inner, scopes, -⟩ := Site.entered_names written analysis
        have body := inside _ List.mem_cons_self
        rw [Site.around_body scopes] at body
        obtain ⟨name, parameters, orders⟩ := written
        simp only [Node.relabel, Routine.relabel] at named ⊢
        rw [named]
        exact .routine _ spells body
    | routines declared =>
        cases declared <;>
          simp only [Site.parts, List.forall_mem_cons, Site.around_same] at inside
        case nil => exact .noRoutines
        case cons => exact .routines inside.1 inside.2.1

end Marks

end Recast

end Lox
