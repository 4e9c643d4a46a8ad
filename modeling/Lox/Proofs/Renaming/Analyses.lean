import Lox.Proofs.Names.Charted
import Lox.Proofs.Renaming.Likeness

/-!
The analysis of two programs that are alike. Its walk comes through both in the
same way: the scopes have the same names but for the spelling, each occurrence is
bound at the same distance, and the same rules are violated at the same places.
-/

namespace Lox

namespace Recast

variable {recast : Recast}

/-- The static scopes around two nodes that are alike. -/
inductive Scoped (recast : Recast) : (flags : List Bool) → List StaticScope →
    List StaticScope → Prop where
  | nil : Scoped recast [] [] []
  | cons {renamed : Bool} {flags : List Bool} {scope scope' : StaticScope}
      {outer outer' : List StaticScope}
      (names : ∀ name, scope'.find? (recast.spelling renamed name) = scope.find? name)
      (fresh : ∀ name, scope.contains name = true → recast.Fresh name)
      (around : Scoped recast flags outer outer') :
      Scoped recast (renamed :: flags) (scope :: outer) (scope' :: outer')

/-- The distance that the renaming goes by is the one that the walk finds. -/
def Reaches (recast : Recast) (analysis : Analysis) (place : Occurrence) : Prop :=
  recast.old = recast.new ∨ recast.reach place.id = analysis.distance? place.name.lexeme

theorem Reaches.among {analysis other : Analysis} {place : Occurrence}
    (reaches : recast.Reaches analysis place) (scopes : other.scopes = analysis.scopes) :
    recast.Reaches other place := by
  unfold Reaches Analysis.distance? at reaches ⊢
  rwa [scopes]

def Foresees (recast : Recast) (site : Site) : Prop :=
  ∀ inner, site.Contains inner → ∀ place, inner.node.place? = some place →
    recast.Reaches inner.analysis place

theorem Foresees.part {site part : Site} (foresees : recast.Foresees site)
    (member : part ∈ site.parts) : recast.Foresees part :=
  fun inner contained => foresees inner (.head member contained)

theorem foresees_of_same (same : recast.old = recast.new) (site : Site) :
    recast.Foresees site := fun _ _ _ _ => .inl same

/-- A name that a scope lacks is not there under a spelling from another scope. -/
theorem absent_elsewhere {renamed other : Bool} {scope scope' : StaticScope} {name : String}
    (names : ∀ name, scope'.find? (recast.spelling renamed name) = scope.find? name)
    (fresh : ∀ name, scope.contains name = true → recast.Fresh name)
    (isFresh : recast.Fresh name) (absent : scope.find? name = none) :
    scope'.find? (recast.spelling other name) = none := by
  by_cases alike : other = renamed
  · rw [alike, names, absent]
  -- One of the two scopes is renamed and the other is not, so this is the swapped name.
  have crossed : recast.spelling other name =
      recast.spelling renamed (Equiv.swap recast.old recast.new name) := by
    cases renamed <;> cases other <;> simp_all [spelling]
  rw [crossed, names]
  by_cases isOld : name = recast.old
  · rw [isOld, Equiv.swap_apply_left]
    by_contra found
    have same := fresh recast.new (by simpa [Names.contains, Option.isSome_iff_ne_none] using found)
      rfl
    rw [← same, ← isOld] at found
    exact found absent
  · by_cases isNew : name = recast.new
    · rw [isNew, Equiv.swap_apply_right, isFresh isNew, ← isNew, absent]
    · rw [Equiv.swap_apply_of_ne_of_ne isOld isNew, absent]

theorem Scoped.distance {flags : List Bool} {scopes scopes' : List StaticScope}
    (spelt : recast.Scoped flags scopes scopes') {name : String} (fresh : recast.Fresh name) :
    scopes'.findIdx? (·.contains (recast.spelling
        (renamedAt flags (scopes.findIdx? (·.contains name))) name)) =
      scopes.findIdx? (·.contains name) := by
  induction spelt with
  | nil => rfl
  | @cons renamed flags scope scope' outer outer' names freshHere around induction =>
      rw [List.findIdx?_cons, List.findIdx?_cons]
      cases here : scope.contains name with
      | true =>
          have there : scope'.contains (recast.spelling renamed name) = true := by
            rw [Names.contains, names]
            exact here
          simp [renamedAt, there]
      | false =>
          have further : renamedAt (renamed :: flags)
              ((outer.findIdx? (·.contains name)).map (· + 1)) =
                renamedAt flags (outer.findIdx? (·.contains name)) := by
            cases outer.findIdx? (·.contains name) <;> rfl
          have absent : scope.find? name = none := by
            simpa [Names.contains] using here
          have notThere : scope'.contains (recast.spelling
              (renamedAt flags (outer.findIdx? (·.contains name))) name) = false := by
            rw [Names.contains, absent_elsewhere names freshHere fresh absent, Option.isSome_none]
          simp only [Bool.false_eq_true, if_false]
          rw [further, notThere, induction]
          rfl

end Recast

/-- Two states of the walk that differ as the programs do. -/
structure Analysis.Alike (recast : Recast) (flags : List Bool) (analysis analysis' : Analysis) :
    Prop where
  scopes : recast.Scoped flags analysis.scopes analysis'.scopes
  inRoutine : analysis'.inRoutine = analysis.inRoutine
  classContext : analysis'.classContext = analysis.classContext
  bonds : List.Forall₂ (fun bond bond' : Bond => bond'.place.id = recast.number bond.place.id ∧
    bond'.distance = bond.distance) analysis.bonds analysis'.bonds
  violations : List.Forall₂ (fun violation violation' : Violation =>
    violation'.cause = violation.cause ∧ recast.Matches violation.place violation'.place)
    analysis.violations analysis'.violations

namespace Analysis.Alike

variable {recast : Recast} {flags : List Bool} {renamed : Bool} {analysis analysis' : Analysis}

theorem report {place place' : Token} (alike : Analysis.Alike recast flags analysis analysis')
    (same : recast.Matches place place') (cause : BindingError) :
    Analysis.Alike recast flags (analysis.report place cause) (analysis'.report place' cause) where
  scopes := alike.scopes
  inRoutine := alike.inRoutine
  classContext := alike.classContext
  bonds := alike.bonds
  violations := .cons ⟨rfl, same⟩ alike.violations

theorem enter (alike : Analysis.Alike recast flags analysis analysis') (renamed : Bool) :
    Analysis.Alike recast (renamed :: flags) analysis.enter analysis'.enter where
  scopes := .cons (fun _ => rfl) nofun alike.scopes
  inRoutine := alike.inRoutine
  classContext := alike.classContext
  bonds := alike.bonds
  violations := alike.violations

theorem leave (alike : Analysis.Alike recast (renamed :: flags) analysis analysis') :
    Analysis.Alike recast flags analysis.leave analysis'.leave where
  scopes := by
    have spelt := alike.scopes
    rw [leave_scopes, leave_scopes]
    generalize analysis.scopes = scopes at spelt ⊢
    generalize analysis'.scopes = scopes' at spelt ⊢
    cases spelt with
    | cons names fresh around => exact around
  inRoutine := alike.inRoutine
  classContext := alike.classContext
  bonds := alike.bonds
  violations := alike.violations

theorem mark {name : String} (alike : Analysis.Alike recast flags analysis analysis')
    (fresh : recast.Fresh name) (ready : Bool) :
    Analysis.Alike recast flags (analysis.mark name ready)
      (analysis'.mark (recast.spelling (flags.headD false) name) ready) := by
  obtain ⟨scopes, inRoutine, classContext, bonds, violations⟩ := alike
  obtain ⟨_, _, _, _, _⟩ := analysis
  obtain ⟨_, _, _, _, _⟩ := analysis'
  cases scopes with
  | nil => exact ⟨.nil, inRoutine, classContext, bonds, violations⟩
  | cons names freshHere around =>
      refine ⟨.cons (fun other => ?_) (fun other => ?_) around, inRoutine, classContext, bonds,
        violations⟩
      · rw [List.headD_cons, Names.find_set, Names.find_set, names]
        simp only [EmbeddingLike.apply_eq_iff_eq]
      · rw [Names.contains_set]
        intro found
        by_cases same : other = name
        · exact same ▸ fresh
        · exact freshHere other (by simpa [same] using found)

theorem declared_here {name : String} (alike : Analysis.Alike recast flags analysis analysis') :
    analysis'.declaredHere (recast.spelling (flags.headD false) name) =
      analysis.declaredHere name := by
  obtain ⟨_, _, _, _, _⟩ := analysis
  obtain ⟨_, _, _, _, _⟩ := analysis'
  cases alike.scopes with
  | nil => rfl
  | cons names fresh around => exact congrArg Option.isSome (names name)

theorem declare {name name' : Token} (alike : Analysis.Alike recast flags analysis analysis')
    (spells : recast.Spells (flags.headD false) name name') :
    Analysis.Alike recast flags (analysis.declare name) (analysis'.declare name') := by
  have marked := alike.mark spells.fresh false
  unfold Analysis.declare
  rw [spells.lexeme, alike.declared_here]
  dsimp only
  split_ifs
  · exact marked.report ⟨_, spells.same⟩ .redeclared
  · exact marked

theorem define {name name' : Token} (alike : Analysis.Alike recast flags analysis analysis')
    (spells : recast.Spells (flags.headD false) name name') :
    Analysis.Alike recast flags (analysis.define name) (analysis'.define name') := by
  unfold Analysis.define
  rw [spells.lexeme]
  exact alike.mark spells.fresh true

theorem declare_all {names names' : List Token}
    (alike : Analysis.Alike recast flags analysis analysis')
    (spells : List.Forall₂ (recast.Spells (flags.headD false)) names names') :
    Analysis.Alike recast flags (analysis.declareAll names) (analysis'.declareAll names') := by
  induction spells generalizing analysis analysis' with
  | nil => exact alike
  | cons first rest induction => exact induction ((alike.declare first).define first)

theorem in_routine (alike : Analysis.Alike recast flags analysis analysis')
    {inRoutine inRoutine' : Bool} (same : inRoutine' = inRoutine) :
    Analysis.Alike recast flags { analysis with inRoutine := inRoutine }
      { analysis' with inRoutine := inRoutine' } :=
  ⟨alike.scopes, same, alike.classContext, alike.bonds, alike.violations⟩

theorem in_class (alike : Analysis.Alike recast flags analysis analysis')
    {classContext classContext' : ClassContext} (same : classContext' = classContext) :
    Analysis.Alike recast flags { analysis with classContext := classContext }
      { analysis' with classContext := classContext' } :=
  ⟨alike.scopes, alike.inRoutine, same, alike.bonds, alike.violations⟩

theorem exit_checked {keyword keyword' : Token}
    (alike : Analysis.Alike recast flags analysis analysis')
    (sign : recast.Matches keyword keyword') :
    Analysis.Alike recast flags
      (if analysis.inRoutine then analysis else analysis.report keyword .topLevelReturn)
      (if analysis'.inRoutine then analysis' else analysis'.report keyword' .topLevelReturn) := by
  rw [alike.inRoutine]
  split_ifs
  · exact alike
  · exact alike.report sign .topLevelReturn

section Places

variable {place place' : Occurrence} (alike : Analysis.Alike recast flags analysis analysis')
  (occurs : recast.Occurs flags place place') (reaches : recast.Reaches analysis place)

include occurs reaches in
/-- An occurrence is spelled as in the scope that the walk binds it to. -/
theorem spelled_as_bound : place'.name.lexeme = recast.spelling
    (Recast.renamedAt flags (analysis.distance? place.name.lexeme)) place.name.lexeme := by
  rw [occurs.name.lexeme]
  rcases reaches with same | reaches
  · rw [Recast.spelling_of_same same, Recast.spelling_of_same same]
  · rw [reaches]

include alike occurs reaches

theorem distance_found : analysis'.distance? place'.name.lexeme =
    analysis.distance? place.name.lexeme := by
  rw [spelled_as_bound occurs reaches]
  exact alike.scopes.distance occurs.name.fresh

theorem bind : Analysis.Alike recast flags (analysis.bind place) (analysis'.bind place') := by
  have found := alike.distance_found occurs reaches
  unfold Analysis.distance? at found
  unfold Analysis.bind
  rw [found]
  cases analysis.scopes.findIdx? (·.contains place.name.lexeme) with
  | none => exact alike
  | some distance =>
      exact ⟨alike.scopes, alike.inRoutine, alike.classContext,
        .cons ⟨occurs.id, rfl⟩ alike.bonds, alike.violations⟩

theorem own_initializer : analysis'.inOwnInitializer place'.name.lexeme =
    analysis.inOwnInitializer place.name.lexeme := by
  have spelled := spelled_as_bound occurs reaches
  have fresh := occurs.name.fresh
  obtain ⟨_, _, _, _, _⟩ := analysis
  obtain ⟨_, _, _, _, _⟩ := analysis'
  cases alike.scopes with
  | nil => rfl
  | @cons renamed flags scope scope' outer outer' names freshHere around =>
      simp only [Analysis.inOwnInitializer, List.head?_cons, Option.any_some]
      rw [Analysis.distance?, List.findIdx?_cons] at spelled
      cases here : scope.contains place.name.lexeme with
      | true =>
          rw [here, if_pos rfl] at spelled
          have same := names place.name.lexeme
          simp only [Recast.renamedAt, Option.bind_some, List.getElem?_cons_zero,
            Option.getD_some] at spelled
          rw [spelled, same]
      | false =>
          have absent : scope.find? place.name.lexeme = none := by
            simpa [Names.contains] using here
          rw [spelled, Recast.absent_elsewhere names freshHere fresh absent, absent]

theorem read : Analysis.Alike recast flags (analysis.read place) (analysis'.read place') := by
  unfold Analysis.read
  rw [alike.own_initializer occurs reaches]
  dsimp only
  split_ifs
  · exact (alike.report ⟨_, occurs.name.same⟩ .ownInitializer).bind occurs reaches
  · exact alike.bind occurs reaches

theorem receiver :
    Analysis.Alike recast flags (analysis.receiver place) (analysis'.receiver place') := by
  unfold Analysis.receiver
  rw [alike.classContext]
  split_ifs
  · exact alike.report ⟨_, occurs.name.same⟩ .selfOutsideClass
  · exact alike.bind occurs reaches

theorem inherited :
    Analysis.Alike recast flags (analysis.inherited place) (analysis'.inherited place') := by
  unfold Analysis.inherited
  rw [alike.classContext]
  cases analysis.classContext with
  | outside => exact (alike.report ⟨_, occurs.name.same⟩ .superOutsideClass).bind occurs reaches
  | withoutSuperclass =>
      exact (alike.report ⟨_, occurs.name.same⟩ .superWithoutSuperclass).bind occurs reaches
  | withSuperclass => exact alike.bind occurs reaches

end Places

section Classes

variable {name : Token} {place place' : Occurrence}
  (alike : Analysis.Alike recast flags analysis analysis')
  (keeps : recast.Keeps (flags.headD false) name.lexeme)

include alike keeps

theorem declare_class : Analysis.Alike recast flags (analysis.declareClass name)
    (analysis'.declareClass name) :=
  ((alike.in_class rfl).declare keeps.spells).define keeps.spells

/-- A class is in the innermost scope when its superclass is looked for, so that the
superclass has its name in both programs or in neither. -/
theorem inherits_from_itself (occurs : recast.Occurs flags place place')
    (reaches : recast.Reaches (analysis.declareClass name) place) :
    place'.name.lexeme = name.lexeme ↔ place.name.lexeme = name.lexeme := by
  have spelled := spelled_as_bound occurs reaches
  have marked := Marked.of_declare_class analysis name
  constructor
  · intro same
    rw [spelled] at same
    rw [← same]
    exact (Recast.spelling_of_fresh occurs.name.fresh (same.symm ▸ keeps.2)).symm
  · intro same
    rw [spelled, same]
    cases outer : analysis.scopes with
    | nil =>
        rw [outer] at marked
        rw [Analysis.distance?, show (analysis.declareClass name).scopes = [] from marked]
        rfl
    | cons inner further =>
        rw [outer] at marked
        obtain ⟨last, scopes, entries⟩ := marked
        have here : last.contains name.lexeme = true := by
          rw [Names.contains, entries, if_pos rfl, Option.isSome_some]
        rw [Analysis.distance?, scopes, List.findIdx?_cons, here, if_pos rfl]
        have kept := keeps.1
        cases flags with
        | nil => rfl
        | cons renamed flags => exact kept

theorem at_superclass (occurs : recast.Occurs flags place place')
    (reaches : recast.Reaches (analysis.declareClass name) place) :
    Analysis.Alike recast flags (analysis.atSuperclass name place)
      (analysis'.atSuperclass name place') := by
  have declared := alike.declare_class keeps
  have itself := inherits_from_itself alike keeps occurs reaches
  unfold Analysis.atSuperclass
  simp only [itself]
  split_ifs
  · exact (declared.report ⟨_, occurs.name.same⟩ .inheritsFromItself).in_class rfl
  · exact declared.in_class rfl

theorem enter_class : Analysis.Alike recast (false :: flags) (analysis.enterClass name none)
    (analysis'.enterClass name none) :=
  ((alike.declare_class keeps).enter false).mark Recast.fresh_receiver true

theorem enter_derived_class (occurs : recast.Occurs flags place place')
    (reaches : recast.Reaches (analysis.declareClass name) place) :
    Analysis.Alike recast (false :: false :: flags) (analysis.enterClass name (some place))
      (analysis'.enterClass name (some place')) := by
  have above := (alike.at_superclass keeps occurs reaches).read occurs
    (reaches.among (at_superclass_scopes _ _ _))
  exact (((above.enter false).mark Recast.fresh_superclass true).enter false).mark
    Recast.fresh_receiver true

end Classes

end Analysis.Alike

/-- The walk over a node does to a state what the walk over the other node does to
another state like it. -/
theorem Node.Alike.analyse {recast : Recast} {flags : List Bool} {node node' : Node}
    (like : node.Alike recast flags node') {analysis analysis' : Analysis}
    {full : List StaticScope} (foresees : recast.Foresees ⟨node, analysis, full⟩)
    (alike : analysis.Alike recast flags analysis') :
    (node.analyse analysis).Alike recast flags (node'.analyse analysis') := by
  induction like generalizing analysis analysis' full with
  | literal | noExpressions | noStatements | noRoutines => exact alike
  | grouping inside part | unary sign inside part | get inside part | lambda inside part
  | evaluation inside part | print inside part =>
      exact part (foresees.part List.mem_cons_self) alike
  | binary sign first second left right | logical sign first second left right
  | call sign first second left right | set first second left right
  | expressions first second left right | conditional first second left right
  | loop first second left right | statements first second left right
  | routines first second left right =>
      exact right (foresees.part (List.mem_cons_of_mem _ List.mem_cons_self))
        (left (foresees.part List.mem_cons_self) alike)
  | choice first second third condition thenBranch elseBranch
  | alternative first second third condition thenBranch elseBranch =>
      exact elseBranch
        (foresees.part (List.mem_cons_of_mem _ (List.mem_cons_of_mem _ List.mem_cons_self)))
        (thenBranch (foresees.part (List.mem_cons_of_mem _ List.mem_cons_self))
          (condition (foresees.part List.mem_cons_self) alike))
  | reference occurs => exact alike.read occurs (foresees _ .refl _ rfl)
  | receiver occurs => exact alike.receiver occurs (foresees _ .refl _ rfl)
  | inherited occurs => exact alike.inherited occurs (foresees _ .refl _ rfl)
  | assign occurs inside part =>
      refine (part (foresees.part List.mem_cons_self) alike).bind occurs ?_
      exact (foresees _ .refl _ rfl).among (Site.expression_after _ _)
  | uninitialized spells => exact (alike.declare spells).define spells
  | initialized spells inside part =>
      exact (part (foresees.part List.mem_cons_self) (alike.declare spells)).define spells
  | block renamed inside part =>
      exact (part (foresees.part List.mem_cons_self) (alike.enter renamed)).leave
  | @routineDeclaration flags declared declared' keeps kept inside part =>
      refine part (foresees.part List.mem_cons_self) ?_
      have sameName : declared'.name = declared.name := by
        cases inside
        rfl
      rw [sameName]
      refine alike.declare_all ?_
      cases named : declared.name with
      | none => exact .nil
      | some name => exact .cons (keeps name named).spells .nil
  | exit sign => exact alike.exit_checked sign
  | exitWith sign inside part =>
      exact part (foresees.part List.mem_cons_self) (alike.exit_checked sign)
  | base keeps first second methods classMethods =>
      have inside := classMethods (foresees.part (List.mem_cons_of_mem _ List.mem_cons_self))
        (methods (foresees.part List.mem_cons_self) (alike.enter_class keeps))
      exact inside.leave.in_class alike.classContext
  | derived keeps occurs first second methods classMethods =>
      have reaches := (foresees _ (.single List.mem_cons_self) _ rfl).among
        (Analysis.at_superclass_scopes _ _ _).symm
      have inside := classMethods
        (foresees.part (List.mem_cons_of_mem _ (List.mem_cons_of_mem _ List.mem_cons_self)))
        (methods (foresees.part (List.mem_cons_of_mem _ List.mem_cons_self))
          (alike.enter_derived_class keeps occurs reaches))
      exact inside.leave.leave.in_class alike.classContext
  | @routine flags name parameters parameters' body body' renamed spells inside part =>
      have entered : (Site.entered ⟨name, parameters, body⟩ analysis).Alike recast
          (renamed :: flags) (Site.entered ⟨name, parameters', body'⟩ analysis') := by
        refine ((alike.in_routine rfl).enter renamed).declare_all ?_
        cases spells with
        | none => exact .nil
        | some spells => exact spells
      have walked := (part (foresees.part List.mem_cons_self) entered).leave
      exact walked.in_routine alike.inRoutine

end Lox
