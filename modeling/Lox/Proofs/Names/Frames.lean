import Lox.Proofs.Names.Regions

/-!
What the walk leaves as it was. When it leaves a node, whatever it may have reported there, it
is in the scopes in which it came, only that the innermost one has got the names that the node
declares around itself, and it is in the same routine and class.
-/

namespace Lox

/-- A value that is set twice under one name is the later one. -/
theorem Names.set_set {α : Type} (names : Names α) (name : String) (first second : α) :
    (names.set name first).set name second = names.set name second := by
  obtain ⟨entries⟩ := names
  have twice : setEntry name second (setEntry name first entries) =
      setEntry name second entries := by
    induction entries with
    | nil => simp [setEntry]
    | cons entry rest induction =>
        obtain ⟨other, old⟩ := entry
        by_cases same : other = name
        · simp [setEntry, same]
        · simp [setEntry, same, induction]
  exact congrArg Names.mk twice

/-- The scopes with these names declared in the innermost one, if there is any. -/
def declaredIn (names : List Token) : List StaticScope → List StaticScope
  | [] => []
  | inner :: outer => names.foldl (fun scope name => scope.set name.lexeme true) inner :: outer

section DeclaredIn

variable (names others : List Token) (scopes : List StaticScope)

theorem declared_in_nothing : declaredIn [] scopes = scopes := by
  cases scopes <;> rfl

theorem declared_in_append :
    declaredIn (names ++ others) scopes = declaredIn others (declaredIn names scopes) := by
  cases scopes with
  | nil => rfl
  | cons inner outer => simp only [declaredIn, List.foldl_append]

end DeclaredIn

namespace Analysis

variable (analysis : Analysis)

/-- A declaration and its end, and nothing in between but what leaves the scopes alone. -/
theorem define_scopes (name : Token) {middle : Analysis}
    (between : middle.scopes = (analysis.declare name).scopes) :
    (middle.define name).scopes = declaredIn [name] analysis.scopes := by
  rw [declare_scopes] at between
  cases around : analysis.scopes with
  | nil =>
      have none : middle.scopes = [] := by
        rw [between, mark, around]
        exact around
      rw [define, mark, none]
      exact none
  | cons inner outer =>
      rw [analysis.mark_cons around] at between
      rw [define, middle.mark_cons between, Names.set_set]
      rfl

theorem declare_all_scopes (names : List Token) :
    (analysis.declareAll names).scopes = declaredIn names analysis.scopes := by
  induction names generalizing analysis with
  | nil => exact (declared_in_nothing _).symm
  | cons name rest induction =>
      have first := analysis.define_scopes name rfl
      exact (induction _).trans
        ((congrArg (declaredIn rest) first).trans (declared_in_append [name] rest _).symm)

end Analysis

namespace Site

theorem statement_scopes {order : Statement} {analysis : Analysis} {full : List StaticScope}
    (parts : ∀ part ∈ (Site.mk (.statement order) analysis full).parts,
      part.after.scopes = declaredIn part.node.names part.analysis.scopes) :
    (order.analyse analysis).scopes =
      declaredIn (Node.statement order).names analysis.scopes := by
  have quiet (value : Expression) : (Node.expression value).names = [] := Node.names_of_quiet rfl
  have silent (declared : Routine) : (Node.routine declared).names = [] := Node.names_of_quiet rfl
  cases order with
  | expression value | print value =>
      rw [plain_names rfl]
      simp only [Node.introduced, Node.parts, List.flatMap_cons, List.flatMap_nil, quiet,
        List.append_nil, declared_in_nothing]
      exact expression_after value analysis
  | variableDeclaration name initializer =>
      cases initializer with
      | none =>
          rw [plain_names rfl]
          exact analysis.define_scopes name rfl
      | some value =>
          rw [names_of_initialized]
          exact analysis.define_scopes name (expression_after value (analysis.declare name))
  | block orders =>
      rw [names_of_block, declared_in_nothing]
      exact block_after orders analysis full
  | conditional condition thenBranch elseBranch =>
      rw [plain_names rfl]
      cases elseBranch with
      | none =>
          simp only [Site.parts, List.forall_mem_cons] at parts
          simp only [Node.introduced, Node.parts, List.flatMap_cons, List.flatMap_nil, quiet,
            List.nil_append, List.append_nil]
          exact parts.2.1.trans (congrArg _ (expression_after condition analysis))
      | some branch =>
          simp only [Site.parts, List.forall_mem_cons] at parts
          simp only [Node.introduced, Node.parts, List.flatMap_cons, List.flatMap_nil, quiet,
            List.nil_append, List.append_nil, declared_in_append]
          rw [← expression_after condition analysis]
          exact parts.2.2.1.trans (congrArg _ parts.2.1)
  | loop condition body =>
      rw [plain_names rfl]
      simp only [Site.parts, List.forall_mem_cons] at parts
      simp only [Node.introduced, Node.parts, List.flatMap_cons, List.flatMap_nil, quiet,
        List.nil_append, List.append_nil]
      exact parts.2.1.trans (congrArg _ (expression_after condition analysis))
  | routineDeclaration declared =>
      rw [plain_names rfl]
      simp only [Node.introduced, Node.parts, List.flatMap_cons, List.flatMap_nil, silent,
        List.append_nil]
      exact (routine_after declared _).trans (analysis.declare_all_scopes _)
  | exit keyword value =>
      have checked : (if analysis.inRoutine then analysis
          else analysis.report keyword .topLevelReturn).scopes = analysis.scopes := by
        split_ifs <;> rfl
      rw [plain_names rfl]
      cases value with
      | none => exact checked.trans (declared_in_nothing _).symm
      | some value =>
          simp only [Node.introduced, Node.parts, List.flatMap_cons, List.flatMap_nil, quiet,
            List.append_nil, declared_in_nothing]
          exact (expression_after value _).trans checked
  | classDeclaration name superclass methods classMethods =>
      rw [names_of_class, class_after]
      exact Analysis.define_scopes { analysis with classContext := .withoutSuperclass } name rfl

/-- The walk leaves the scopes as they were, with what the node declares around itself. -/
theorem scopes_after (site : Site) :
    site.after.scopes = declaredIn site.node.names site.analysis.scopes := by
  induction site using induction_along_parts with
  | step site parts =>
    obtain ⟨node, analysis, full⟩ := site
    cases node with
    | statement order => exact statement_scopes parts
    | statements orders =>
        rw [plain_names rfl]
        cases orders with
        | nil => exact (declared_in_nothing _).symm
        | cons first rest =>
            simp only [Site.parts, List.forall_mem_cons] at parts
            simp only [Node.introduced, Node.parts, List.flatMap_cons, List.flatMap_nil,
              List.nil_append, List.append_nil, declared_in_append]
            exact parts.2.1.trans (congrArg _ parts.1)
    | expression | expressions | routine | routines =>
        rw [Node.names_of_quiet rfl, declared_in_nothing]
        exact quiet_after rfl

end Site

end Lox
