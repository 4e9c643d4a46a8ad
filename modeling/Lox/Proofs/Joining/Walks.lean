import Lox.Proofs.Names.Charted
import Lox.Proofs.Names.Tally
import Lox.Proofs.Renaming.Sites

/-!
Walks of the analysis behind each other. What was bound and reported before does not
change where the walk goes. As the top level is in no scope, the walk comes out of a
program in the state in which it would begin another one, and what it finds in two
programs together is what it finds in each of them.
-/

namespace Lox

/-- The state of a walk that began with what another walk had found. -/
def Analysis.behind (earlier analysis : Analysis) : Analysis :=
  { analysis with
    bonds := analysis.bonds ++ earlier.bonds
    violations := analysis.violations ++ earlier.violations }

/-- To begin with what another walk has found. -/
def Analysis.behindRewriting (earlier : Analysis) : Rewriting where
  labels := .same
  bonds := (· ++ earlier.bonds)
  violations := (· ++ earlier.violations)
  textual _ := rfl
  bond_cons _ _ := rfl
  violation_cons _ _ := rfl

/-- The walk goes the same way, whatever was found before. -/
theorem Node.analyse_behind (earlier : Analysis) (node : Node) (analysis : Analysis) :
    node.analyse (earlier.behind analysis) = earlier.behind (node.analyse analysis) := by
  have walked : (node.relabel .same).analyse (earlier.behind analysis) =
      earlier.behind (node.analyse analysis) := earlier.behindRewriting.analyse node analysis
  rwa [relabel_same] at walked

theorem analyse_all_append (front back : List Statement) (analysis : Analysis) :
    Statement.analyseAll (front ++ back) analysis =
      Statement.analyseAll back (Statement.analyseAll front analysis) := by
  induction front generalizing analysis with
  | nil => rfl
  | cons first rest induction => exact induction (first.analyse analysis)

/-- Where the walk comes out of a program, it could begin another one. -/
theorem program_left (statements : List Statement) :
    Statement.analyseAll statements .start =
      (Statement.analyseAll statements .start).behind .start := by
  let site : Site := ⟨.statements statements, .start, []⟩
  have scopes : (Statement.analyseAll statements .start).scopes = [] := by
    have grows : InnermostGrows [] site.after.scopes := site.keeps_scopes.1
    cases left : site.after.scopes with
    | nil => exact left
    | cons => rw [left] at grows; exact grows.elim
  have context : (Statement.analyseAll statements .start).context = (false, .outside) :=
    site.keeps_context
  unfold Analysis.behind
  generalize Statement.analyseAll statements .start = left at scopes context ⊢
  obtain ⟨_, _, _, bonds, violations⟩ := left
  cases scopes
  cases context
  rfl

/-- What is found in two programs is what is found in the one and then in the other. -/
theorem bindings_append (front back : List Statement) :
    Bindings.ofProgram (front ++ back) =
      ⟨(Bindings.ofProgram front).bonds ++ (Bindings.ofProgram back).bonds,
        (Bindings.ofProgram front).violations ++ (Bindings.ofProgram back).violations⟩ := by
  have walked : Statement.analyseAll (front ++ back) .start =
      (Statement.analyseAll front .start).behind (Statement.analyseAll back .start) := by
    rw [analyse_all_append, program_left front]
    exact Node.analyse_behind _ (.statements back) .start
  unfold Bindings.ofProgram Analysis.finish
  rw [walked]
  simp only [Analysis.behind, List.reverse_append]

/-- What is found in a tree with other labels is what is found in the tree. -/
theorem bindings_relabel {labels : Labels} (textual : labels.Textual)
    (statements : List Statement) :
    Bindings.ofProgram (Statement.relabelAll labels statements) =
      ⟨(Bindings.ofProgram statements).bonds.map (Bond.relabel labels),
        (Bindings.ofProgram statements).violations.map (Violation.relabel labels)⟩ := by
  have walked : Statement.analyseAll (Statement.relabelAll labels statements) .start = _ :=
    Node.analyse_relabel textual (.statements statements) .start
  unfold Bindings.ofProgram Analysis.finish
  rw [walked]
  simp only [Analysis.relabel, List.map_reverse]
  rfl

end Lox
