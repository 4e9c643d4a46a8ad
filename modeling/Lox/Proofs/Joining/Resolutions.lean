import Lox.Proofs.Joining.Walks
import Lox.Proofs.Names.Frames
import Lox.Proofs.Renaming.Numbers

/-!
Programs resolved one after the other. The walk comes out of a program as it went in, so what it
finds in a second program is what it finds there alone, and the distances that it records for
both are those that it records for each, as long as they do not share an occurrence.
-/

namespace Lox

/-- The walk after what it has found wrong so far has been handed over. -/
def Analysis.handedOver (analysis : Analysis) : Analysis := { analysis with violations := [] }

/-- The distances that are recorded for what a walk has found. -/
def Bindings.recorded (bindings : Bindings) : Std.TreeMap Nat Nat := settle bindings.bonds.reverse ∅

section Recorded

theorem settle_lookup (bonds : List Bond) (table : Std.TreeMap Nat Nat) (id : Nat) :
    (settle bonds table)[id]? = ((settle bonds ∅)[id]?).or table[id]? := by
  induction bonds with
  | nil => simp [settle]
  | cons bond rest induction =>
      simp only [settle, List.foldr_cons, Std.TreeMap.getElem?_insert] at induction ⊢
      split_ifs
      · rfl
      · exact induction

/-- Recording goes on top of what has been recorded before. -/
theorem recorded_lookup (bindings : Bindings) (machine : Machine) (id : Nat) :
    (machine.bondAll bindings.bonds).distances[id]? =
      (bindings.recorded[id]?).or machine.distances[id]? := by
  rw [bond_all_distances, settle_lookup]
  rfl

theorem settled_bond {bonds : List Bond} {id distance : Nat}
    (found : (settle bonds ∅)[id]? = some distance) : ∃ bond ∈ bonds, bond.place.id = id := by
  induction bonds with
  | nil => simp [settle] at found
  | cons bond rest induction =>
      simp only [settle, List.foldr_cons, Std.TreeMap.getElem?_insert] at found induction
      split_ifs at found with same
      · exact ⟨bond, List.mem_cons_self, by simpa using same⟩
      · obtain ⟨other, member, isOther⟩ := induction found
        exact ⟨other, List.mem_cons_of_mem _ member, isOther⟩

/-- Distances are recorded for occurrences of the program only. -/
theorem recorded_occurs {statements : List Statement} {id distance : Nat}
    (found : (Bindings.ofProgram statements).recorded[id]? = some distance) :
    ∃ place ∈ (Node.statements statements).occurrences, place.id = id := by
  obtain ⟨bond, member, same⟩ := settled_bond found
  have isPlace := List.mem_map_of_mem (f := Bond.place) (List.mem_reverse.mp member)
  exact ⟨bond.place, (Line.bonds_in_order (.statements statements)).subset isPlace, same⟩

/-- If no occurrence has its number in both programs, no distance is recorded for both. -/
theorem recorded_apart {front back : List Statement}
    (apart : ∀ place ∈ (Node.statements front).occurrences,
      ∀ other ∈ (Node.statements back).occurrences, place.id ≠ other.id) (id : Nat) :
    (Bindings.ofProgram front).recorded[id]? = none ∨
      (Bindings.ofProgram back).recorded[id]? = none := by
  cases inFront : (Bindings.ofProgram front).recorded[id]? with
  | none => exact .inl rfl
  | some distance =>
      cases inBack : (Bindings.ofProgram back).recorded[id]? with
      | none => exact .inr rfl
      | some beyond =>
          obtain ⟨place, isPlace, same⟩ := recorded_occurs inFront
          obtain ⟨other, isOther, also⟩ := recorded_occurs inBack
          exact absurd (same.trans also.symm) (apart place isPlace other isOther)

theorem recorded_append (front back : List Statement) (id : Nat) :
    (Bindings.ofProgram (front ++ back)).recorded[id]? =
      ((Bindings.ofProgram back).recorded[id]?).or (Bindings.ofProgram front).recorded[id]? := by
  rw [Bindings.recorded, bindings_append, List.reverse_append, settle_append, settle_lookup]
  rfl

end Recorded

/-- What is found in a program behind another one, once what was wrong with that one has been
handed over. -/
theorem bindings_behind (front back : List Statement) :
    (Statement.analyseAll back (Statement.analyseAll front .start).handedOver).finish =
      ⟨(Bindings.ofProgram front).bonds ++ (Bindings.ofProgram back).bonds,
        (Bindings.ofProgram back).violations⟩ := by
  have left : (Statement.analyseAll front .start).handedOver =
      (Statement.analyseAll front .start).handedOver.behind .start :=
    congrArg Analysis.handedOver (program_left front)
  have walked : Statement.analyseAll back (Statement.analyseAll front .start).handedOver =
      (Statement.analyseAll front .start).handedOver.behind
        (Statement.analyseAll back .start) := by
    rw [left]
    exact Node.analyse_behind _ (.statements back) .start
  unfold Bindings.ofProgram Analysis.finish
  rw [walked]
  simp only [Analysis.behind, Analysis.handedOver, List.reverse_append, List.append_nil]

/-- The walk leaves nothing behind but what it has found. Out of every expression and statement it
comes with the scopes, the routine and the class that it went in with, whatever it has reported
there, only that a statement has declared its own names in the innermost scope. So in a program
behind another one it finds what it finds there alone, be the other one's violations handed over
in between or not, and if no occurrence has its number in both, the distances recorded for both
are those recorded for the one and those recorded for the other. -/
theorem resolution_leaves_no_residue :
    (∀ (node : Node) (analysis : Analysis),
      (node.analyse analysis).scopes = declaredIn node.names analysis.scopes ∧
      (node.analyse analysis).inRoutine = analysis.inRoutine ∧
      (node.analyse analysis).classContext = analysis.classContext) ∧
    (∀ value, (Node.expression value).names = []) ∧
    ∀ front back : List Statement,
      Bindings.ofProgram (front ++ back) =
        ⟨(Bindings.ofProgram front).bonds ++ (Bindings.ofProgram back).bonds,
          (Bindings.ofProgram front).violations ++ (Bindings.ofProgram back).violations⟩ ∧
      (Statement.analyseAll back (Statement.analyseAll front .start).handedOver).finish =
        ⟨(Bindings.ofProgram front).bonds ++ (Bindings.ofProgram back).bonds,
          (Bindings.ofProgram back).violations⟩ ∧
      ((∀ place ∈ (Node.statements front).occurrences,
          ∀ other ∈ (Node.statements back).occurrences, place.id ≠ other.id) →
        ∀ (machine : Machine) (id : Nat),
          (machine.bondAll (Bindings.ofProgram (front ++ back)).bonds).distances[id]? =
            (((Bindings.ofProgram front).recorded[id]?).or
              (Bindings.ofProgram back).recorded[id]?).or machine.distances[id]? ∧
          ((Bindings.ofProgram front).recorded[id]? = none ∨
            (Bindings.ofProgram back).recorded[id]? = none)) := by
  refine ⟨fun node analysis => ?_, fun value => Node.names_of_quiet rfl, fun front back =>
    ⟨bindings_append front back, bindings_behind front back, fun apart machine id => ?_⟩⟩
  · let site : Site := ⟨node, analysis, []⟩
    have context := site.keeps_context
    exact ⟨site.scopes_after, congrArg Prod.fst context, congrArg Prod.snd context⟩
  · have alone := recorded_apart apart id
    refine ⟨?_, alone⟩
    rw [recorded_lookup, recorded_append]
    rcases alone with none | none
    · rw [none, Option.or_none, Option.none_or]
    · rw [none, Option.or_none, Option.none_or]

/-- A block that redeclares a name and reads it, and behind it a misplaced return and a block with
the same name. -/
theorem blocks_leave_no_residue :
    let name : Token := ⟨.identifier, "a", 1⟩
    let keyword : Token := ⟨.returnWord, "return", 2⟩
    let front : List Statement := [.block [.variableDeclaration name none,
      .variableDeclaration name none, .print (.reference ⟨1, name⟩)]]
    let back : List Statement := [.exit keyword none, .block [.variableDeclaration name none,
      .block [.print (.reference ⟨2, name⟩)]]]
    (∀ place ∈ (Node.statements front).occurrences,
      ∀ other ∈ (Node.statements back).occurrences, place.id ≠ other.id) ∧
    (Bindings.ofProgram (front ++ back)).violations =
      [⟨name, .redeclared⟩, ⟨keyword, .topLevelReturn⟩] ∧
    ∃ machine : Machine,
      (machine.bondAll (Bindings.ofProgram (front ++ back)).bonds).distances[1]? = some 0 ∧
      (machine.bondAll (Bindings.ofProgram (front ++ back)).bonds).distances[2]? = some 1 := by
  intro name keyword front back
  have apart : ∀ place ∈ (Node.statements front).occurrences,
      ∀ other ∈ (Node.statements back).occurrences, place.id ≠ other.id := by
    simp [front, back, Node.occurrences_eq, Node.parts, Node.place?]
  obtain ⟨together, -, recorded⟩ := resolution_leaves_no_residue.2.2 front back
  refine ⟨apart, by rw [together]; rfl, .start ⟨.unlimited, []⟩ 0, ?_, ?_⟩
  · rw [(recorded apart _ 1).1]
    rfl
  · rw [(recorded apart _ 2).1]
    rfl

end Lox
