import Lox.Proofs.Renaming.Analyses
import Lox.Proofs.Renaming.Parsing
import Lox.Proofs.Renaming.Renumbered
import Lox.Proofs.Scoping.Sessions

/-!
Programs whose occurrences are numbered further on. Numbers that were used up before
a program is read only move the numbers in its tree, and trees that differ in their
numbers alone are alike: none of their names is respelled.
-/

namespace Lox

/-- All numbers moved on, and nothing else. -/
def Labels.shift (distance : Nat) : Labels := ⟨id, (· + distance)⟩

theorem Labels.shift_silent (distance : Nat) : (Labels.shift distance).Silent where
  kind _ := rfl
  ending := rfl
  next id := Nat.add_right_comm id 1 distance

theorem Labels.shift_tokens (distance : Nat) (tokens : List Token) :
    tokens.map (Labels.shift distance).token = tokens := List.map_id tokens

theorem Labels.shift_zero (distance : Nat) : (Labels.shift distance).number 0 = distance :=
  Nat.zero_add distance

/-- Further numbers for the same program. -/
theorem parse_program_shifted (tokens : List Token) (firstId ahead : Nat) :
    parseProgram tokens (firstId + ahead) = (parseProgram tokens firstId).relabel (.shift ahead)
      (Statement.relabelAll (.shift ahead)) := by
  have moved := parse_program_relabel (Labels.shift_silent ahead) tokens firstId
  rwa [Labels.shift_tokens] at moved

/-- Numbers move on from some number on, and no name is respelled. -/
def Recast.moving (first distance : Nat) : Recast where
  number id := if id < first then id else id + distance
  reach _ := none
  old := ""
  new := ""
  old_written := by decide
  new_written := by decide

/-- A node with all its numbers moved is like the node itself. -/
theorem Node.alike_shifted {recast : Recast} (same : recast.old = recast.new) {distance : Nat}
    (node : Node) (flags : List Bool)
    (numbers : ∀ place ∈ node.occurrences, recast.number place.id = place.id + distance) :
    node.Alike recast flags (node.relabel (.shift distance)) := by
  have shape : node.SameButNumbers (node.relabel (.shift distance)) :=
    node.relabel_relabel (.shift distance) .unnumbered
  refine Node.alike_renumbered same shape ?_ flags
  rw [Node.Renumbered, Node.occurrences_relabel, List.map_map]
  exact List.map_congr_left fun place member => (numbers place member).symm

end Lox
