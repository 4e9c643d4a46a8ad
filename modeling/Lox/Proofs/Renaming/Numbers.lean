import Lox.Proofs.Grammar.Soundness
import Lox.Proofs.Renaming.Shift
import Lox.Token.Stream

/-!
Numbers handed out once. Whichever way a token list is read, the occurrences in its tree get
different numbers, from those that were free before and are used up afterwards, and the tree does
not depend on where the numbers begin. One walk over such a tree comes upon every number once, so
none of its bonds stands in the way of another.
-/

namespace Lox

/-- The ways to read a whole token list. -/
inductive Reader where
  | program
  | expression
  | line
deriving DecidableEq, Repr

def Parsed.map {α β : Type} (make : α → β) (parsed : Parsed α) : Parsed β :=
  ⟨parsed.outcome.map make, parsed.nextId⟩

/-- What a token list is read as. -/
def Reader.read : Reader → List Token → Nat → Parsed Line
  | .program, tokens, firstId => (parseProgram tokens firstId).map .statements
  | .expression, tokens, firstId => (parseExpression tokens firstId).map .expression
  | .line, tokens, firstId => parseLine tokens firstId

theorem Parsed.map_ok {α β : Type} {make : α → β} {parsed : Parsed α} {result : β}
    (accepted : (parsed.map make).outcome = .ok result) :
    ∃ tree, parsed.outcome = .ok tree ∧ make tree = result := by
  obtain ⟨outcome, nextId⟩ := parsed
  cases outcome with
  | error complaints => cases accepted
  | ok tree => exact ⟨tree, rfl, Except.ok.inj accepted⟩

theorem Parsed.map_relabel {α β : Type} {labels : Labels} {make : α → β} {change : α → α}
    {alter : β → β} (commutes : ∀ tree, make (change tree) = alter (make tree))
    (parsed : Parsed α) :
    (parsed.relabel labels change).map make = (parsed.map make).relabel labels alter := by
  obtain ⟨outcome, nextId⟩ := parsed
  cases outcome with
  | error complaints => rfl
  | ok tree => simp only [Parsed.relabel, Parsed.map, Except.map, commutes]

namespace Reader

variable (reader : Reader) (tokens : List Token) (firstId : Nat)

/-- Whichever way tokens are read, the numbers in the tree are its own. -/
theorem read_numbered : firstId ≤ (reader.read tokens firstId).nextId ∧
    ∀ line, (reader.read tokens firstId).outcome = .ok line →
      Numbered firstId (reader.read tokens firstId).nextId [line.node] := by
  cases reader with
  | program =>
      obtain ⟨ordered, reads⟩ := program_read tokens firstId
      refine ⟨ordered, fun line accepted => ?_⟩
      obtain ⟨statements, parsed, rfl⟩ := Parsed.map_ok accepted
      exact (reads statements parsed).1
  | expression =>
      obtain ⟨ordered, reads⟩ := expression_read tokens firstId
      refine ⟨ordered, fun line accepted => ?_⟩
      obtain ⟨value, parsed, rfl⟩ := Parsed.map_ok accepted
      exact (reads value parsed).1
  | line => exact line_read tokens firstId

theorem read_relabel {labels : Labels} (silent : labels.Silent) :
    reader.read (tokens.map labels.token) (labels.number firstId) =
      (reader.read tokens firstId).relabel labels (Line.relabel labels) := by
  cases reader with
  | program =>
      simp only [read, parse_program_relabel silent]
      refine Parsed.map_relabel ?_ _
      exact fun _ => rfl
  | expression =>
      simp only [read, parse_expression_relabel silent]
      refine Parsed.map_relabel ?_ _
      exact fun _ => rfl
  | line => exact parse_line_relabel silent tokens firstId

end Reader

namespace Site

/-- The bonds that the walk adds at a site belong to different occurrences there, and come in their
order. -/
def Binds (site : Site) : Prop :=
  ∃ added, site.after.bonds = added ++ site.analysis.bonds ∧
    (added.reverse.map Bond.place).Sublist site.node.occurrences

theorem threaded_binds {parts : List Site} {first last : Analysis}
    (threaded : Threaded first parts last) (each : ∀ part ∈ parts, part.Binds) :
    ∃ added, last.bonds = added ++ first.bonds ∧
      (added.reverse.map Bond.place).Sublist
        ((parts.map Site.node).flatMap Node.occurrences) := by
  induction parts generalizing first with
  | nil => exact ⟨[], threaded.bonds, List.Sublist.refl _⟩
  | cons part rest induction =>
      obtain ⟨reports, threaded⟩ := threaded
      obtain ⟨here, isHere, inOrder⟩ := each part List.mem_cons_self
      obtain ⟨later, isLater, behind⟩ := induction threaded fun other member =>
        each other (List.mem_cons_of_mem _ member)
      refine ⟨later ++ here, ?_, ?_⟩
      · rw [isLater, isHere, reports.bonds, List.append_assoc]
      · rw [List.reverse_append, List.map_append, List.map_cons, List.flatMap_cons]
        exact inOrder.append behind

theorem binds (site : Site) : site.Binds := by
  induction site using induction_along_parts with
  | step site parts =>
    obtain ⟨last, threaded, bonds, -⟩ := site.walked
    obtain ⟨inside, isInside, inOrder⟩ := threaded_binds threaded parts
    refine ⟨site.bond?.toList ++ inside, ?_, ?_⟩
    · rw [bonds, isInside, List.append_assoc]
    · rw [List.reverse_append, List.map_append, Node.occurrences_eq]
      rw [part_nodes] at inOrder
      refine inOrder.append ?_
      cases found : site.bond? with
      | none => exact List.nil_sublist _
      | some bond =>
          rw [place_of_bond found]
          exact List.Sublist.refl _

end Site

/-- The occurrences that a walk binds are some of those in the tree, in the same order. -/
theorem Line.bonds_in_order (line : Line) :
    ((Bindings.ofLine line).bonds.map Bond.place).Sublist line.node.occurrences := by
  obtain ⟨added, same, inOrder⟩ := Site.binds ⟨line.node, .start, []⟩
  have all : (line.node.analyse .start).bonds = added := same.trans (List.append_nil added)
  have walked : Bindings.ofLine line = (line.node.analyse .start).finish := by cases line <;> rfl
  rw [walked, Analysis.finish, all]
  exact inOrder

/-- Every number is handed out once, to one occurrence of a tree, and recorded once at most; and
reading from a later number moves them all on and changes nothing else. -/
theorem numbers_apart_and_movable (reader : Reader) (tokens : List Token) (first distance : Nat) :
    (∀ line, (reader.read tokens first).outcome = .ok line →
      (line.node.occurrences.map Occurrence.id).Nodup ∧
        (∀ place ∈ line.node.occurrences,
          first ≤ place.id ∧ place.id < (reader.read tokens first).nextId) ∧
        ((Bindings.ofLine line).bonds.map (·.place.id)).Nodup) ∧
      reader.read tokens (first + distance) =
        (reader.read tokens first).relabel (.shift distance) (Line.relabel (.shift distance)) := by
  constructor
  · intro line accepted
    have numbered := (reader.read_numbered tokens first).2 line accepted
    have unique := numbered.unique
    have between := numbered.between
    rw [List.flatMap_singleton] at unique between
    refine ⟨unique, between, ?_⟩
    have recorded := line.bonds_in_order.map Occurrence.id
    rw [List.map_map] at recorded
    exact unique.sublist recorded
  · have moved := reader.read_relabel tokens first (Labels.shift_silent distance)
    rwa [Labels.shift_tokens] at moved

/-- A line that is no expression, with an assignment in a function: the first reading of the line
and the target of the assignment have used up numbers of their own. -/
theorem numbers_apart_in_assignment :
    ∃ line, (Reader.line.read (tokensOf (scan "fun (a) \x7b a = a; \x7d;")) 3).outcome = .ok line ∧
      line.node.occurrences.map Occurrence.id = [7, 8] ∧
      ((Bindings.ofLine line).bonds.map (·.place.id)).Nodup ∧
      (Reader.line.read (tokensOf (scan "fun (a) \x7b a = a; \x7d;")) (3 + 4)).outcome =
        .ok (line.relabel (.shift 4)) := by
  let name : Token := ⟨.identifier, "a", 1⟩
  let body : List Statement := [.expression (.assign ⟨8, name⟩ (.reference ⟨7, name⟩))]
  let line : Line := .statements [.expression (.lambda ⟨none, some [name], body⟩)]
  have accepted : Reader.line.read (tokensOf (scan "fun (a) \x7b a = a; \x7d;")) 3 =
      ⟨.ok line, 9⟩ := by rfl
  obtain ⟨apart, moved⟩ := numbers_apart_and_movable .line
    (tokensOf (scan "fun (a) \x7b a = a; \x7d;")) 3 4
  rw [accepted] at apart moved
  obtain ⟨-, -, recorded⟩ := apart line rfl
  refine ⟨line, by rw [accepted], ?_, recorded, by rw [moved]; rfl⟩
  simp [line, body, Line.node, Node.occurrences_eq, Node.parts, Node.place?]

end Lox
