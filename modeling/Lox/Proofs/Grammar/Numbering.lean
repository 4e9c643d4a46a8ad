import Lox.Proofs.Names.Node
import Mathlib.Data.List.Nodup

/-!
Numbers of occurrences. The rules hand out numbers in ascending order, and a tree
takes over the trees that it is built from, so that no two occurrences of a tree
share a number and all of them lie in the range handed out while it was read.
-/

namespace Lox

/-- Nodes side by side that are well shaped throughout and whose occurrences have
numbers of their own in a range. -/
structure Numbered (first next : Nat) (nodes : List Node) : Prop where
  ordered : first ≤ next
  unique : ((nodes.flatMap Node.occurrences).map Occurrence.id).Nodup
  between : ∀ place ∈ nodes.flatMap Node.occurrences, first ≤ place.id ∧ place.id < next
  shaped : ∀ node ∈ nodes, ∀ inner, node.Contains inner → inner.WellShaped

namespace Numbered

variable {first middle next : Nat} {nodes others : List Node} {node : Node} {place : Occurrence}

theorem nil (ordered : first ≤ next) : Numbered first next [] :=
  ⟨ordered, List.nodup_nil, nofun, nofun⟩

theorem widen {earlier later : Nat} (numbered : Numbered first next nodes)
    (below : earlier ≤ first) (above : next ≤ later) : Numbered earlier later nodes where
  ordered := Nat.le_trans below (Nat.le_trans numbered.ordered above)
  unique := numbered.unique
  between place member := by
    have bounds := numbered.between place member
    omega
  shaped := numbered.shaped

theorem append (front : Numbered first middle nodes) (back : Numbered middle next others) :
    Numbered first next (nodes ++ others) where
  ordered := Nat.le_trans front.ordered back.ordered
  unique := by
    rw [List.flatMap_append, List.map_append, List.nodup_append]
    refine ⟨front.unique, back.unique, fun low lowMember high highMember same => ?_⟩
    obtain ⟨one, oneMember, rfl⟩ := List.mem_map.mp lowMember
    obtain ⟨other, otherMember, rfl⟩ := List.mem_map.mp highMember
    have below := (front.between one oneMember).2
    have above := (back.between other otherMember).1
    omega
  between place member := by
    have orderedFront := front.ordered
    have orderedBack := back.ordered
    rw [List.flatMap_append, List.mem_append] at member
    rcases member with member | member
    · have bounds := front.between place member
      omega
    · have bounds := back.between place member
      omega
  shaped node member := by
    rcases List.mem_append.mp member with member | member
    · exact front.shaped node member
    · exact back.shaped node member

theorem perm (numbered : Numbered first next nodes) (same : nodes.Perm others) :
    Numbered first next others where
  ordered := numbered.ordered
  unique := ((same.flatMap_right _).map _).nodup_iff.mp numbered.unique
  between place member := numbered.between place ((same.flatMap_right _).mem_iff.mpr member)
  shaped node member := numbered.shaped node (same.mem_iff.mpr member)

/-- A node that is no occurrence adds nothing to its parts. -/
theorem around (parts : Numbered first next (node.parts ++ others)) (plain : node.place? = none)
    (own : node.WellShaped) : Numbered first next (node :: others) := by
  have same : (node :: others).flatMap Node.occurrences =
      (node.parts ++ others).flatMap Node.occurrences := by
    rw [List.flatMap_cons, List.flatMap_append, Node.occurrences_eq, plain, Option.toList_none,
      List.append_nil]
  have shaped := List.forall_mem_append.mp parts.shaped
  exact ⟨parts.ordered, same ▸ parts.unique, same ▸ parts.between,
    List.forall_mem_cons.mpr ⟨Node.Everywhere.build own shaped.1, shaped.2⟩⟩

/-- The parts in the place of a node. -/
theorem apart (numbered : Numbered first next (node :: others)) (plain : node.place? = none) :
    Numbered first next (node.parts ++ others) := by
  have same : (node.parts ++ others).flatMap Node.occurrences =
      (node :: others).flatMap Node.occurrences := by
    rw [List.flatMap_cons, List.flatMap_append, node.occurrences_eq, plain, Option.toList_none,
      List.append_nil]
  have shaped := List.forall_mem_cons.mp numbered.shaped
  refine ⟨numbered.ordered, same ▸ numbered.unique, same ▸ numbered.between,
    List.forall_mem_append.mpr ⟨fun part member inner below => ?_, shaped.2⟩⟩
  exact shaped.1 inner (Node.contains_iff.mpr (.inr ⟨part, member, below⟩))

theorem of_cons (numbered : Numbered first next (node :: nodes)) : Numbered first next nodes where
  ordered := numbered.ordered
  unique := by
    have unique := numbered.unique
    rw [List.flatMap_cons, List.map_append, List.nodup_append] at unique
    exact unique.2.1
  between place member :=
    numbered.between place (List.mem_append.mpr (.inr member))
  shaped := (List.forall_mem_cons.mp numbered.shaped).2

/-- An occurrence gets the next number after those of the parts of its node. -/
theorem occurring (parts : Numbered first middle node.parts) (occurs : node.place? = some place)
    (number : place.id = middle) (own : node.WellShaped) :
    Numbered first (middle + 1) [node] where
  ordered := Nat.le_succ_of_le parts.ordered
  unique := by
    rw [List.flatMap_singleton, Node.occurrences_eq, occurs, Option.toList_some, List.map_append,
      List.nodup_append]
    refine ⟨parts.unique, List.nodup_singleton _, fun low lowMember high highMember same => ?_⟩
    obtain ⟨one, oneMember, rfl⟩ := List.mem_map.mp lowMember
    rw [List.map_singleton, List.mem_singleton] at highMember
    have below := (parts.between one oneMember).2
    omega
  between := by
    intro one member
    rw [List.flatMap_singleton, Node.occurrences_eq, occurs, Option.toList_some,
      List.mem_append, List.mem_singleton] at member
    rcases member with member | rfl
    · have bounds := parts.between one member
      omega
    · have ordered := parts.ordered
      omega
  shaped := List.forall_mem_singleton.mpr (Node.Everywhere.build own parts.shaped)

/-- A node for a list of items has a part for the first item and one for the others. -/
structure Gathers {Item : Type} (single : Item → Node) (all : List Item → Node) : Prop where
  none : (all []).parts = []
  more : ∀ item items, (all (item :: items)).parts = [single item, all items]
  plain : ∀ items, (all items).place? = Option.none
  own : ∀ items, (all items).WellShaped

theorem expressions_gather : Gathers Node.expression Node.expressions :=
  ⟨rfl, fun _ _ => rfl, fun _ => rfl, fun _ => trivial⟩

theorem statements_gather : Gathers Node.statement Node.statements :=
  ⟨rfl, fun _ _ => rfl, fun _ => rfl, fun _ => trivial⟩

theorem routines_gather : Gathers Node.routine Node.routines :=
  ⟨rfl, fun _ _ => rfl, fun _ => rfl, fun _ => trivial⟩

section

variable {Item : Type} {single : Item → Node} {all : List Item → Node} {items : List Item}

theorem gathered_occurrences (gathers : Gathers single all) :
    (all items).occurrences = (items.map single).flatMap Node.occurrences := by
  induction items with
  | nil => rw [Node.occurrences_eq, gathers.none, gathers.plain]; rfl
  | cons item items induction =>
      rw [Node.occurrences_eq, gathers.more, gathers.plain]
      simp only [List.flatMap_cons, List.flatMap_nil, List.map_cons, Option.toList_none,
        List.append_nil, induction]

/-- A list of nodes has the property everywhere if its members have it. -/
theorem everywhere_gathered {own : Node → Prop} (gathers : Gathers single all)
    (free : ∀ items, own (all items)) :
    (all items).Everywhere own ↔ ∀ item ∈ items, (single item).Everywhere own := by
  induction items with
  | nil =>
      rw [Node.everywhere_iff, gathers.none]
      exact iff_of_true ⟨free [], List.forall_mem_nil _⟩ (List.forall_mem_nil _)
  | cons item items induction =>
      have both : (∀ part ∈ [single item, all items], part.Everywhere own) ↔
          (single item).Everywhere own ∧ (all items).Everywhere own := by
        rw [List.forall_mem_cons, List.forall_mem_singleton]
      rw [Node.everywhere_iff, gathers.more, and_iff_right (free _), both, induction,
        List.forall_mem_cons]

theorem gather (gathers : Gathers single all)
    (each : Numbered first next (items.map single ++ others)) :
    Numbered first next (all items :: others) := by
  have same : (all items :: others).flatMap Node.occurrences =
      (items.map single ++ others).flatMap Node.occurrences := by
    rw [List.flatMap_cons, List.flatMap_append, gathered_occurrences gathers]
  have shaped := List.forall_mem_append.mp each.shaped
  exact ⟨each.ordered, same ▸ each.unique, same ▸ each.between,
    List.forall_mem_cons.mpr ⟨(everywhere_gathered gathers gathers.own).mpr
      (List.forall_mem_map.mp shaped.1), shaped.2⟩⟩

end

/-- The members of a class, sorted by what they belong to. -/
theorem sorted {members : List (Bool × Routine)}
    (each : Numbered first next (members.map fun member => .routine member.2)) :
    Numbered first next [.routines ((members.filter (!·.1)).map (·.2)),
      .routines ((members.filter (·.1)).map (·.2))] := by
  have apart : (members.map fun member => Node.routine member.2).Perm
      (((members.filter (·.1)).map (·.2)).map Node.routine ++
        ((members.filter (!·.1)).map (·.2)).map Node.routine) := by
    rw [← List.map_append, ← List.map_append, List.map_map]
    exact ((List.filter_append_perm (·.1) members).map _).symm
  have classMethods := gather routines_gather (each.perm apart)
  exact gather routines_gather (classMethods.perm (List.perm_append_singleton _ _).symm)

end Numbered

end Lox
