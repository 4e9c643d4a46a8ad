import Lox.Machine
import Lox.Proofs.Names.Walk

/-!
The table of distances that an analysis fills. Occurrences have numbers of their
own, so that no bond overwrites another one and the table says of each
occurrence what the walk found there. Programs without violations have each
name declared in the scopes around it as the walk leaves them.
-/

namespace Lox

theorem Node.place_mem_occurrences {whole inner : Node} (contained : whole.Contains inner)
    {place : Occurrence} (own : inner.place? = some place) : place ∈ whole.occurrences := by
  induction whole using Node.induction_along_parts with
  | step whole parts =>
    rw [Node.occurrences_eq, List.mem_append]
    rcases Node.contains_iff.mp contained with rfl | ⟨part, member, below⟩
    · exact .inr (by simp [own])
    · exact .inl (List.mem_flatMap.mpr ⟨part, member, parts part member below⟩)

/-- A table with some bonds recorded in it, the last of the list first. -/
def settle (bonds : List Bond) (table : Std.TreeMap Nat Nat) : Std.TreeMap Nat Nat :=
  bonds.foldr (fun bond table => table.insert bond.place.id bond.distance) table

theorem bond_all_distances (machine : Machine) (bonds : List Bond) :
    (machine.bondAll bonds).distances = settle bonds.reverse machine.distances := by
  rw [settle, List.foldr_reverse, Machine.bondAll]
  induction bonds generalizing machine with
  | nil => rfl
  | cons bond rest induction => exact induction (machine.bond bond.place.id bond.distance)

theorem settle_append (recent earlier : List Bond) (table : Std.TreeMap Nat Nat) :
    settle (recent ++ earlier) table = settle recent (settle earlier table) :=
  List.foldr_append

namespace Site

/-- The numbers of the occurrences in a site. -/
def ids (site : Site) : List Nat := site.node.occurrences.map Occurrence.id

theorem place_id_mem {site inner : Site} (contained : site.Contains inner) {place : Occurrence}
    (own : inner.node.place? = some place) : place.id ∈ site.ids :=
  List.mem_map_of_mem (Node.place_mem_occurrences (contains_node contained) own)

theorem ids_eq (site : Site) :
    site.ids = site.parts.flatMap ids ++ (site.node.place?.map Occurrence.id).toList := by
  have through : site.parts.flatMap ids =
      (site.node.parts.flatMap Node.occurrences).map Occurrence.id := by
    rw [← part_nodes, List.map_flatMap, List.flatMap_map]
    rfl
  rw [through, ids, Node.occurrences_eq, List.map_append]
  cases site.node.place? <;> rfl

/-- The table says of each occurrence in the site what the walk found there. -/
def Settled (table : Std.TreeMap Nat Nat) (site : Site) : Prop :=
  ∀ inner, site.Contains inner → ∀ place, inner.node.place? = some place →
    table[place.id]? = inner.bond?.map Bond.distance

theorem settled_congr {table later : Std.TreeMap Nat Nat} {site : Site}
    (settled : site.Settled table) (same : ∀ id ∈ site.ids, later[id]? = table[id]?) :
    site.Settled later := by
  intro inner contained place own
  rw [same place.id (place_id_mem contained own)]
  exact settled inner contained place own

/-- The walk settles a site whose occurrences the table does not know yet, and
nothing else. -/
def Settles (table : Std.TreeMap Nat Nat) (site : Site) : Prop :=
  site.ids.Nodup → (∀ id ∈ site.ids, (settle site.analysis.bonds table)[id]? = none) →
    site.Settled (settle site.after.bonds table) ∧
      ∀ id, id ∉ site.ids →
        (settle site.after.bonds table)[id]? = (settle site.analysis.bonds table)[id]?

theorem threaded_settles {table : Std.TreeMap Nat Nat} {parts : List Site}
    {first last : Analysis} (threaded : Threaded first parts last)
    (each : ∀ part ∈ parts, part.Settles table) (unique : (parts.flatMap ids).Nodup)
    (unknown : ∀ id ∈ parts.flatMap ids, (settle first.bonds table)[id]? = none) :
    (∀ part ∈ parts, part.Settled (settle last.bonds table)) ∧
      ∀ id, id ∉ parts.flatMap ids →
        (settle last.bonds table)[id]? = (settle first.bonds table)[id]? := by
  induction parts generalizing first with
  | nil =>
      refine ⟨nofun, fun id _ => ?_⟩
      rw [threaded.bonds]
  | cons part rest induction =>
      obtain ⟨reports, threaded⟩ := threaded
      rw [List.flatMap_cons, List.nodup_append] at unique
      obtain ⟨uniqueHere, uniqueRest, apart⟩ := unique
      obtain ⟨here, frame⟩ := each part List.mem_cons_self uniqueHere (by
        intro id member
        rw [reports.bonds]
        exact unknown id (by simp [member]))
      obtain ⟨others, restFrame⟩ := induction threaded
        (fun other member => each other (List.mem_cons_of_mem _ member)) uniqueRest (by
          intro id member
          have elsewhere : id ∉ part.ids := fun inside => apart id inside id member rfl
          rw [frame id elsewhere, reports.bonds]
          exact unknown id (List.mem_append_right _ member))
      constructor
      · intro other member
        rcases List.mem_cons.mp member with rfl | member
        · refine settled_congr here fun id inside => restFrame id fun outside => ?_
          exact apart id inside id outside rfl
        · exact others other member
      · intro id outside
        rw [List.flatMap_cons, List.mem_append, not_or] at outside
        rw [restFrame id outside.2, frame id outside.1, reports.bonds]

theorem place_of_bond {site : Site} {bond : Bond} (found : site.bond? = some bond) :
    site.node.place? = some bond.place := by
  have bound {place : Occurrence} {distance : Option Nat}
      (same : distance.map (Bond.mk place) = some bond) : some place = some bond.place := by
    obtain ⟨_, _, rfl⟩ := Option.map_eq_some_iff.mp same
    rfl
  obtain ⟨node, analysis, full⟩ := site
  cases node with
  | expression value =>
      cases value with
      | reference | assign | inherited => exact bound found
      | receiver place =>
          simp only [bond?] at found
          split_ifs at found
          exact bound found
      | literal | grouping | unary | binary | logical | conditional | call | get | set | lambda =>
          cases found
  | expressions | statement | statements | routine | routines => cases found

theorem settles (table : Std.TreeMap Nat Nat) (site : Site) : site.Settles table := by
  induction site using induction_along_parts with
  | step site parts =>
    intro unique unknown
    obtain ⟨last, threaded, bonds, -⟩ := site.walked
    rw [ids_eq] at unknown
    rw [ids_eq, List.nodup_append] at unique
    obtain ⟨uniqueParts, -, apart⟩ := unique
    obtain ⟨inside, frame⟩ := threaded_settles threaded parts uniqueParts
      fun id member => unknown id (List.mem_append_left _ member)
    rw [bonds, settle_append]
    -- After the parts, only the number of the node itself is set.
    have own (id : Nat) (different : ∀ place, site.node.place? = some place → place.id ≠ id) :
        (settle site.bond?.toList (settle last.bonds table))[id]? =
          (settle last.bonds table)[id]? := by
      cases found : site.bond? with
      | none => rfl
      | some bond =>
          have other := different bond.place (place_of_bond found)
          simp [settle, Std.TreeMap.getElem?_insert, other]
    constructor
    · intro inner contained place isPlace
      rcases contains_iff.mp contained with rfl | ⟨part, member, below⟩
      · cases found : inner.bond? with
        | none =>
            have apartId : place.id ∉ inner.parts.flatMap ids := fun within =>
              apart _ within place.id (by simp [isPlace]) rfl
            exact (frame _ apartId).trans (unknown _ (by simp [isPlace]))
        | some bond =>
            have same := (place_of_bond found).symm.trans isPlace
            cases same
            simp [settle]
      · have within : place.id ∈ site.parts.flatMap ids :=
          List.mem_flatMap.mpr ⟨part, member, place_id_mem below isPlace⟩
        rw [own place.id fun other isOther => ?_]
        · exact inside part member inner below place isPlace
        · exact fun same => apart _ within other.id (by simp [isOther]) same.symm
    · intro id outside
      rw [ids_eq, List.mem_append, not_or] at outside
      rw [own id fun place isPlace same => outside.2 (by simp [isPlace, same])]
      exact frame id outside.1

end Site

end Lox
