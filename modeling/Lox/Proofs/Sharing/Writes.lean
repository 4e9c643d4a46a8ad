import Lox.Proofs.Scoping.Steps

/-!
Scopes that share the scopes around them. A name is read in the nearest scope outwards that has
it, and an assignment overwrites it there. So what is written through one scope is seen through
another exactly if both come to the same scope for the name, and a declaration is seen wherever
nothing nearer has the name. Whatever else is read is as before.
-/

namespace Lox

namespace Scopes

/-- Whoever looks for the name outwards from the one scope comes to the other: it is on the way,
and none before it has the name. -/
def LeadsTo (scopes : Scopes Value) (name : String) (id scope : ScopeId) : Prop :=
  ∃ nearer further, scopes.chain id = nearer ++ scope :: further ∧
    ∀ other ∈ nearer, scopes.declares other name = false

/-- The scope is the first outwards that has the name. -/
structure Nearest (scopes : Scopes Value) (name : String) (id scope : ScopeId) : Prop where
  leads : scopes.LeadsTo name id scope
  declares : scopes.declares scope name = true

variable {scopes : Scopes Value} {id scope other : ScopeId} {name key : String} {value : Value}

section Reading

theorem holder_iff : scopes.holder? id name = some scope ↔ scopes.Nearest name id scope := by
  rw [holder?, List.find?_eq_some_iff_append]
  constructor
  · rintro ⟨declares, nearer, further, split, none⟩
    exact ⟨⟨nearer, further, split, fun other member => by simpa using none other member⟩, declares⟩
  · rintro ⟨⟨nearer, further, split, none⟩, declares⟩
    exact ⟨declares, nearer, further, split, fun other member => by simp [none other member]⟩

theorem holder_none_iff : scopes.holder? id name = none ↔
    ∀ scope ∈ scopes.chain id, scopes.declares scope name = false := by
  simp only [holder?, List.find?_eq_none, Bool.not_eq_true]

/-- There is only one nearest scope. -/
theorem Nearest.unique (nearest : scopes.Nearest name id scope)
    (alsoNearest : scopes.Nearest name id other) : scope = other := by
  rw [← holder_iff] at nearest alsoNearest
  exact Option.some.inj (nearest.symm.trans alsoNearest)

theorem read_iff : scopes.read? id name = some value ↔
    ∃ scope, scopes.Nearest name id scope ∧ scopes.local? scope name = some value := by
  simp only [read?, Option.bind_eq_some_iff, holder_iff]

theorem read_none_iff : scopes.read? id name = none ↔
    ∀ scope ∈ scopes.chain id, scopes.declares scope name = false := by
  rw [← holder_none_iff, read?]
  constructor
  · intro unread
    cases held : scopes.holder? id name with
    | none => rfl
    | some scope =>
        have declares := (holder_iff.mp held).declares
        rw [held, Option.bind_some] at unread
        rw [Scopes.declares, unread] at declares
        cases declares
  · intro none
    rw [none, Option.bind_none]

end Reading

section Declaring

theorem chain_define (scopes : Scopes Value) (scope : ScopeId) (name : String) (value : Value)
    (id : ScopeId) : (scopes.define scope name value).chain id = scopes.chain id := by
  have within (bound : Nat) (id : ScopeId) :
      (scopes.define scope name value).chainWithin bound id = scopes.chainWithin bound id := by
    induction bound generalizing id with
    | zero => rfl
    | succ bound induction =>
        simp only [chainWithin, parent_define]
        cases scopes.parent? id with
        | none => rfl
        | some parent => exact congrArg (id :: ·) (induction parent)
  exact within (id + 1) id

/-- A scope that is not come to is not passed either. -/
theorem not_passed (unreached : ¬scopes.LeadsTo name id scope) {nearer rest : List ScopeId}
    (split : scopes.chain id = nearer ++ rest)
    (none : ∀ other ∈ nearer, scopes.declares other name = false) : scope ∉ nearer := by
  intro member
  obtain ⟨before, after, rfl⟩ := List.append_of_mem member
  refine unreached ⟨before, after ++ rest, ?_, fun other isBefore => ?_⟩
  · rw [split, List.append_assoc, List.cons_append]
  · exact none other (List.mem_append_left _ isBefore)

theorem declares_elsewhere (apart : key ≠ name ∨ other ≠ scope) :
    (scopes.define scope name value).declares other key = scopes.declares other key := by
  rw [World.declares_define, decide_eq_false, Bool.false_or]
  rintro ⟨same, -, isName⟩
  exact apart.elim (· isName) (· same)

/-- A declaration changes where a name is found only if one comes there. -/
theorem holder_define (unreached : key = name → ¬scopes.LeadsTo name id scope) :
    (scopes.define scope name value).holder? id key = scopes.holder? id key := by
  have elsewhere {nearer rest : List ScopeId} (split : scopes.chain id = nearer ++ rest)
      (none : ∀ other ∈ nearer, scopes.declares other key = false) (other : ScopeId)
      (member : other ∈ nearer) :
      (scopes.define scope name value).declares other key = false := by
    rw [declares_elsewhere, none other member]
    by_cases isName : key = name
    · subst isName
      refine .inr ?_
      rintro rfl
      exact not_passed (unreached rfl) split none member
    · exact .inl isName
  cases held : scopes.holder? id key with
  | none =>
      rw [holder_none_iff, chain_define]
      exact elsewhere (List.append_nil _).symm (holder_none_iff.mp held)
  | some holder =>
      obtain ⟨⟨nearer, further, split, none⟩, declares⟩ := holder_iff.mp held
      refine holder_iff.mpr ⟨⟨nearer, further, ?_, elsewhere split none⟩, ?_⟩
      · rw [chain_define, split]
      · rw [World.declares_define, declares, Bool.or_true]

/-- Whoever comes to the scope of a declaration finds what has been declared. -/
theorem read_declared (made : scope < scopes.size) (leads : scopes.LeadsTo name id scope) :
    (scopes.define scope name value).read? id name = some value := by
  obtain ⟨nearer, further, split, none⟩ := leads
  have onWay : scope ∈ nearer ++ [scope] := List.mem_append_right _ List.mem_cons_self
  obtain ⟨before, after, first, notBefore⟩ := List.eq_append_cons_of_mem onWay
  have passed (other : ScopeId) (isBefore : other ∈ before) :
      scopes.declares other name = false := by
    have member : other ∈ nearer ++ [scope] := first ▸ List.mem_append_left _ isBefore
    rcases List.mem_append.mp member with isNearer | isScope
    · exact none other isNearer
    · cases List.mem_singleton.mp isScope
      exact absurd isBefore notBefore
  have held : (scopes.define scope name value).local? scope name = some value := by
    rw [local_define, if_pos ⟨rfl, made, rfl⟩]
  refine read_iff.mpr ⟨scope, ⟨⟨before, after ++ further, ?_, ?_⟩, ?_⟩, held⟩
  · rw [chain_define, split, ← List.cons_append, ← List.append_assoc, ← first, List.append_assoc]
    rfl
  · intro other isBefore
    rw [declares_elsewhere, passed other isBefore]
    exact .inr fun same => notBefore (same ▸ isBefore)
  · rw [Scopes.declares, held]
    rfl

/-- Nothing else is read differently. -/
theorem read_define (unreached : key = name → ¬scopes.LeadsTo name id scope) :
    (scopes.define scope name value).read? id key = scopes.read? id key := by
  rw [read?, read?, holder_define unreached]
  cases held : scopes.holder? id key with
  | none => rfl
  | some holder =>
      refine (local_define ..).trans (if_neg ?_)
      rintro ⟨rfl, -, isName⟩
      subst isName
      exact unreached rfl (holder_iff.mp held).leads

end Declaring

section Assigning

theorem write_iff {after : Scopes Value} : scopes.write? id name value = some after ↔
    ∃ scope, scopes.Nearest name id scope ∧ scopes.define scope name value = after := by
  simp only [write?, Option.map_eq_some_iff, holder_iff]

theorem write_none_iff : scopes.write? id name value = none ↔
    ∀ scope ∈ scopes.chain id, scopes.declares scope name = false := by
  rw [write?, Option.map_eq_none_iff, holder_none_iff]

theorem write_at_none_iff {distance : Nat} : scopes.writeAt? id distance name value = none ↔
    scopes.declares (scopes.outwards id distance) name = false := by
  rw [writeAt?, holderAt?, Option.map_eq_none_iff]
  simp

end Assigning

end Scopes

/-- To assign is to write outwards from the global scope, or at a distance if there is a bond; if
that fails, so does the assignment, and the machine is as it was. -/
theorem Run.assign_writes (place : Occurrence) (value : Value) (machine : Machine) :
    Run.assign place value machine =
      match (match machine.distances[place.id]? with
        | some distance =>
            machine.scopes.writeAt? machine.current distance place.name.lexeme value
        | none => machine.scopes.write? machine.globals place.name.lexeme value) with
      | some scopes => .ok () { machine with scopes := scopes }
      | none => Run.fail place.name.line (Run.unknownName machine place) machine := by
  unfold Run.assign Run.holder?
  cases machine.distances[place.id]? with
  | none =>
      dsimp only
      rw [Scopes.write?]
      cases machine.scopes.holder? machine.globals place.name.lexeme <;> rfl
  | some distance =>
      dsimp only
      rw [Scopes.writeAt?]
      cases machine.scopes.holderAt? machine.current distance place.name.lexeme <;> rfl

/-- A name is read where it is nearest, and nowhere if no scope outwards has it. What is assigned
through one scope is read through another if both find the name in the same scope; what is declared
in a scope is read by whoever comes there for the name; and whatever else is read is as before.
Assignments fail only where there is nothing to overwrite, and then they change nothing. -/
theorem writes_seen_through_shared_scopes (scopes : Scopes Value) (writer reader : ScopeId)
    (name key : String) (value : Value) :
    ((∀ found, scopes.read? reader name = some found ↔
        ∃ scope, scopes.Nearest name reader scope ∧ scopes.local? scope name = some found) ∧
      (scopes.read? reader name = none ↔
        ∀ scope ∈ scopes.chain reader, scopes.declares scope name = false)) ∧
    (∀ after, scopes.write? writer name value = some after →
      ((∃ scope, scopes.Nearest name writer scope ∧ scopes.Nearest name reader scope) →
        after.read? reader name = some value) ∧
      (¬(key = name ∧
          ∃ scope, scopes.Nearest name writer scope ∧ scopes.Nearest name reader scope) →
        after.read? reader key = scopes.read? reader key)) ∧
    ((writer < scopes.size → scopes.LeadsTo name reader writer →
        (scopes.define writer name value).read? reader name = some value) ∧
      ((scopes.define writer name value).read? reader key ≠ scopes.read? reader key →
        key = name ∧ scopes.LeadsTo name reader writer)) ∧
    ((scopes.write? writer name value = none ↔
        ∀ scope ∈ scopes.chain writer, scopes.declares scope name = false) ∧
      (∀ distance, scopes.writeAt? writer distance name value = none ↔
        scopes.declares (scopes.outwards writer distance) name = false) ∧
      ∀ place machine halt after, Run.assign place value machine = .error halt after →
        after = machine) := by
  refine ⟨⟨fun _ => Scopes.read_iff, Scopes.read_none_iff⟩, ?_, ⟨Scopes.read_declared, ?_⟩,
    Scopes.write_none_iff, fun _ => Scopes.write_at_none_iff, ?_⟩
  · intro after written
    obtain ⟨scope, nearest, rfl⟩ := Scopes.write_iff.mp written
    constructor
    · rintro ⟨other, isNearest, alsoNearest⟩
      cases nearest.unique isNearest
      exact Scopes.read_declared (World.declares_beyond nearest.declares) alsoNearest.leads
    · intro apart
      refine Scopes.read_define fun isName leads => apart ⟨isName, scope, nearest, ?_⟩
      exact ⟨leads, nearest.declares⟩
  · intro changed
    by_contra unreached
    exact changed (Scopes.read_define fun isName leads => unreached ⟨isName, leads⟩)
  · intro place machine halt after failed
    rw [Run.assign_writes] at failed
    split at failed <;> cases failed
    rfl

/-- Two scopes in one: what is assigned through the first is read through the second, what is
declared in the first is not, and a name that neither has cannot be assigned. -/
theorem write_seen_by_sibling :
    ∃ scopes after : Scopes Value,
      scopes.parent? 1 = some 0 ∧ scopes.parent? 2 = some 0 ∧
      scopes.write? 1 "a" (.boolean true) = some after ∧
      after.read? 2 "a" = some (.boolean true) ∧ after.read? 2 "b" = scopes.read? 2 "b" ∧
      (scopes.define 1 "b" .nil).read? 1 "b" = some .nil ∧
      (scopes.define 1 "b" .nil).read? 2 "b" = none ∧ scopes.LeadsTo "b" 1 1 ∧
      scopes.write? 1 "b" .nil = none ∧
      ∃ halt after, Run.assign ⟨0, ⟨.identifier, "b", 1⟩⟩ .nil (.start ⟨.unlimited, []⟩ 0) =
        .error halt after ∧ after = .start ⟨.unlimited, []⟩ 0 := by
  let outer : Scopes Value := Scopes.empty.extend none (.ofList [("a", .nil)])
  let scopes : Scopes Value := (outer.extend (some 0) .empty).extend (some 0) .empty
  have nearest (id : ScopeId) (chain : scopes.chain id = [id, 0])
      (absent : scopes.declares id "a" = false) : scopes.Nearest "a" id 0 :=
    ⟨⟨[id], [], chain, List.forall_mem_singleton.mpr absent⟩, rfl⟩
  have leads : scopes.LeadsTo "b" 1 1 := ⟨[], [0], rfl, List.forall_mem_nil _⟩
  obtain ⟨-, assigned, -, -⟩ :=
    writes_seen_through_shared_scopes scopes 1 2 "a" "b" (.boolean true)
  obtain ⟨seen, others⟩ := assigned (scopes.define 0 "a" (.boolean true)) rfl
  obtain ⟨-, -, ⟨declared, -⟩, -⟩ := writes_seen_through_shared_scopes scopes 1 1 "b" "b" .nil
  have found := declared (by decide) leads
  have changed : (scopes.define 1 "b" .nil).read? 1 "b" ≠ scopes.read? 1 "b" := by
    rw [found]
    exact Option.some_ne_none _
  obtain ⟨-, -, ⟨-, only⟩, unwritten, -, failed⟩ :=
    writes_seen_through_shared_scopes scopes 1 1 "b" "b" .nil
  refine ⟨scopes, _, rfl, rfl, rfl, seen ⟨0, nearest 1 rfl rfl, nearest 2 rfl rfl⟩,
    others (fun same => absurd same.1 (by decide)), found, rfl, (only changed).2,
    unwritten.mpr (by decide), _, _, rfl, failed ⟨0, ⟨.identifier, "b", 1⟩⟩ _ _ _ rfl⟩

end Lox
