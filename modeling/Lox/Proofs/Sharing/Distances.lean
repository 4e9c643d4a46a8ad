import Lox.Proofs.Receivers.Reach
import Lox.Proofs.Sharing.Writes

/-!
Two ways to find a name: looking for it scope by scope outwards, and going outwards by a distance
that is known beforehand. They come to the same scope if the distance is the number of steps to
the nearest scope with the name. If there is no such scope, no distance leads to one either, as a
distance beyond the outermost scope stops there.
-/

namespace Lox

namespace Scopes

/-- How many steps outwards the nearest scope with the name is. -/
def steps? (scopes : Scopes Value) (id : ScopeId) (name : String) : Option Nat :=
  (scopes.chain id).findIdx? (scopes.declares · name)

variable {scopes : Scopes Value} {id parent : ScopeId} {name : String}

section Outwards

theorem outwards_outermost (outermost : scopes.parent? id = none) (distance : Nat) :
    scopes.outwards id distance = id := by
  cases distance with
  | zero => rfl
  | succ distance => rw [outwards, outermost]

/-- Two distances are gone one after the other, also if the chain ends on the way. -/
theorem outwards_add (scopes : Scopes Value) (id : ScopeId) (first second : Nat) :
    scopes.outwards (scopes.outwards id first) second = scopes.outwards id (first + second) := by
  induction first generalizing id with
  | zero => rw [outwards, Nat.zero_add]
  | succ first induction =>
      cases around : scopes.parent? id with
      | none => rw [outwards_outermost around, outwards_outermost around, outwards_outermost around]
      | some parent =>
          rw [scopes.outwards_succ around, Nat.succ_add, scopes.outwards_succ around]
          exact induction parent

theorem outwards_stays {distance further : Nat}
    (outermost : scopes.parent? (scopes.outwards id distance) = none)
    (beyond : distance ≤ further) : scopes.outwards id further = scopes.outwards id distance := by
  obtain ⟨more, rfl⟩ := Nat.exists_eq_add_of_le beyond
  rw [← outwards_add]
  exact outwards_outermost outermost more

theorem outwards_on_chain (scopes : Scopes Value) (id : ScopeId) (distance : Nat) :
    scopes.outwards id distance ∈ scopes.chain id := by
  induction distance generalizing id with
  | zero =>
      obtain ⟨outer, begins⟩ := scopes.chain_begins id
      rw [outwards, begins]
      exact List.mem_cons_self
  | succ distance induction =>
      cases around : scopes.parent? id with
      | none =>
          rw [outwards_outermost around, scopes.chain_outermost around]
          exact List.mem_singleton_self id
      | some parent =>
          rw [scopes.outwards_succ around, scopes.chain_inner around]
          exact List.mem_cons_of_mem id (induction parent)

end Outwards

section Steps

theorem steps_here (declared : scopes.declares id name = true) :
    scopes.steps? id name = some 0 := by
  obtain ⟨outer, begins⟩ := scopes.chain_begins id
  rw [steps?, begins, List.findIdx?_cons, declared]
  rfl

theorem steps_outermost (outermost : scopes.parent? id = none)
    (absent : scopes.declares id name = false) : scopes.steps? id name = none := by
  simp [steps?, scopes.chain_outermost outermost, absent]

theorem steps_outside (around : scopes.parent? id = some parent)
    (absent : scopes.declares id name = false) :
    scopes.steps? id name = (scopes.steps? parent name).map (· + 1) := by
  rw [steps?, scopes.chain_inner around, List.findIdx?_cons, absent]
  rfl

theorem undeclared_iff : scopes.declares id name = false ↔ scopes.local? id name = none := by
  rw [declares, Option.isSome_eq_false_iff, Option.isNone_iff_eq_none]

/-- A scope so many steps away is either this one, or so many steps away but one from the scope
around it. -/
theorem steps_cases {distance : Nat} (found : scopes.steps? id name = some distance) :
    (distance = 0 ∧ scopes.declares id name = true) ∨
      ∃ parent further, distance = further + 1 ∧ scopes.parent? id = some parent ∧
        scopes.declares id name = false ∧ scopes.steps? parent name = some further := by
  cases declared : scopes.declares id name with
  | true =>
      rw [steps_here declared] at found
      exact .inl ⟨(Option.some.inj found).symm, rfl⟩
  | false =>
      cases around : scopes.parent? id with
      | none =>
          rw [steps_outermost around declared] at found
          cases found
      | some parent =>
          rw [steps_outside around declared, Option.map_eq_some_iff] at found
          obtain ⟨further, there, same⟩ := found
          exact .inr ⟨parent, further, same.symm, rfl, rfl, there⟩

/-- So many steps outwards is the scope that a search finds. -/
theorem holder_at_steps {distance : Nat} (found : scopes.steps? id name = some distance) :
    scopes.declares (scopes.outwards id distance) name = true ∧
      scopes.holder? id name = some (scopes.outwards id distance) := by
  induction distance generalizing id with
  | zero =>
      obtain ⟨-, declared⟩ | ⟨parent, further, impossible, -⟩ := steps_cases found
      · exact ⟨declared, holder_here declared⟩
      · cases impossible
  | succ distance induction =>
      obtain ⟨impossible, -⟩ | ⟨parent, further, same, around, absent, there⟩ := steps_cases found
      · cases impossible
      · cases same
        rw [scopes.outwards_succ around, holder_outside around (undeclared_iff.mp absent)]
        exact induction there

end Steps

section Access

variable {distance : Nat} {value : Value}

theorem read_at_steps (found : scopes.steps? id name = some distance) :
    ∃ held, scopes.readAt? id distance name = some held ∧ scopes.read? id name = some held := by
  obtain ⟨declared, holder⟩ := holder_at_steps found
  obtain ⟨held, isHeld⟩ := Option.isSome_iff_exists.mp declared
  refine ⟨held, isHeld, ?_⟩
  rw [read?, holder]
  exact isHeld

theorem write_at_steps (value : Value) (found : scopes.steps? id name = some distance) :
    ∃ after, scopes.writeAt? id distance name value = some after ∧
      scopes.write? id name value = some after := by
  obtain ⟨declared, holder⟩ := holder_at_steps found
  refine ⟨scopes.define (scopes.outwards id distance) name value, ?_, ?_⟩
  · simp [writeAt?, holderAt?, declared]
  · rw [write?, holder, Option.map_some]

variable (absent : ∀ scope ∈ scopes.chain id, scopes.declares scope name = false)

include absent

theorem read_at_nowhere (distance : Nat) : scopes.readAt? id distance name = none :=
  undeclared_iff.mp (absent _ (scopes.outwards_on_chain id distance))

theorem write_at_nowhere (distance : Nat) : scopes.writeAt? id distance name value = none :=
  write_at_none_iff.mpr (absent _ (scopes.outwards_on_chain id distance))

end Access

end Scopes

/-- To look up is to read outwards from the global scope, or at a distance if there is a bond; if
there is nothing to read the look-up fails, and in both cases the machine is as it was. -/
theorem Run.look_up_reads (place : Occurrence) (machine : Machine) :
    Run.lookUp place machine =
      match (match machine.distances[place.id]? with
        | some distance => machine.scopes.readAt? machine.current distance place.name.lexeme
        | none => machine.scopes.read? machine.globals place.name.lexeme) with
      | some value => .ok value machine
      | none => Run.fail place.name.line (Run.unknownName machine place) machine := by
  unfold Run.lookUp Run.holder?
  cases machine.distances[place.id]? with
  | none => rfl
  | some distance =>
      dsimp only
      have held : (machine.scopes.holderAt? machine.current distance place.name.lexeme).bind
          (machine.scopes.local? · place.name.lexeme) =
            machine.scopes.readAt? machine.current distance place.name.lexeme := by
        rw [Scopes.holderAt?, Scopes.readAt?]
        split_ifs with declared
        · rfl
        · exact (Scopes.undeclared_iff.mp (Bool.eq_false_iff.mpr declared)).symm
      exact held ▸ rfl

/-- Two machines look from the same scope outwards for the name of an occurrence: the first at the
distance of its bond, the second, in which it has none, as far as there are scopes. -/
structure Occurrence.SoughtFrom (place : Occurrence) (scopes : Scopes Value) (id : ScopeId)
    (distance : Nat) (bonded free : Machine) : Prop where
  bond : bonded.distances[place.id]? = some distance
  current : bonded.current = id
  bondedScopes : bonded.scopes = scopes
  noBond : free.distances[place.id]? = none
  globals : free.globals = id
  freeScopes : free.scopes = scopes

/-- What is said of a name that is not there does not depend on how it was looked for. -/
theorem Run.unknown_text (machine : Machine) (place : Occurrence) :
    (Run.unknownName machine place).message =
      "Undefined variable '" ++ place.name.lexeme ++ "'." := by
  unfold Run.unknownName
  split_ifs <;> rfl

/-- Distances add up, and stay at the outermost scope once they are there. At the number of steps
to the nearest scope with a name, the name is there, and is read and written just as if it had
been looked for. If no scope outwards has the name, then neither way finds it at any distance, and
both fail with the same words and leave the machine as it was. -/
theorem distances_lead_where_searches_do (scopes : Scopes Value) (id : ScopeId) (name : String)
    (value : Value) :
    ((∀ first second,
        scopes.outwards (scopes.outwards id first) second = scopes.outwards id (first + second)) ∧
      ∀ distance further, scopes.parent? (scopes.outwards id distance) = none →
        distance ≤ further → scopes.outwards id further = scopes.outwards id distance) ∧
    (∀ distance, scopes.steps? id name = some distance →
      (∃ found, scopes.readAt? id distance name = some found ∧
        scopes.read? id name = some found) ∧
      ∃ after, scopes.writeAt? id distance name value = some after ∧
        scopes.write? id name value = some after) ∧
    ((∀ scope ∈ scopes.chain id, scopes.declares scope name = false) → ∀ distance,
      (scopes.readAt? id distance name = none ∧ scopes.read? id name = none) ∧
      scopes.writeAt? id distance name value = none ∧ scopes.write? id name value = none) ∧
    ∀ place distance bonded free, place.name.lexeme = name →
      place.SoughtFrom scopes id distance bonded free →
      (scopes.steps? id name = some distance →
        (∃ found, Run.lookUp place bonded = .ok found bonded ∧
          Run.lookUp place free = .ok found free) ∧
        ∃ after, Run.assign place value bonded = .ok () { bonded with scopes := after } ∧
          Run.assign place value free = .ok () { free with scopes := after }) ∧
      ((∀ scope ∈ scopes.chain id, scopes.declares scope name = false) →
        ∃ fault other : Diagnostic, fault.text = other.text ∧
          Run.lookUp place bonded = .error (.failed fault) bonded ∧
          Run.assign place value bonded = .error (.failed fault) bonded ∧
          Run.lookUp place free = .error (.failed other) free ∧
          Run.assign place value free = .error (.failed other) free) := by
  refine ⟨⟨scopes.outwards_add id, fun _ _ => Scopes.outwards_stays⟩, ?_, ?_, ?_⟩
  · exact fun _ found => ⟨Scopes.read_at_steps found, Scopes.write_at_steps value found⟩
  · intro absent distance
    exact ⟨⟨Scopes.read_at_nowhere absent distance, Scopes.read_none_iff.mpr absent⟩,
      Scopes.write_at_nowhere absent distance, Scopes.write_none_iff.mpr absent⟩
  · rintro place distance bonded free rfl ⟨bond, rfl, rfl, noBond, globals, freeScopes⟩
    simp only [Run.look_up_reads, Run.assign_writes, bond, noBond, globals, freeScopes]
    constructor
    · intro found
      obtain ⟨held, atDistance, searched⟩ := Scopes.read_at_steps found
      obtain ⟨after, there, everywhere⟩ := Scopes.write_at_steps value found
      rw [atDistance, searched, there, everywhere]
      exact ⟨⟨held, rfl, rfl⟩, after, rfl, rfl⟩
    · intro absent
      rw [Scopes.read_at_nowhere absent, Scopes.write_at_nowhere absent,
        Scopes.read_none_iff.mpr absent, Scopes.write_none_iff.mpr absent]
      refine ⟨_, _, ?_, rfl, rfl, rfl, rfl⟩
      rw [Diagnostic.text, Diagnostic.text, Run.unknown_text, Run.unknown_text]

/-- From the innermost of three scopes the outermost, which has the name, is two steps away, also
for a longer distance. A name that none of them has is missed by a search and at any distance. -/
theorem distance_leads_through_empty_scopes :
    ∃ (scopes : Scopes Value) (bonded free : Machine),
      scopes.steps? 2 "a" = some 2 ∧ scopes.outwards 2 5 = scopes.outwards 2 2 ∧
      (∃ found, scopes.readAt? 2 2 "a" = some found ∧ scopes.read? 2 "a" = some found) ∧
      (∀ scope ∈ scopes.chain 2, scopes.declares scope "b" = false) ∧
      scopes.readAt? 2 1 "b" = none ∧
      Occurrence.SoughtFrom ⟨0, ⟨.identifier, "a", 1⟩⟩ scopes 2 2 bonded free ∧
      (∃ after, Run.assign ⟨0, ⟨.identifier, "a", 1⟩⟩ (.boolean true) bonded =
          .ok () { bonded with scopes := after } ∧
        Run.assign ⟨0, ⟨.identifier, "a", 1⟩⟩ (.boolean true) free =
          .ok () { free with scopes := after }) ∧
      Occurrence.SoughtFrom ⟨0, ⟨.identifier, "b", 1⟩⟩ scopes 2 2 bonded free ∧
      ∃ fault other : Diagnostic, fault.text = other.text ∧
        Run.lookUp ⟨0, ⟨.identifier, "b", 1⟩⟩ bonded = .error (.failed fault) bonded ∧
        Run.lookUp ⟨0, ⟨.identifier, "b", 1⟩⟩ free = .error (.failed other) free := by
  let outer : Scopes Value := Scopes.empty.extend none (.ofList [("a", .nil)])
  let scopes : Scopes Value := (outer.extend (some 0) .empty).extend (some 1) .empty
  let free : Machine := { Machine.start ⟨.unlimited, []⟩ 0 with scopes := scopes, globals := 2 }
  let bonded : Machine := { free.bond 0 2 with current := 2 }
  obtain ⟨⟨-, stays⟩, atSteps, -, ofName⟩ :=
    distances_lead_where_searches_do scopes 2 "a" (.boolean true)
  obtain ⟨-, -, nowhere, ofOther⟩ :=
    distances_lead_where_searches_do scopes 2 "b" (.boolean true)
  have steps : scopes.steps? 2 "a" = some 2 := rfl
  have absent : ∀ scope ∈ scopes.chain 2, scopes.declares scope "b" = false := by decide
  have sought : Occurrence.SoughtFrom ⟨0, ⟨.identifier, "a", 1⟩⟩ scopes 2 2 bonded free :=
    ⟨rfl, rfl, rfl, rfl, rfl, rfl⟩
  have alsoSought : Occurrence.SoughtFrom ⟨0, ⟨.identifier, "b", 1⟩⟩ scopes 2 2 bonded free :=
    ⟨rfl, rfl, rfl, rfl, rfl, rfl⟩
  obtain ⟨-, assigned⟩ := (ofName _ 2 bonded free rfl sought).1 steps
  obtain ⟨fault, other, same, missed, -, alsoMissed, -⟩ :=
    (ofOther _ 2 bonded free rfl alsoSought).2 absent
  exact ⟨scopes, bonded, free, steps, stays 2 5 rfl (by decide), (atSteps 2 steps).1, absent,
    (nowhere absent 1).1.1, sought, assigned, alsoSought, fault, other, same, missed, alsoMissed⟩

end Lox
