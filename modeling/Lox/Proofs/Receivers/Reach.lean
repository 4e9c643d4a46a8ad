import Lox.Proofs.Receivers.Store

/-!
Walking outwards from where an expression is evaluated. The frames around the expression say
how many scopes lie between it and the receiver of its method, and none of these declares
`self`. So the look-up of the receiver never fails, and the superclass is found in the scope
around that of the receiver.
-/

namespace Lox

namespace Scopes

variable {scopes : Scopes Value} {id parent : ScopeId}

theorem outwards_next {distance : Nat}
    (around : scopes.parent? (scopes.outwards id distance) = some parent) :
    scopes.outwards id (distance + 1) = parent := by
  induction distance generalizing id with
  | zero =>
      rw [outwards] at around
      rw [scopes.outwards_succ around, outwards]
  | succ distance induction =>
      cases next : scopes.parent? id with
      | none =>
          rw [outwards, next] at around
          rw [next] at around
          cases around
      | some above =>
          rw [scopes.outwards_succ next] at around ⊢
          exact induction around

theorem chain_begins (scopes : Scopes Value) (id : ScopeId) :
    ∃ outer, scopes.chain id = id :: outer := by
  cases around : scopes.parent? id with
  | none => exact ⟨[], scopes.chain_outermost around⟩
  | some parent => exact ⟨_, scopes.chain_inner around⟩

theorem holder_here {name : String} (declared : scopes.declares id name = true) :
    scopes.holder? id name = some id := by
  obtain ⟨outer, begins⟩ := scopes.chain_begins id
  simp [holder?, begins, declared]

theorem holder_outside {name : String} (around : scopes.parent? id = some parent)
    (absent : scopes.local? id name = none) :
    scopes.holder? id name = scopes.holder? parent name := by
  have undeclared : scopes.declares id name = false := by
    rw [declares, absent]
    rfl
  simp [holder?, scopes.chain_inner around, undeclared]

end Scopes

namespace Record

variable {record : Record} {scopes : Scopes Value} {id : ScopeId}

/-- Beyond the scopes of blocks and routines lies what the remaining frames say, and neither
the receiver nor the superclass is any nearer. -/
theorem reaches {openers : List Node} {frames : List Frame}
    (lies : record.Lies scopes (openers.map Frame.scope ++ frames) id) :
    record.Lies scopes frames (scopes.outwards id openers.length) ∧
      (∀ name, ¬Free name →
        scopes.holder? id name = scopes.holder? (scopes.outwards id openers.length) name) ∧
      scopes.outwards id openers.length ∈ scopes.chain id := by
  induction openers generalizing id with
  | nil =>
      refine ⟨lies, fun _ _ => rfl, ?_⟩
      obtain ⟨outer, begins⟩ := scopes.chain_begins id
      rw [List.length_nil, Scopes.outwards, begins]
      exact List.mem_cons_self
  | cons opener openers induction =>
      obtain ⟨⟨bare, -⟩, parent, around, further⟩ := lies
      obtain ⟨reached, nearest, inside⟩ := induction further
      rw [List.length_cons, scopes.outwards_succ around, scopes.chain_inner around]
      exact ⟨reached, fun name taken =>
        (Scopes.holder_outside around (bare name taken)).trans (nearest name taken),
        List.mem_cons_of_mem _ inside⟩

/-- The receiver of the innermost class around a scope: where it is held, and what it is. -/
structure ReceiverIn (scopes : Scopes Value) (id : ScopeId) (home : Home) (scope : ScopeId)
    (receiver : Value) : Prop where
  nearest : scopes.holder? id receiverName = some scope
  bound : scopes.local? scope receiverName = some receiver
  receives : receiver.Receives home.ofClass

theorem receiver_reached {home : Home} {openers : List Node} {rest : List Frame}
    (lies : record.Lies scopes (openers.map Frame.scope ++ (home.frames ++ rest)) id) :
    ∃ receiver, ReceiverIn scopes id home (scopes.outwards id openers.length) receiver ∧
      ∃ parent, scopes.parent? (scopes.outwards id openers.length) = some parent ∧
        record.Lies scopes (home.around ++ rest) parent := by
  obtain ⟨⟨⟨-, receiver, bound, receives⟩, outside⟩, nearest, -⟩ := reaches lies
  refine ⟨receiver, ⟨?_, bound, receives⟩, outside⟩
  rw [nearest receiverName fun free => free.1 rfl]
  apply Scopes.holder_here
  rw [Scopes.declares, bound]
  rfl

/-- The method was called with this receiver, and the call has opened a scope around here. -/
def Called (record : Record) (scopes : Scopes Value) (id : ScopeId) (routine : Routine)
    (scope : ScopeId) : Prop :=
  ∃ closure arguments start, record.begun (.call closure arguments) start ∧
    closure.routine = routine ∧ closure.scope = scope ∧
    start.scopes.local? scope receiverName = scopes.local? scope receiverName ∧
    start.scopes.size ∈ scopes.chain id ∧ scopes.parent? start.scopes.size = some scope

theorem call_reached {routine : Routine} {openers : List Node} {frames : List Frame}
    (lies : record.Lies scopes ((openers ++ [Node.routine routine]).map Frame.scope ++ frames) id) :
    record.Called scopes id routine
      (scopes.outwards id (openers ++ [Node.routine routine]).length) := by
  rw [List.map_append, List.append_assoc] at lies
  obtain ⟨⟨⟨-, opened⟩, -⟩, -, inside⟩ := reaches lies
  obtain ⟨closure, arguments, start, begun, isRoutine, size, around, same⟩ := opened routine rfl
  have next := Scopes.outwards_next around
  rw [List.length_append, List.length_singleton, next]
  refine ⟨closure, arguments, start, begun, isRoutine, rfl, ?_, size ▸ inside, size ▸ around⟩
  exact (same receiverName fun free => free.1 rfl).symm

theorem superclass_reached {home : Home} {rest : List Frame} {place : Occurrence}
    (inherits : home.superclass = some place)
    (lies : record.Lies scopes (home.around ++ rest) id) :
    ∃ ancestor, scopes.local? id superclassName = some (.classValue ancestor) ∧
      record.Inherits home ancestor id := by
  unfold Home.around at lies
  rw [inherits] at lies
  exact lies.1.2

section Machines

variable {machine : Machine} {place : Occurrence}

theorem look_up_at {distance : Nat} {value : Value}
    (bond : machine.distances[place.id]? = some distance)
    (held : machine.scopes.local? (machine.scopes.outwards machine.current distance)
      place.name.lexeme = some value) :
    Run.lookUp place machine = .ok value machine := by
  have declared : machine.scopes.declares (machine.scopes.outwards machine.current distance)
      place.name.lexeme = true := by
    rw [Scopes.declares, held]
    rfl
  unfold Run.lookUp Run.holder?
  rw [bond]
  simp only [Scopes.holderAt?, declared, if_true, Option.bind_some, held]

theorem inherited_method_at {distance : Nat} {ancestor : Class} {receiver : Value}
    {method : Token} {ofClass : Bool}
    (bond : machine.distances[place.id]? = some (distance + 1))
    (above : machine.scopes.local? (machine.scopes.outwards machine.current (distance + 1))
      place.name.lexeme = some (.classValue ancestor))
    (bound : machine.scopes.local? (machine.scopes.outwards machine.current distance)
      receiverName = some receiver) (receives : receiver.Receives ofClass) :
    Run.inheritedMethod place method machine =
      .ok (ancestor.answer? ofClass method.lexeme, receiver) machine := by
  have found : machine.scopes.readAt? machine.current (distance + 1) place.name.lexeme =
      some (.classValue ancestor) := above
  have inside : machine.scopes.readAt? machine.current (distance + 1 - 1) receiverName =
      some receiver := bound
  have looked : (get : Run Machine) machine = .ok machine machine := rfl
  unfold Run.inheritedMethod
  rw [bind_ok looked, bond]
  dsimp only
  rw [found]
  dsimp only
  rw [inside]
  cases receiver with
  | classValue cls =>
      cases receives
      rfl
  | object identity cls =>
      cases receives
      rfl
  | nil | boolean | number | string | native | function => cases receives

end Machines

end Record

end Lox
