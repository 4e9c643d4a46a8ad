import Lox.Machine
import Lox.Proofs.Renaming.Values

/-!
Machines of two runs that are alike. Their scopes lie around each other in the same
way and hold values that are alike under names that are spelled as their scope has
it; a lookup therefore finds the same, as long as its name is spelled as in the
scope that it goes to. Everything without names in it is the same.
-/

namespace Lox

/-- Names of two scopes of which the second is renamed or is not. -/
def Names.Spelled (recast : Recast) (views : Views) (renamed : Bool) (names names' : Names Value) :
    Prop :=
  ∀ name, Option.Rel (Value.Alike recast views) (names.find? name)
    (names'.find? (recast.spelling renamed name))

namespace Names.Spelled

variable {recast : Recast} {views : Views} {renamed : Bool} {names names' : Names Value}

theorem empty : Names.empty.Spelled recast views renamed Names.empty := fun _ => .none

theorem set (spelled : names.Spelled recast views renamed names') (name : String)
    {value value' : Value} (alike : value.Alike recast views value') :
    (names.set name value).Spelled recast views renamed
      (names'.set (recast.spelling renamed name) value') := by
  intro key
  rw [find_set, find_set]
  simp only [EmbeddingLike.apply_eq_iff_eq]
  split_ifs
  · exact .some alike
  · exact spelled key

theorem fold {tokens tokens' : List Token} {arguments arguments' : List Value}
    (spelled : names.Spelled recast views renamed names')
    (spells : List.Forall₂ (recast.Spells renamed) tokens tokens')
    (alike : List.Forall₂ (Value.Alike recast views) arguments arguments') :
    (((tokens.map Token.lexeme).zip arguments).foldl
        (fun names entry => names.set entry.1 entry.2) names).Spelled recast views renamed
      (((tokens'.map Token.lexeme).zip arguments').foldl
        (fun names entry => names.set entry.1 entry.2) names') := by
  induction spells generalizing arguments arguments' names names' with
  | nil => exact spelled
  | @cons token token' tokens tokens' first rest induction =>
      cases alike with
      | nil => exact spelled
      | cons firstValue restValues =>
          have more := spelled.set token.lexeme firstValue
          rw [← first.lexeme] at more
          exact induction more restValues

theorem single {name : String} {value value' : Value} (kept : recast.spelling renamed name = name)
    (alike : value.Alike recast views value') :
    (Names.ofList [(name, value)]).Spelled recast views renamed (.ofList [(name, value')]) := by
  have spelled : (Names.empty.set name value).Spelled recast views renamed
      (Names.empty.set (recast.spelling renamed name) value') := empty.set name alike
  rwa [kept] at spelled

theorem parameters {flags : List Bool} {routine routine' : Routine}
    {arguments arguments' : List Value}
    (inside : (Node.routine routine).Alike recast flags (.routine routine'))
    (alike : List.Forall₂ (Value.Alike recast views) arguments arguments') :
    ∃ renamed, (Node.statements routine.body).Alike recast (renamed :: flags)
        (.statements routine'.body) ∧
      (Run.parameterNames routine arguments).Spelled recast views renamed
        (Run.parameterNames routine' arguments') := by
  cases inside with
  | @routine _ name parameters parameters' body body' renamed spells inside =>
      refine ⟨renamed, inside, ?_⟩
      have all :
          List.Forall₂ (recast.Spells renamed) (parameters.getD []) (parameters'.getD []) := by
        cases spells with
        | none => exact .nil
        | some spells => exact spells
      exact empty.fold all alike

end Names.Spelled

structure Scopes.Alike (recast : Recast) (views : Views) (scopes scopes' : Scopes Value) :
    Prop where
  size : scopes.size = views.length
  size_same : scopes'.size = scopes.size
  parents : ∀ id, scopes'.parent? id = scopes.parent? id
  inner : ∀ id parent, scopes.parent? id = some parent →
    ∃ renamed flags, views[id]? = some (renamed :: flags) ∧ views[parent]? = some flags
  outermost : ∀ id flags, scopes.parent? id = none → views[id]? = some flags → flags = []
  names : ∀ id flags, views[id]? = some flags → ∀ name,
    Option.Rel (Value.Alike recast views) (scopes.local? id name)
      (scopes'.local? id (recast.spelling (flags.headD false) name))

namespace Scopes.Alike

variable {recast : Recast} {views : Views} {scopes scopes' : Scopes Value}
  (alike : scopes.Alike recast views scopes')

include alike

theorem inside {id : ScopeId} {flags : List Bool} (view : views[id]? = some flags) :
    id < scopes.size := by
  rw [alike.size]
  exact (List.getElem?_eq_some_iff.mp view).1

theorem outwards_same (id : ScopeId) (distance : Nat) :
    scopes'.outwards id distance = scopes.outwards id distance := by
  induction distance generalizing id with
  | zero => rfl
  | succ distance induction =>
      simp only [outwards, alike.parents]
      cases scopes.parent? id with
      | none => rfl
      | some parent => exact induction parent

/-- The view from a scope some steps outwards is what is left of the view. -/
theorem outwards_view {id : ScopeId} {flags : List Bool} (view : views[id]? = some flags)
    (distance : Nat) : views[scopes.outwards id distance]? = some (flags.drop distance) := by
  induction distance generalizing id flags with
  | zero => exact view
  | succ distance induction =>
      rw [outwards]
      cases around : scopes.parent? id with
      | none => rw [alike.outermost id flags around view, List.drop_nil] at *; exact view
      | some parent =>
          obtain ⟨renamed, outer, here, there⟩ := alike.inner id parent around
          rw [view] at here
          cases here
          exact induction there

theorem declares_same {id : ScopeId} {flags : List Bool} (view : views[id]? = some flags)
    (name : String) : scopes'.declares id (recast.spelling (flags.headD false) name) =
      scopes.declares id name :=
  option_rel_is_some (alike.names id flags view name)

theorem define {id : ScopeId} {flags : List Bool} (view : views[id]? = some flags) (name : String)
    {value value' : Value} (same : value.Alike recast views value') :
    (scopes.define id name value).Alike recast views
      (scopes'.define id (recast.spelling (flags.headD false) name) value') where
  size := (size_define ..).trans alike.size
  size_same := (size_define ..).trans (alike.size_same.trans (size_define ..).symm)
  parents other := by rw [parent_define, parent_define, alike.parents]
  inner other parent around := alike.inner other parent (by rwa [parent_define] at around)
  outermost other flags around := alike.outermost other flags (by rwa [parent_define] at around)
  names other flags' view' key := by
    rw [local_define, local_define, alike.size_same]
    by_cases here : other = id
    · subst here
      rw [view] at view'
      cases view'
      simp only [EmbeddingLike.apply_eq_iff_eq]
      split_ifs
      · exact .some same
      · exact alike.names other flags view key
    · simp only [here, false_and, if_false]
      exact alike.names other flags' view' key

theorem extend {parent : ScopeId} {flags : List Bool} (view : views[parent]? = some flags)
    {renamed : Bool} {names names' : Names Value}
    (spelled : names.Spelled recast views renamed names') :
    (scopes.extend (some parent) names).Alike recast (views ++ [renamed :: flags])
      (scopes'.extend (some parent) names') where
  size := by rw [size_extend, alike.size, List.length_append, List.length_singleton]
  size_same := by rw [size_extend, size_extend, alike.size_same]
  parents id := by rw [parent_extend, parent_extend, alike.size_same, alike.parents]
  inner id around found := by
    have grows : views <+: views ++ [renamed :: flags] := List.prefix_append _ _
    rw [parent_extend] at found
    split_ifs at found with last
    · rw [Option.filter_eq_some_iff] at found
      cases found.1
      refine ⟨renamed, flags, ?_, Views.kept grows view⟩
      rw [last, alike.size, List.getElem?_concat_length]
    · obtain ⟨here, outer, first, second⟩ := alike.inner id around found
      exact ⟨here, outer, Views.kept grows first, Views.kept grows second⟩
  outermost id flags' found view' := by
    rw [parent_extend] at found
    split_ifs at found with last
    · rw [Option.filter_some, if_pos (decide_eq_true (alike.inside view))] at found
      cases found
    · exact alike.outermost id flags' found (Views.before view' (alike.size ▸ last))
  names id flags' view' name := by
    have grows : views <+: views ++ [renamed :: flags] := List.prefix_append _ _
    rw [local_extend, local_extend, alike.size_same]
    split_ifs with last
    · rw [last, alike.size, List.getElem?_concat_length] at view'
      cases view'
      exact option_rel_imp (spelled name) fun _ _ same => same.later grows
    · have before := Views.before view' (alike.size ▸ last)
      exact option_rel_imp (alike.names id flags' before name) fun _ _ same => same.later grows

end Scopes.Alike

/-- Machines of two runs in a scope with a given view. -/
structure Machine.Alike (recast : Recast) (views : Views) (flags : List Bool)
    (machine machine' : Machine) : Prop where
  scopes : machine.scopes.Alike recast views machine'.scopes
  globals : machine'.globals = machine.globals
  current : machine'.current = machine.current
  top : views[machine.globals]? = some []
  here : views[machine.current]? = some flags
  depth : machine'.depth = machine.depth
  identities : machine'.identities = machine.identities
  sink : machine'.sink = machine.sink
  time : machine'.time = machine.time
  objects : machine'.fields.size = machine.fields.size
  fields : ∀ (identity : Nat) name, Option.Rel (Value.Alike recast views)
    (machine.fields[identity]?.bind (·.find? name)) (machine'.fields[identity]?.bind (·.find? name))
  distances : ∀ id, machine'.distances[recast.number id]? = machine.distances[id]?
  /-- The renaming goes by the distances that the run looks up. -/
  reach : recast.old = recast.new ∨ ∀ id, machine.distances[id]? = recast.reach id

/-- Reasons to stop that name the same, or a name and the one that stands for it. -/
inductive Halt.Alike (recast : Recast) : Halt → Halt → Prop where
  | same (halt : Halt) : Alike recast halt halt
  | unbound (line : Nat) : Alike recast (.failed (.fault line (.unboundLocal recast.old)))
      (.failed (.fault line (.unboundLocal recast.new)))

inductive Ends (recast : Recast) (views : Views) (flags : List Bool) {α : Type}
    (alike : Views → α → α → Prop) :
    EStateM.Result Halt Machine α → EStateM.Result Halt Machine α → Prop where
  | ok {value value' : α} {after after' : Machine} (result : alike views value value')
      (machines : after.Alike recast views flags after') :
      Ends recast views flags alike (.ok value after) (.ok value' after')
  | error {halt halt' : Halt} {after after' : Machine} (reason : halt.Alike recast halt')
      (machines : after.Alike recast views flags after') :
      Ends recast views flags alike (.error halt after) (.error halt' after')

/-- From machines that are alike, at any later time, both runs end alike. -/
def Run.Alike (recast : Recast) (views : Views) (flags : List Bool) {α : Type}
    (alike : Views → α → α → Prop) (action action' : Run α) : Prop :=
  ∀ later, views <+: later → ∀ machine machine' : Machine,
    machine.Alike recast later flags machine' →
      ∃ last, later <+: last ∧ Ends recast last flags alike (action machine) (action' machine')

end Lox
