import Lox.Proofs.Receivers.Steps

/-!
What `self` and `super` mean where they are used. In an accepted program both stand in a
method, so that the machine finds the receiver that the method was called with; and `super`
stands in a class that has a superclass, so that the machine finds what this was when the
class was declared.
-/

namespace Lox

namespace Record

/-- The method around an expression that is evaluated: it was called with this receiver, which
is the nearest one to be found. -/
structure Enclosed (record : Record) (value : Expression) (machine : Machine) (home : Home)
    (scope : ScopeId) (receiver : Value) : Prop where
  declared : ∃ line ∈ record.lines, line.node.Contains (.statement home.declaration)
  method : ∃ routine ∈ home.routines,
    .expression value ∈ (Node.routine routine).upTo Node.isClass ∧
      record.Called machine.scopes machine.current routine scope
  bound : ReceiverIn machine.scopes machine.current home scope receiver

/-- The machine is where the code of the site runs. -/
structure Here (record : Record) (site : Site) (frames : List Frame) (machine : Machine) :
    Prop where
  furnished : record.Furnished machine
  framed : Framed record.lines site frames
  lies : record.Lies machine.scopes frames machine.current

variable {record : Record} {machine : Machine} {place : Occurrence} {analysis : Analysis}
  {full : List StaticScope} {frames : List Frame}

/-- An expression in a class is in one of its methods, which has been called. -/
theorem enclosed {value : Expression} {home : Home} {openers : List Node} {rest : List Frame}
    (here : record.Here ⟨.expression value, analysis, full⟩ frames machine)
    (innermost : Innermost record.lines home openers rest ⟨.expression value, analysis, full⟩
      frames) :
    ∃ receiver,
      record.Enclosed value machine home
        (machine.scopes.outwards machine.current openers.length) receiver ∧
      ∃ parent, machine.scopes.parent?
          (machine.scopes.outwards machine.current openers.length) = some parent ∧
        record.Lies machine.scopes (home.around ++ rest) parent := by
  have lies := here.lies
  have around := innermost.around
  rw [innermost.frames] at lies
  obtain ⟨receiver, bound, outside⟩ := receiver_reached lies
  cases around with
  | @within routine _ openers written inside =>
      exact ⟨receiver, ⟨innermost.declared, ⟨routine, written, inside, call_reached lies⟩, bound⟩,
        outside⟩

variable (vetted : Vetted record.table record.lines)

include vetted

theorem bond_here {site : Site} (here : record.Here site frames machine)
    (isPlace : site.node.place? = some place) {name : String} (spelled : place.name.lexeme = name) :
    machine.distances[place.id]? = site.analysis.distance? name := by
  rw [here.furnished.table, vetted.charted.settled here.framed.isKnown isPlace, spelled]

/-- Where the receiver is asked for, it is found. -/
theorem receiver_bound
    (here : record.Here ⟨.expression (.receiver place), analysis, full⟩ frames machine) :
    ∃ home scope receiver, record.Enclosed (.receiver place) machine home scope receiver ∧
      Run.lookUp place machine = .ok receiver machine := by
  have isKnown := here.framed.isKnown
  have spelled : place.name.lexeme = receiverName :=
    vetted.spelled isKnown (.selfWord, place.name) List.mem_cons_self
  have clean : (analysis.receiver place).violations = [] := vetted.charted.clean isKnown
  have bond := bond_here vetted here rfl spelled
  rcases framed_innermost here.framed rfl with ⟨-, outside⟩ | ⟨home, openers, rest, innermost⟩
  · rw [Analysis.receiver, if_pos outside] at clean
    cases clean
  · obtain ⟨receiver, enclosed, -⟩ := enclosed here innermost
    refine ⟨home, _, receiver, enclosed, look_up_at
      (bond.trans (innermost.receiver_distance vetted here.framed)) ?_⟩
    rw [spelled]
    exact enclosed.bound.bound

/-- Where the superclass is asked for, it is found, and the receiver just inside of it. -/
theorem inherited_bound {method : Token}
    (here : record.Here ⟨.expression (.inherited place method), analysis, full⟩ frames machine) :
    ∃ home scope receiver parent ancestor,
      record.Enclosed (.inherited place method) machine home scope receiver ∧
      machine.scopes.parent? scope = some parent ∧ record.Inherits home ancestor parent ∧
      machine.scopes.local? parent superclassName = some (.classValue ancestor) ∧
      Run.inheritedMethod place method machine =
        .ok (ancestor.answer? home.ofClass method.lexeme, receiver) machine := by
  have isKnown := here.framed.isKnown
  have spelled : place.name.lexeme = superclassName :=
    vetted.spelled isKnown (.superWord, place.name) List.mem_cons_self
  have clean : (analysis.inherited place).violations = [] := vetted.charted.clean isKnown
  have bond := bond_here vetted here rfl spelled
  unfold Analysis.inherited at clean
  dsimp only at clean
  rw [Analysis.bind_violations] at clean
  rcases framed_innermost here.framed rfl with ⟨-, outside⟩ | ⟨home, openers, rest, innermost⟩
  · rw [outside] at clean
    cases clean
  · have context := innermost.context
    dsimp only at context
    rw [context] at clean
    cases inherits : home.superclass with
    | none =>
        rw [inherits] at clean
        cases clean
    | some named =>
        obtain ⟨receiver, enclosed, parent, around, lies⟩ := enclosed here innermost
        obtain ⟨ancestor, above, declared⟩ := superclass_reached inherits lies
        have reached := Scopes.outwards_next around
        refine ⟨home, _, receiver, parent, ancestor, enclosed, around, declared, above,
          inherited_method_at (bond.trans (innermost.superclass_distance vetted here.framed
            (by rw [inherits]; rfl))) ?_ enclosed.bound.bound enclosed.bound.receives⟩
        rw [reached, spelled]
        exact above

end Record

end Lox
