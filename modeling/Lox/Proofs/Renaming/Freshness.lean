import Lox.Proofs.Execution.Lasting
import Lox.Proofs.Renaming.Rejections

/-!
Numbers are never given twice. A session is like itself when the numbers that it has not given
yet are moved on; so no function that it holds has one of these numbers, nor has the table of
distances. What is read next is numbered beyond all of them, and what has been recorded for
earlier numbers stays as it is.
-/

namespace Lox

/-- The methods of a class, those for its instances and those of its own, and all that it
inherits, hidden by others of the same name or not. -/
inductive Class.Owns : Class → Closure → Prop where
  | method {cls : Class} {name : String} {closure : Closure}
      (found : cls.methods.find? name = some closure) : Owns cls closure
  | classMethod {cls : Class} {name : String} {closure : Closure}
      (found : cls.classMethods.find? name = some closure) : Owns cls closure
  | inherited {cls superclass : Class} {closure : Closure}
      (above : cls.superclass = some superclass)
      (owned : Owns superclass closure) : Owns cls closure

/-- The functions in a value. -/
def Value.Owns (closure : Closure) : Value → Prop
  | .function _ itself => itself = closure
  | .classValue cls | .object _ cls => cls.Owns closure
  | _ => False

/-- A function that some scope of the machine holds or some field of an instance, whether
anything leads there from the top level or not. -/
def Machine.Owns (machine : Machine) (closure : Closure) : Prop :=
  ∃ value : Value, value.Owns closure ∧
    ((∃ id name, machine.scopes.local? id name = some value) ∨
      ∃ (identity : Nat) (name : String),
        (machine.fields[identity]?.bind (·.find? name)) = some value)

/-- The numbers of the occurrences in a function. -/
def Closure.ids (closure : Closure) : List Nat :=
  (Node.routine closure.routine).occurrences.map Occurrence.id

section Alike

variable {recast : Recast} {views : Views} {flags : List Bool}

/-- The second occurrence has the number that stands for that of the first. -/
abbrev Recast.Numbers (recast : Recast) (place place' : Occurrence) : Prop :=
  place'.id = recast.number place.id

theorem Node.occurrences_related {related : Occurrence → Occurrence → Prop} {node node' : Node}
    (parts : List.Forall₂ (fun part part' : Node =>
      List.Forall₂ related part.occurrences part'.occurrences) node.parts node'.parts)
    (own : Option.Rel related node.place? node'.place?) :
    List.Forall₂ related node.occurrences node'.occurrences := by
  rw [occurrences_eq, occurrences_eq node']
  apply List.rel_append
  · exact List.rel_flatMap parts fun _ _ inside => inside
  · generalize node.place? = place, node'.place? = place' at own
    cases own with
    | none => exact .nil
    | some here => exact .cons here .nil

/-- Nodes that are alike have their occurrences in the same places. -/
theorem Node.Alike.occurrences {node node' : Node} (alike : node.Alike recast flags node') :
    List.Forall₂ recast.Numbers node.occurrences node'.occurrences := by
  have referenced {flags : List Bool} {place place' : Occurrence}
      (occurs : recast.Occurs flags place place') :
      List.Forall₂ recast.Numbers (Node.expression (.reference place)).occurrences
        (Node.expression (.reference place')).occurrences :=
    occurrences_related .nil (.some occurs.id)
  induction alike with
  | literal | noExpressions | noStatements | noRoutines | uninitialized _ | exit _ =>
      exact occurrences_related .nil .none
  | reference occurs => exact referenced occurs
  | receiver occurs | inherited occurs => exact occurrences_related .nil (.some occurs.id)
  | assign occurs _ inside => exact occurrences_related (.cons inside .nil) (.some occurs.id)
  | grouping _ inside | unary _ _ inside | get _ inside | lambda _ inside | evaluation _ inside
  | print _ inside | initialized _ _ inside | block _ _ inside | routineDeclaration _ _ _ inside
  | exitWith _ _ inside | routine _ _ _ inside =>
      exact occurrences_related (.cons inside .nil) .none
  | binary _ _ _ first second | logical _ _ _ first second | call _ _ _ first second
  | set _ _ first second | expressions _ _ first second | conditional _ _ first second
  | loop _ _ first second | base _ _ _ first second | statements _ _ first second
  | routines _ _ first second =>
      exact occurrences_related (.cons first (.cons second .nil)) .none
  | choice _ _ _ first second third | alternative _ _ _ first second third =>
      exact occurrences_related (.cons first (.cons second (.cons third .nil))) .none
  | derived _ occurs _ _ first second =>
      exact occurrences_related (.cons (referenced occurs) (.cons first (.cons second .nil))) .none

/-- The numbers in a function stay if it is like itself. -/
def Closure.Fixed (recast : Recast) (closure : Closure) : Prop :=
  ∀ id ∈ closure.ids, recast.number id = id

theorem Closure.Alike.fixed {own : List Bool} {closure : Closure}
    (alike : closure.Alike recast views own closure) : closure.Fixed recast := by
  obtain ⟨flags, -, inside⟩ := alike.routine
  intro id isId
  obtain ⟨place, member, rfl⟩ := List.mem_map.mp isId
  exact (List.forall₂_same.mp inside.occurrences place member).symm

theorem Names.MethodsAlike.fixed {methods : Names Closure}
    (alike : methods.MethodsAlike recast views methods) {name : String} {closure : Closure}
    (found : methods.find? name = some closure) : closure.Fixed recast := by
  have both := alike name
  rw [found] at both
  cases both with
  | some inside => exact inside.fixed

theorem Class.Owns.fixed {cls : Class} {closure : Closure} (owned : cls.Owns closure)
    (alike : cls.Alike recast views cls) : closure.Fixed recast := by
  induction owned with
  | method found => cases alike <;> exact Names.MethodsAlike.fixed ‹_› found
  | classMethod found => cases alike <;> exact Names.MethodsAlike.fixed ‹_› found
  | inherited above owned induction =>
      cases alike with
      | base first second => cases above
      | derived first second inside =>
          cases above
          exact induction inside

theorem Value.Owns.fixed {value : Value} {closure : Closure} (owned : value.Owns closure)
    (alike : value.Alike recast views value) : closure.Fixed recast := by
  cases alike with
  | function identity inside =>
      cases owned
      exact inside.fixed
  | classValue inside | object identity inside => exact Class.Owns.fixed owned inside
  | nil | boolean | number | string | native => exact owned.elim

/-- If a machine is like itself, the numbers in its functions stay. -/
theorem Machine.Alike.owned_fixed {machine : Machine} (same : recast.old = recast.new)
    (alike : machine.Alike recast views flags machine) {closure : Closure}
    (owned : machine.Owns closure) : closure.Fixed recast := by
  obtain ⟨value, owned, ⟨id, name, held⟩ | ⟨identity, name, held⟩⟩ := owned
  · have known : id < views.length := by
      rw [← alike.scopes.size]
      by_contra beyond
      rw [Scopes.local_beyond _ (Nat.not_lt.mp beyond)] at held
      cases held
    have both := alike.scopes.names id _ (List.getElem?_eq_getElem known) name
    rw [Recast.spelling_of_same same, held] at both
    cases both with
    | some inside => exact owned.fixed inside
  · have both := alike.fields identity name
    rw [held] at both
    cases both with
    | some inside => exact owned.fixed inside

end Alike

/-- No step of a run touches the table. -/
theorem distances_lasting (table : Std.TreeMap Nat Nat) :
    Lasting fun machine => machine.distances = table where
  act primitive machine before := (Run.primitive_restores primitive machine).distances.trans before
  moved _ _ _ before := before

namespace Session

/-- What a session that comes about owns has only numbers that it has given. -/
theorem owned_given {sink : Sink} {time : Nat} {entries : List (Nat × Entry)}
    {replies : List Reply} {session : Session}
    (played : play entries (.start sink time) = some (replies, session)) {closure : Closure}
    (owned : session.machine.Owns closure) : ∀ id ∈ closure.ids, id < session.nextId := by
  let recast := Recast.moving session.nextId 1
  have start : (Session.start sink time).Alike recast 0 (.start sink time) :=
    ⟨rfl, [[]], Machine.start_alike recast sink time (fun _ => Std.TreeMap.getElem?_emptyc)
      (.inl rfl)⟩
  have itself := itself_alike rfl Recast.moving_injective start played
    fun id given => Recast.moving_before given
  obtain ⟨views, machines⟩ := itself.machines
  intro id isId
  have fixed := machines.owned_fixed rfl owned id isId
  by_contra beyond
  rw [Recast.moving_beyond (Nat.not_lt.mp beyond)] at fixed
  omega

/-- An entry keeps what is recorded for the numbers given before it. -/
theorem answer_keeps {lines : List Line} {session next : Session} (history : History lines session)
    {supply : Nat} {entry : Entry} {reply : Reply}
    (answered : session.answer supply entry = some (reply, next)) {id : Nat}
    (given : id < session.nextId) :
    next.machine.distances[id]? = session.machine.distances[id]? := by
  have kept := receive_keeps (history_surveyed history) entry id given
  have entered := enter_of_answer answered
  rw [enter_eq] at entered
  rcases received : session.receive entry with ⟨diagnostics | line, read⟩
  · rw [received] at entered kept
    cases entered
    exact kept
  · rw [received] at entered kept
    cases leave_closes entered
    change (Ending.machine (line.run supply read.machine)).distances[id]? = _
    rw [(Run.line_restores supply line read.machine).distances]
    exact kept

/-- Whatever is played keeps what is recorded for the numbers given before it. -/
theorem play_keeps {lines : List Line} {entries : List (Nat × Entry)} {session later : Session}
    (history : History lines session) {replies : List Reply}
    (played : play entries session = some (replies, later)) {id : Nat}
    (given : id < session.nextId) :
    later.machine.distances[id]? = session.machine.distances[id]? := by
  induction entries generalizing lines session replies with
  | nil =>
      cases played
      rfl
  | cons first rest induction =>
      obtain ⟨supply, entry⟩ := first
      obtain ⟨reply, next, others, answered, further, -⟩ := play_cons played
      obtain ⟨more, after⟩ := answer_history history answered
      have ordered := session.receive_ordered entry
      rw [← answer_next_id answered] at ordered
      rw [induction after further (Nat.lt_of_lt_of_le given ordered)]
      exact answer_keeps history answered given

end Session

/-- After each step of a session, however it ended, all numbers in the table and in the functions
that the machine owns have been given before; what is read next, to be analysed or not, gets later
numbers only. A run records nothing, and so whatever comes later, the numbers given so far keep
what is recorded for them, also while later lines run: their functions go on to find the same. -/
theorem numbers_given_once (sink : Sink) (time : Nat) {entries : List (Nat × Entry)}
    {replies : List Reply} {session : Session}
    (played : Session.play entries (.start sink time) = some (replies, session)) :
    (∀ id distance, session.machine.distances[id]? = some distance → id < session.nextId) ∧
    (∀ closure, session.machine.Owns closure → ∀ id ∈ closure.ids, id < session.nextId) ∧
    (∀ (entry : Entry) (line : Line),
      (entry.parse (tokensOf (scan entry.source)) session.nextId).outcome = .ok line →
        ∀ place ∈ line.node.occurrences,
          session.nextId ≤ place.id ∧ place.id < (session.receive entry).2.nextId) ∧
    (∀ (line : Line) (machine : Machine) (moment : Moment) (rest : List Moment),
      Underway (Parts.asked.line line machine) (moment :: rest) →
        moment.machine.distances = machine.distances) ∧
    (∀ (after : List (Nat × Entry)) (others : List Reply) (later : Session),
      Session.play after session = some (others, later) → ∀ id < session.nextId,
        later.machine.distances[id]? = session.machine.distances[id]? ∧
        ∀ entry : Entry,
          (later.receive entry).2.machine.distances[id]? = session.machine.distances[id]? ∧
          ∀ line next, later.receive entry = (.ok line, next) → ∀ moment rest,
            Underway (Parts.asked.line line next.machine) (moment :: rest) →
              moment.machine.distances[id]? = session.machine.distances[id]?) := by
  obtain ⟨lines, history⟩ := Session.play_history (.start sink time) played
  have surveyed := Session.history_surveyed history
  have unchanged {line : Line} {machine : Machine} {moment : Moment} {rest : List Moment}
      (underway : Underway (Parts.asked.line line machine) (moment :: rest)) :
      moment.machine.distances = machine.distances :=
    (distances_lasting machine.distances).underway rfl underway
  refine ⟨?_, fun closure => Session.owned_given played, ?_, fun _ _ _ _ => unchanged, ?_⟩
  · intro id distance recorded
    by_contra beyond
    rw [surveyed.unbound id (Nat.not_lt.mp beyond)] at recorded
    cases recorded
  · intro entry line accepted place occurs
    rw [Session.receive_next_id]
    apply (entry.readable.numbered _ _ line accepted).between place
    rwa [List.flatMap_singleton]
  · intro after others later further id given
    have kept := Session.play_keeps history further given
    obtain ⟨more, laterHistory⟩ := Session.play_history history further
    have stillGiven := Nat.lt_of_lt_of_le given (Session.play_ordered further)
    have readKept (entry : Entry) :
        (later.receive entry).2.machine.distances[id]? = session.machine.distances[id]? :=
      (Session.receive_keeps (Session.history_surveyed laterHistory) entry id stillGiven).trans kept
    refine ⟨kept, fun entry => ⟨readKept entry, ?_⟩⟩
    intro line next received moment rest underway
    have read := readKept entry
    rw [received] at read
    rw [unchanged underway]
    exact read

/-- A function of one line, and a later program that is rejected but has recorded a distance. -/
theorem numbers_given_once_after_rejection :
    ∃ replies session others later closure,
      Session.play [(5, .line "fun f(a) { return a; }")] (.start ⟨.unlimited, []⟩ 0) =
        some (replies, session) ∧
      Session.play [(5, .program "{ var b; b; } return c;")] session = some (others, later) ∧
      session.machine.Owns closure ∧ closure.ids = [0] ∧ later.machine.distances[1]? = some 0 ∧
      (∀ id ∈ closure.ids, id < session.nextId) ∧
      later.machine.distances[0]? = session.machine.distances[0]? := by
  let place : Occurrence := ⟨0, ⟨.identifier, "a", 1⟩⟩
  let closure : Closure := ⟨⟨some ⟨.identifier, "f", 1⟩, some [⟨.identifier, "a", 1⟩],
    [.exit ⟨.returnWord, "return", 1⟩ (some (.reference place))]⟩, 0, false⟩
  let machine : Machine := { Machine.start ⟨.unlimited, []⟩ 0 with
    scopes := (Machine.start ⟨.unlimited, []⟩ 0).scopes.define 0 "f" (.function 0 closure)
    identities := 1
    distances := (∅ : Std.TreeMap Nat Nat).insert 0 0 }
  have played : Session.play [(5, .line "fun f(a) { return a; }")] (.start ⟨.unlimited, []⟩ 0) =
      some ([.line ⟨none, "", []⟩], ⟨machine, 1⟩) := by rfl
  have further : Session.play [(5, .program "{ var b; b; } return c;")] ⟨machine, 1⟩ =
      some ([.report ⟨.staticError, "", [.binding ⟨.returnWord, "return", 1⟩ .topLevelReturn]⟩],
        ⟨machine.bond 1 0, 3⟩) := by rfl
  have owned : machine.Owns closure := ⟨.function 0 closure, rfl, .inl ⟨0, "f", rfl⟩⟩
  have given := numbers_given_once ⟨.unlimited, []⟩ 0 played
  refine ⟨_, _, _, _, closure, played, further, owned, ?_, rfl, given.2.1 closure owned, ?_⟩
  · simp [closure, place, Closure.ids, Node.occurrences_eq, Node.parts, Node.place?]
  · exact (given.2.2.2.2 _ _ _ further 0 (by decide)).1

end Lox
