import Lox.Proofs.Annals.Receivers
import Lox.Proofs.Names.Binders

/-!
How calls begin. Whoever calls a closure, be it a call expression, the construction of an instance
or the access to a getter, the body finds each parameter with its argument in a scope of its own,
and nothing else there. The scope lies in that of the closure, which for a method holds the receiver
alone.
-/

namespace Lox

namespace Names

variable {α : Type} {entries : List (String × α)} {name : String} {value : α}

theorem set_absent (absent : name ∉ entries.map Prod.fst) :
    setEntry name value entries = entries ++ [(name, value)] := by
  induction entries with
  | nil => rfl
  | cons entry rest induction =>
      obtain ⟨other, old⟩ := entry
      rw [List.map_cons, List.mem_cons, not_or] at absent
      rw [setEntry, if_neg (Ne.symm absent.1), induction absent.2, List.cons_append]

/-- Entries under different names are kept as they are. -/
theorem of_list_distinct (distinct : (entries.map Prod.fst).Nodup) :
    Names.ofList entries = ⟨entries⟩ := by
  have further (before : List (String × α)) (all : ((before ++ entries).map Prod.fst).Nodup) :
      entries.foldl (fun names entry => names.set entry.1 entry.2) (⟨before⟩ : Names α) =
        ⟨before ++ entries⟩ := by
    clear distinct
    induction entries generalizing before with
    | nil => simp
    | cons entry rest induction =>
        have fresh : entry.1 ∉ before.map Prod.fst := by
          rw [List.map_append, List.map_cons, List.nodup_append] at all
          intro member
          exact all.2.2 _ member _ List.mem_cons_self rfl
        have joined : (before ++ [entry]) ++ rest = before ++ entry :: rest := by simp
        rw [List.foldl_cons, Names.set, set_absent fresh, induction _ (joined ▸ all), joined]
  exact further [] distinct

theorem find_distinct (distinct : (entries.map Prod.fst).Nodup) (member : (name, value) ∈ entries) :
    (Names.ofList entries).find? name = some value := by
  have present : (Names.ofList entries).contains name = true :=
    (contains_of_list entries name).mpr (List.mem_map_of_mem member)
  obtain ⟨held, found⟩ := Option.isSome_iff_exists.mp present
  cases List.inj_on_of_nodup_map distinct (mem_of_find found) member rfl
  exact found

end Names

/-- What comes of a call that is made on this machine, once its body has ended. -/
def Closure.closes (closure : Closure) (machine : Machine) : Ending Completion → Ending Value
  | .ok completion after => Run.result closure completion { after with current := machine.current }
  | .error halt after => .error halt { after with current := machine.current }

/-- How a call begins that is given these arguments on this machine. -/
structure Closure.Enters (closure : Closure) (arguments : List Value) (machine : Machine) :
    Prop where
  /-- There is an argument for each parameter, and none is left. -/
  enough : arguments.length = (closure.routine.parameters.getD []).length
  /-- The scope of the body is none of those before, which stay as they are. -/
  fresh : machine.scopes.names? machine.scopes.size = none
  others : ∀ id, id < machine.scopes.size →
    (machine.entered closure arguments).scopes.names? id = machine.scopes.names? id ∧
      (machine.entered closure arguments).scopes.parent? id = machine.scopes.parent? id
  /-- It lies in the scope of the closure. -/
  around : (machine.entered closure arguments).scopes.parent? machine.scopes.size =
    some closure.scope
  /-- It holds the parameters with their arguments, and nothing else. -/
  names : (machine.entered closure arguments).scopes.names? machine.scopes.size =
    some ⟨((closure.routine.parameters.getD []).map Token.lexeme).zip arguments⟩
  bound : ∀ (index : Nat) (parameter : Token) (argument : Value),
    (closure.routine.parameters.getD [])[index]? = some parameter →
    arguments[index]? = some argument →
    (machine.entered closure arguments).scopes.local? machine.scopes.size parameter.lexeme =
      some argument
  /-- This is where the body runs. -/
  body : ∀ supply, call (supply + 1) closure arguments machine = closure.closes machine
    ((Parts.supplied supply).inOrder closure.routine.body (machine.entered closure arguments))

theorem call_body (supply : Nat) (closure : Closure) (arguments : List Value) (machine : Machine) :
    call (supply + 1) closure arguments machine = closure.closes machine
      ((Parts.supplied supply).inOrder closure.routine.body
        (machine.entered closure arguments)) := by
  have completed := Setting.Relation.in_order_related (Planning.parts_completed supply)
    closure.routine.body (machine.entered closure arguments)
  rw [call_ending, completed]
  cases (Parts.supplied supply).inOrder closure.routine.body _ <;> rfl

/-- The parameters of a routine in an accepted line have different names. -/
theorem parameters_distinct {record : Record} (vetted : Vetted record.table record.lines)
    {scopes : Scopes Value} {closure : Closure} (fits : record.ClosureFits scopes closure) :
    ((closure.routine.parameters.getD []).map Token.lexeme).Nodup := by
  obtain ⟨site, frames, framed, isRoutine, -⟩ := fits
  have distinct := Site.binders_distinct (vetted.charted.clean framed.isKnown)
  rw [isRoutine, Node.binders, List.map_append] at distinct
  exact distinct.of_append_left

/-- A call enters its body well if its closure fits and is given enough arguments. -/
theorem closure_enters {record : Record} (vetted : Vetted record.table record.lines)
    {machine : Machine} {closure : Closure} {arguments : List Value}
    (fits : record.ClosureFits machine.scopes closure)
    (enough : arguments.length = closure.routine.arity) :
    closure.Enters arguments machine := by
  have distinct := parameters_distinct vetted fits
  obtain ⟨site, frames, -, -, lies, -⟩ := fits
  rw [closure.routine.arity_eq] at enough
  have keys : ((((closure.routine.parameters.getD []).map Token.lexeme).zip arguments).map
      Prod.fst) = (closure.routine.parameters.getD []).map Token.lexeme := by
    apply List.map_fst_zip
    rw [List.length_map, enough]
  rw [← keys] at distinct
  refine ⟨enough, Scopes.names_beyond _ (Nat.le_refl _), fun id inside => ⟨?_, ?_⟩,
    Record.parent_opened (Record.lies_inside lies) _, ?_, ?_,
    fun supply => call_body supply closure arguments machine⟩
  · exact (Scopes.names_extend ..).trans (if_neg (Nat.ne_of_lt inside))
  · exact (Scopes.parent_extend ..).trans (if_neg (Nat.ne_of_lt inside))
  · refine (Scopes.names_extend ..).trans ((if_pos rfl).trans ?_)
    exact congrArg some (Names.of_list_distinct distinct)
  · intro index parameter argument isParameter isArgument
    refine (Scopes.local_extend ..).trans ((if_pos rfl).trans ?_)
    refine Names.find_distinct distinct (List.mem_of_getElem? (i := index) ?_)
    rw [List.getElem?_zip_eq_some, List.getElem?_map, isParameter]
    exact ⟨rfl, isArgument⟩

namespace Session

variable {past : List (Line × Machine)} {events : List Event} {closure : Closure}
  {arguments : List Value} {machine : Machine}

/-- Whoever begins a call has bound its closure before, and not after. -/
theorem bound_holds (tells : Tells past events)
    (begins : .begins (.call closure arguments) machine ∈ events)
    (inside : closure.scope < machine.scopes.size) {before after : Machine} {method : Closure}
    {receiver : Value} (happens : .step before after ∈ events)
    (binds : Run.bindReceiver method receiver before = .ok closure after) :
    machine.scopes.HoldsOnly closure.scope receiverName receiver := by
  obtain ⟨first, last, course⟩ := tells_course tells
  obtain ⟨rfl, rfl⟩ := Run.bind_receiver_ok binds
  have held := before.holds_only_new method.scope receiverName receiver
  obtain ⟨earlier, later, rfl⟩ := List.append_of_mem happens
  rcases List.mem_append.mp begins with isEarlier | isLater
  · obtain ⟨start, between, rfl⟩ := List.append_of_mem isEarlier
    rw [List.append_assoc, List.cons_append] at course
    have leads : machine.Later before :=
      course.leads_on (List.mem_append_right between List.mem_cons_self)
    exact absurd inside (Nat.not_lt_of_le leads.scopes.size)
  · rcases List.mem_cons.mp isLater with same | isLater
    · cases same
    · exact (course.holds_on receiver_taken held _ isLater).1

/-- The scope of a method holds the receiver alone. -/
theorem method_holds (tells : Tells past events)
    (begins : .begins (.call closure arguments) machine ∈ events) {record : Record} {home : Home}
    {rest : List Frame} (lies : record.Lies machine.scopes (.receiver home :: rest) closure.scope) :
    ∃ receiver, receiver.Receives home.ofClass ∧
      machine.scopes.HoldsOnly closure.scope receiverName receiver := by
  obtain ⟨⟨-, receiver, found, receives⟩, -⟩ := lies
  have secluded := (tells_regular tells begins).before.secluded
  exact ⟨receiver, receives, secluded _ _ _ receiver_taken found⟩

end Session

/-- Whichever way a call comes about in a session, there is an argument for each parameter of its
routine, and its body runs in a new scope that holds the parameters with their arguments, and
nothing else. This scope lies in the scope of the closure. If the closure has been bound, this is a
scope that holds the receiver alone, and so it is for every method, as it stands in the source. -/
theorem calls_begin_with_their_parameters {past : List (Line × Machine)} {events : List Event}
    (tells : Session.Tells past events) {closure : Closure} {arguments : List Value}
    {machine : Machine} (begins : .begins (.call closure arguments) machine ∈ events) :
    closure.Enters arguments machine ∧
    (∀ before after method receiver, .step before after ∈ events →
      Run.bindReceiver method receiver before = .ok closure after →
        machine.scopes.HoldsOnly closure.scope receiverName receiver) ∧
    ∃ site frames, Framed (past.map Prod.fst) site frames ∧
      site.node = .routine closure.routine ∧
      ∀ home rest, frames = .receiver home :: rest →
        ∃ receiver, receiver.Receives home.ofClass ∧
          machine.scopes.HoldsOnly closure.scope receiverName receiver := by
  have regular := Session.tells_regular tells begins
  obtain ⟨record, covers, -, placed, -⟩ := Session.tells_placed tells begins
  have fits : record.ClosureFits machine.scopes closure := placed.1
  have enters := closure_enters covers.vetted fits regular.complete
  obtain ⟨site, frames, framed, isRoutine, lies, -⟩ := fits
  let wider : Record := ⟨past.map Prod.fst, record.table, record.begun⟩
  have lines : record.lines ⊆ wider.lines := covers.lines
  refine ⟨enters, fun before after method receiver happens binds =>
    Session.bound_holds tells begins (Record.lies_inside lies) happens binds,
    site, frames, Record.framed_wider lines framed, isRoutine, ?_⟩
  rintro home rest rfl
  exact Session.method_holds tells begins lies

/-- An instance is made, and the initializer is that of the class above. -/
theorem call_begins_with_parameters_in_inherited_initializer :
    ∃ past events closure argument machine,
      Session.Tells past events ∧ .begins (.call closure [argument]) machine ∈ events ∧
      closure.yieldsReceiver = true ∧ closure.Enters [argument] machine := by
  let identifier (text : String) : Token := ⟨.identifier, text, 1⟩
  let method : Routine := ⟨some (identifier "init"), some [identifier "a"], []⟩
  let declaring : Line := .statements [
    .classDeclaration (identifier "A") none [method] [],
    .classDeclaration (identifier "B") (some ⟨0, identifier "A"⟩) [] []]
  let making : Statement := .expression
    (.call (.reference ⟨1, identifier "B"⟩) ⟨.rightParen, ")", 1⟩ [.literal .nil])
  let upper : Class := ⟨0, "A", Run.methodTable [method] 0 true, Run.methodTable [] 0 false, none⟩
  let lower : Class := ⟨1, "B", Run.methodTable [] 1 true, Run.methodTable [] 1 false, some upper⟩
  let start : Machine := Machine.start ⟨.unlimited, []⟩ 0
  let declared : Machine := { start with
    scopes := ((start.scopes.define 0 "A" (.classValue upper)).extend (some 0)
      (.ofList [("super", .classValue upper)])).define 0 "B" (.classValue lower)
    identities := 2 }
  let instanced : Machine := { declared.holding 0 "self" (.object 0 lower) with
    fields := #[.empty]
    depth := 1 }
  let closure : Closure := ⟨method, 2, true⟩
  have receivedFirst : (Session.start ⟨.unlimited, []⟩ 0).receive
      (.program "class A \x7b init(a) \x7b\x7d \x7d class B < A \x7b\x7d") =
        (.ok declaring, ⟨start, 1⟩) := by rfl
  have enteredFirst : (Session.start ⟨.unlimited, []⟩ 0).enter 2
      (.program "class A \x7b init(a) \x7b\x7d \x7d class B < A \x7b\x7d") =
        some ⟨declared, 1⟩ := by
    rw [Session.enter_eq, receivedFirst]
    rfl
  have receivedLast : (Session.mk declared 1).receive (.program "B(nil);") =
      (.ok (.statements [making]), ⟨declared, 2⟩) := by rfl
  have tells : Session.Tells _ ([] ++ declaring.annals 2 start ++
      Line.annals 3 (.statements [making]) declared) :=
    .running (.accepted (.start ⟨.unlimited, []⟩ 0) receivedFirst enteredFirst) receivedLast 3
  have ninth : (Line.annals 3 (.statements [making]) declared)[9]? =
      some (.begins (.call closure [.nil]) instanced) := by
    rw [Line.annals_statement]
    rfl
  have begins := List.mem_append_right ([] ++ declaring.annals 2 start) (List.mem_of_getElem? ninth)
  exact ⟨_, _, closure, .nil, instanced, tells, begins, rfl,
    (calls_begin_with_their_parameters tells begins).1⟩
end Lox
