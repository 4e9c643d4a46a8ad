import Lox.Proofs.Execution.Restoration
import Lox.Proofs.Joining.Courses
import Lox.Proofs.Renaming.Hygiene

/-!
What a session has heard. All code that the machine of a session still holds comes from
trees that were accepted before: its tokens stand at their lines, and its occurrences have
numbers that were given. A machine is therefore abreast of itself with a leeway that
allows for no other lines and knows of no other numbers.
-/

namespace Lox

theorem Statement.relabel_all_same (orders : List Statement) :
    Statement.relabelAll .same orders = orders :=
  Node.statements.inj (Node.statements orders).relabel_same

/-- A token of the program stands at this line. -/
def Line.Occupies (line : Line) (number : Nat) : Prop :=
  ∃ inner, line.node.Contains inner ∧ ∃ token ∈ inner.ownTokens, token.line = number

/-- A token of one of the programs stands at this line. -/
def Occupied (lines : List Line) (number : Nat) : Prop := ∃ line ∈ lines, line.Occupies number

/-- Nothing differs, and everything is from these programs or below this number. -/
def Leeway.still (lines : List Line) (bound : Nat) : Leeway where
  line number number' := number' = number ∧ Occupied lines number
  known id := id < bound
  earlier := []

theorem Leeway.still_within {lines more : List Line} {bound further : Nat}
    (kept : ∀ line ∈ lines, line ∈ more) (higher : bound ≤ further) :
    (Leeway.still lines bound).Within (.still more further) where
  line := by
    rintro number _ ⟨rfl, line, member, occupies⟩
    exact ⟨rfl, line, kept line member, occupies⟩
  known _ below := Nat.lt_of_lt_of_le below higher

/-- A program that was accepted is its own twin. -/
theorem Line.twins {lines : List Line} {line : Line} (member : line ∈ lines) {first next : Nat}
    (numbered : Numbered first next [line.node]) :
    line.node.Twins (.still lines next) .same .same where
  tokens inner contained token isOwn :=
    ⟨rfl, rfl, rfl, line, member, inner, contained, token, isOwn, rfl⟩
  places place occurs := ⟨rfl, (numbered.between place (by simpa using occurs)).2⟩

theorem Line.run_abreast {leeway : Leeway} {line : Line}
    (twins : line.node.Twins leeway .same .same) (supply : Nat) :
    Run.Abreast leeway (Option.Rel (Value.Abreast leeway)) (line.run supply) (line.run supply) := by
  have parts := supplied_abreast leeway supply
  cases line with
  | statements orders =>
      have runs := parts.program twins
      rw [Statement.relabel_all_same] at runs
      exact runs.bind fun _ _ _ => .pure .none
  | expression value =>
      have same : value.relabel .same = value :=
        Node.expression.inj (Node.expression value).relabel_same
      have runs := parts.evaluate twins
      rw [same] at runs
      exact runs.bind fun _ _ both => .pure (.some both)

theorem Names.start_abreast {leeway : Leeway} (natives : List Native) :
    (Names.ofList (natives.map fun provided =>
      (provided.name, Value.native provided))).Abreast (Value.Abreast leeway)
        (.ofList (natives.map fun provided => (provided.name, .native provided))) := by
  refine .of_list (List.forall₂_same.mpr fun entry member => ?_)
  obtain ⟨provided, -, rfl⟩ := List.mem_map.mp member
  exact ⟨rfl, .native provided⟩

namespace Machine.Abreast

variable {leeway wider : Leeway} {machine machine' : Machine}

theorem start (lines : List Line) (bound : Nat) (sink : Sink) (time : Nat) :
    (Machine.start sink time).Abreast (.still lines bound) (.start sink time) where
  scopes := by
    have empty : (Scopes.empty : Scopes Value).Abreast (.still lines bound) .empty :=
      ⟨rfl, fun _ => rfl, fun id name => by
        rw [Scopes.local_beyond _ (Nat.zero_le id)]
        exact .none⟩
    exact empty.extend none (Names.start_abreast _)
  globals := rfl
  current := rfl
  depth := rfl
  identities := rfl
  sink := ⟨rfl, (List.append_nil _).symm⟩
  time := rfl
  objects := rfl
  fields _ _ := .none
  distances _ _ := rfl

/-- With a wider leeway, with other output and with other bonds, as far as they matter. -/
theorem renew (abreast : machine.Abreast leeway machine') (allows : leeway.Within wider)
    {sink sink' : Sink} (sinks : sink.Abreast wider sink') {table table' : Std.TreeMap Nat Nat}
    (tables : ∀ id, wider.known id → table'[id]? = table[id]?) :
    Machine.Abreast wider { machine with sink := sink, distances := table }
      { machine' with sink := sink', distances := table' } :=
  { abreast with
    scopes := abreast.scopes.widen allows
    sink := sinks
    fields := fun identity name =>
      option_abreast_imp (abreast.fields identity name) fun _ _ same => same.widen allows
    distances := tables }

end Machine.Abreast

namespace Session

variable {lines : List Line} {session next last : Session}

theorem received_numbered {entry : Entry} {line : Line}
    (received : session.receive entry = (.ok line, next)) :
    Numbered session.nextId next.nextId [line.node] := by
  rw [receive_eq, prepare_accepts_iff] at received
  obtain ⟨-, outcome, -, rfl⟩ := received
  exact entry.readable.numbered _ _ line outcome

/-- The session holds nothing but what it has heard. -/
def Steady (session : Session) (lines : List Line) : Prop :=
  session.machine.Abreast (.still lines session.nextId) session.machine

theorem Steady.receive (steady : session.Steady lines) (entry : Entry) {more : List Line}
    (kept : ∀ line ∈ lines, line ∈ more) : (session.receive entry).2.Steady more := by
  obtain ⟨table, same⟩ := session.receive_frame entry
  unfold Steady
  rw [same]
  exact steady.renew (Leeway.still_within kept (session.receive_ordered entry))
    ⟨rfl, (List.append_nil _).symm⟩ fun _ _ => rfl

theorem Steady.leave (steady : session.Steady lines) {line : Line}
    (twins : line.node.Twins (.still lines session.nextId) .same .same) {supply : Nat}
    (left : session.leave (line.run supply session.machine) = some last) : last.Steady lines := by
  have closed {after : Machine}
      (abreast : after.Abreast (.still lines session.nextId) after) :
      (session.close after).2.Steady lines :=
    abreast.renew (Leeway.still_within (fun _ => id) (Nat.le_refl _)) ⟨rfl, rfl⟩ fun _ _ => rfl
  have runs := Line.run_abreast twins supply _ _ steady
  generalize line.run supply session.machine = ending at left runs
  cases runs with
  | ok result after =>
      cases left
      exact closed after
  | @error halt _ after _ reason abreast =>
      cases halt with
      | exhausted => cases left
      | failed diagnostic =>
          cases left
          exact closed abreast

/-- However a session comes about, it holds nothing but what it has heard. -/
theorem history_steady (history : History lines session) : session.Steady lines := by
  induction history with
  | start sink time => exact .start [] 0 sink time
  | @rejected lines session next last entry supply diagnostics before received entered steady =>
      have same : session.enter supply entry = some next := by rw [enter_eq, received]
      rw [same] at entered
      cases entered
      have kept := steady.receive entry fun _ => id
      rwa [received] at kept
  | @accepted lines session next last entry supply line before received entered steady =>
      have wider : (session.receive entry).2.Steady (line :: lines) :=
        steady.receive entry fun _ => List.mem_cons_of_mem _
      rw [received] at wider
      rw [enter_eq, received] at entered
      exact wider.leave (Line.twins List.mem_cons_self (received_numbered received)) entered

end Session

end Lox
