import Lox.Proofs.Renaming.Places
import Lox.Proofs.Renaming.Sessions
import Lox.Proofs.Tokens.Substitution
import Mathlib.Computability.Primrec.List

/-!
Local names are hygienic. A local variable may get any name that the program does not
have: with its declaration and with all occurrences that are bound to it respelled, the
program is accepted as before, with the same distances, and runs as before.
-/

namespace Lox

/-- The places where the name of a variable stands: its declaration, and the occurrences
that the analysis binds to it. -/
def placesOf (declared : Token) (tree : List Statement) : List Nat :=
  declared.line :: ((Line.statements tree).site.boundTo declared []).map (·.name.line)

/-- The second text is the first one with another name in some places. -/
structure Respelling (places : List Nat) (name source source' : String) : Prop where
  lexical : lexicalErrorsOf (scan source') = []
  tokens : tokensOf (scan source') = respelled places name (tokensOf (scan source))

/-- Reports that agree, except that the name of an unbound variable may be another. -/
structure Report.Agrees (old new : String) (report report' : Report) : Prop where
  outcome : report'.outcome = report.outcome
  output : report'.output = report.output
  diagnostics : report'.diagnostics = report.diagnostics ∨
    ∃ line, report.diagnostics = [.fault line (.unboundLocal old)] ∧
      report'.diagnostics = [.fault line (.unboundLocal new)]

namespace Session

theorem prepare_accepts_iff {α : Type} {session next : Session} {source : String}
    {parse : List Token → Nat → Parsed α} {bindings : α → Bindings} {tree : α} :
    session.prepare source parse bindings = (.ok tree, next) ↔
      lexicalErrorsOf (scan source) = [] ∧
        (parse (tokensOf (scan source)) session.nextId).outcome = .ok tree ∧
        (bindings tree).violations = [] ∧
        next = ⟨session.machine.bondAll (bindings tree).bonds,
          (parse (tokensOf (scan source)) session.nextId).nextId⟩ := by
  have clean : (lexicalDiagnostics (scan source)).isEmpty = true ↔
      lexicalErrorsOf (scan source) = [] := by
    rw [lexicalDiagnostics, List.isEmpty_map, List.isEmpty_iff]
  unfold prepare
  dsimp only
  cases (parse (tokensOf (scan source)) session.nextId).outcome with
  | error complaints => simp
  | ok found =>
      rw [← clean]
      dsimp only
      split_ifs with lexical violations
      · rw [List.isEmpty_iff] at violations
        constructor
        · intro same
          cases same
          exact ⟨lexical, rfl, violations, rfl⟩
        · rintro ⟨-, same, -, rfl⟩
          cases same
          rfl
      · rw [List.isEmpty_iff] at violations
        constructor
        · nofun
        · rintro ⟨-, same, none, -⟩
          cases same
          exact absurd none violations
      · simp [lexical]

end Session

section Located

variable {sink : Sink} {time : Nat} {source : String} {tree statements : List Statement}
  {next : Session} {declared : Token}
  (accepted : (Session.start sink time).prepare source parseProgram Bindings.ofProgram =
    (.ok statements, next))
  (read : (parseProgram (located (tokensOf (scan source))) 0).outcome = .ok tree)

include read

theorem relabeled_read {labels : Labels} (silent : labels.Silent) (first : labels.number 0 = 0) :
    (parseProgram ((located (tokensOf (scan source))).map labels.token) 0).outcome =
        .ok (Statement.relabelAll labels tree) ∧
      (parseProgram ((located (tokensOf (scan source))).map labels.token) 0).nextId =
        labels.number (parseProgram (located (tokensOf (scan source))) 0).nextId := by
  have moved := parse_program_relabel silent (located (tokensOf (scan source))) 0
  rw [first] at moved
  rw [moved, Parsed.relabel, read]
  exact ⟨rfl, rfl⟩

include accepted

theorem statements_restored :
    statements = Statement.relabelAll (.restoring (tokensOf (scan source))) tree := by
  have parsed := (Session.prepare_accepts_iff.mp accepted).2.1
  have restored := (relabeled_read read (restoring_silent (tokensOf (scan source))) rfl).1
  rw [restored_located] at restored
  exact Except.ok.inj (parsed.symm.trans restored)

theorem site_restored : (Line.statements statements).site =
    (Line.statements tree).site.relabel (.restoring (tokensOf (scan source))) := by
  rw [statements_restored accepted read]
  rfl

omit read in
theorem accepted_surveyed :
    (Line.statements statements).Surveyed next.machine.distances := by
  have surveyed := Session.prepare_surveyed (Session.start_surveyed sink time) source
    Session.program_readable
  rw [accepted] at surveyed
  exact surveyed.surveyed _ List.mem_cons_self

variable {opener : Node} (contained : (Node.statements tree).Contains opener)
  (isLocal : declared ∈ opener.locals)

omit accepted read in
include contained isLocal in
theorem places_mentioned (line : Nat) : line ∈ placesOf declared tree ↔
    line ∈ ((Line.statements tree).site.mentions declared []).map Token.line := by
  rw [placesOf, List.mem_cons, List.mem_map, List.mem_map]
  constructor
  · rintro (rfl | ⟨place, bound, rfl⟩)
    · exact ⟨declared, Site.declaration_mentioned contained isLocal, rfl⟩
    · exact ⟨place.name, Site.mention_of_bound bound, rfl⟩
  · rintro ⟨token, mentioned, rfl⟩
    rcases Site.of_mention mentioned with rfl | bound
    · exact .inl rfl
    · obtain ⟨place, isBound, rfl⟩ := List.mem_map.mp bound
      exact .inr ⟨place, isBound, rfl⟩

include contained isLocal

theorem program_marked {recast : Recast}
    (reach : ∀ id, recast.reach id = next.machine.distances[id]?)
    (fresh : ∀ token ∈ tokensOf (scan source), token.lexeme ≠ recast.new) :
    recast.Marks (placesOf declared tree) (.restoring (tokensOf (scan source))) declared
      (Line.statements tree).site [] := by
  have surveyed := accepted_surveyed accepted
  have restored := site_restored accepted read
  have textual : (Labels.restoring (tokensOf (scan source))).Textual := fun _ => rfl
  constructor
  · have clean := surveyed.clean
    rw [restored, Site.Clean, Site.after_relabel textual] at clean
    exact List.map_eq_nil_iff.mp clean
  · exact lines_apart read
  · exact fun line _ => places_mentioned contained isLocal line
  · intro word member
    obtain ⟨original, isOriginal, same, -⟩ := token_of_located _ (word_read read member).1
    exact same ▸ fresh original isOriginal
  · exact (Session.program_readable.numbered _ 0 tree read).shaped _ List.mem_cons_self
  · intro inner isInner place isPlace
    have settled := surveyed.settled
    rw [restored] at settled
    have found := settled _ (Site.contains_relabel textual isInner) (place.relabel _)
      (by rw [Site.relabel, Node.place_relabel, isPlace]; rfl)
    rw [reach]
    refine found.trans ?_
    rw [Site.bond_relabel textual, Option.map_map]
    rfl
  · rintro opener ⟨⟩
  · rintro order - opener ⟨⟩

omit accepted

/-- What stands in a place of the variable is its name. -/
theorem place_token {line : Nat} (marked : line ∈ placesOf declared tree) :
    ∃ token ∈ located (tokensOf (scan source)), token.line = line ∧
      token.lexeme = declared.lexeme := by
  obtain ⟨token, mentioned, same⟩ :=
    List.mem_map.mp ((places_mentioned contained isLocal line).mp marked)
  obtain ⟨word, isWord, rfl⟩ := List.mem_map.mp (Site.mention_word mentioned)
  exact ⟨word.2, (word_read read isWord).1, same, Site.mention_lexeme mentioned⟩

theorem place_spelled {token : Token} (member : token ∈ located (tokensOf (scan source)))
    (marked : token.line ∈ placesOf declared tree) : token.lexeme = declared.lexeme := by
  obtain ⟨other, isOther, sameLine, spelled⟩ := place_token read contained isLocal marked
  have distinct : ((located (tokensOf (scan source))).map Token.line).Nodup := by
    rw [lines_located]
    exact List.nodup_range'
  exact List.inj_on_of_nodup_map distinct isOther member sameLine ▸ spelled

/-- The variable has the text of an identifier. -/
theorem declared_name : declared ∈ located (tokensOf (scan source)) ∧
    declared.kind = .identifier ∧ IsLexeme declared.lexeme.toList .identifier := by
  obtain ⟨member, kind⟩ := word_read read (Node.local_word contained isLocal)
  obtain ⟨original, isOriginal, spelled, sameKind, -⟩ := token_of_located _ member
  refine ⟨member, kind.symm, ?_⟩
  rcases token_lexeme isOriginal with ⟨isEnd, -⟩ | isLexeme
  · rw [sameKind, ← kind] at isEnd
    cases isEnd
  · rwa [spelled, sameKind, ← kind] at isLexeme

/-- What stands in a place of the variable is a name. -/
theorem place_named {token : Token} (member : token ∈ located (tokensOf (scan source)))
    (marked : token.line ∈ placesOf declared tree) : token.kind = .identifier := by
  obtain ⟨-, -, isName⟩ := declared_name read contained isLocal
  obtain ⟨original, isOriginal, spelled, sameKind, -⟩ := token_of_located _ member
  rw [← place_spelled read contained isLocal member marked, ← spelled] at isName
  rw [← sameKind]
  rcases token_lexeme isOriginal with ⟨-, empty⟩ | isLexeme
  · rw [empty] at isName
    exact absurd (identifier_shape isName).1 id
  · exact identifier_only isName isLexeme

theorem first_line_unmarked : 1 ∉ placesOf declared tree := by
  intro marked
  obtain ⟨token, member, sameLine, -⟩ := place_token read contained isLocal marked
  obtain ⟨_, _, _, _, beyond⟩ := token_of_located _ member
  omega

omit read contained isLocal in
theorem name_written {text : String} (isName : IsLexeme text.toList .identifier) :
    text ≠ receiverName ∧ text ≠ superclassName := by
  have free := (identifier_shape isName).2
  rw [String.ofList_toList] at free
  constructor
  · rintro rfl
    exact free .selfWord (by simp [keywords, receiverName])
  · rintro rfl
    exact free .superWord (by simp [keywords, superclassName])

theorem old_written :
    declared.lexeme ≠ receiverName ∧ declared.lexeme ≠ superclassName :=
  name_written (declared_name read contained isLocal).2.2

theorem respelling_exists {new : String} (lexical : lexicalErrorsOf (scan source) = [])
    (isName : IsWord new.toList) (free : ∀ kind, (new, kind) ∉ keywords) :
    ∃ source', Respelling (placesOf declared tree) new source source' := by
  have named : ∀ index token, (tokensOf (scan source))[index]? = some token →
      index + 2 ∈ placesOf declared tree → token.kind = .identifier := by
    intro index token found marked
    obtain ⟨inside, rfl⟩ := List.getElem?_eq_some_iff.mp found
    have placed : { (tokensOf (scan source))[index] with line := index + 2 }.kind = .identifier :=
      place_named read contained isLocal (List.mem_mapIdx.mpr ⟨index, inside, rfl⟩) marked
    exact placed
  obtain ⟨source', lexical', tokens⟩ := text_with_names lexical isName free named
  exact ⟨source', lexical', tokens⟩

end Located

theorem bond_all_same {recast : Recast} (numbers : recast.number = id) (machine : Machine)
    {bonds bonds' : List Bond}
    (both : List.Forall₂ (fun bond bond' : Bond => bond'.place.id = recast.number bond.place.id ∧
      bond'.distance = bond.distance) bonds bonds') :
    machine.bondAll bonds' = machine.bondAll bonds := by
  induction both generalizing machine with
  | nil => rfl
  | @cons bond bond' bonds bonds' first rest induction =>
      rw [numbers] at first
      rw [Machine.bondAll, Machine.bondAll, List.foldl_cons, List.foldl_cons, first.1, first.2]
      exact induction _

/-- A program that is like an accepted one, with the same numbers, has the same bonds and
no violation either. -/
theorem alike_accepted {recast : Recast} (numbers : recast.number = id)
    {statements statements' : List Statement}
    (like : (Line.statements statements).Alike recast (.statements statements'))
    (foresees : recast.Foresees (Line.statements statements).site)
    (clean : (Bindings.ofProgram statements).violations = []) (machine : Machine) :
    (Bindings.ofProgram statements').violations = [] ∧
      machine.bondAll (Bindings.ofProgram statements').bonds =
        machine.bondAll (Bindings.ofProgram statements).bonds := by
  have walked := like.walked foresees
  have none : (Line.statements statements).site.after.violations = [] :=
    List.reverse_eq_nil_iff.mp clean
  have violations := walked.violations
  rw [none] at violations
  constructor
  · exact List.reverse_eq_nil_iff.mpr (List.forall₂_nil_left_iff.mp violations)
  · exact bond_all_same numbers machine (List.rel_reverse walked.bonds)

namespace Session

theorem run_of_accepted {session next : Session} {source : String} {statements : List Statement}
    (accepted : session.prepare source parseProgram Bindings.ofProgram = (.ok statements, next))
    (supply : Nat) : (session.run supply source).map Prod.fst =
      match runProgram supply statements next.machine with
      | .ok () after => some ⟨.success, after.sink.text, []⟩
      | .error (.failed diagnostic) after => some ⟨.runtimeError, after.sink.text, [diagnostic]⟩
      | .error .exhausted _ => none := by
  unfold run
  rw [accepted]
  dsimp only
  rcases runProgram supply statements next.machine with ⟨_, after⟩ | ⟨_ | _, after⟩ <;> rfl

/-- Programs that are alike get reports that agree. -/
theorem reports_agree {recast : Recast} {sink : Sink} {time : Nat} {source source' : String}
    {statements statements' : List Statement} {next : Session}
    (accepted : (start sink time).prepare source parseProgram Bindings.ofProgram =
      (.ok statements, next))
    (accepted' : (start sink time).prepare source' parseProgram Bindings.ofProgram =
      (.ok statements', next))
    (numbers : recast.number = id) (reach : ∀ id, recast.reach id = next.machine.distances[id]?)
    (like : (Node.statements statements).Alike recast [] (.statements statements'))
    (supply : Nat) : Option.Rel (Report.Agrees recast.old recast.new)
      (((start sink time).run supply source).map Prod.fst)
      (((start sink time).run supply source').map Prod.fst) := by
  have machines : next.machine.Alike recast [[]] [] next.machine := by
    obtain ⟨distances, frame⟩ := (start sink time).prepare_frame source parseProgram
      Bindings.ofProgram
    rw [accepted] at frame
    dsimp only at frame
    rw [frame] at reach ⊢
    exact Machine.start_alike recast sink time (fun id => by rw [numbers]; rfl)
      (.inr fun id => (reach id).symm)
  obtain ⟨last, -, ends⟩ := (supplied_respects recast supply).program like [[]] List.prefix_rfl
    _ _ machines
  change Lox.Ends _ _ _ _ (runProgram supply statements next.machine)
    (runProgram supply statements' next.machine) at ends
  rw [run_of_accepted accepted, run_of_accepted accepted']
  generalize runProgram supply statements next.machine = ending at ends ⊢
  generalize runProgram supply statements' next.machine = ending' at ends ⊢
  cases ends with
  | ok result machines =>
      exact .some ⟨rfl, congrArg Sink.text machines.sink, .inl rfl⟩
  | @error halt halt' after after' reason machines =>
      cases reason with
      | same =>
          cases halt with
          | exhausted => exact .none
          | failed diagnostic => exact .some ⟨rfl, congrArg Sink.text machines.sink, .inl rfl⟩
      | unbound line =>
          exact .some ⟨rfl, congrArg Sink.text machines.sink, .inr ⟨line, rfl, rfl⟩⟩

end Session

/-- A local variable may be called by any name that the program does not have. Respelled at
its declaration and at all occurrences that are bound to it, and nowhere else, the program
is accepted with the same distances, and runs with the same outcome, output and
diagnostics, except for the name in a complaint that the variable is not bound. -/
theorem local_names_hygienic (sink : Sink) (time : Nat) {source : String}
    {tree statements : List Statement} {next : Session} {opener : Node} {declared : Token}
    {new : String}
    (accepted : (Session.start sink time).prepare source parseProgram Bindings.ofProgram =
      (.ok statements, next))
    (read : (parseProgram (located (tokensOf (scan source))) 0).outcome = .ok tree)
    (contained : (Node.statements tree).Contains opener) (isLocal : declared ∈ opener.locals)
    (isName : IsWord new.toList) (free : ∀ kind, (new, kind) ∉ keywords)
    (fresh : ∀ token ∈ tokensOf (scan source), token.lexeme ≠ new) :
    (∃ source', Respelling (placesOf declared tree) new source source') ∧
    ∀ source', Respelling (placesOf declared tree) new source source' →
      (∃ statements', (Session.start sink time).prepare source' parseProgram
        Bindings.ofProgram = (.ok statements', next)) ∧
      ∀ supply, Option.Rel (Report.Agrees declared.lexeme new)
        (((Session.start sink time).run supply source).map Prod.fst)
        (((Session.start sink time).run supply source').map Prod.fst) := by
  obtain ⟨lexical, parsed, clean, nextIs⟩ := Session.prepare_accepts_iff.mp accepted
  refine ⟨respelling_exists read contained isLocal lexical isName free, ?_⟩
  rintro source' ⟨lexical', respelt⟩
  have isLexeme : IsLexeme new.toList .identifier :=
    .identifier isName fun kind => by rw [String.ofList_toList]; exact free kind
  let recast : Recast :=
    ⟨id, fun id => next.machine.distances[id]?, declared.lexeme, new,
      old_written read contained isLocal, name_written isLexeme⟩
  let tokens := tokensOf (scan source)
  let places := placesOf declared tree
  have marks : recast.Marks places (.restoring tokens) declared (Line.statements tree).site [] :=
    program_marked accepted read contained isLocal (fun _ => rfl) fresh
  have like : (Node.statements statements).Alike recast []
      (.statements (Statement.relabelAll (recast.respelling places tokens) tree)) := by
    rw [statements_restored accepted read]
    exact marks.alike_respelled (respelling_respells tokens rfl places) rfl List.mem_cons_self
  have foresees : recast.Foresees (Line.statements statements).site := by
    have charted : Charted next.machine.distances (sitesOf [Line.statements statements]) :=
      sites_charted fun line member =>
        List.mem_singleton.mp member ▸ accepted_surveyed accepted
    exact fun inner isInner place isPlace =>
      .inr (charted.settled ⟨_, List.mem_cons_self, isInner⟩ isPlace)
  obtain ⟨clean', bonds⟩ := alike_accepted rfl (.statements like) foresees clean
    (Session.start sink time).machine
  have accepted' : (Session.start sink time).prepare source' parseProgram Bindings.ofProgram =
      (.ok (Statement.relabelAll (recast.respelling places tokens) tree), next) := by
    have silent := respelling_silent tokens recast (first_line_unmarked read contained isLocal)
    have spelled := respelled_located tokens recast
      fun token member marked => place_spelled read contained isLocal member marked
    obtain ⟨outcome, nextId⟩ := relabeled_read read silent rfl
    obtain ⟨-, nextId'⟩ := relabeled_read read (restoring_silent tokens) rfl
    rw [restored_located] at nextId'
    rw [Session.prepare_accepts_iff, respelt, ← spelled]
    refine ⟨lexical', outcome, clean', ?_⟩
    rw [nextIs, bonds]
    exact congrArg _ (nextId'.trans nextId.symm)
  exact ⟨⟨_, accepted'⟩, fun supply =>
    Session.reports_agree accepted accepted' rfl (fun _ => rfl) like supply⟩

/-- The inner variable of a block, which is read before and after its declaration, gets a
name of its own: the first reading is of the global variable, and keeps its name. -/
theorem shadowing_variable_respelled :
    ∃ tree statements next, (Session.start ⟨.unlimited, []⟩ 0).prepare
        "var a; { print a; var a; print a; }" parseProgram Bindings.ofProgram =
          (.ok statements, next) ∧
      (parseProgram (located (tokensOf (scan "var a; { print a; var a; print a; }"))) 0).outcome =
        .ok tree ∧
      placesOf ⟨.identifier, "a", 10⟩ tree = [10, 13] ∧
      (∃ statements', (Session.start ⟨.unlimited, []⟩ 0).prepare
        "var a; { print a; var b; print b; }" parseProgram Bindings.ofProgram =
          (.ok statements', next)) ∧
      ∀ supply, Option.Rel (Report.Agrees "a" "b")
        (((Session.start ⟨.unlimited, []⟩ 0).run supply
          "var a; { print a; var a; print a; }").map Prod.fst)
        (((Session.start ⟨.unlimited, []⟩ 0).run supply
          "var a; { print a; var b; print b; }").map Prod.fst) := by
  let name (line : Nat) : Token := ⟨.identifier, "a", line⟩
  let body : List Statement := [.print (.reference ⟨0, name 7⟩),
    .variableDeclaration (name 10) none, .print (.reference ⟨1, name 13⟩)]
  let tree : List Statement := [.variableDeclaration (name 3) none, .block body]
  obtain ⟨statements, next, accepted⟩ : ∃ statements next,
      (Session.start ⟨.unlimited, []⟩ 0).prepare "var a; { print a; var a; print a; }"
        parseProgram Bindings.ofProgram = (.ok statements, next) := ⟨_, _, rfl⟩
  have read : (parseProgram
      (located (tokensOf (scan "var a; { print a; var a; print a; }"))) 0).outcome =
        .ok tree := by rfl
  have places : placesOf (name 10) tree = [10, 13] := by cbv
  have contained : (Node.statements tree).Contains (.statement (.block body)) :=
    .head (List.mem_cons_of_mem _ List.mem_cons_self) (.single List.mem_cons_self)
  have isLocal : name 10 ∈ (Node.statement (.block body)).locals := by
    simp [Node.locals, body, Statement.locals]
  have isName : IsWord "b".toList := ⟨.inr (.inl (by decide)), List.forall_mem_nil _⟩
  have free : ∀ kind, ("b", kind) ∉ keywords := by simp [keywords]
  have fresh : ∀ token ∈ tokensOf (scan "var a; { print a; var a; print a; }"),
      token.lexeme ≠ "b" := by
    have texts : (tokensOf (scan "var a; { print a; var a; print a; }")).map Token.lexeme =
        ["var", "a", ";", "\x7b", "print", "a", ";", "var", "a", ";", "print", "a", ";",
          "\x7d", ""] := by rfl
    intro token member same
    have listed : token.lexeme ∈
        (tokensOf (scan "var a; { print a; var a; print a; }")).map Token.lexeme :=
      List.mem_map_of_mem member
    rw [texts, same] at listed
    revert listed
    decide
  have respelling : Respelling (placesOf (name 10) tree) "b"
      "var a; { print a; var a; print a; }" "var a; { print a; var b; print b; }" := by
    rw [places]
    exact ⟨rfl, rfl⟩
  have hygienic :=
    local_names_hygienic ⟨.unlimited, []⟩ 0 accepted read contained isLocal isName free fresh
  exact ⟨tree, statements, next, accepted, read, places, hygienic.2 _ respelling⟩

end Lox
