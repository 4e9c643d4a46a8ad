import Lox.Proofs.Joining.Pieces

/-!
Programs in another layout. Blanks and comments only decide on which lines the tokens of a
program stand. Two layouts of one program are read as one tree, whose tokens stand on other
lines in the one than in the other; the analysis of names does not look at lines, and neither
does a run. So nothing but the lines in what is reported can differ.
-/

namespace Lox

/-- The token without its line. It is put on the line on which a list that just stops is
taken to end. -/
def Token.unlined (token : Token) : Token := { token with line := 1 }

/-- Labels that forget lines. -/
def Labels.unlined : Labels := ⟨Token.unlined, id⟩

def Diagnostic.unlined : Diagnostic → Diagnostic
  | .lexical _ cause => .lexical 1 cause
  | .grammatical place cause => .grammatical place.unlined cause
  | .binding place cause => .binding place.unlined cause
  | .fault _ cause => .fault 1 cause
  | .outputClosed => .outputClosed

/-- What a program came to, without the lines in it. -/
def Report.unlined (report : Report) : Report :=
  { report with diagnostics := report.diagnostics.map Diagnostic.unlined }

/-- The two texts consist of the same tokens, on whatever lines. -/
def SameTokens (source source' : String) : Prop :=
  (tokensOf (scan source')).map Token.unlined = (tokensOf (scan source)).map Token.unlined

theorem Labels.unlined_silent : Labels.unlined.Silent := ⟨fun _ => rfl, rfl, fun _ => rfl⟩

theorem located_unlined (tokens : List Token) :
    located (tokens.map Token.unlined) = located tokens := by
  apply List.ext_getElem
  · simp [located]
  · intro index _ _
    simp [located, Token.unlined]

theorem SameTokens.same_located {source source' : String} (same : SameTokens source source') :
    located (tokensOf (scan source')) = located (tokensOf (scan source)) := by
  rw [← located_unlined, same, located_unlined]

/-- Every line may stand for every other one. -/
def Leeway.anyLine : Leeway := ⟨fun _ _ => True, fun _ => True, []⟩

/-- One tree in two layouts. -/
theorem Node.twins_of_layouts (node : Node) (tokens tokens' : List Token) :
    node.Twins .anyLine (.restoring tokens) (.restoring tokens') where
  tokens _ _ _ _ := ⟨rfl, rfl, trivial⟩
  places _ _ := ⟨rfl, trivial⟩

section Prepared

variable (tokens : List Token)

/-- A list of tokens is read like the list with the places of tokens for their lines. -/
theorem parse_located (firstId : Nat) : parseProgram tokens firstId =
    (parseProgram (located tokens) firstId).relabel (.restoring tokens)
      (Statement.relabelAll (.restoring tokens)) := by
  have read := parse_program_relabel (restoring_silent tokens) (located tokens) firstId
  rwa [restored_located] at read

theorem unlined_complaints (complaints : List Complaint) :
    ((complaints.map (Complaint.relabel (.restoring tokens))).map Complaint.diagnostic).map
        Diagnostic.unlined =
      (complaints.map Complaint.diagnostic).map Diagnostic.unlined := by
  simp only [List.map_map]
  rfl

theorem unlined_violations (violations : List Violation) :
    ((violations.map (Violation.relabel (.restoring tokens))).map Violation.diagnostic).map
        Diagnostic.unlined =
      (violations.map Violation.diagnostic).map Diagnostic.unlined := by
  simp only [List.map_map]
  rfl

end Prepared

namespace Session

/-- What two layouts of a program are before they are run: the same complaints, or one tree. -/
inductive Laid (tokens tokens' : List Token) :
    Except (List Diagnostic) (List Statement) × Session →
      Except (List Diagnostic) (List Statement) × Session → Prop where
  | rejected {diagnostics diagnostics' : List Diagnostic} (next : Session)
      (same : diagnostics'.map Diagnostic.unlined = diagnostics.map Diagnostic.unlined) :
      Laid tokens tokens' (.error diagnostics, next) (.error diagnostics', next)
  | accepted (orders : List Statement) (next : Session) :
      Laid tokens tokens' (.ok (Statement.relabelAll (.restoring tokens) orders), next)
        (.ok (Statement.relabelAll (.restoring tokens') orders), next)

section Layouts

variable {source source' : String} (clean : lexicalErrorsOf (scan source) = [])
  (cleanToo : lexicalErrorsOf (scan source') = []) (same : SameTokens source source')

include clean cleanToo same

theorem prepare_layouts (session : Session) :
    Laid (tokensOf (scan source)) (tokensOf (scan source'))
      (session.prepare source parseProgram Bindings.ofProgram)
      (session.prepare source' parseProgram Bindings.ofProgram) := by
  have quiet : lexicalDiagnostics (scan source) = [] := by rw [lexicalDiagnostics, clean]; rfl
  have quietToo : lexicalDiagnostics (scan source') = [] := by
    rw [lexicalDiagnostics, cleanToo]
    rfl
  unfold prepare
  dsimp only
  rw [quiet, quietToo, parse_located (tokensOf (scan source')), same.same_located,
    parse_located (tokensOf (scan source))]
  generalize parseProgram (located (tokensOf (scan source))) session.nextId = parsed
  obtain ⟨complaints | orders, next⟩ := parsed
  · refine .rejected _ ?_
    simp only [List.nil_append, unlined_complaints]
  · have textual (tokens : List Token) : (Labels.restoring tokens).Textual := fun _ => rfl
    have numbers (tokens : List Token) (id : Nat) : (Labels.restoring tokens).number id = id := rfl
    simp only [Parsed.relabel, bindings_relabel (textual _), bond_all_relabel (numbers _),
      List.isEmpty_map, List.isEmpty_nil, if_true]
    split_ifs
    · exact .accepted orders _
    · refine .rejected _ ?_
      rw [unlined_violations, unlined_violations]

end Layouts

/-- Sessions that hold nothing but what they have heard run two layouts of one tree to the same
report, but for the lines in it. -/
theorem told_in_layouts {lines : List Line} {next : Session} (steady : next.Steady lines)
    (tokens tokens' : List Token) (orders : List Statement) (supply : Nat) :
    (next.told (runProgram supply (Statement.relabelAll (.restoring tokens') orders)
        next.machine)).map (·.1.unlined) =
      (next.told (runProgram supply (Statement.relabelAll (.restoring tokens) orders)
        next.machine)).map (·.1.unlined) := by
  have anyLine : (Leeway.still lines next.nextId).Within .anyLine :=
    ⟨fun _ _ _ => trivial, fun _ _ => trivial⟩
  have machines : next.machine.Abreast .anyLine next.machine :=
    Machine.Abreast.renew steady anyLine ⟨rfl, (List.append_nil _).symm⟩ fun _ _ => rfl
  have runs := (supplied_abreast .anyLine supply).program
    ((Node.statements orders).twins_of_layouts tokens tokens') _ _ machines
  have output {sink sink' : Sink} (sinks : sink.Abreast .anyLine sink') :
      sink'.text = sink.text := by
    rw [Sink.text, sinks.writes, show Leeway.anyLine.earlier = [] from rfl, List.append_nil]
    rfl
  unfold runProgram
  generalize (Parts.supplied supply).program _ next.machine = ending at runs ⊢
  generalize (Parts.supplied supply).program _ next.machine = ending' at runs ⊢
  cases runs with
  | ok result machines => simp only [told, Option.map_some, Report.unlined, output machines.sink]
  | error reason machines =>
      cases reason with
      | exhausted => rfl
      | outputClosed | fault =>
          simp only [told, Option.map_some, Report.unlined, output machines.sink, List.map_cons,
            List.map_nil, Diagnostic.unlined]

end Session

/-- Programs that differ in their layout only are read as trees that differ in the lines of
tokens only, with the same numbers; the analysis finds the same distances; and whatever has
happened in the session, they are run to reports that differ in lines only. -/
theorem layout_changes_only_lines {lines : List Line} {session : Session} {source source' : String}
    (history : Session.History lines session) (clean : lexicalErrorsOf (scan source) = [])
    (cleanToo : lexicalErrorsOf (scan source') = []) (same : SameTokens source source') :
    (∀ firstId, (parseProgram (tokensOf (scan source')) firstId).relabel .unlined
          (Statement.relabelAll .unlined) =
        (parseProgram (tokensOf (scan source)) firstId).relabel .unlined
          (Statement.relabelAll .unlined)) ∧
    (∀ firstId orders orders',
        (parseProgram (tokensOf (scan source)) firstId).outcome = .ok orders →
        (parseProgram (tokensOf (scan source')) firstId).outcome = .ok orders' →
        (Bindings.ofProgram orders').bonds.map (fun bond => (bond.place.id, bond.distance)) =
          (Bindings.ofProgram orders).bonds.map fun bond => (bond.place.id, bond.distance)) ∧
    ∀ supply, (session.run supply source').map (·.1.unlined) =
      (session.run supply source).map (·.1.unlined) := by
  have read (firstId : Nat) : (parseProgram (tokensOf (scan source')) firstId).relabel .unlined
        (Statement.relabelAll .unlined) =
      (parseProgram (tokensOf (scan source)) firstId).relabel .unlined
        (Statement.relabelAll .unlined) := by
    have silent := Labels.unlined_silent
    rw [← parse_program_relabel silent, ← parse_program_relabel silent]
    exact congrArg (parseProgram · firstId) same
  refine ⟨read, fun firstId orders orders' accepted accepted' => ?distances, fun supply => ?runs⟩
  case distances =>
    have trees := congrArg Parsed.outcome (read firstId)
    simp only [Parsed.relabel, accepted, accepted', Except.ok.injEq] at trees
    have textual : Labels.unlined.Textual := fun _ => rfl
    have bonds := congrArg (Bindings.bonds ∘ Bindings.ofProgram) trees
    simp only [Function.comp_apply, bindings_relabel textual] at bonds
    have listed := congrArg (List.map fun bond : Bond => (bond.place.id, bond.distance)) bonds
    rw [List.map_map, List.map_map] at listed
    exact listed
  case runs =>
    have laid := Session.prepare_layouts clean cleanToo same session
    have steady : ∀ orders next,
        session.prepare source parseProgram Bindings.ofProgram = (.ok orders, next) →
          next.Steady lines := by
      intro orders next accepted
      have received := (Session.history_steady history).receive (.program source) fun _ => id
      simpa only [Session.receive, accepted] using received
    generalize prepared :
      session.prepare source parseProgram Bindings.ofProgram = first at laid steady
    generalize preparedToo :
      session.prepare source' parseProgram Bindings.ofProgram = second at laid
    cases laid with
    | rejected next same =>
        unfold Session.run
        rw [prepared, preparedToo]
        simp only [Option.map_some, Report.unlined, same]
    | accepted orders next =>
        rw [Session.run_told prepared, Session.run_told preparedToo]
        exact Session.told_in_layouts (steady _ _ rfl) _ _ orders supply

/-- A block on one line, and over several lines with comments in between. Both runs stop at the
product, which is on the fourth line of the second text. -/
theorem block_over_lines :
    let source := "\x7b var a = \"x\"; print a; a * nil; \x7d"
    let source' := "\x7b // local\n  var a = \"x\";\n  print a; /* and\n */ a * nil;\n\x7d"
    let session := Session.start ⟨.unlimited, []⟩ 0
    lexicalErrorsOf (scan source) = [] ∧ lexicalErrorsOf (scan source') = [] ∧
      SameTokens source source' ∧
      (session.run 9 source).map (·.1) =
        some ⟨.runtimeError, "x\n", [.fault 1 .operandsNotNumbers]⟩ ∧
      (session.run 9 source').map (·.1) =
        some ⟨.runtimeError, "x\n", [.fault 4 .operandsNotNumbers]⟩ ∧
      (session.run 9 source').map (·.1.unlined) = (session.run 9 source).map (·.1.unlined) := by
  intro source source' session
  have clean : lexicalErrorsOf (scan source) = [] := by decide +kernel
  have cleanToo : lexicalErrorsOf (scan source') = [] := by decide +kernel
  have same : SameTokens source source' := by
    unfold SameTokens
    decide +kernel
  exact ⟨clean, cleanToo, same, by decide +kernel, by decide +kernel,
    (layout_changes_only_lines (.start _ _) clean cleanToo same).2.2 9⟩

end Lox
