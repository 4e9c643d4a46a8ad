import Lox.Proofs.Recovery.Places

/-!
Segments. A syntax error is contained in its own statement: where the tokens up to the next
semicolon are no statement, but none of them begins or ends another one either, reading goes on
right behind that semicolon. So the complaints about several segments are those about each of them,
one behind the other, and every block around them is closed by its own brace.
-/

namespace Lox

open Phrase Rule

/-- Kinds that neither begin nor end a statement or a block. -/
def Kind.IsPlain (kind : Kind) : Prop :=
  kind ≠ .semicolon ∧ kind ≠ .leftBrace ∧ kind ≠ .rightBrace ∧ kind ≠ .elseWord ∧
    kind ≠ .endOfInput ∧ kind.startsStatement = false

/-- Tokens up to a semicolon that are no statement. -/
structure Malformed (segment : List Token) : Prop where
  plain : ∃ body semicolon, segment = body ++ [semicolon] ∧ semicolon.kind = .semicolon ∧
    ∀ token ∈ body, token.kind.IsPlain
  noStatement : ¬Derives (form .expressionStatement) segment

/-- Two runs on the same segment. -/
def Pairing.toSemicolon (first second : Side) : Pairing where
  inside := Kind.IsPlain
  stop := .semicolon
  exactly := False
  first := first
  second := second
  gap := none

namespace Pairing

variable {first second : Side} {left : List Token}

theorem to_semicolon_covers {body : List Token} {semicolon : Token}
    (plain : ∀ token ∈ body, token.kind.IsPlain) (closes : semicolon.kind = .semicolon) :
    (toSemicolon first second).Covers (body ++ [semicolon]) := by
  induction body with
  | nil => exact .stop closes
  | cons token rest induction =>
      rw [List.forall_mem_cons] at plain
      exact .more plain.1 (induction plain.2)

/-- Skipping to the next boundary ends behind the semicolon. -/
theorem Covers.boundary (covers : (toSemicolon first second).Covers left) (beyond : List Token) :
    fromBoundary false (left ++ beyond) = beyond := by
  induction covers with
  | @stop last fits =>
      have closes : last.kind = .semicolon := fits
      cases beyond <;> simp [fromBoundary, closes, Kind.startsStatement]
  | @more token rest plain _ induction =>
      obtain ⟨noSemicolon, -, -, -, inner, starts⟩ : token.kind.IsPlain := plain
      rw [List.cons_append, fromBoundary]
      simpa [noSemicolon, inner, starts] using induction

theorem Covers.resume (covers : (toSemicolon first second).Covers left) (beyond : List Token)
    (nextId : Nat) (complaints : List Complaint) :
    (Reading.mk (left ++ beyond) nextId complaints).resume = ⟨beyond, nextId, complaints⟩ := by
  cases covers with
  | @stop last fits =>
      have closes : last.kind = .semicolon := fits
      cases beyond <;> simp [Reading.resume, fromBoundary, closes]
  | @more token rest plain others =>
      obtain ⟨noSemicolon, -, -, -, inner, -⟩ : token.kind.IsPlain := plain
      simp only [List.cons_append, Reading.resume, inner, if_false, noSemicolon, decide_false,
        others.boundary beyond]

end Pairing

theorem declaration_plain {reading : Reading} (plain : reading.next.kind.startsStatement = false)
    (noBrace : reading.next.kind ≠ .leftBrace) (bound : Nat) :
    declaration (bound + 2) reading = expressionStatement (expression bound) reading := by
  have other {kind : Kind} (starts : kind.startsStatement = true) : reading.next.kind ≠ kind := by
    rintro rfl
    rw [plain] at starts
    cases starts
  rw [declaration_eq, if_neg (other rfl),
    if_neg fun starts => other rfl (starts_function_leads starts), if_neg (other rfl)]
  refine statement_plain fun written => ?_
  simp only [List.mem_cons, List.not_mem_nil, or_false] at written
  rcases written with same | same | same | same | same | same
  case inr.inr.inr.inr.inl => exact noBrace same
  all_goals exact other rfl same

/-- What is complained about where an expression ends inside a segment. -/
def leftInSegment (left : List Token) : List Complaint :=
  match left with
  | [] => []
  | first :: _ => if first.kind = .semicolon then [] else [⟨first, .expected .statementEnd⟩]

section Segment

variable {first second : Side} {left : List Token} {expression : Rule Expression}
  {reading : Reading} {nextId : Nat} {complaints : List Complaint}
  (covers : (Pairing.toSemicolon first second).Covers left) (beyond : List Token)

include covers

theorem recovering_expression_ok {tree : Expression}
    (run : expression reading = .ok tree ⟨left ++ beyond, nextId, complaints⟩) :
    ∃ found, recovering (expressionStatement expression) reading =
      .ok found ⟨beyond, nextId, complaints ++ leftInSegment left⟩ := by
  unfold recovering expressionStatement
  rw [bind_ok run]
  have resumed := covers.resume beyond nextId complaints
  cases covers with
  | @stop last fits =>
      have closes : last.kind = .semicolon := fits
      rw [bind_ok (expect_found (by exact closes)), leftInSegment, if_pos closes, List.append_nil]
      exact ⟨_, rfl⟩
  | @more token rest plain others =>
      have noSemicolon : token.kind ≠ .semicolon := plain.1
      rw [bind_error (expect_absent (by exact noSemicolon)), leftInSegment, if_neg noSemicolon]
      dsimp only
      rw [resumed]
      exact ⟨_, rfl⟩

theorem recovering_expression_error {complaint : Complaint}
    (run : expression reading = .error complaint ⟨left ++ beyond, nextId, complaints⟩) :
    recovering (expressionStatement expression) reading =
      .ok none ⟨beyond, nextId, complaints ++ [complaint]⟩ := by
  unfold recovering expressionStatement
  rw [bind_error run]
  dsimp only
  rw [covers.resume]
  rfl

end Segment

/-- Reading a segment ends behind its semicolon, with complaints that do not depend on what stands
there. -/
theorem segment_in_step {body : List Token} {semicolon : Token}
    (plain : ∀ token ∈ body, token.kind.IsPlain) (closes : semicolon.kind = .semicolon)
    {bound later : Nat} (enough : 8 * (body ++ [semicolon]).length + 4 ≤ bound)
    (isLater : bound ≤ later) (first second : Side) (firstId secondId : Nat) :
    ∃ made found found' nextId nextId',
      recovering (expressionStatement (expression bound))
          ⟨body ++ [semicolon] ++ first.beyond, firstId, first.earlier⟩ =
        .ok found ⟨first.beyond, nextId, first.earlier ++ made⟩ ∧
      recovering (expressionStatement (expression later))
          ⟨body ++ [semicolon] ++ second.beyond, secondId, second.earlier⟩ =
        .ok found' ⟨second.beyond, nextId', second.earlier ++ made⟩ := by
  have covers : (Pairing.toSemicolon first second).Covers (body ++ [semicolon]) :=
    Pairing.to_semicolon_covers plain closes
  have all : AllInStep (.toSemicolon first second) bound (.bounded bound)
      ((Rules.bounded 0).nested later) :=
    all_in_step (.inr rfl) _ (.inr ⟨fun isPlain => isPlain.2.1 rfl, rfl⟩)
      (blocks_cross _ rfl) isLater
  rw [← Rules.bounded_eq] at all
  have ended := (all.expression ((body ++ [semicolon]).length + 1) (by omega)).beside
    (body ++ [semicolon])
    ⟨body ++ [semicolon] ++ first.beyond, firstId, first.earlier⟩
    ⟨body ++ [semicolon] ++ second.beyond, secondId, second.earlier⟩
    ⟨covers, rfl, rfl, fun isExact => isExact.elim, [], (List.append_nil _).symm,
      (List.append_nil _).symm⟩ trivial (Nat.lt_succ_self _)
  generalize ran : (Rules.bounded bound).expression _ = outcome,
    ranToo : (Rules.bounded later).expression _ = outcome' at ended
  cases ended with
  | @ok _ _ one other _ left _ _ _ beside =>
      obtain ⟨oneRest, oneId, oneComplaints⟩ := one
      obtain ⟨otherRest, otherId, otherComplaints⟩ := other
      obtain ⟨coversLeft, rfl, rfl, -, added, rfl, rfl⟩ := beside
      obtain ⟨found, run⟩ := recovering_expression_ok coversLeft _ ran
      obtain ⟨found', run'⟩ := recovering_expression_ok coversLeft _ ranToo
      refine ⟨added ++ leftInSegment left, found, found', oneId, otherId, ?_, ?_⟩
      · rw [← List.append_assoc]
        exact run
      · rw [← List.append_assoc]
        exact run'
  | @error complaint one other _ left _ beside =>
      obtain ⟨oneRest, oneId, oneComplaints⟩ := one
      obtain ⟨otherRest, otherId, otherComplaints⟩ := other
      obtain ⟨coversLeft, rfl, rfl, -, added, rfl, rfl⟩ := beside
      refine ⟨added ++ [complaint], none, none, oneId, otherId, ?_, ?_⟩
      · rw [← List.append_assoc]
        exact recovering_expression_error coversLeft _ ran
      · rw [← List.append_assoc]
        exact recovering_expression_error coversLeft _ ranToo

theorem Kind.leads_differs {kind other : Kind} (leads : kind.leadsDeclaration = true)
    (different : other.leadsDeclaration = false) : kind ≠ other := by
  rintro rfl
  rw [different] at leads
  cases leads

/-- Wherever the tokens stand as a declaration, reading goes on right behind them, with these
complaints. -/
structure Contained (segment : List Token) (made : List Complaint) : Prop where
  begins : ∃ first rest, segment = first :: rest ∧ first.kind ≠ .elseWord ∧
    first.kind ≠ .rightBrace ∧ first.kind ≠ .endOfInput
  read : ∀ bound beyond nextId complaints, nesting (segment ++ beyond) ≤ bound →
    leading beyond ≠ .elseWord → ∃ found laterId,
      recovering (declaration bound) ⟨segment ++ beyond, nextId, complaints⟩ =
        .ok found ⟨beyond, laterId, complaints ++ made⟩

theorem declaration_contained {segment : List Token}
    (derived : Derives (form .declaration) segment) : Contained segment [] where
  begins := by
    obtain ⟨first, rest, rfl, leads⟩ := declaration_begins derived
    exact ⟨first, rest, rfl, Kind.leads_differs leads rfl, Kind.leads_differs leads rfl,
      Kind.leads_differs leads rfl⟩
  read bound beyond nextId complaints enough noBranch := by
    obtain ⟨tree, left, laterId, run, rfl⟩ := (reaches (segment ++ beyond).length).declaration bound
      (by unfold nesting at enough; omega) segment beyond derived noBranch (Nat.le_refl _) nextId
      complaints
    rw [recovering, run, List.append_nil]
    exact ⟨some tree, laterId, rfl⟩

theorem malformed_contained {segment : List Token} (malformed : Malformed segment) :
    ∃ made, Contained segment made := by
  obtain ⟨body, semicolon, rfl, closes, plain⟩ := malformed.plain
  obtain ⟨first, rest, same, expected⟩ : ∃ first rest, body ++ [semicolon] = first :: rest ∧
      (first.kind.IsPlain ∨ first.kind = .semicolon) := by
    cases body with
    | nil => exact ⟨semicolon, [], rfl, .inr closes⟩
    | cons first rest =>
        exact ⟨first, rest ++ [semicolon], rfl, .inl (plain first List.mem_cons_self)⟩
  have other {kind : Kind} (notPlain : ¬kind.IsPlain) (noSemicolon : kind ≠ .semicolon) :
      first.kind ≠ kind := by
    rintro rfl
    exact expected.elim notPlain noSemicolon
  -- what is complained about is settled by a run with nothing behind the semicolon
  obtain ⟨made, _, _, _, _, alone, -⟩ := segment_in_step plain closes (Nat.le_refl _)
    (Nat.le_refl _) ⟨[], [], []⟩ ⟨[], [], []⟩ 0 0
  refine ⟨made, ⟨first, rest, same, other (fun isPlain => isPlain.2.2.2.1 rfl) (by decide),
    other (fun isPlain => isPlain.2.2.1 rfl) (by decide),
    other (fun isPlain => isPlain.2.2.2.2.1 rfl) (by decide)⟩, ?_⟩
  intro bound beyond nextId complaints enough _
  obtain ⟨fewer, rfl⟩ : ∃ fewer, bound = fewer + 2 :=
    ⟨bound - 2, by unfold nesting at enough; omega⟩
  have asStatement : recovering (declaration (fewer + 2))
      ⟨body ++ [semicolon] ++ beyond, nextId, complaints⟩ =
        recovering (expressionStatement (expression fewer))
          ⟨body ++ [semicolon] ++ beyond, nextId, complaints⟩ := by
    unfold recovering
    rw [declaration_plain]
    · rw [same]
      rcases expected with isPlain | isSemicolon
      · exact isPlain.2.2.2.2.2
      · exact congrArg Kind.startsStatement isSemicolon
    · rw [same]
      exact other (fun isPlain => isPlain.2.1 rfl) (by decide)
  have isLater : 8 * (body ++ [semicolon]).length + 4 ≤ fewer := by
    rw [nesting, List.length_append] at enough
    omega
  obtain ⟨made', _, found, _, laterId, alone', run⟩ := segment_in_step plain closes (Nat.le_refl _)
    isLater ⟨[], [], []⟩ ⟨beyond, complaints, []⟩ 0 nextId
  rw [alone] at alone'
  cases alone'
  exact ⟨found, laterId, asStatement.trans run⟩

section Segments

variable {segments : List (List Token)} {made : List Token → List Complaint}
  (each : ∀ segment ∈ segments, Contained segment (made segment))

include each

/-- No segment, and nothing that follows them, begins with a branch. -/
theorem segments_lead {beyond : List Token} (noBranch : leading beyond ≠ .elseWord) :
    leading (segments.flatten ++ beyond) ≠ .elseWord := by
  cases segments with
  | nil => exact noBranch
  | cons segment others =>
      obtain ⟨first, rest, rfl, begins, -⟩ := (each segment List.mem_cons_self).begins
      exact begins

/-- The segments have been read, and what follows them is read in the rounds that are left. -/
theorem segments_passed {closes : Kind → Bool} {beyond : List Token}
    (ongoing : ∀ kind, kind ≠ .rightBrace → kind ≠ .endOfInput → closes kind = false)
    (noBranch : leading beyond ≠ .elseWord) {bound : Nat}
    (enough : nesting (segments.flatten ++ beyond) ≤ bound) (rounds nextId : Nat)
    (complaints : List Complaint) : ∃ trees laterId,
      declarations (declaration bound) closes (rounds + segments.length)
          ⟨segments.flatten ++ beyond, nextId, complaints⟩ =
        ((trees ++ ·) <$> declarations (declaration bound) closes rounds)
          ⟨beyond, laterId, complaints ++ segments.flatMap made⟩ := by
  induction segments generalizing nextId complaints with
  | nil =>
      rw [List.flatMap_nil, List.append_nil]
      exact ⟨[], nextId, declarations_none _ _ _ _⟩
  | cons segment others induction =>
      rw [List.forall_mem_cons] at each
      obtain ⟨first, rest, same, -, noBrace, inner⟩ := each.1.begins
      rw [List.flatten_cons, List.append_assoc] at enough ⊢
      obtain ⟨found, middleId, run⟩ := each.1.read bound (others.flatten ++ beyond) nextId
        complaints enough (segments_lead each.2 noBranch)
      obtain ⟨trees, laterId, further⟩ := induction each.2 (by
        simp only [nesting, List.length_append] at enough ⊢
        omega) middleId (complaints ++ made segment)
      have goesOn : closes (leading (segment ++ (others.flatten ++ beyond))) = false := by
        rw [same]
        exact ongoing first.kind noBrace inner
      refine ⟨found.toList ++ trees, laterId, ?_⟩
      rw [List.length_cons, ← Nat.add_assoc, List.flatMap_cons,
        ← List.append_assoc complaints]
      exact declarations_more goesOn run further

/-- Every segment has some token. -/
theorem segments_length : segments.length ≤ segments.flatten.length := by
  induction segments with
  | nil => exact Nat.le_refl 0
  | cons segment others induction =>
      rw [List.forall_mem_cons] at each
      obtain ⟨first, rest, rfl, -⟩ := each.1.begins
      have fewer := induction each.2
      simp only [List.flatten_cons, List.length_append, List.length_cons]
      omega

theorem segments_read {closes : Kind → Bool} {beyond : List Token}
    (ongoing : ∀ kind, kind ≠ .rightBrace → kind ≠ .endOfInput → closes kind = false)
    (closed : closes (leading beyond) = true) (noBranch : leading beyond ≠ .elseWord)
    {bound : Nat} (enough : nesting (segments.flatten ++ beyond) ≤ bound) (nextId : Nat)
    (complaints : List Complaint) : ∃ trees laterId, declarations (declaration bound) closes bound
        ⟨segments.flatten ++ beyond, nextId, complaints⟩ =
      .ok trees ⟨beyond, laterId, complaints ++ segments.flatMap made⟩ := by
  have few := segments_length each
  obtain ⟨rounds, same⟩ : ∃ rounds, bound = rounds + segments.length :=
    ⟨bound - segments.length, by simp only [nesting, List.length_append] at enough; omega⟩
  obtain ⟨trees, laterId, run⟩ :=
    segments_passed each ongoing noBranch enough rounds nextId complaints
  refine ⟨trees ++ [], laterId, ?_⟩
  rw [← same] at run
  rw [run, map_run, declarations_closed closed]

/-- Segments at top level. -/
theorem segments_complaints {ending : Token}
    (inner : ∀ token ∈ segments.flatten, token.kind ≠ .endOfInput)
    (ends : ending.kind = .endOfInput) (firstId : Nat) :
    (parseProgram (segments.flatten ++ [ending]) firstId).complaints = segments.flatMap made := by
  have atEnd : leading [ending] = .endOfInput := ends
  have noBranch : leading [ending] ≠ .elseWord := by
    rw [atEnd]
    decide
  have ongoing (kind : Kind) (_ : kind ≠ .rightBrace) (isInner : kind ≠ .endOfInput) :
      decide (kind = .endOfInput) = false := decide_eq_false isInner
  obtain ⟨trees, laterId, run⟩ := segments_read each ongoing (decide_eq_true atEnd) noBranch
    (Nat.le_refl _) firstId []
  exact complaints_of_run inner ends (Nat.le_refl _) run

/-- Segments as the content of a block. -/
theorem segments_fill : FillsBlock segments.flatten (segments.flatMap made) := by
  intro closing rest ending bound nextId closes _ _ enough
  have atBrace : leading (closing :: (rest ++ [ending])) = .rightBrace := closes
  have noBranch : leading (closing :: (rest ++ [ending])) ≠ .elseWord := by
    rw [atBrace]
    decide
  have closed : (decide (leading (closing :: (rest ++ [ending])) = .rightBrace) ||
      decide (leading (closing :: (rest ++ [ending])) = .endOfInput)) = true := by
    rw [atBrace]
    rfl
  have ongoing (kind : Kind) (noBrace : kind ≠ .rightBrace) (isInner : kind ≠ .endOfInput) :
      (decide (kind = .rightBrace) || decide (kind = .endOfInput)) = false := by
    simp [noBrace, isInner]
  obtain ⟨trees, laterId, run⟩ := segments_read each ongoing closed noBranch enough nextId []
  refine ⟨trees, laterId, ?_⟩
  unfold block
  rw [bind_ok run, bind_ok (expect_found (by exact closes))]
  rfl

end Segments

theorem malformed_inner {segment : List Token} (malformed : Malformed segment) :
    ∀ token ∈ segment, token.kind ≠ .endOfInput := by
  obtain ⟨body, semicolon, rfl, closes, plain⟩ := malformed.plain
  rw [List.forall_mem_append, List.forall_mem_singleton, closes]
  exact ⟨fun token member => (plain token member).2.2.2.2.1, by decide⟩

/-- Errors are contained in their own segment. What several segments are blamed for is what each of
them is blamed for on its own, at top level and in blocks at any depth; and every block, the one
with the segments as well as those around it, is closed by its own brace. -/
theorem errors_contained_in_segments {segments : List (List Token)}
    (each : ∀ segment ∈ segments, Derives (form .declaration) segment ∨ Malformed segment)
    {ending last : Token} (ends : ending.kind = .endOfInput) (lastEnds : last.kind = .endOfInput)
    (firstId aloneId : Nat) :
    let blamed := segments.flatMap fun segment =>
      (parseProgram (segment ++ [last]) aloneId).complaints
    (parseProgram (segments.flatten ++ [ending]) firstId).complaints = blamed ∧
    FillsBlock segments.flatten blamed ∧
    ∀ place : BlockPlace,
      (parseProgram (place.around segments.flatten ++ [ending]) firstId).complaints = blamed ∧
        FillsBlock (place.around segments.flatten) blamed := by
  have innerEach : ∀ segment ∈ segments, ∀ token ∈ segment, token.kind ≠ .endOfInput := by
    intro segment member
    exact (each segment member).elim (fun derived => derives_inner derived rfl) malformed_inner
  have inner : ∀ token ∈ segments.flatten, token.kind ≠ .endOfInput := by
    intro token member
    obtain ⟨segment, isSegment, isToken⟩ := List.mem_flatten.mp member
    exact innerEach segment isSegment token isToken
  -- what a segment is blamed for wherever it stands, it is blamed for on its own
  have contained : ∀ segment ∈ segments, Contained segment
      (parseProgram (segment ++ [last]) aloneId).complaints := by
    intro segment member
    obtain ⟨made, isContained⟩ : ∃ made, Contained segment made :=
      (each segment member).elim (fun derived => ⟨[], declaration_contained derived⟩)
        malformed_contained
    have alone : ∀ other ∈ [segment], Contained other made :=
      List.forall_mem_singleton.mpr isContained
    have complaints := segments_complaints alone (by simpa using innerEach segment member) lastEnds
      aloneId
    simp only [List.flatten_cons, List.flatten_nil, List.append_nil, List.flatMap_cons,
      List.flatMap_nil] at complaints
    rwa [complaints]
  have fills := segments_fill contained
  exact ⟨segments_complaints contained inner ends firstId, fills, fun place =>
    ⟨BlockPlace.program_around fills inner ends firstId, BlockPlace.fills_around fills inner⟩⟩

/-- A parenthesis that closes nothing, before a good statement and two levels down. -/
theorem stray_parenthesis_contained :
    let segments : List (List Token) := [[⟨.rightParen, ")", 1⟩, ⟨.semicolon, ";", 1⟩], bareExit]
    let bare : BlockPlace :=
      @BlockPlace.bare ⟨.leftBrace, "\x7b", 1⟩ ⟨.rightBrace, "\x7d", 1⟩ rfl rfl
    (∀ segment ∈ segments, Derives (form .declaration) segment ∨ Malformed segment) ∧
      (⟨.endOfInput, "", 1⟩ : Token).kind = .endOfInput ∧
      (parseProgram ((bare.within bare).around segments.flatten ++ [⟨.endOfInput, "", 1⟩])
        0).complaints = [⟨⟨.rightParen, ")", 1⟩, .expected .expression⟩] := by
  intro segments bare
  have malformed : Malformed [⟨.rightParen, ")", 1⟩, ⟨.semicolon, ";", 1⟩] := by
    refine ⟨⟨[⟨.rightParen, ")", 1⟩], _, rfl, rfl, ?_⟩, fun derived => ?_⟩
    · rw [List.forall_mem_singleton]
      exact ⟨by decide, by decide, by decide, by decide, by decide, rfl⟩
    · obtain ⟨front, back, same, expression, -⟩ := derives_in_order.mp (derives_form.mp derived)
      obtain ⟨first, rest, rfl, starts, -⟩ := expression_begins expression
      obtain ⟨rfl, -⟩ := List.cons.inj same
      cases starts
  have each : ∀ segment ∈ segments, Derives (form .declaration) segment ∨ Malformed segment := by
    rw [List.forall_mem_cons, List.forall_mem_singleton]
    exact ⟨.inr malformed, .inl bare_exit_declared⟩
  have contained := @errors_contained_in_segments segments each ⟨.endOfInput, "", 1⟩
    ⟨.endOfInput, "", 1⟩ rfl rfl 0 0
  exact ⟨each, rfl, (contained.2.2 (bare.within bare)).1⟩

end Lox
