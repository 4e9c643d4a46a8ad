import Lox.Proofs.Exchange.Parts

/-!
Loops with clauses and what they stand for. Such a loop is another way to write a plain loop: its
first clause moves in front of it, its last one to the end of each round, and each of the two goes
into a block together with what it belongs to. The parser gives out the numbers of the last clause
before those of the body, so that the trees are the same up to these.
-/

namespace Lox

open Rule

/-- A loop with clauses. Each part that is there is accepted on its own. -/
structure ForLoop where
  initializer : List Token
  condition : List Token
  increment : List Token
  body : List Token
  inner : ∀ token ∈ initializer ++ condition ++ increment ++ body, token.kind ≠ .endOfInput
  initializes : (∃ semicolon : Token, initializer = [semicolon] ∧ semicolon.kind = .semicolon) ∨
    ∃ order, (parseProgram (alone initializer) 0).outcome = .ok [order] ∧ order.initializes = true
  tests : condition = [] ∨ ∃ value, (parseExpression (alone condition) 0).outcome = .ok value
  steps : increment = [] ∨ ∃ value, (parseExpression (alone increment) 0).outcome = .ok value
  repeats : ∃ order, (parseProgram (alone body) 0).outcome = .ok [order] ∧
    order.isDeclaration = false

/-- A place in a text: a token of some kind, or tokens that are given. -/
inductive Slot where
  | mark (kind : Kind)
  | part (tokens : List Token)

/-- The tokens fill the places. -/
def Fills : List Slot → List Token → Prop
  | [], tokens => tokens = []
  | .mark kind :: slots, tokens =>
      ∃ token others, tokens = token :: others ∧ token.kind = kind ∧ Fills slots others
  | .part part :: slots, tokens => ∃ others, tokens = part ++ others ∧ Fills slots others

namespace ForLoop

variable (loop : ForLoop)

/-- The loop as it is written, with its clauses between parentheses. -/
def written : List Slot :=
  [.mark .forWord, .mark .leftParen, .part loop.initializer, .part loop.condition,
    .mark .semicolon, .part loop.increment, .mark .rightParen, .part loop.body]

/-- One round, with the last clause at its end. -/
def round : List Slot :=
  if loop.increment = [] then [.part loop.body]
  else [.mark .leftBrace, .part loop.body, .part loop.increment, .mark .semicolon,
    .mark .rightBrace]

/-- The plain loop; without a condition it goes on for ever. -/
def turning : List Slot :=
  .mark .whileWord :: .mark .leftParen ::
    (if loop.condition = [] then .mark .trueWord else .part loop.condition) ::
    .mark .rightParen :: loop.round

/-- What the loop stands for. -/
def plain : List Slot :=
  if loop.initializer.map (·.kind) = [.semicolon] then loop.turning
  else .mark .leftBrace :: .part loop.initializer :: (loop.turning ++ [.mark .rightBrace])

end ForLoop

theorem fills_append {slots others : List Slot} {tokens : List Token}
    (fills : Fills (slots ++ others) tokens) :
    ∃ front back, tokens = front ++ back ∧ Fills slots front ∧ Fills others back := by
  induction slots generalizing tokens with
  | nil => exact ⟨[], tokens, rfl, rfl, fills⟩
  | cons slot slots induction =>
      cases slot with
      | mark kind =>
          obtain ⟨token, rest, rfl, fits, further⟩ := fills
          obtain ⟨front, back, rfl, first, second⟩ := induction further
          exact ⟨token :: front, back, rfl, ⟨token, front, rfl, fits, first⟩, second⟩
      | part part =>
          obtain ⟨rest, rfl, further⟩ := fills
          obtain ⟨front, back, rfl, first, second⟩ := induction further
          exact ⟨part ++ front, back, (List.append_assoc _ _ _).symm, ⟨front, rfl, first⟩, second⟩

/-- How a clause is read that may be left out. -/
inductive Clause (least : Nat) : List Token → Option Expression → Nat → Prop where
  | absent : Clause least [] none 0
  | present {tokens : List Token} {value : Expression} {width : Nat}
      (begins : Begins Kind.startsExpression tokens)
      (spans : ∀ bound, least ≤ bound → ∀ rest, (leading rest).EndsExpression →
        (expression bound).Spans (Expression.relabel .unnumbered) tokens rest value width) :
      Clause least tokens (some value) width

/-- How the first clause of a loop is read, there and as a declaration. -/
inductive FirstClause (least : Nat) : List Token → Option Statement → Nat → Prop where
  | absent {semicolon : Token} (fits : semicolon.kind = .semicolon) :
      FirstClause least [semicolon] none 0
  | present {tokens : List Token} {order : Statement} {width : Nat}
      (some : tokens.map (·.kind) ≠ [.semicolon])
      (spans : ∀ bound, least ≤ bound → ∀ rest, leading rest ≠ .elseWord →
        (forInitializer (expression bound)).Spans (Option.map (Statement.relabel .unnumbered))
            tokens rest (Option.some order) width ∧
          (declaration bound).Spans (Statement.relabel .unnumbered) tokens rest order width) :
      FirstClause least tokens (Option.some order) width

section Clauses

variable {least bound width : Nat} {tokens rest : List Token}

theorem Clause.leads {value : Option Expression} (clause : Clause least tokens value width)
    {closing : Token} {kind : Kind} (closes : closing.kind = kind) (other : kind ≠ .elseWord) :
    leading (tokens ++ closing :: rest) ≠ .elseWord := by
  cases clause with
  | absent => exact fun branch => other (closes.symm.trans branch)
  | present begins _ =>
      intro branch
      cases (branch ▸ begins.leads (closing :: rest) : Kind.startsExpression .elseWord = true)

theorem optional_spans {value : Option Expression} (clause : Clause least tokens value width)
    (enough : least ≤ bound) {closing : Token} {kind : Kind} (closes : closing.kind = kind)
    (ends : kind.EndsExpression) (never : kind.startsExpression = false) :
    (Rule.optional kind (expression bound)).Spans
      (Option.map (Expression.relabel .unnumbered)) tokens (closing :: rest) value width := by
  have chosen (reading : Reading) : Rule.optional kind (expression bound) reading =
      if reading.next.kind = kind then .ok none reading
        else (some <$> expression bound) reading := by
    change (if reading.next.kind = kind then pure none else some <$> expression bound :
      Rule (Option Expression)) reading = _
    split_ifs <;> rfl
  intro firstId
  cases clause with
  | absent => exact ⟨none, (chosen _).trans (if_pos (by exact closes)), rfl⟩
  | present begins spans =>
      obtain ⟨tree, run, looks⟩ := spans bound enough (closing :: rest)
        (by rw [show leading (closing :: rest) = kind from closes]; exact ends) firstId
      have starts := begins.leads (closing :: rest)
      have other : (Reading.next ⟨tokens ++ closing :: rest, firstId, []⟩).kind ≠ kind := by
        rintro rfl
        cases starts.symm.trans never
      refine ⟨some tree, ?_, congrArg some looks⟩
      rw [chosen, if_neg other]
      exact map_ok run

theorem first_clause_initializes {order : Option Statement}
    (clause : FirstClause least tokens order width) (enough : least ≤ bound)
    (noBranch : leading rest ≠ .elseWord) :
    (forInitializer (expression bound)).Spans (Option.map (Statement.relabel .unnumbered)) tokens
      rest order width := by
  cases clause with
  | present _ spans => exact (spans bound enough rest noBranch).1
  | absent fits =>
      intro firstId
      exact ⟨none, (for_initializer_eq _ _).trans (if_pos (by exact fits)), rfl⟩

end Clauses

section Loops

variable {loop : ForLoop} {least bound first second third fourth : Nat} {tokens rest : List Token}
  {initializer : Option Statement} {condition increment : Option Expression} {body : Statement}
  (start : FirstClause least loop.initializer initializer first)
  (test : Clause least loop.condition condition second)
  (update : Clause least loop.increment increment third)

include start test update in
theorem written_spans (enough : least ≤ bound) (inside : (statement bound).Spans
      (Statement.relabel .unnumbered) loop.body rest body fourth)
    (fills : Fills loop.written tokens) :
    (statement (bound + 1)).Spans (Statement.relabel .unnumbered) tokens rest
      (desugared initializer condition increment body) (first + (second + (third + fourth))) := by
  obtain ⟨keyword, _, rfl, isFor, opening, _, rfl, opens, _, rfl, _, rfl, semicolon, _, rfl,
    isSemicolon, _, rfl, closing, _, rfl, closes, _, rfl, rfl⟩ := fills
  rw [List.append_nil]
  have clauses : (forStatement (expression bound) (statement bound)).Spans
      (Statement.relabel .unnumbered) (opening :: (loop.initializer ++ (loop.condition ++
        semicolon :: (loop.increment ++ closing :: loop.body)))) rest
      (desugared initializer condition increment body) (first + (second + (third + fourth))) := by
    refine expect_spans opens (bind_spans (first_clause_initializes start enough ?_)
      fun one ones => bind_spans (optional_spans test enough isSemicolon ?_ ?_)
      fun two twos => expect_spans isSemicolon (bind_spans
        (optional_spans update enough closes ?_ ?_)
      fun three threes => expect_spans closes (finish_spans inside fun four fours => ?_)))
    · rw [List.append_assoc]
      exact test.leads isSemicolon (by decide)
    · decide
    · rfl
    · decide
    · rfl
    · rw [← desugared_relabel, ones, twos, threes, fours]
  refine entering_spans (fun others nextId => ?_) clauses
  obtain ⟨kind, lexeme, line⟩ := keyword
  obtain rfl : kind = .forWord := isFor
  rfl

/-- A statement that is read as such is read as a declaration. -/
theorem declaration_spans_of_statement {order : Statement} {width : Nat}
    (spans : (statement bound).Spans (Statement.relabel .unnumbered) tokens rest order width) :
    (declaration (bound + 1)).Spans (Statement.relabel .unnumbered) tokens rest order width := by
  intro firstId
  obtain ⟨tree, run, looks⟩ := spans firstId
  have account := (accounts bound).statement ⟨tokens ++ rest, firstId, []⟩
  rw [run] at account
  obtain ⟨read, split, derived, -⟩ := account.2 rfl
  obtain rfl : tokens = read := List.append_cancel_right split
  exact ⟨tree, (declaration_of_statement (statement_begins derived)).trans run, looks⟩

/-- An expression in front of a semicolon is a statement. -/
theorem statement_spans_of_expression {semicolon : Token}
    (isSemicolon : semicolon.kind = .semicolon) (begins : Begins Kind.startsExpression tokens)
    {value : Expression} {width : Nat}
    (spans : (expression bound).Spans (Expression.relabel .unnumbered) tokens (semicolon :: rest)
      value width) :
    (statement (bound + 1)).Spans (Statement.relabel .unnumbered) (tokens ++ [semicolon]) rest
      (.expression value) width := by
  have evaluated : (expressionStatement (expression bound)).Spans (Statement.relabel .unnumbered)
      (tokens ++ [semicolon]) rest (.expression value) (width + 0) := by
    refine bind_spans spans fun tree looks => expect_spans isSemicolon ?_
    rw [← looks]
    exact pure_spans (Statement.expression tree)
  intro firstId
  obtain ⟨tree, run, looks⟩ := evaluated firstId
  exact ⟨tree, (statement_of_expression begins.append).trans run, looks⟩

include update in
theorem round_spans (enough : least ≤ bound) (inside : ∀ more ≥ bound, ∀ other : List Token,
      other = rest ∨ leading other ≠ .elseWord → (statement more).Spans
        (Statement.relabel .unnumbered) loop.body other body fourth)
    (fills : Fills loop.round tokens) :
    (statement (bound + 3)).Spans (Statement.relabel .unnumbered) tokens rest
      (stepped increment body) (fourth + third) := by
  unfold ForLoop.round at fills
  generalize loop.increment = clause at update fills
  cases update with
  | absent =>
      obtain ⟨_, rfl, rfl⟩ := fills
      rw [List.append_nil]
      exact inside _ (Nat.le_add_right _ _) rest (.inl rfl)
  | present begins spans =>
      obtain ⟨token, others, rfl, -⟩ := id begins
      obtain ⟨opening, _, rfl, opens, _, rfl, _, rfl, semicolon, _, rfl, isSemicolon, closing, _,
        rfl, closes, rfl⟩ := fills
      have ends : (leading (semicolon :: closing :: rest)).EndsExpression := by
        rw [show leading (semicolon :: closing :: rest) = .semicolon from isSemicolon]
        decide
      have value := spans bound enough _ ends
      have last := declaration_spans_of_statement
        (statement_spans_of_expression isSemicolon begins value)
      have noBranch :
          leading ((token :: others) ++ [semicolon] ++ closing :: rest) ≠ .elseWord := by
        intro branch
        have starts := begins.leads ([semicolon] ++ closing :: rest)
        rw [← List.append_assoc, branch] at starts
        cases starts
      have only := declaration_spans_of_statement
        (inside (bound + 1) (Nat.le_succ bound) _ (.inr noBranch))
      have block := pair_spans opens closes (by omega) only last
      rw [List.append_assoc (token :: others)] at block
      exact block

/-- What is tested before each round; where nothing is written, that is a word that is true. -/
theorem condition_spans (test : Clause least loop.condition condition second)
    (enough : least ≤ bound) (deep : 24 ≤ bound) {slots : List Slot}
    (fills : Fills
      ((if loop.condition = [] then .mark .trueWord else .part loop.condition) :: slots) tokens) :
    ∃ front back, tokens = front ++ back ∧ Fills slots back ∧
      ∀ rest, (leading rest).EndsExpression →
        (expression bound).Spans (Expression.relabel .unnumbered) front rest
          (condition.getD (.literal (.boolean true))) second := by
  generalize loop.condition = clause at test fills
  cases test with
  | absent =>
      obtain ⟨word, back, rfl, isTrue, others⟩ := fills
      refine ⟨[word], back, rfl, others, fun rest stops => ?_⟩
      have run : expression (nesting (alone [word])) (.start (alone [word]) 0) =
          .ok (.literal (.boolean true)) ⟨[⟨.endOfInput, "", 1⟩], 0, []⟩ := by
        obtain ⟨kind, lexeme, line⟩ := word
        obtain rfl : kind = .trueWord := isTrue
        rfl
      exact spans_of_run
        (fun distance => (all_natural (Labels.shift_silent distance) bound).expression)
        Expression.unnumbered_shift (expression_before_stop rfl run deep stops)
  | present begins spans =>
      obtain ⟨token, others, rfl, -⟩ := id begins
      obtain ⟨back, rfl, others⟩ := fills
      exact ⟨_, back, rfl, others, spans bound enough⟩

include test update in
theorem turning_spans (enough : least ≤ bound) (deep : 24 ≤ bound)
    (inside : ∀ more ≥ bound, ∀ other : List Token, other = rest ∨ leading other ≠ .elseWord →
      (statement more).Spans (Statement.relabel .unnumbered) loop.body other body fourth)
    (fills : Fills loop.turning tokens) :
    (statement (bound + 4)).Spans (Statement.relabel .unnumbered) tokens rest
      (.loop (condition.getD (.literal (.boolean true))) (stepped increment body))
      (second + (fourth + third)) := by
  obtain ⟨keyword, _, rfl, loops, opening, _, rfl, opens, clauses⟩ := fills
  have enoughHere : least ≤ bound + 3 := by omega
  obtain ⟨front, _, rfl, ⟨closing, back, rfl, closes, round⟩, spans⟩ :=
    condition_spans test enoughHere (by omega) clauses
  refine while_spans loops opens closes (spans _ ?_) (round_spans update enough inside round)
  rw [show leading (closing :: (back ++ rest)) = .rightParen from closes]
  decide

include start test update in
theorem plain_spans (enough : least ≤ bound) (deep : 24 ≤ bound)
    (inside : ∀ more ≥ bound, ∀ other : List Token, other = rest ∨ leading other ≠ .elseWord →
      (statement more).Spans (Statement.relabel .unnumbered) loop.body other body fourth)
    (fills : Fills loop.plain tokens) :
    (statement (bound + 6)).Spans (Statement.relabel .unnumbered) tokens rest
      (desugared initializer condition increment body) (first + (second + (fourth + third))) := by
  unfold ForLoop.plain at fills
  generalize loop.initializer = clause at start fills
  cases start with
  | absent fits =>
      rw [if_pos (by rw [List.map_singleton, fits])] at fills
      rw [Nat.zero_add]
      exact turning_spans test update (by omega) (by omega)
        (fun more isMore => inside more (by omega)) fills
  | present some spans =>
      rw [if_neg some] at fills
      obtain ⟨opening, _, rfl, opens, _, rfl, fills⟩ := fills
      obtain ⟨turning, _, rfl, turns, closing, _, rfl, closes, rfl⟩ := fills_append fills
      have ended : leading (closing :: rest) ≠ .elseWord := by
        rw [show leading (closing :: rest) = .rightBrace from closes]
        decide
      have turned := turning_spans test update enough deep (fun more isMore other fits =>
        inside more isMore other (.inr (fits.elim (· ▸ ended) id))) turns
      have leads : leading (turning ++ closing :: rest) = .whileWord := by
        obtain ⟨keyword, _, rfl, loops, -⟩ := turns
        exact loops
      have initial := (spans (bound + 5) (by omega) (turning ++ closing :: rest)
        (by rw [leads]; decide)).2
      exact pair_spans opens closes (by omega) initial (declaration_spans_of_statement turned)

end Loops

section Parts

variable {tokens : List Token} (inner : ∀ token ∈ tokens, token.kind ≠ .endOfInput)

include inner

theorem clause_of_alone (given : tokens = [] ∨
      ∃ value, (parseExpression (alone tokens) 0).outcome = .ok value) {least : Nat}
    (isLater : nesting (alone tokens) ≤ least) :
    ∃ value width, Clause least tokens value width := by
  rcases given with rfl | ⟨value, parsed⟩
  · exact ⟨none, 0, .absent⟩
  · obtain ⟨begins, width, spans⟩ := expression_spans inner parsed
    exact ⟨some _, width, .present begins fun bound enough => spans bound (isLater.trans enough)⟩

theorem first_clause_of_alone (given : (∃ semicolon : Token, tokens = [semicolon] ∧
        semicolon.kind = .semicolon) ∨ ∃ order,
      (parseProgram (alone tokens) 0).outcome = .ok [order] ∧ order.initializes = true)
    {least : Nat} (isLater : nesting (alone tokens) ≤ least) :
    ∃ order width, FirstClause least tokens order width := by
  rcases given with ⟨semicolon, rfl, fits⟩ | ⟨order, parsed, initializes⟩
  · exact ⟨none, 0, .absent fits⟩
  · have spans (bound : Nat) (enough : least ≤ bound) (rest : List Token)
        (noBranch : leading rest ≠ .elseWord) :=
      first_clause_spans inner parsed initializes (isLater.trans enough) noBranch
    refine ⟨some _, _, .present (fun only => ?_) spans⟩
    -- no declaration begins with a semicolon
    obtain ⟨semicolon, rfl, fits⟩ := List.map_eq_singleton_iff.mp only
    have leads := declaration_spans_ongoing (spans least (Nat.le_refl _) [] nofun).2
    rw [show leading ([semicolon] ++ []) = .semicolon from fits] at leads
    cases leads

end Parts

end Lox
