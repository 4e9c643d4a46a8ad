import Lox.Proofs.Execution.Reports
import Lox.Proofs.Joining.Scans
import Lox.Proofs.Recovery.Rules

/-!
Reading ends inside its input. Bounds of a few levels for each token are not used up: larger ones,
and any other rules where they are used up, make no difference. The end of the input is never
taken, and what stands behind it is never looked at. Every declaration takes some token, whether it
can be read or not, so that a list of declarations comes to its end.
-/

namespace Lox

/-- Two runs on tokens that go on to the end of the input. -/
def Pairing.toEnd (exactly : Prop) (first second : Side) (gap : Option Gap) : Pairing where
  inside kind := kind ≠ .endOfInput
  stop := .endOfInput
  exactly := exactly
  first := first
  second := second
  gap := gap

/-- A run has taken at least so many of the tokens, or has failed among them; what stands behind
them is still there. -/
def KeepsInside {α : Type} (tokens behind : List Token) (taken : Nat) :
    EStateM.Result Complaint Reading α → Prop
  | .ok _ after => ∃ read left, tokens = read ++ left ∧ taken ≤ read.length ∧
      after.rest = left ++ behind
  | .error _ after => ∃ read left, tokens = read ++ left ∧ after.rest = left ++ behind

/-- What is left of a list with something at its end still has that at its end. -/
theorem split_before_end {α : Type} {tokens read left : List α} {ending : α}
    (split : tokens ++ [ending] = read ++ left) (some : left ≠ []) :
    ∃ inside, left = inside ++ [ending] ∧ tokens = read ++ inside := by
  have last := List.dropLast_append_getLast some
  rw [← last, ← List.append_assoc] at split
  obtain ⟨front, same⟩ := List.append_inj' split rfl
  exact ⟨left.dropLast, by rw [same, last], front⟩

namespace Pairing

variable {exactly : Prop} {first second : Side} {gap : Option Gap} {α : Type}
  {alike : α → α → Prop} {taken : Nat} {one other : EStateM.Result Complaint Reading α}
  {tokens : List Token} {ending : Token}

theorem to_end_covers (inner : ∀ token ∈ tokens, token.kind ≠ .endOfInput)
    (ends : ending.kind = .endOfInput) :
    (toEnd exactly first second gap).Covers (tokens ++ [ending]) := by
  induction tokens with
  | nil => exact .stop ends
  | cons token rest induction =>
      rw [List.forall_mem_cons] at inner
      exact .more inner.1 (induction inner.2)

theorem Ends.keeps_inside
    (ends : (toEnd exactly first second gap).Ends (tokens ++ [ending]) taken alike one other) :
    KeepsInside tokens (ending :: first.beyond) taken one := by
  have inside {read left : List Token} (split : tokens ++ [ending] = read ++ left)
      {here there : Reading} (beside : (toEnd exactly first second gap).Beside left here there) :
      ∃ inside, tokens = read ++ inside ∧ here.rest = inside ++ ending :: first.beyond := by
    obtain ⟨token, rest, same⟩ := beside.covers.head
    obtain ⟨inside, rfl, front⟩ := split_before_end split (by rw [same]; exact List.cons_ne_nil _ _)
    refine ⟨inside, front, ?_⟩
    rw [beside.oneRest, List.append_assoc]
    rfl
  cases ends with
  | ok trees split enough beside =>
      obtain ⟨left, front, rest⟩ := inside split beside
      exact ⟨_, left, front, enough, rest⟩
  | error split beside =>
      obtain ⟨left, front, rest⟩ := inside split beside
      exact ⟨_, left, front, rest⟩

theorem Beside.at_end {here there : Reading}
    (beside : (toEnd exactly first second gap).Beside tokens here there) :
    here.next = there.next ∧ here.atEnd = there.atEnd := by
  obtain ⟨token, rest, same⟩ := beside.covers.head
  obtain ⟨hereNext, thereNext⟩ := beside.next same
  unfold Reading.atEnd
  rw [hereNext, thereNext]
  exact ⟨rfl, rfl⟩

/-- Readings with nothing to tell them apart but what stands behind the end. -/
theorem Beside.agree {here there : Reading}
    (beside : (toEnd True first second gap).Beside tokens here there)
    (sides : first.earlier = second.earlier) :
    here.nextId = there.nextId ∧ here.complaints = there.complaints := by
  obtain ⟨added, hereAdded, thereAdded⟩ := beside.complaints
  refine ⟨beside.numbers trivial, ?_⟩
  change here.complaints = first.earlier ++ added at hereAdded
  change there.complaints = second.earlier ++ added at thereAdded
  rw [hereAdded, thereAdded, sides]

/-- Runs with nothing to tell them apart. -/
theorem Ends.agree {side : Side}
    (ends : (toEnd True side side gap).Ends tokens taken
      (toEnd True side side gap).Same one other) :
    one = other := by
  have readings {left : List Token} {here there : Reading}
      (beside : (toEnd True side side gap).Beside left here there) : here = there := by
    obtain ⟨numbers, complaints⟩ := beside.agree rfl
    have rests := beside.oneRest.trans beside.otherRest.symm
    obtain ⟨rest, nextId, made⟩ := here
    obtain ⟨rest', nextId', made'⟩ := there
    cases numbers
    cases complaints
    cases rests
    rfl
  cases ends with
  | ok trees _ _ beside => rw [trees trivial, readings beside]
  | error _ beside => rw [readings beside]

end Pairing

namespace Rule

variable {α : Type}

/-- A list of declarations is read whatever happens. -/
theorem recovering_ok (rule : Rule α) (reading : Reading) :
    ∃ found after, recovering rule reading = .ok found after := by
  unfold recovering
  cases rule reading with
  | ok tree after => exact ⟨_, _, rfl⟩
  | error complaint after => exact ⟨_, _, rfl⟩

theorem declarations_ok (rule : Rule α) (closes : Kind → Bool) (bound : Nat) (reading : Reading) :
    ∃ trees after, declarations rule closes bound reading = .ok trees after := by
  induction bound generalizing reading with
  | zero => exact ⟨[], reading, rfl⟩
  | succ bound induction =>
      by_cases closed : closes reading.next.kind = true
      · exact ⟨[], reading, declarations_closed closed⟩
      · obtain ⟨found, middle, first⟩ := recovering_ok rule reading
        obtain ⟨others, after, rest⟩ := induction middle
        rw [declarations_once (Bool.eq_false_iff.mpr closed) first, map_run, rest]
        exact ⟨_, after, rfl⟩

variable {exactly : Prop} {first second : Side} {gap : Option Gap} {spent : Rules}
  {bound later size : Nat}

/-- The rules run in step through the end of the input. -/
theorem all_in_step_to_end (cross : BlocksCross (.toEnd exactly first second gap) spent)
    (isLater : bound ≤ later) :
    AllInStep (.toEnd exactly first second gap) bound (.bounded bound) (spent.nested later) :=
  all_in_step (.inl rfl) spent (.inl rfl) cross isLater

/-- With bounds of different size. -/
theorem all_in_step_later (isLater : bound ≤ later) :
    AllInStep (.toEnd exactly first second none) bound (.bounded bound) (.bounded later) := by
  rw [Rules.bounded_eq later]
  exact all_in_step_to_end (blocks_cross _ rfl) isLater

theorem program_in_step (cross : BlocksCross (.toEnd exactly first second gap) spent)
    (isLater : bound ≤ later) (room : 8 * size + 5 ≤ bound + 7) :
    InStep (.toEnd exactly first second gap) size 0 (Pairing.toEnd exactly first second gap).Same
      (declarations (declaration bound) (· = .endOfInput) bound)
      (declarations (spent.nested later).declaration (· = .endOfInput) later) :=
  declarations_in_step rfl ((all_in_step_to_end cross isLater).declaration rfl size room) _ rfl
    isLater (by omega)

end Rule

open Rule

theorem Reading.finish_agrees {α : Type} {here there : Reading}
    (complaints : here.complaints = there.complaints) (numbers : here.nextId = there.nextId)
    (tree : α) :
    here.finish tree = there.finish tree := by
  rw [finish, finish, numbers, complaints]

/-- Runs that differ in nothing but what stands behind the end. -/
def Pairing.beyondEnd (complaints : List Complaint) (more more' : List Token) : Pairing :=
  .toEnd True ⟨more, complaints, []⟩ ⟨more', complaints, []⟩ none

section Parsing

variable {tokens : List Token} {ending : Token} (inner : ∀ token ∈ tokens, token.kind ≠ .endOfInput)
  (ends : ending.kind = .endOfInput)

include inner ends

/-- Readings of the tokens, with different things behind the end. -/
theorem beside_to_end {exactly : Prop} {gap : Option Gap} (first second : Side) (nextId : Nat) :
    (Pairing.toEnd exactly first second gap).Beside (tokens ++ [ending])
      ⟨tokens ++ ending :: first.beyond, nextId, first.earlier⟩
      ⟨tokens ++ ending :: second.beyond, nextId, second.earlier⟩ where
  covers := Pairing.to_end_covers inner ends
  oneRest := (List.append_assoc tokens [ending] first.beyond).symm
  otherRest := (List.append_assoc tokens [ending] second.beyond).symm
  numbers := fun _ => rfl
  complaints := ⟨[], (List.append_nil _).symm, (List.append_nil _).symm⟩

section Bounds

variable {bound later : Nat} (enough : nesting (tokens ++ [ending]) ≤ bound)
  (isLater : bound ≤ later) (spent : Rules) (more more' : List Token) (nextId : Nat)
  (complaints : List Complaint)

/-- A rule that runs in step on that many tokens. -/
theorem ends_beyond {α : Type} {seen : Token → Prop} {taken : Nat} {alike : α → α → Prop}
    {rule twin : Rule α}
    (inStep : InStepWhen (.beyondEnd complaints more more') seen (tokens.length + 2) taken alike
      rule twin) (looked : seen ((tokens ++ [ending]).headD ending)) :
    (Pairing.beyondEnd complaints more more').Ends (tokens ++ [ending]) taken alike
      (rule ⟨tokens ++ ending :: more, nextId, complaints⟩)
      (twin ⟨tokens ++ ending :: more', nextId, complaints⟩) := by
  refine inStep.beside _ _ _ (beside_to_end inner ends ⟨more, complaints, []⟩ _ nextId) ?_ (by simp)
  cases tokens <;> exact looked

include enough isLater

omit inner ends in
theorem all_beyond :
    AllInStep (.beyondEnd complaints more more') bound (.bounded bound) (spent.nested later) ∧
      8 * (tokens.length + 2) + 5 ≤ bound + 7 := by
  refine ⟨all_in_step_to_end (blocks_cross spent rfl) isLater, ?_⟩
  simp only [nesting, List.length_append, List.length_singleton] at enough
  omega

theorem expression_beyond :
    (Pairing.beyondEnd complaints more more').Ends (tokens ++ [ending]) 1
      (Pairing.beyondEnd complaints more more').Same
      (expression bound ⟨tokens ++ ending :: more, nextId, complaints⟩)
      ((spent.nested later).expression ⟨tokens ++ ending :: more', nextId, complaints⟩) := by
  obtain ⟨all, room⟩ := all_beyond enough isLater spent more more' complaints
  have ended := ends_beyond inner ends more more' nextId complaints
    (all.expression (tokens.length + 2) (by omega)) trivial
  exact ended.weaken (Nat.le_refl 1) fun _ _ trees => trees.1

theorem program_beyond :
    (Pairing.beyondEnd complaints more more').Ends (tokens ++ [ending]) 0
      (Pairing.beyondEnd complaints more more').Same
      (declarations (declaration bound) (· = .endOfInput) bound
        ⟨tokens ++ ending :: more, nextId, complaints⟩)
      (declarations (spent.nested later).declaration (· = .endOfInput) later
        ⟨tokens ++ ending :: more', nextId, complaints⟩) := by
  obtain ⟨-, room⟩ := all_beyond enough isLater spent more more' complaints
  exact ends_beyond inner ends more more' nextId complaints
    (program_in_step (blocks_cross spent rfl) isLater room) trivial

omit isLater in
/-- A program is read in the same way with any bound that is large enough. -/
theorem program_bounded :
    declarations (declaration bound) (· = .endOfInput) bound ⟨tokens ++ [ending], nextId, []⟩ =
      declarations (declaration (nesting (tokens ++ [ending]))) (· = .endOfInput)
        (nesting (tokens ++ [ending])) ⟨tokens ++ [ending], nextId, []⟩ := by
  have same := (program_beyond inner ends (Nat.le_refl _) enough (.bounded 0) [] [] nextId []).agree
  rw [← Rules.bounded_eq] at same
  exact same.symm

theorem block_beyond :
    (Pairing.beyondEnd complaints more more').Ends (tokens ++ [ending]) 1
      (Pairing.beyondEnd complaints more more').Same
      (block (declaration bound) bound ⟨tokens ++ ending :: more, nextId, complaints⟩)
      (block (spent.nested later).declaration later
        ⟨tokens ++ ending :: more', nextId, complaints⟩) := by
  obtain ⟨all, room⟩ := all_beyond enough isLater spent more more' complaints
  exact ends_beyond inner ends more more' nextId complaints
    (block_in_step isLater (by omega) rfl (all.declaration rfl (tokens.length + 2) room)) trivial

end Bounds

omit inner ends in
theorem nesting_beyond (more : List Token) :
    nesting (tokens ++ [ending]) ≤ nesting (tokens ++ ending :: more) := by
  simp only [nesting, List.length_append, List.length_cons, List.length_nil]
  omega

theorem parse_program_beyond (more : List Token) (firstId : Nat) :
    parseProgram (tokens ++ ending :: more) firstId =
      parseProgram (tokens ++ [ending]) firstId := by
  have ended := program_beyond inner ends (Nat.le_refl _) (nesting_beyond more) (.bounded 0) [] more
    firstId []
  rw [← Rules.bounded_eq] at ended
  unfold parseProgram
  dsimp only [Reading.start]
  change Pairing.Ends _ _ _ _ _ (declarations (declaration _) _ _ _) at ended
  generalize declarations (declaration (nesting (tokens ++ [ending]))) _ _ _ = outcome,
    declarations (declaration (nesting (tokens ++ ending :: more))) _ _ _ = outcome' at ended ⊢
  cases ended with
  | ok trees _ _ beside =>
      obtain ⟨numbers, complaints⟩ := beside.agree rfl
      rw [trees trivial]
      exact (Reading.finish_agrees complaints numbers _).symm
  | error _ beside =>
      obtain ⟨numbers, complaints⟩ := beside.agree rfl
      simp only [Reading.note, numbers, complaints]

theorem parse_expression_beyond (more : List Token) (firstId : Nat) :
    parseExpression (tokens ++ ending :: more) firstId =
      parseExpression (tokens ++ [ending]) firstId := by
  have ended := expression_beyond inner ends (Nat.le_refl _) (nesting_beyond more) (.bounded 0) []
    more firstId []
  rw [← Rules.bounded_eq] at ended
  unfold parseExpression
  dsimp only [Reading.start]
  change Pairing.Ends _ _ _ _ _ (expression _ _) at ended
  generalize expression (nesting (tokens ++ [ending])) _ = outcome,
    expression (nesting (tokens ++ ending :: more)) _ = outcome' at ended ⊢
  cases ended with
  | ok trees _ _ beside =>
      obtain ⟨numbers, complaints⟩ := beside.agree rfl
      obtain ⟨next, atEnd⟩ := beside.at_end
      have noted : (Reading.note _ _).complaints = (Reading.note _ _).complaints :=
        congrArg₂ (fun made place => made ++ [⟨place, .expected .endOfExpression⟩]) complaints next
      dsimp only
      rw [trees trivial, atEnd, Reading.finish_agrees complaints numbers,
        Reading.finish_agrees noted numbers]
  | error _ beside =>
      obtain ⟨numbers, complaints⟩ := beside.agree rfl
      simp only [Reading.note, numbers, complaints]

theorem parse_line_beyond (more : List Token) (firstId : Nat) :
    parseLine (tokens ++ ending :: more) firstId = parseLine (tokens ++ [ending]) firstId := by
  have ended := expression_beyond inner ends (Nat.le_refl _) (nesting_beyond more) (.bounded 0) []
    more firstId []
  rw [← Rules.bounded_eq] at ended
  unfold parseLine
  dsimp only [Reading.start]
  simp only [parse_program_beyond inner ends more]
  change Pairing.Ends _ _ _ _ _ (expression _ _) at ended
  generalize expression (nesting (tokens ++ [ending])) _ = outcome,
    expression (nesting (tokens ++ ending :: more)) _ = outcome' at ended ⊢
  cases ended with
  | ok trees _ _ beside =>
      obtain ⟨numbers, complaints⟩ := beside.agree rfl
      dsimp only
      rw [trees trivial, beside.at_end.2, numbers, Reading.finish_agrees complaints numbers]
  | error _ beside =>
      simp only [(beside.agree rfl).1]

end Parsing

theorem expression_explained (tokens : List Token) (firstId : Nat) :
    (parseExpression tokens firstId).Explained := by
  unfold parseExpression
  split
  · split_ifs
    · exact Reading.finish_explained _ _
    · exact Reading.finish_explained _ _
  · exact Reading.noted_explained _ _ _

/-- What the scanner hands on ends once, whatever the source text is. -/
theorem scan_ends_once (source : String) : ∃ tokens ending,
    tokensOf (scan source) = tokens ++ [ending] ∧
      (∀ token ∈ tokens, token.kind ≠ .endOfInput) ∧ ending.kind = .endOfInput :=
  ⟨written source, _, tokens_of_scan source, written_inner source, rfl⟩

/-- The rules leave the end of the input where it is, whether they succeed or fail, and each of
them takes some token if it succeeds. -/
structure RulesKeepInside (tokens behind : List Token) (bound : Nat) (reading : Reading) :
    Prop where
  expression : KeepsInside tokens behind 1 (expression bound reading)
  conditional : KeepsInside tokens behind 1 (conditional bound reading)
  unary : KeepsInside tokens behind 1 (unary bound reading)
  statement : KeepsInside tokens behind 1 (statement bound reading)
  declaration : KeepsInside tokens behind 1 (declaration bound reading)

theorem rules_keep_inside {tokens : List Token} {ending : Token}
    (inner : ∀ token ∈ tokens, token.kind ≠ .endOfInput) (ends : ending.kind = .endOfInput)
    {bound : Nat} (enough : nesting (tokens ++ [ending]) ≤ bound) (more : List Token) (nextId : Nat)
    (complaints : List Complaint) :
    RulesKeepInside tokens (ending :: more) bound ⟨tokens ++ ending :: more, nextId, complaints⟩ ∧
      (tokens ≠ [] → KeepsInside tokens (ending :: more) 1
        (recovering (declaration bound) ⟨tokens ++ ending :: more, nextId, complaints⟩)) := by
  obtain ⟨all, room⟩ := all_beyond enough (Nat.le_refl bound) (.bounded 0) more more complaints
  have kept {α : Type} {seen : Token → Prop} {taken : Nat} {alike : α → α → Prop}
      {rule twin : Rule α}
      (inStep : InStepWhen (.beyondEnd complaints more more) seen (tokens.length + 2) taken alike
        rule twin) (looked : seen ((tokens ++ [ending]).headD ending)) :
      KeepsInside tokens (ending :: more) taken
        (rule ⟨tokens ++ ending :: more, nextId, complaints⟩) :=
    (ends_beyond inner ends more more nextId complaints inStep looked).keeps_inside
  have declared := all.declaration rfl (tokens.length + 2) room
  refine ⟨⟨kept (all.expression _ (by omega)) trivial, kept (all.conditional _ (by omega)) trivial,
    kept (all.unary _ (by omega)) trivial, kept (all.statement rfl _ (by omega)) trivial,
    kept declared trivial⟩, fun some => ?_⟩
  obtain ⟨first, rest, rfl⟩ := List.exists_cons_of_ne_nil some
  have recovers : InStepWhen (.beyondEnd complaints more more) (· = first)
      ((first :: rest).length + 2) 1 (Pairing.beyondEnd complaints more more).Same
      (recovering (declaration bound)) (recovering ((Rules.bounded 0).nested bound).declaration) :=
    recovering_in_step rfl (fun _ same => same ▸ inner first List.mem_cons_self) declared
  exact kept recovers rfl

/-- Reading comes to an end inside its input. The first part says that no bound is used up: what the
rules do where theirs is has no bearing on the result, nor has how large the bounds are. The last
part says that source texts are read as such an input. -/
theorem parsing_ends_inside {tokens : List Token} {ending : Token}
    (inner : ∀ token ∈ tokens, token.kind ≠ .endOfInput) (ends : ending.kind = .endOfInput)
    (firstId : Nat) :
    (∀ (spent : Rules) bound, nesting (tokens ++ [ending]) ≤ bound →
      (spent.nested bound).expression (.start (tokens ++ [ending]) firstId) =
          expression (nesting (tokens ++ [ending])) (.start (tokens ++ [ending]) firstId) ∧
        declarations (spent.nested bound).declaration (· = .endOfInput) bound
            (.start (tokens ++ [ending]) firstId) =
          declarations (declaration (nesting (tokens ++ [ending]))) (· = .endOfInput)
            (nesting (tokens ++ [ending])) (.start (tokens ++ [ending]) firstId)) ∧
    (∀ more, parseProgram (tokens ++ ending :: more) firstId =
          parseProgram (tokens ++ [ending]) firstId ∧
        parseExpression (tokens ++ ending :: more) firstId =
          parseExpression (tokens ++ [ending]) firstId ∧
        parseLine (tokens ++ ending :: more) firstId = parseLine (tokens ++ [ending]) firstId) ∧
    (∀ bound more complaints, nesting (tokens ++ [ending]) ≤ bound →
      RulesKeepInside tokens (ending :: more) bound
          ⟨tokens ++ ending :: more, firstId, complaints⟩ ∧
        (tokens ≠ [] → ∃ found after read left,
          recovering (declaration bound) ⟨tokens ++ ending :: more, firstId, complaints⟩ =
            .ok found after ∧
          tokens = read ++ left ∧ 0 < read.length ∧ after.rest = left ++ ending :: more)) ∧
    (parseProgram (tokens ++ [ending]) firstId).Explained ∧
    (parseExpression (tokens ++ [ending]) firstId).Explained ∧
    (parseLine (tokens ++ [ending]) firstId).Explained ∧
    ∀ source, ∃ tokens ending, tokensOf (scan source) = tokens ++ [ending] ∧
      (∀ token ∈ tokens, token.kind ≠ .endOfInput) ∧ ending.kind = .endOfInput := by
  refine ⟨fun spent bound enough => ⟨?_, ?_⟩, fun more =>
    ⟨parse_program_beyond inner ends more firstId, parse_expression_beyond inner ends more firstId,
      parse_line_beyond inner ends more firstId⟩,
    fun bound more complaints enough => ?_, program_explained _ _, expression_explained _ _,
    line_explained _ _, scan_ends_once⟩
  · exact (expression_beyond inner ends (Nat.le_refl _) enough spent [] [] firstId []).agree.symm
  · exact (program_beyond inner ends (Nat.le_refl _) enough spent [] [] firstId []).agree.symm
  · obtain ⟨kept, recovers⟩ := rules_keep_inside inner ends enough more firstId complaints
    refine ⟨kept, fun some => ?_⟩
    obtain ⟨found, after, run⟩ := recovering_ok (declaration bound)
      ⟨tokens ++ ending :: more, firstId, complaints⟩
    have took := recovers some
    rw [run] at took
    obtain ⟨read, left, split, enough, rest⟩ := took
    exact ⟨found, after, read, left, run, split, enough, rest⟩

/-- A brace that closes nothing is stepped over. -/
theorem stray_brace_ends_inside :
    (∀ token ∈ [(⟨.rightBrace, "\x7d", 1⟩ : Token)], token.kind ≠ .endOfInput) ∧
      (⟨.endOfInput, "", 1⟩ : Token).kind = .endOfInput ∧
      ∃ found after read left, recovering (declaration 24)
          ⟨[⟨.rightBrace, "\x7d", 1⟩, ⟨.endOfInput, "", 1⟩], 0, []⟩ = .ok found after ∧
        [(⟨.rightBrace, "\x7d", 1⟩ : Token)] = read ++ left ∧ 0 < read.length ∧
          after.rest = left ++ [⟨.endOfInput, "", 1⟩] := by
  refine ⟨by decide, rfl, ?_⟩
  obtain ⟨-, -, inside, -⟩ := @parsing_ends_inside [⟨.rightBrace, "\x7d", 1⟩] ⟨.endOfInput, "", 1⟩
    (by decide) rfl 0
  exact (inside 24 [] [] (by decide)).2 (by decide)

end Lox
