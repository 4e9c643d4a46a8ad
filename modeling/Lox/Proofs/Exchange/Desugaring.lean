import Lox.Proofs.Exchange.Loops
import Lox.Proofs.Exchange.Programs
import Lox.Proofs.Renaming.Replacements

/-!
Loops with clauses and the plain loops they stand for, everywhere. On its own each of the two is
accepted as the same statement up to its numbers, and so it is in the place of the other one in a
program that is accepted, which then goes on in the same way.
-/

namespace Lox

open Rule

/-- A statement that is read with every bound that is large enough is a program on its own. -/
theorem program_of_spans {least width : Nat} {seen : Statement} {tokens : List Token}
    (inner : ∀ token ∈ tokens, token.kind ≠ .endOfInput)
    (spans : ∀ bound, least ≤ bound → (statement bound).Spans (Statement.relabel .unnumbered) tokens
      [⟨.endOfInput, "", 1⟩] seen width) (firstId : Nat) :
    ∃ order, parseProgram (alone tokens) firstId = ⟨.ok [order], firstId + width⟩ ∧
      order.relabel .unnumbered = seen := by
  obtain ⟨bound, enough, isLater⟩ :
      ∃ bound, nesting (alone tokens) ≤ bound + 1 ∧ least ≤ bound :=
    ⟨nesting (alone tokens) + least, by omega, by omega⟩
  have only := declaration_spans_of_statement (spans bound isLater)
  have ongoing :
      decide (leading (tokens ++ ([] ++ [⟨.endOfInput, "", 1⟩])) = .endOfInput) = false :=
    decide_eq_false fun ended => by cases ended ▸ declaration_spans_ongoing only
  have none : (declarations (declaration (bound + 1)) (· = .endOfInput) bound).Spans
      (List.map (Statement.relabel .unnumbered)) [] [⟨.endOfInput, "", 1⟩] [] 0 :=
    fun _ => ⟨[], declarations_closed rfl, rfl⟩
  obtain ⟨orders, run, looks⟩ := declarations_span ongoing only none firstId
  rw [List.append_nil] at run
  obtain ⟨order, rfl, same⟩ := List.map_eq_singleton_iff.mp looks
  refine ⟨order, ?_, same⟩
  have ran := (program_bounded inner rfl enough firstId).symm.trans run
  unfold parseProgram
  dsimp only
  rw [show alone tokens = tokens ++ [⟨.endOfInput, "", 1⟩] from rfl]
  dsimp only [Reading.start] at ran ⊢
  rw [ran]
  rfl

/-- Nothing in this place ends the input. -/
def Slot.Inner : Slot → Prop
  | .mark kind => kind ≠ .endOfInput
  | .part tokens => ∀ token ∈ tokens, token.kind ≠ .endOfInput

theorem fills_inner {slots : List Slot} {tokens : List Token} (fills : Fills slots tokens)
    (inner : ∀ slot ∈ slots, slot.Inner) : ∀ token ∈ tokens, token.kind ≠ .endOfInput := by
  induction slots generalizing tokens with
  | nil =>
      rw [show tokens = [] from fills]
      exact List.forall_mem_nil _
  | cons slot slots induction =>
      rw [List.forall_mem_cons] at inner
      cases slot with
      | mark kind =>
          obtain ⟨token, rest, rfl, fits, further⟩ := fills
          exact List.forall_mem_cons.mpr ⟨fits ▸ inner.1, induction further inner.2⟩
      | part part =>
          obtain ⟨rest, rfl, further⟩ := fills
          exact List.forall_mem_append.mpr ⟨inner.1, induction further inner.2⟩

namespace ForLoop

variable (loop : ForLoop)

/-- Where a branch follows, the body ends in front of it. -/
def EndsBefore (rest : List Token) : Prop := leading rest = .elseWord → ∃ tree next,
  statement (nesting (loop.body ++ rest)) (.start (loop.body ++ rest) 0) = .ok tree ⟨rest, next, []⟩

/-- In front of the same tokens both loops are read as the same statement, up to its numbers. -/
theorem reads {rest : List Token} (ends : loop.EndsBefore rest) : ∃ least seen width,
    ∀ bound, least ≤ bound → ∀ tokens, Fills loop.written tokens ∨ Fills loop.plain tokens →
      (statement bound).Spans (Statement.relabel .unnumbered) tokens rest seen width := by
  have inner := loop.inner
  simp only [List.forall_mem_append] at inner
  obtain ⟨least, enough⟩ : ∃ least, nesting (alone loop.initializer) ≤ least ∧
      nesting (alone loop.condition) ≤ least ∧ nesting (alone loop.increment) ≤ least ∧
      nesting (alone loop.body) ≤ least ∧ nesting (loop.body ++ rest) ≤ least ∧ 24 ≤ least :=
    ⟨nesting (alone loop.initializer) + nesting (alone loop.condition) +
      nesting (alone loop.increment) + nesting (alone loop.body) + nesting (loop.body ++ rest) + 24,
      by omega⟩
  obtain ⟨initializer, first, start⟩ :=
    first_clause_of_alone inner.1.1.1 loop.initializes enough.1
  obtain ⟨condition, second, test⟩ := clause_of_alone inner.1.1.2 loop.tests enough.2.1
  obtain ⟨increment, third, update⟩ := clause_of_alone inner.1.2 loop.steps enough.2.2.1
  obtain ⟨body, parsed, undeclaring⟩ := loop.repeats
  generalize fourthIs : (parseProgram (alone loop.body) 0).nextId = fourth
  have inside (bound : Nat) (isLater : least ≤ bound) (other : List Token)
      (fits : other = rest ∨ leading other ≠ .elseWord) :
      (statement bound).Spans (Statement.relabel .unnumbered) loop.body other
        (body.relabel .unnumbered) fourth := by
    refine fourthIs ▸ statement_spans inner.2 parsed undeclaring (fun branch => ?_) (by omega)
    obtain rfl := fits.resolve_right (not_not_intro branch)
    exact ⟨by omega, ends branch⟩
  refine ⟨least + 6, desugared initializer condition increment (body.relabel .unnumbered),
    first + (second + (third + fourth)), fun bound isLater tokens fills => ?_⟩
  obtain ⟨bound, rfl⟩ : ∃ fewer, bound = fewer + 6 := ⟨bound - 6, by omega⟩
  rcases fills with fills | fills
  · exact written_spans start test update (by omega) (inside _ (by omega) rest (.inl rfl)) fills
  · rw [Nat.add_comm third fourth]
    exact plain_spans start test update (by omega) (by omega)
      (fun more isMore => inside more (by omega)) fills

theorem slots_inner : (∀ slot ∈ loop.written, slot.Inner) ∧ ∀ slot ∈ loop.plain, slot.Inner := by
  have inner := loop.inner
  simp only [List.forall_mem_append] at inner
  obtain ⟨⟨⟨initializer, condition⟩, increment⟩, body⟩ := inner
  have mark {kind : Kind} (inner : decide (kind = .endOfInput) = false) : (Slot.mark kind).Inner :=
    of_decide_eq_false inner
  have round : ∀ slot ∈ loop.round, slot.Inner := by
    unfold round
    split_ifs <;> simp only [List.forall_mem_cons]
    · exact ⟨body, List.forall_mem_nil _⟩
    · exact ⟨mark rfl, body, increment, mark rfl, mark rfl, List.forall_mem_nil _⟩
  have turning : ∀ slot ∈ loop.turning, slot.Inner := by
    unfold turning
    split_ifs <;> simp only [List.forall_mem_cons]
    · exact ⟨mark rfl, mark rfl, mark rfl, mark rfl, round⟩
    · exact ⟨mark rfl, mark rfl, condition, mark rfl, round⟩
  constructor
  · simp only [written, List.forall_mem_cons]
    exact ⟨mark rfl, mark rfl, initializer, condition, mark rfl, increment, mark rfl, body,
      List.forall_mem_nil _⟩
  · unfold plain
    split_ifs
    · exact turning
    · simp only [List.forall_mem_cons, List.forall_mem_append]
      exact ⟨mark rfl, initializer, turning, mark rfl, List.forall_mem_nil _⟩

/-- Both loops begin in a way that shows where they stand. -/
theorem leads {tokens rest : List Token} :
    (Fills loop.written tokens → leading (tokens ++ rest) = .forWord) ∧
      (Fills loop.plain tokens →
        leading (tokens ++ rest) = .whileWord ∨ leading (tokens ++ rest) = .leftBrace) := by
  constructor
  · rintro ⟨keyword, _, rfl, fits, -⟩
    exact fits
  · intro fills
    unfold plain at fills
    split_ifs at fills
    · obtain ⟨keyword, _, rfl, fits, -⟩ := fills
      exact .inl fits
    · obtain ⟨opening, _, rfl, fits, -⟩ := fills
      exact .inr fits

section Filled

variable {loop : ForLoop} {written plain rest : List Token} (isWritten : Fills loop.written written)
  (isPlain : Fills loop.plain plain)

include isWritten isPlain

/-- On their own both loops are accepted, with as many numbers. -/
theorem accepted_alone (firstId firstId' : Nat) : ∃ order order' used,
    parseProgram (alone written) firstId = ⟨.ok [order], firstId + used⟩ ∧
      parseProgram (alone plain) firstId' = ⟨.ok [order'], firstId' + used⟩ ∧
      (Node.statement order).SameButNumbers (.statement order') := by
  have ends : loop.EndsBefore [⟨.endOfInput, "", 1⟩] := fun branch => by cases branch
  obtain ⟨least, seen, used, spans⟩ := loop.reads ends
  obtain ⟨order, run, looks⟩ := program_of_spans (fills_inner isWritten loop.slots_inner.1)
    (fun bound isLater => spans bound isLater written (.inl isWritten)) firstId
  obtain ⟨order', run', looks'⟩ := program_of_spans (fills_inner isPlain loop.slots_inner.2)
    (fun bound isLater => spans bound isLater plain (.inr isPlain)) firstId'
  exact ⟨order, order', used, run, run', congrArg Node.statement (looks'.trans looks.symm)⟩

/-- In front of the same tokens each of the two loops can take the place of the other one. -/
theorem exists_exchange (ends : loop.EndsBefore rest) :
    ∃ exchange : Exchange, exchange.here = written ++ rest ∧ exchange.there = plain ++ rest := by
  obtain ⟨least, seen, used, spans⟩ := loop.reads ends
  refine ⟨⟨written ++ rest, plain ++ rest, rest, least, loop.leads.1 isWritten,
    loop.leads.2 isPlain, fun bound isLater firstId firstId' => ?_⟩, rfl, rfl⟩
  obtain ⟨tree, run, looks⟩ := spans bound isLater written (.inl isWritten) firstId
  obtain ⟨twin, run', looks'⟩ := spans bound isLater plain (.inr isPlain) firstId'
  exact ⟨tree, twin, _, _, run, run', looks'.trans looks.symm, by omega⟩

end Filled

end ForLoop

/-- A loop with clauses is the plain loop that it stands for. On its own it is read as the same
statement, up to numbers. In a program that is accepted the plain loop can take its place, and to a
session that has come so far in whatever way both programs are the same: it replies in the same way
to them and to whatever is played afterwards. -/
theorem for_loop_desugared (loop : ForLoop) {written plain : List Token}
    (isWritten : Fills loop.written written) (isPlain : Fills loop.plain plain) :
    (∀ firstId firstId', ∃ order order' used,
      parseProgram (alone written) firstId = ⟨.ok [order], firstId + used⟩ ∧
        parseProgram (alone plain) firstId' = ⟨.ok [order'], firstId' + used⟩ ∧
        (Node.statement order).SameButNumbers (.statement order')) ∧
    ∀ front back ending, (∀ token ∈ front ++ back, token.kind ≠ .endOfInput) →
      ending.kind = .endOfInput → loop.EndsBefore (back ++ [ending]) → ∀ firstId orders next,
      parseProgram (front ++ written ++ back ++ [ending]) firstId = ⟨.ok orders, next⟩ →
        (∃ orders', parseProgram (front ++ plain ++ back ++ [ending]) firstId =
            ⟨.ok orders', next⟩ ∧ (Node.statements orders).SameButNumbers (.statements orders')) ∧
        ∀ sink time before replies session,
          Session.play before (.start sink time) = some (replies, session) →
          session.nextId = firstId → ∀ supply later,
          session.repliesToTokens supply (front ++ plain ++ back ++ [ending]) later =
              session.repliesToTokens supply (front ++ written ++ back ++ [ending]) later ∧
            ∀ source source', lexicalErrorsOf (scan source) = [] →
              lexicalErrorsOf (scan source') = [] →
              tokensOf (scan source) = front ++ written ++ back ++ [ending] →
              tokensOf (scan source') = front ++ plain ++ back ++ [ending] →
              (Session.play ((supply, .program source') :: later) session).map Prod.fst =
                (Session.play ((supply, .program source) :: later) session).map Prod.fst := by
  refine ⟨ForLoop.accepted_alone isWritten isPlain, ?_⟩
  intro front back ending inner ends branches firstId orders next parsed
  obtain ⟨exchange, isHere, isThere⟩ := ForLoop.exists_exchange isWritten isPlain branches
  rw [← List.append_assoc] at isHere isThere
  rw [List.append_assoc front written back] at parsed ⊢
  rw [List.append_assoc front plain back]
  have innerWritten := fills_inner isWritten loop.slots_inner.1
  have innerPlain := fills_inner isPlain loop.slots_inner.2
  simp only [List.forall_mem_append] at inner
  obtain ⟨orders', parsed', shape⟩ := program_exchanged isHere isThere ends
    (by simp only [List.forall_mem_append]; exact ⟨inner.1, innerWritten, inner.2⟩)
    (by simp only [List.forall_mem_append]; exact ⟨inner.1, innerPlain, inner.2⟩) parsed
  refine ⟨⟨orders', parsed', shape⟩, ?_⟩
  rintro sink time before replies session played rfl supply later
  have same := Session.replies_replaced played parsed parsed' shape supply later
  refine ⟨same, fun source source' clean clean' tokens tokens' => ?_⟩
  rw [Session.replies_to_tokens supply later session clean,
    Session.replies_to_tokens supply later session clean', tokens, tokens']
  exact same

/-- In a block, with all three clauses. -/
theorem for_loop_desugared_in_block : ∃ loop written plain orders orders',
    Fills (ForLoop.written loop) written ∧ Fills (ForLoop.plain loop) plain ∧
      tokensOf (scan "\x7b for (var a = true; a; a = nil) print a; \x7d") =
        [⟨.leftBrace, "\x7b", 1⟩] ++ written ++ [⟨.rightBrace, "\x7d", 1⟩] ++
          [⟨.endOfInput, "", 1⟩] ∧
      tokensOf (scan "\x7b \x7b var a = true; while (a) \x7b print a; a = nil; \x7d \x7d \x7d") =
        [⟨.leftBrace, "\x7b", 1⟩] ++ plain ++ [⟨.rightBrace, "\x7d", 1⟩] ++
          [⟨.endOfInput, "", 1⟩] ∧
      parseProgram (tokensOf (scan "\x7b for (var a = true; a; a = nil) print a; \x7d")) 0 =
        ⟨.ok orders, 4⟩ ∧
      parseProgram (tokensOf (scan
          "\x7b \x7b var a = true; while (a) \x7b print a; a = nil; \x7d \x7d \x7d")) 0 =
        ⟨.ok orders', 4⟩ ∧
      (Node.statements orders).SameButNumbers (.statements orders') ∧
      (Session.play [(40, .program
          "\x7b \x7b var a = true; while (a) \x7b print a; a = nil; \x7d \x7d \x7d")]
        (.start ⟨.unlimited, []⟩ 0)).map Prod.fst = some [.report ⟨.success, "true\n", []⟩] := by
  let name : Token := ⟨.identifier, "a", 1⟩
  let semicolon : Token := ⟨.semicolon, ";", 1⟩
  let equal : Token := ⟨.equal, "=", 1⟩
  let printed : Token := ⟨.printWord, "print", 1⟩
  let loop : ForLoop := {
    initializer := [⟨.varWord, "var", 1⟩, name, equal, ⟨.trueWord, "true", 1⟩, semicolon]
    condition := [name]
    increment := [name, equal, ⟨.nilWord, "nil", 1⟩]
    body := [printed, name, semicolon]
    inner := by decide
    initializes := .inr ⟨.variableDeclaration name (some (.literal (.boolean true))), rfl, rfl⟩
    tests := .inr ⟨.reference ⟨0, name⟩, rfl⟩
    steps := .inr ⟨.assign ⟨1, name⟩ (.literal .nil), rfl⟩
    repeats := ⟨.print (.reference ⟨0, name⟩), rfl, rfl⟩ }
  let written : List Token :=
    ⟨.forWord, "for", 1⟩ :: ⟨.leftParen, "(", 1⟩ :: (loop.initializer ++ (loop.condition ++
      semicolon :: (loop.increment ++ ⟨.rightParen, ")", 1⟩ :: (loop.body ++ []))))
  let plain : List Token :=
    ⟨.leftBrace, "\x7b", 1⟩ :: (loop.initializer ++ ⟨.whileWord, "while", 1⟩ ::
      ⟨.leftParen, "(", 1⟩ :: (loop.condition ++ ⟨.rightParen, ")", 1⟩ :: ⟨.leftBrace, "\x7b", 1⟩ ::
        (loop.body ++ (loop.increment ++ [semicolon, ⟨.rightBrace, "\x7d", 1⟩,
          ⟨.rightBrace, "\x7d", 1⟩]))))
  have isWritten : Fills loop.written written :=
    ⟨_, _, rfl, rfl, _, _, rfl, rfl, _, rfl, _, rfl, _, _, rfl, rfl, _, rfl, _, _, rfl, rfl, _,
      rfl, rfl⟩
  have isPlain : Fills loop.plain plain :=
    ⟨_, _, rfl, rfl, _, rfl, _, _, rfl, rfl, _, _, rfl, rfl, _, rfl, _, _, rfl, rfl, _, _, rfl,
      rfl, _, rfl, _, rfl, _, _, rfl, rfl, _, _, rfl, rfl, _, _, rfl, rfl, rfl⟩
  let orders : List Statement :=
    [.block [.block [.variableDeclaration name (some (.literal (.boolean true))),
      .loop (.reference ⟨0, name⟩) (.block [.print (.reference ⟨3, name⟩),
        .expression (.assign ⟨2, name⟩ (.literal .nil))])]]]
  have tokens : tokensOf (scan "\x7b for (var a = true; a; a = nil) print a; \x7d") =
      [⟨.leftBrace, "\x7b", 1⟩] ++ written ++ [⟨.rightBrace, "\x7d", 1⟩] ++
        [⟨.endOfInput, "", 1⟩] := by rfl
  have tokens' : tokensOf (scan
      "\x7b \x7b var a = true; while (a) \x7b print a; a = nil; \x7d \x7d \x7d") =
      [⟨.leftBrace, "\x7b", 1⟩] ++ plain ++ [⟨.rightBrace, "\x7d", 1⟩] ++
        [⟨.endOfInput, "", 1⟩] := by rfl
  have parsed : parseProgram ([⟨.leftBrace, "\x7b", 1⟩] ++ written ++
      [⟨.rightBrace, "\x7d", 1⟩] ++ [⟨.endOfInput, "", 1⟩]) 0 = ⟨.ok orders, 4⟩ := by rfl
  obtain ⟨-, placed⟩ := for_loop_desugared loop isWritten isPlain
  obtain ⟨⟨orders', parsed', shape⟩, runs⟩ := placed [⟨.leftBrace, "\x7b", 1⟩]
    [⟨.rightBrace, "\x7d", 1⟩] ⟨.endOfInput, "", 1⟩ (by decide) rfl
    (fun branch => by cases branch) 0 orders 4 parsed
  obtain ⟨-, replies⟩ := runs ⟨.unlimited, []⟩ 0 [] [] (.start ⟨.unlimited, []⟩ 0) rfl rfl 40 []
  have replied : (Session.play [(40, .program
      "\x7b for (var a = true; a; a = nil) print a; \x7d")] (.start ⟨.unlimited, []⟩ 0)).map
        Prod.fst = some [.report ⟨.success, "true\n", []⟩] := by decide +kernel
  refine ⟨loop, written, plain, orders, orders', isWritten, isPlain, tokens, tokens', ?_, ?_,
    shape, ?_⟩
  · rw [tokens, parsed]
  · rw [tokens', parsed']
  · exact (replies _ _ (by rfl) (by rfl) tokens tokens').trans replied

end Lox
