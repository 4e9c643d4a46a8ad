import Lox.Proofs.Recovery.Places

/-!
Statements without their last semicolon. What a statement has read up to its semicolon, it reads
again where a closing brace comes instead, and stops there: no other token is taken, nothing else
is complained about, and what is missing is missing at the brace.
-/

namespace Lox.Rule

open Phrase

variable {α β : Type}

/-- A rule that has read up to a semicolon takes at least so many tokens, and stops at a brace in
place of the semicolon. -/
structure Cut (size taken : Nat) (rule : Rule α) (before : Reading) (read : List Token) (_ : α)
    (after : Reading) : Prop where
  split : before.rest = read ++ after.rest
  long : before.rest.length < size → taken ≤ read.length
  stops : before.rest.length < size → ∀ front semicolon, read = front ++ [semicolon] →
    semicolon.kind = .semicolon → ∀ brace rest complaints, brace.kind = .rightBrace →
      (front ++ brace :: rest).length < size → ∃ item laterId,
        rule ⟨front ++ brace :: rest, before.nextId, complaints⟩ =
          .error ⟨brace, .expected item⟩ ⟨brace :: rest, laterId, complaints⟩

def Cuts (size taken : Nat) (rule : Rule α) : Prop := rule.Reads (Cut size taken rule)

/-- The same, once the next token has been looked at. -/
def CutsAt (token : Token) (size taken : Nat) (rule : Rule α) : Prop :=
  ReadsAt token rule (Cut size taken rule)

/-- A rule that has read up to a semicolon gets to a brace in its place, or stops there. -/
def Stands (size : Nat) (rule : Rule α) : Prop :=
  rule.Reads fun before read _ after => before.rest = read ++ after.rest ∧
    (before.rest.length < size → leading after.rest = .semicolon → ∀ brace rest complaints,
      brace.kind = .rightBrace → (read ++ brace :: rest).length < size →
        (∃ tree laterId, rule ⟨read ++ brace :: rest, before.nextId, complaints⟩ =
          .ok tree ⟨brace :: rest, laterId, complaints⟩) ∨
        ∃ item laterId, rule ⟨read ++ brace :: rest, before.nextId, complaints⟩ =
          .error ⟨brace, .expected item⟩ ⟨brace :: rest, laterId, complaints⟩)

/-- A token that had to be there. -/
theorem expect_takes {kind : Kind} {item : Missing} (inner : kind ≠ .endOfInput) :
    (expect kind item).Reads fun before read token after =>
      before.rest = read ++ after.rest ∧ read = [token] ∧ token.kind = kind ∧
        after.nextId = before.nextId := by
  intro before
  by_cases fits : before.next.kind = kind
  · rw [expect_found fits]
    have rest := rest_of_next (fits ▸ inner)
    exact ⟨.same rfl rfl, fun _ => ⟨[before.next], rest, rest, rfl, fits, rfl⟩⟩
  · rw [expect_absent fits]
    exact .same rfl rfl

theorem Stands.smaller {size fewer : Nat} {rule : Rule α} (stands : Stands size rule)
    (isFewer : fewer ≤ size) : Stands fewer rule := by
  refine Reads.weaken stands ?_
  rintro before read tree after ⟨split, goes⟩
  refine ⟨split, fun short ahead brace rest complaints isBrace few => ?_⟩
  exact goes (short.trans_le isFewer) ahead brace rest complaints isBrace (few.trans_le isFewer)

theorem Stands.map {size : Nat} {rule : Rule α} (stands : Stands size rule) (make : α → β) :
    Stands size (make <$> rule) := by
  rw [map_eq_pure_bind]
  refine Reads.finish stands ?_
  rintro before read tree after ⟨split, goes⟩
  refine ⟨split, fun short ahead brace rest complaints isBrace few => ?_⟩
  rcases goes short ahead brace rest complaints isBrace few with ⟨tree, laterId, run⟩ |
    ⟨item, laterId, run⟩
  · exact .inl ⟨make tree, laterId, bind_ok run⟩
  · exact .inr ⟨item, laterId, bind_error run⟩

theorem Cut.behind {size taken ahead : Nat} {closed : Bool} {rule : Rule α} {next : α → Rule β}
    {before middle after : Reading} {front back : List Token} {tree : α} {result : β}
    (cut : Cut (size - ahead) taken (next tree) middle back result after)
    (once : Repeated size ahead closed rule before front tree middle) (pair : 2 ≤ taken) :
    Cut size taken (rule >>= next) before (front ++ back) result after := by
  have lengths : before.rest.length = front.length + middle.rest.length := by
    rw [once.split, List.length_append]
  have shorter (short : before.rest.length < size) : middle.rest.length < size - ahead := by
    have enough := once.long short
    omega
  refine ⟨by rw [once.split, cut.split, List.append_assoc], fun short => ?_, ?_⟩
  · have enough := cut.long (shorter short)
    rw [List.length_append]
    omega
  · intro short whole semicolon same closes brace rest complaints isBrace few
    have enough := pair.trans (cut.long (shorter short))
    obtain ⟨inside, rfl, rfl⟩ := split_before_end same.symm
      (List.length_pos_iff.mp (Nat.zero_lt_two.trans_le enough))
    obtain ⟨first, others, rfl⟩ : ∃ first others, inside = first :: others := by
      refine List.exists_cons_of_length_pos ?_
      rw [List.length_append, List.length_singleton] at enough
      omega
    -- the semicolon is not the first token behind the rule, which sees the same token there
    have hidden : Replaces closed middle.rest (first :: others ++ brace :: rest) := by
      rw [cut.split]
      exact .inl rfl
    have run := once.again short _ complaints hidden
    rw [List.append_assoc, List.length_append] at few
    have taken := once.long short
    obtain ⟨item, laterId, stops⟩ := cut.stops (shorter short) (first :: others) semicolon rfl
      closes brace rest complaints isBrace (by omega)
    refine ⟨item, laterId, ?_⟩
    rw [List.append_assoc, bind_ok run]
    exact stops

/-- A rule behind which nothing is read any more. -/
theorem Cut.last {size taken : Nat} {rule : Rule α} {next : α → Rule β}
    {before middle after : Reading} {read : List Token} {tree : α} {result : β}
    (cut : Cut size taken rule before read tree middle)
    (stays : middle.rest = after.rest) :
    Cut size taken (rule >>= next) before read result after := by
  refine ⟨by rw [cut.split, stays], cut.long, ?_⟩
  intro short front semicolon same closes brace rest complaints isBrace few
  obtain ⟨item, laterId, run⟩ := cut.stops short front semicolon same closes brace rest complaints
    isBrace few
  exact ⟨item, laterId, bind_error run⟩

/-- Behind a first token, which is not the semicolon. -/
theorem Cut.headed {size taken : Nat} {token : Token} {rule : Rule α} {whole : Rule β}
    {before middle after : Reading} {back : List Token} {tree : α} (result : β)
    (cut : Cut (size - 1) taken rule middle back tree after) (some : 0 < taken)
    (split : before.rest = [token] ++ middle.rest)
    (goes : ∀ rest complaints, ∃ next : α → Rule β,
      whole ⟨token :: rest, before.nextId, complaints⟩ =
        (rule >>= next) ⟨rest, middle.nextId, complaints⟩) :
    Cut size (taken + 1) whole before ([token] ++ back) result after := by
  have lengths : before.rest.length = middle.rest.length + 1 := by
    rw [split, List.singleton_append, List.length_cons]
  refine ⟨by rw [split, cut.split, List.append_assoc], fun short => ?_, ?_⟩
  · have enough := cut.long (by omega)
    rw [List.length_append, List.length_singleton]
    omega
  · intro short whole semicolon same closes brace rest complaints isBrace few
    have enough := some.trans_le (cut.long (by omega))
    obtain ⟨inside, rfl, rfl⟩ := split_before_end same.symm (List.length_pos_iff.mp enough)
    rw [List.append_assoc, List.singleton_append, List.length_cons] at few
    obtain ⟨item, laterId, stops⟩ := cut.stops (by omega) inside semicolon rfl closes brace rest
      complaints isBrace (by omega)
    obtain ⟨next, same⟩ := goes (inside ++ brace :: rest) complaints
    exact ⟨item, laterId, same.trans (bind_error stops)⟩

/-- Stepping over a token that is not the end. -/
theorem Cuts.step {size taken : Nat} {rule : Rule α} (cuts : Cuts (size - 1) taken rule)
    (some : 0 < taken) : (skip >>= fun _ => rule).Reads fun before read tree after =>
      before.next.kind ≠ .endOfInput →
        Cut size (taken + 1) (skip >>= fun _ => rule) before read tree after := by
  refine skip_takes.bind fun _ => Reads.weaken cuts ?_
  rintro middle back result after cut before front stepped inner
  obtain ⟨split, rfl, numbers⟩ := stepped inner
  refine cut.headed result some split fun rest complaints => ⟨pure, ?_⟩
  rw [bind_pure, numbers]
  rfl

/-- Stepping over the token on which a choice was made. -/
theorem CutsAt.step {size taken : Nat} {token : Token} {kind : Kind} {rule : Rule α}
    (fits : token.kind = kind) (inner : kind ≠ .endOfInput) (cuts : Cuts (size - 1) taken rule)
    (some : 0 < taken) : CutsAt token size (taken + 1) (skip >>= fun _ => rule) := by
  refine Reads.weaken (cuts.step some) fun before read tree after means isNext => means ?_
  rw [isNext, fits]
  exact inner

namespace Cuts

variable {size taken : Nat} {rule : Rule α}

theorem longer (cuts : Cuts size taken rule) {more : Nat} {closed : Bool}
    (repeats : Repeats size more closed rule rule) : Cuts size more rule :=
  Reads.weaken (Reads.both cuts repeats) fun _ _ _ _ both =>
    ⟨both.1.split, both.2.long, both.1.stops⟩

theorem smaller (cuts : Cuts size taken rule) {fewer less : Nat} (isFewer : fewer ≤ size)
    (isLess : less ≤ taken) : Cuts fewer less rule := by
  refine Reads.weaken cuts fun before read tree after cut => ⟨cut.split, ?_, ?_⟩
  · exact fun short => isLess.trans (cut.long (short.trans_le isFewer))
  · intro short front semicolon same closes brace rest complaints isBrace few
    exact cut.stops (short.trans_le isFewer) front semicolon same closes brace rest complaints
      isBrace (few.trans_le isFewer)

theorem missing (item : Missing) : Cuts size taken (Rule.missing item : Rule α) :=
  missing_reads item

theorem anywhere {token : Token} (cuts : Cuts size taken rule) : CutsAt token size taken rule :=
  Reads.anywhere cuts

/-- What ends with a brace has no last semicolon. -/
theorem of_braced {closed : Bool} (phrases : List Phrase)
    (repeats : Repeats size taken closed rule rule)
    (braced : rule.Reads fun _ read _ _ => Derives (inOrder (phrases ++ [word .rightBrace])) read) :
    Cuts size taken rule := by
  refine Reads.weaken (Reads.both repeats braced) ?_
  rintro before read tree after ⟨once, derived⟩
  refine ⟨once.split, once.long, ?_⟩
  intro _ front semicolon same closes
  obtain ⟨inside, last, rfl, -, isLast⟩ := derives_in_order_append.mp derived
  obtain ⟨brace, rfl, isBrace⟩ := derives_word.mp (derives_in_order_one.mp isLast)
  obtain ⟨-, isSame⟩ := List.append_inj' same rfl
  cases isSame
  rw [isBrace] at closes
  cases closes

/-- What stands before a semicolon that is missing. -/
theorem sealed {item : Missing} {make : α → β} (stands : Stands size rule) :
    Cuts size 1 (rule >>= fun tree => expect .semicolon item >>= fun _ => pure (make tree)) := by
  refine Reads.bind stands fun tree => (expect_takes (by decide)).finish ?_
  rintro middle back semicolon after ⟨splitBack, rfl, closes, -⟩ before front ⟨splitFront, goes⟩
  refine ⟨by rw [splitFront, splitBack, List.append_assoc], fun _ => by simp, ?_⟩
  intro short front' semicolon' same _ brace rest complaints isBrace few
  obtain ⟨rfl, -⟩ := List.append_inj' same rfl
  have ahead : leading middle.rest = .semicolon := by
    rw [splitBack]
    exact closes
  rcases goes short ahead brace rest complaints isBrace few with ⟨tree', laterId, run⟩ |
    ⟨other, laterId, run⟩
  · refine ⟨item, laterId, ?_⟩
    rw [bind_ok run]
    exact bind_error (expect_absent (by simp [Reading.next, isBrace]))
  · exact ⟨other, laterId, bind_error run⟩

theorem finish {make : α → β} (cuts : Cuts size taken rule) :
    Cuts size taken (rule >>= fun tree => pure (make tree)) :=
  Reads.finish cuts fun _ _ _ _ cut => cut.last rfl

/-- Behind a rule that is not the last one. -/
theorem bind {next : α → Rule β} {ahead : Nat} {closed : Bool}
    (first : Repeats size ahead closed rule rule)
    (following : ∀ tree, Cuts (size - ahead) taken (next tree)) (pair : 2 ≤ taken) :
    Cuts size taken (rule >>= next) :=
  Reads.bind first fun tree => Reads.weaken (following tree) fun _ _ _ _ cut _ _ once =>
    cut.behind once pair

/-- Behind a token that must be there. -/
theorem expect {kind : Kind} {item : Missing} {next : Token → Rule β} (inner : kind ≠ .endOfInput)
    (following : ∀ token, Cuts (size - 1) taken (next token)) (some : 0 < taken) :
    Cuts size (taken + 1) (Rule.expect kind item >>= next) := by
  refine Reads.bind (expect_takes inner) fun token => Reads.weaken (following token) ?_
  rintro middle back result after cut before front ⟨split, rfl, fits, numbers⟩
  refine cut.headed result some split fun rest complaints => ⟨Pure.pure, ?_⟩
  rw [bind_pure, bind_ok (expect_found (by exact fits)), numbers]
  rfl

/-- The same, with the token behind something that has been read already. -/
theorem expect_onward {kind : Kind} {item : Missing} {next : Token → Rule β}
    (inner : kind ≠ .endOfInput) (following : ∀ token, Cuts (size - 1) 2 (next token)) :
    Cuts size 2 (Rule.expect kind item >>= next) :=
  (expect inner following Nat.zero_lt_two).smaller (Nat.le_refl _) (Nat.le_succ 2)

/-- After a look at what comes next, where the brace looks like the semicolon behind a token. -/
theorem look {γ : Type} (ask : Rule γ) (sees : List Token → γ)
    (asked : ∀ reading, ask reading = .ok (sees reading.rest) reading)
    (same : ∀ first others semicolon back brace rest, semicolon.kind = .semicolon →
      brace.kind = .rightBrace →
        sees (first :: others ++ brace :: rest) = sees (first :: others ++ semicolon :: back))
    {next : γ → Rule β} (each : ∀ found, (next found).Reads fun before read tree after =>
      sees before.rest = found → Cut size taken (next found) before read tree after)
    (pair : 2 ≤ taken) : Cuts size taken (ask >>= next) := by
  have reads : ask.Reads fun before read found after =>
      read = [] ∧ after = before ∧ found = sees before.rest := by
    intro before
    rw [asked]
    exact ⟨.same rfl rfl, fun _ => ⟨[], rfl, rfl, rfl, rfl⟩⟩
  refine reads.bind fun found => Reads.weaken (each found) ?_
  rintro before read tree after cut _ _ ⟨rfl, rfl, rfl⟩
  have cut := cut rfl
  refine ⟨cut.split, cut.long, ?_⟩
  rintro short front semicolon ended closes brace rest complaints isBrace few
  rw [List.nil_append] at ended
  obtain ⟨item, laterId, stops⟩ := cut.stops short front semicolon ended closes brace rest
    complaints isBrace few
  obtain ⟨first, others, rfl⟩ : ∃ first others, front = first :: others := by
    refine List.exists_cons_of_length_pos ?_
    have enough := pair.trans (cut.long short)
    rw [ended, List.length_append, List.length_singleton] at enough
    omega
  have looked : sees (first :: others ++ brace :: rest) = sees before.rest := by
    rw [cut.split, ended, List.append_assoc]
    exact same first others semicolon _ brace rest closes isBrace
  refine ⟨item, laterId, ?_⟩
  rw [bind_ok (asked _)]
  change next (sees (first :: others ++ brace :: rest)) _ = _
  rw [looked]
  exact stops

theorem peek {next : Token → Rule β} (each : ∀ token, CutsAt token size taken (next token))
    (pair : 2 ≤ taken) : Cuts size taken (Rule.next >>= next) :=
  look Rule.next (·.headD ⟨.endOfInput, "", 1⟩) (fun _ => rfl) (fun _ _ _ _ _ _ _ _ => rfl)
    each pair

/-- Going on after a token that may be missing. -/
theorem accept {kind : Kind} (inner : kind ≠ .endOfInput) {next : Option Token → Rule β}
    (found : ∀ token, Cuts (size - 1) taken (next (some token)))
    (absent : Cuts size (taken + 1) (next none)) (some : 0 < taken) :
    Cuts size (taken + 1) (Rule.accept kind >>= next) := by
  rw [Rule.accept, accept_any_then]
  refine peek (fun token => ?_) (Nat.succ_le_succ some)
  split_ifs with isKind
  · have fits : token.kind = kind := List.mem_singleton.mp (List.contains_iff_mem.mp isKind)
    exact CutsAt.step fits inner (found token) some
  · exact absent.anywhere

end Cuts

section Statements

variable {expression : Rule Expression} {statement declaration : Rule Statement} {size bound : Nat}

/-- No expression begins with a brace. -/
theorem expression_refuses (bound : Nat) {brace : Token} (isBrace : brace.kind = .rightBrace)
    (rest : List Token) (nextId : Nat) (complaints : List Complaint) :
    Rule.expression bound ⟨brace :: rest, nextId, complaints⟩ =
      .error ⟨brace, .expected .expression⟩ ⟨brace :: rest, nextId, complaints⟩ := by
  have unary (bound : Nat) : Rule.unary bound ⟨brace :: rest, nextId, complaints⟩ =
      .error ⟨brace, .expected .expression⟩ ⟨brace :: rest, nextId, complaints⟩ := by
    cases bound with
    | zero => rfl
    | succ bound =>
        unfold Rule.unary
        rw [bind_ok (accept_any_absent (by simp [Reading.next, isBrace]))]
        refine bind_error ?_
        unfold primary
        rw [bind_ok (show next _ = .ok brace _ from rfl), isBrace]
        rfl
  have operations (bound : Nat) (all : List Level) :
      (all.foldr (fun level tighter => do chain level tighter bound (← tighter)) (Rule.unary bound))
          ⟨brace :: rest, nextId, complaints⟩ =
        .error ⟨brace, .expected .expression⟩ ⟨brace :: rest, nextId, complaints⟩ := by
    induction all with
    | nil => exact unary bound
    | cons level others induction => exact bind_error induction
  have conditional (bound : Nat) : Rule.conditional bound ⟨brace :: rest, nextId, complaints⟩ =
      .error ⟨brace, .expected .expression⟩ ⟨brace :: rest, nextId, complaints⟩ := by
    cases bound with
    | zero => rfl
    | succ bound => exact bind_error (operations bound levels)
  cases bound with
  | zero => rfl
  | succ bound => exact bind_error (conditional bound)

/-- What derives an expression does so before a brace as well. -/
theorem expression_stands (enough : 8 * size + 3 ≤ bound + 8) :
    Stands size (Rule.expression bound) := by
  have repeats := (all_repeat (Nat.le_refl bound)).expression size enough
  refine Reads.weaken (Reads.both repeats (accounts bound).expression) ?_
  rintro before read tree after ⟨once, derived, -⟩
  refine ⟨once.split, fun _ _ brace rest complaints isBrace few => .inl ?_⟩
  have noLonger : Kind.LooserThan 1 (leading (brace :: rest)) := by
    rw [show leading (brace :: rest) = .rightBrace from isBrace]
    exact Nat.one_pos
  obtain ⟨value, left, laterId, run, rfl⟩ := (reaches (read ++ brace :: rest).length).expression
    bound (by omega) read (brace :: rest) derived noLonger (Nat.le_refl _) before.nextId complaints
  exact ⟨value, laterId, run⟩

variable (repeats : Repeats size 1 false expression expression) (stands : Stands size expression)

section Values

include stands

theorem following_stands {kind : Kind} (inner : kind ≠ .endOfInput) (other : kind ≠ .rightBrace) :
    Stands size (following kind expression) := by
  unfold following
  refine (accept_any_takes (by simpa using inner.symm)).bind fun found => ?_
  cases found with
  | none =>
      refine Reads.pure ?_
      rintro here before front ⟨split, numbers, cases⟩
      obtain ⟨-, rfl, -⟩ := cases.resolve_right (by simp)
      refine ⟨split, fun _ _ brace rest complaints isBrace _ => .inl ⟨none, before.nextId, ?_⟩⟩
      have absent : brace.kind ≠ kind := isBrace ▸ other.symm
      rw [List.nil_append, bind_ok (accept_absent (by exact absent))]
      rfl
  | some token =>
      refine Reads.weaken (stands.map some) ?_
      rintro middle back tree after ⟨splitBack, goes⟩ before front ⟨split, numbers, cases⟩
      obtain ⟨_, same, rfl, fits⟩ := cases.resolve_left (by simp)
      cases same
      refine ⟨by rw [split, splitBack, List.append_assoc], ?_⟩
      intro short ahead brace rest complaints isBrace few
      have lengths : before.rest.length = middle.rest.length + 1 := by
        rw [split, List.singleton_append, List.length_cons]
      have accepted : accept kind ⟨[token] ++ back ++ brace :: rest, before.nextId, complaints⟩ =
          .ok (some token) ⟨back ++ brace :: rest, before.nextId, complaints⟩ :=
        accept_found (List.mem_singleton.mp fits)
      rw [List.append_assoc, List.singleton_append, List.length_cons] at few
      rw [bind_ok accepted, ← numbers]
      exact goes (by omega) ahead brace rest complaints isBrace (by omega)

include repeats in
/-- A value that may be left out before a semicolon is missing before a brace. -/
theorem optional_stands (refuses : ∀ brace rest nextId complaints, brace.kind = .rightBrace →
      expression ⟨brace :: rest, nextId, complaints⟩ =
        .error ⟨brace, .expected .expression⟩ ⟨brace :: rest, nextId, complaints⟩) :
    Stands size (optional .semicolon expression) := by
  have looked (reading : Reading) : optional .semicolon expression reading =
      (if reading.next.kind = .semicolon then pure none else some <$> expression) reading := rfl
  unfold optional
  refine next_reads.bind fun token => ?_
  split_ifs with closes
  · refine Reads.pure ?_
    rintro here before front ⟨rfl, rfl, rfl⟩
    refine ⟨(List.nil_append _).symm, fun _ _ brace rest complaints isBrace _ => .inr ?_⟩
    refine ⟨.expression, here.nextId, ?_⟩
    change optional .semicolon expression ⟨brace :: rest, here.nextId, complaints⟩ = _
    rw [looked, if_neg (by simp [Reading.next, isBrace]), map_run,
      refuses brace rest here.nextId complaints isBrace]
  · refine Reads.weaken (Reads.both (stands.map some) (repeats.map some)) ?_
    rintro middle back tree after ⟨⟨splitBack, goes⟩, once⟩ before front ⟨rfl, rfl, rfl⟩
    refine ⟨splitBack, fun short ahead brace rest complaints isBrace few => ?_⟩
    have same :
        (Reading.mk (back ++ brace :: rest) middle.nextId complaints).next = middle.next := by
      rw [Reading.next, Reading.next, splitBack]
      obtain ⟨first, others, rfl⟩ := List.exists_cons_of_length_pos (once.long short)
      rfl
    change (∃ tree laterId, optional .semicolon expression ⟨back ++ brace :: rest, _, _⟩ = _) ∨
      ∃ item laterId, optional .semicolon expression ⟨back ++ brace :: rest, _, _⟩ = _
    rw [looked, same, if_neg closes]
    exact goes short ahead brace rest complaints isBrace few

theorem variable_declaration_cuts : Cuts size 2 (variableDeclaration expression) :=
  .expect (by decide) (fun _ => .sealed
    (following_stands (stands.smaller (Nat.sub_le size 1)) (by decide) (by decide))) Nat.one_pos

include repeats in
theorem expression_statement_cuts : Cuts size 2 (expressionStatement expression) :=
  Cuts.longer (.sealed stands) (expression_statement_repeats repeats)

theorem print_statement_cuts : Cuts size 1 (printStatement expression) := .sealed stands

end Values

/-- A branch that is read may lack its semicolon. -/
theorem branch_cuts (cuts : Cuts (size - 1) 1 statement) :
    (following .elseWord statement).Reads fun before read tree after =>
      read = [] ∧ before.rest = after.rest ∨
        Cut size 2 (following .elseWord statement) before read tree after := by
  unfold following
  refine (accept_any_takes (by decide)).bind fun found => ?_
  cases found with
  | none =>
      refine Reads.pure ?_
      rintro here before front ⟨split, -, cases⟩
      obtain ⟨-, rfl, -⟩ := cases.resolve_right (by simp)
      exact .inl ⟨rfl, split⟩
  | some token =>
      change Reads (some <$> statement) _
      rw [map_eq_pure_bind]
      refine Reads.finish cuts ?_
      rintro middle back tree after cut before front ⟨split, numbers, cases⟩
      obtain ⟨_, same, rfl, fits⟩ := cases.resolve_left (by simp)
      cases same
      refine .inr (cut.headed (some tree) Nat.one_pos split fun rest complaints => ?_)
      have accepted : accept .elseWord ⟨token :: rest, before.nextId, complaints⟩ =
          .ok (some token) ⟨rest, before.nextId, complaints⟩ :=
        accept_found (List.mem_singleton.mp fits)
      refine ⟨fun tree => pure (some tree), ?_⟩
      rw [bind_ok accepted, numbers, ← map_eq_pure_bind]
      rfl

/-- The missing semicolon is that of the last branch. -/
theorem branches_cut (inner : Repeats size 2 true statement statement)
    (cuts : Cuts size 2 statement) {make : Statement → Option Statement → Statement} :
    Cuts size 2 (statement >>= fun first => following .elseWord statement >>= fun other =>
      pure (make first other)) := by
  refine Reads.bind (Reads.both inner cuts) fun first => ?_
  have fewer := cuts.smaller (show size - 2 - 1 ≤ size by omega) (Nat.le_succ 1)
  refine Reads.finish (branch_cuts fewer) ?_
  rintro middle back other after branch before front ⟨once, cut⟩
  rcases branch with ⟨rfl, stays⟩ | branch
  · rw [List.append_nil]
    exact cut.last stays
  · refine Cut.behind ?_ once (Nat.le_refl 2)
    exact branch.last rfl

section Parts

variable (inner : Repeats size 2 true statement statement) (cuts : Cuts size 2 statement)

include repeats cuts

theorem for_statement_cuts : Cuts size 3 (forStatement expression statement) := by
  have smaller {fewer : Nat} (isFewer : fewer ≤ size) :
      Repeats fewer 1 false expression expression :=
    repeats.weaken isFewer (Nat.le_refl 1)
  have body {fewer : Nat} (isFewer : fewer ≤ size) : Cuts fewer 2 statement :=
    cuts.smaller isFewer (Nat.le_refl 2)
  refine .expect (by decide) (fun _ => ?_) Nat.zero_lt_two
  refine .bind (for_initializer_repeats (smaller (Nat.sub_le size 1))) (fun initializer => ?_)
    (Nat.le_refl 2)
  refine .bind (optional_repeats (smaller (by omega)) _) (fun condition => ?_) (Nat.le_refl 2)
  refine .expect_onward (by decide) fun _ => ?_
  refine .bind (optional_repeats (smaller (by omega)) _) (fun increment => ?_) (Nat.le_refl 2)
  refine .expect_onward (by decide) fun _ => ?_
  exact (body (by omega)).finish

theorem while_statement_cuts : Cuts size 3 (whileStatement expression statement) := by
  refine .expect (by decide) (fun _ => ?_) Nat.zero_lt_two
  refine .bind (repeats.weaken (Nat.sub_le size 1) (Nat.le_refl 1)) (fun condition => ?_)
    (Nat.le_refl 2)
  refine .expect_onward (by decide) fun _ => ?_
  exact (cuts.smaller (by omega) (Nat.le_refl 2)).finish

include inner in
theorem if_statement_cuts : Cuts size 3 (ifStatement expression statement) := by
  have fewer (isFewer : size - 1 - 1 - 1 ≤ size) := inner.weaken isFewer (Nat.le_refl 2)
  refine .expect (by decide) (fun _ => ?_) Nat.zero_lt_two
  refine .bind (repeats.weaken (Nat.sub_le size 1) (Nat.le_refl 1)) (fun condition => ?_)
    (Nat.le_refl 2)
  refine .expect_onward (by decide) fun _ => ?_
  exact branches_cut (fewer (by omega)) (cuts.smaller (by omega) (Nat.le_refl 2))

end Parts

include repeats stands in
theorem exit_statement_cuts (keyword : Token) (refuses : ∀ brace rest nextId complaints,
      brace.kind = .rightBrace → expression ⟨brace :: rest, nextId, complaints⟩ =
        .error ⟨brace, .expected .expression⟩ ⟨brace :: rest, nextId, complaints⟩) :
    Cuts size 1 (exitStatement keyword expression) :=
  .sealed (optional_stands repeats stands refuses)

end Statements

theorem statement_cuts {size bound : Nat} (enough : 8 * size + 4 ≤ bound + 8) :
    Cuts size 2 (statement bound) := by
  induction bound generalizing size with
  | zero => exact .missing _
  | succ bound induction =>
      have all := all_repeat (Nat.le_refl bound)
      have repeats := all.expression size (by omega)
      have fewer := all.expression (size - 1) (by omega)
      have stands : Stands size (expression bound) := expression_stands (by omega)
      have fewerStands := stands.smaller (Nat.sub_le size 1)
      have inner := all.statement (size - 1) (by omega)
      have cuts : Cuts (size - 1) 2 (statement bound) := induction (by omega)
      unfold statement
      refine .peek (fun token => ?_) (Nat.le_refl 2)
      split
      case h_1 fits =>
        exact .step fits (by decide) ((for_statement_cuts fewer cuts).smaller (Nat.le_refl _)
          (by decide)) Nat.one_pos
      case h_2 fits =>
        exact .step fits (by decide) ((if_statement_cuts fewer inner cuts).smaller (Nat.le_refl _)
          (by decide)) Nat.one_pos
      case h_3 fits =>
        exact .step fits (by decide) ((while_statement_cuts fewer cuts).smaller (Nat.le_refl _)
          (by decide)) Nat.one_pos
      case h_4 fits =>
        exact .step fits (by decide) (exit_statement_cuts fewer fewerStands token
          fun _ _ _ _ isBrace => expression_refuses bound isBrace _ _ _) Nat.one_pos
      case h_5 fits =>
        have written := (all.declaration (size - 1) (by omega)).weaken (Nat.le_refl _)
          (Nat.le_succ 1)
        have block := Cuts.of_braced [many (form .declaration)]
          (block_repeats written (Nat.le_refl bound) (by omega)) ((block_yields
            (accounts bound).declaration bound).weaken fun _ _ _ _ yields => yields.1)
        exact .step fits (by decide) block.finish Nat.one_pos
      case h_6 fits => exact .step fits (by decide) (print_statement_cuts fewerStands) Nat.one_pos
      case h_7 => exact (expression_statement_cuts repeats stands).anywhere

/-- A phrase that ends with a block ends with a brace. -/
theorem derives_block_last (phrases : List Phrase) {tokens : List Token}
    (derived : Derives (inOrder (phrases ++ [form .block])) tokens) :
    Derives (inOrder (phrases ++ [word .leftBrace, many (form .declaration)] ++ [word .rightBrace]))
      tokens := by
  obtain ⟨front, back, rfl, head, last⟩ := derives_in_order_append.mp derived
  rw [List.append_assoc]
  exact head.followed (derives_form.mp (derives_in_order_one.mp last))

theorem declaration_cuts {size bound : Nat} (enough : 8 * size + 5 ≤ bound + 8) :
    Cuts size 2 (declaration bound) := by
  cases bound with
  | zero => exact .missing _
  | succ bound =>
      have all := all_repeat (Nat.le_refl bound)
      have written := (all.declaration (size - 1) (by omega)).weaken (Nat.le_refl _) (Nat.le_succ 1)
      have body := block_yields (accounts bound).declaration bound
      have expressions : Stands (size - 1) (expression bound) := expression_stands (by omega)
      unfold declaration
      refine .accept (by decide) (fun _ => ?_) (.look _ startsFunction at_function_eq ?_
        (fun found => ?_) (Nat.le_refl 2)) Nat.one_pos
      · have ofClass := Cuts.of_braced [word .identifier,
            Phrase.optional (inOrder [word .less, word .identifier]), word .leftBrace,
            many (inOrder [Phrase.optional (word .classWord), form .method])]
          (class_declaration_repeats written (Nat.le_refl bound) (by omega))
          ((class_declaration_yields body).weaken fun _ _ _ _ yields => yields.1)
        exact ofClass.smaller (Nat.le_refl _) (by decide)
      · intro first others semicolon back brace rest closes isBrace
        cases others <;> simp [startsFunction, closes, isBrace]
      · cases found with
        | false =>
            have other : Cuts size 2 (accept .varWord >>= fun found =>
                if found.isSome = true then variableDeclaration (expression bound)
                  else statement bound) := by
              refine .accept (by decide) (fun _ => ?_) (statement_cuts (by omega)) Nat.one_pos
              exact (variable_declaration_cuts expressions).smaller (Nat.le_refl _) (Nat.le_succ 1)
            exact Reads.weaken other fun _ _ _ _ cut _ => cut
        | true =>
            have ofFunction := Cuts.of_braced _
              (function_repeats written (Nat.le_refl bound) (by omega))
              ((function_reads body).weaken fun _ _ _ _ yields => derives_block_last
                [word .identifier, word .leftParen, Phrase.optional (form .parameters),
                  word .rightParen] yields.1)
            have fewer := ofFunction.smaller (Nat.le_refl _) (show 1 ≤ 5 by decide)
            have named : Cuts (size - 1) 1 (function (declaration bound) bound >>= fun routine =>
                pure (Statement.routineDeclaration routine)) := fewer.finish
            have stepped := named.step Nat.one_pos
            refine Reads.weaken stepped fun before read tree after means starts =>
              means fun atEnd => ?_
            cases (starts_function_leads starts).symm.trans atEnd

/-- Where a brace comes instead of the last semicolon of a declaration, reading stops at it. -/
theorem declaration_stops {front : List Token} {semicolon brace : Token}
    (derived : Derives (form .declaration) (front ++ [semicolon]))
    (closes : semicolon.kind = .semicolon) (isBrace : brace.kind = .rightBrace) (rest : List Token)
    {bound : Nat} (enough : nesting (front ++ brace :: rest) ≤ bound) (nextId : Nat)
    (complaints : List Complaint) : ∃ item laterId,
      declaration bound ⟨front ++ brace :: rest, nextId, complaints⟩ =
        .error ⟨brace, .expected item⟩ ⟨brace :: rest, laterId, complaints⟩ := by
  unfold nesting at enough
  have cuts : Cuts ((front ++ brace :: rest).length + 1) 2 (declaration bound) :=
    declaration_cuts (by omega)
  have short : (front ++ [semicolon]).length ≤ (front ++ brace :: rest).length := by simp
  obtain ⟨tree, left, laterId, run, rfl⟩ := (reaches (front ++ [semicolon]).length).declaration
    bound (by omega) (front ++ [semicolon]) [] derived (show Kind.endOfInput ≠ .elseWord by decide)
    (by rw [List.append_nil]) nextId complaints
  rw [List.append_nil] at run
  have reads := cuts ⟨front ++ [semicolon], nextId, complaints⟩
  rw [run] at reads
  obtain ⟨read, split, cut⟩ := reads.2 rfl
  have whole : read = front ++ [semicolon] := by
    rw [show front ++ [semicolon] = _ from split, List.append_nil]
  exact cut.stops (Nat.lt_succ_of_le short) front semicolon whole closes brace rest complaints
    isBrace (Nat.lt_succ_self _)

end Lox.Rule
