import Lox.Proofs.Prompt.Printing
import Lox.Proofs.Renaming.Renumbered

/-!
Parts that can be read on their own. An expression, a statement or the first clause of a loop that
is accepted on its own is read as the same tree wherever it stands, with any bound that is large
enough and with numbers that begin anywhere, as long as nothing behind it goes on with it.
-/

namespace Lox

/-- Tokens that stand on their own. -/
def alone (tokens : List Token) : List Token := tokens ++ [⟨.endOfInput, "", 1⟩]

theorem Expression.unnumbered_shift (distance : Nat) (tree : Expression) :
    (tree.relabel (.shift distance)).relabel .unnumbered = tree.relabel .unnumbered :=
  Node.expression.inj ((Node.expression tree).relabel_relabel (.shift distance) .unnumbered)

theorem Statement.unnumbered_shift (distance : Nat) (tree : Statement) :
    (tree.relabel (.shift distance)).relabel .unnumbered = tree.relabel .unnumbered :=
  Node.statement.inj ((Node.statement tree).relabel_relabel (.shift distance) .unnumbered)

/-- What can be the first clause of a loop. -/
def Statement.initializes : Statement → Bool
  | .variableDeclaration _ _ | .expression _ => true
  | _ => false

namespace Rule

variable {α β γ δ : Type}

/-- Wherever its numbers begin, the rule reads these tokens before the rest and gives out so many
numbers; the tree always looks the same. -/
def Spans (rule : Rule α) (view : α → γ) (tokens rest : List Token) (seen : γ) (width : Nat) :
    Prop :=
  ∀ firstId, ∃ tree, rule ⟨tokens ++ rest, firstId, []⟩ = .ok tree ⟨rest, firstId + width, []⟩ ∧
    view tree = seen

section Spans

variable {rule : Rule α} {view : α → γ} {sight : β → δ} {tokens front back rest : List Token}
  {seen : γ} {wanted : δ} {width further : Nat}

theorem pure_spans (tree : α) : Spans (pure tree) view [] rest (view tree) 0 :=
  fun _ => ⟨tree, rfl, rfl⟩

theorem bind_spans {next : α → Rule β} (first : rule.Spans view front (back ++ rest) seen width)
    (following : ∀ tree, view tree = seen → (next tree).Spans sight back rest wanted further) :
    (rule >>= next).Spans sight (front ++ back) rest wanted (width + further) := by
  intro firstId
  obtain ⟨tree, run, same⟩ := first firstId
  obtain ⟨result, ran, results⟩ := following tree same (firstId + width)
  refine ⟨result, ?_, results⟩
  rw [List.append_assoc, bind_ok run, ran, Nat.add_assoc]

/-- A rule that only makes something of what another rule reads. -/
theorem finish_spans {make : α → β} (spans : rule.Spans view tokens rest seen width)
    (made : ∀ tree, view tree = seen → sight (make tree) = wanted) :
    (rule >>= fun tree => pure (make tree)).Spans sight tokens rest wanted width := by
  intro firstId
  obtain ⟨tree, run, same⟩ := spans firstId
  exact ⟨make tree, bind_ok run, made tree same⟩

/-- A token that must be there, and what follows it. -/
theorem expect_spans {token : Token} {kind : Kind} {item : Missing} {next : Token → Rule β}
    (fits : token.kind = kind) (following : (next token).Spans sight tokens rest wanted width) :
    (expect kind item >>= next).Spans sight (token :: tokens) rest wanted width := by
  intro firstId
  obtain ⟨result, run, same⟩ := following firstId
  exact ⟨result, (bind_ok (expect_found (by exact fits))).trans run, same⟩

/-- A rule that steps over a token and goes on as another one. -/
theorem entering_spans {outer : Rule α} {token : Token}
    (enters : ∀ others nextId, outer ⟨token :: others, nextId, []⟩ = rule ⟨others, nextId, []⟩)
    (spans : rule.Spans view tokens rest seen width) :
    outer.Spans view (token :: tokens) rest seen width := by
  intro firstId
  obtain ⟨tree, run, same⟩ := spans firstId
  exact ⟨tree, (enters _ _).trans run, same⟩

/-- What a rule reads from the first number on, it reads from every number on. -/
theorem spans_of_run {change : Nat → α → α} {tree : α}
    (natural : ∀ distance, Natural (.shift distance) (change distance) rule rule)
    (looks : ∀ distance tree, view (change distance tree) = view tree)
    (run : rule ⟨tokens ++ rest, 0, []⟩ = .ok tree ⟨rest, width, []⟩) :
    rule.Spans view tokens rest (view tree) width := by
  intro firstId
  have moved := natural firstId ⟨tokens ++ rest, 0, []⟩
  have last : (Labels.shift firstId).number width = firstId + width := Nat.add_comm width firstId
  rw [run] at moved
  simp only [Reading.relabel, relabelled, Labels.shift_tokens, Labels.shift_zero, last,
    List.map_nil] at moved
  exact ⟨_, moved, looks firstId tree⟩

/-- What has been read before one rest is read before every other one that may take its place. -/
theorem Repeats.run {rule' : Rule α} {size taken : Nat} {closed : Bool}
    (repeats : Repeats size taken closed rule rule') {tree : α} {firstId next : Nat}
    (run : rule ⟨tokens ++ rest, firstId, []⟩ = .ok tree ⟨rest, next, []⟩)
    (short : (tokens ++ rest).length < size) {other : List Token}
    (replaces : Replaces closed rest other) :
    rule' ⟨tokens ++ other, firstId, []⟩ = .ok tree ⟨other, next, []⟩ := by
  have account := repeats ⟨tokens ++ rest, firstId, []⟩
  rw [run] at account
  obtain ⟨read, split, once⟩ := account.2 rfl
  obtain rfl : tokens = read := List.append_cancel_right split
  exact once.again short other [] replaces

end Spans

section Trees

variable {rule : Rule α} {next : α → Rule β} {good : β → Prop}

/-- Whatever the rule reads, its tree has the property. -/
def Makes (rule : Rule α) (good : α → Prop) : Prop :=
  ∀ before tree after, rule before = .ok tree after → good tree

theorem pure_makes {tree : β} (isGood : good tree) : Makes (pure tree) good := by
  intro before result after run
  cases run
  exact isGood

theorem bind_makes (each : ∀ tree, (next tree).Makes good) : (rule >>= next).Makes good := by
  intro before result after run
  obtain ⟨tree, middle, -, further⟩ := of_bind_ok run
  exact each tree middle result after further

end Trees

section Inversion

variable {expression : Rule Expression} {statement declaration : Rule Statement} {bound : Nat}

theorem class_declares : (classDeclaration declaration bound).Makes fun tree =>
    tree.isDeclaration = true ∧ tree.initializes = false :=
  bind_makes fun _ => bind_makes fun _ => bind_makes fun _ => bind_makes fun _ =>
    bind_makes fun _ => pure_makes ⟨rfl, rfl⟩

theorem function_declares :
    (function declaration bound >>= fun routine =>
      pure (Statement.routineDeclaration routine)).Makes fun tree =>
        tree.isDeclaration = true ∧ tree.initializes = false :=
  bind_makes fun _ => pure_makes ⟨rfl, rfl⟩

theorem variable_declares :
    (variableDeclaration expression).Makes fun tree => tree.isDeclaration = true :=
  bind_makes fun _ => bind_makes fun _ => bind_makes fun _ => pure_makes rfl

/-- A desugared loop is a loop or a block. -/
theorem for_statement_loops :
    (forStatement expression statement).Makes fun tree => tree.initializes = false := by
  refine bind_makes fun _ => bind_makes fun initializer => bind_makes fun _ => bind_makes fun _ =>
    bind_makes fun _ => bind_makes fun _ => bind_makes fun _ => pure_makes ?_
  cases initializer <;> rfl

end Inversion

section Inversion

variable {bound : Nat} {before after : Reading} {order : Statement}

theorem statement_of_declaration (run : declaration (bound + 1) before = .ok order after)
    (plain : order.isDeclaration = false) : statement bound before = .ok order after := by
  rw [declaration_eq] at run
  split_ifs at run
  · cases (class_declares _ _ _ run).1.symm.trans plain
  · cases (function_declares _ _ _ run).1.symm.trans plain
  · cases (variable_declares _ _ _ run).symm.trans plain
  · exact run

/-- A statement is an expression, or nothing that can be the first clause of a loop. -/
theorem statement_cases (bound : Nat) (reading : Reading) : ∃ rule : Rule Statement,
    statement (bound + 1) reading = rule reading ∧ (rule = expressionStatement (expression bound) ∨
      rule.Makes fun tree => tree.initializes = false) := by
  unfold statement
  refine ⟨_, bind_ok (show next reading = .ok reading.next reading from rfl), ?_⟩
  split
  case h_1 => exact .inr (bind_makes fun _ => for_statement_loops)
  case h_2 =>
    exact .inr <| bind_makes fun _ => bind_makes fun _ => bind_makes fun _ => bind_makes fun _ =>
      bind_makes fun _ => bind_makes fun _ => pure_makes rfl
  case h_3 =>
    exact .inr <| bind_makes fun _ => bind_makes fun _ => bind_makes fun _ => bind_makes fun _ =>
      bind_makes fun _ => pure_makes rfl
  case h_4 | h_6 =>
    exact .inr <| bind_makes fun _ => bind_makes fun _ => bind_makes fun _ => pure_makes rfl
  case h_5 => exact .inr <| bind_makes fun _ => bind_makes fun _ => pure_makes rfl
  case h_7 => exact .inl rfl

theorem expression_of_statement (run : statement (bound + 1) before = .ok order after)
    (initializes : order.initializes = true) :
    expressionStatement (expression bound) before = .ok order after := by
  obtain ⟨rule, same, rfl | makes⟩ := statement_cases bound before
  · exact same.symm.trans run
  · cases (makes _ _ _ (same.symm.trans run)).symm.trans initializes

/-- What can be the first clause of a loop is a declaration behind its keyword, or an expression. -/
theorem initializer_of_declaration (run : declaration (bound + 2) before = .ok order after)
    (initializes : order.initializes = true) :
    before.next.kind = .varWord ∧ variableDeclaration (expression (bound + 1))
        { before with rest := before.rest.drop 1 } = .ok order after ∨
      expressionStatement (expression bound) before = .ok order after := by
  rw [declaration_eq] at run
  split_ifs at run with isClass isFunction isVariable
  · cases (class_declares _ _ _ run).2.symm.trans initializes
  · cases (function_declares _ _ _ run).2.symm.trans initializes
  · exact .inl ⟨isVariable, run⟩
  · exact .inr (expression_of_statement run initializes)

end Inversion

section Beginnings

variable {bound firstId : Nat} {tokens rest : List Token} {complaints : List Complaint}

/-- What begins like a statement is no declaration of another kind. -/
theorem declaration_of_statement (begins : Begins Kind.leadsStatement tokens) :
    declaration (bound + 1) ⟨tokens ++ rest, firstId, complaints⟩ =
      statement bound ⟨tokens ++ rest, firstId, complaints⟩ := by
  have leads := begins.leads rest
  have other {kind : Kind} (never : kind.leadsStatement = false) :
      (Reading.next ⟨tokens ++ rest, firstId, complaints⟩).kind ≠ kind := by
    rintro rfl
    cases leads.symm.trans never
  have noFunction := begins_no_function begins rest
  have noClass := other (show Kind.classWord.leadsStatement = false from rfl)
  have noVariable := other (show Kind.varWord.leadsStatement = false from rfl)
  rw [declaration_eq, if_neg noClass, if_neg (Bool.eq_false_iff.mp noFunction), if_neg noVariable]

/-- What begins like an expression is one. -/
theorem statement_of_expression (begins : Begins Kind.startsExpression tokens) :
    statement (bound + 1) ⟨tokens ++ rest, firstId, complaints⟩ =
      expressionStatement (expression bound) ⟨tokens ++ rest, firstId, complaints⟩ := by
  have starts : (Reading.next ⟨tokens ++ rest, firstId, complaints⟩).kind.startsExpression = true :=
    begins.leads rest
  refine statement_plain fun written => ?_
  simp only [List.mem_cons, List.not_mem_nil, or_false] at written
  rcases written with same | same | same | same | same | same
  all_goals
    rw [same] at starts
    cases starts

theorem expression_statement_begins {tree : Statement} {next : Nat}
    (run : expressionStatement (expression bound) ⟨tokens ++ rest, firstId, []⟩ =
      .ok tree ⟨rest, next, []⟩) : Begins Kind.startsExpression tokens := by
  have account := expression_statement_yields (accounts bound).expression
    ⟨tokens ++ rest, firstId, []⟩
  rw [run] at account
  obtain ⟨read, split, derived, -⟩ := account.2 rfl
  obtain rfl : tokens = read := List.append_cancel_right split
  obtain ⟨front, back, rfl, value, -⟩ := derives_in_order.mp (derives_form.mp derived)
  exact (expression_begins value).append

end Beginnings

theorem for_initializer_eq (expression : Rule Expression) (reading : Reading) :
    forInitializer expression reading =
      if reading.next.kind = .semicolon then
        .ok none { reading with rest := reading.rest.drop 1 }
      else if reading.next.kind = .varWord then
        (some <$> variableDeclaration expression) { reading with rest := reading.rest.drop 1 }
      else (some <$> expressionStatement expression) reading := by
  split_ifs with isSemicolon isVariable
  · exact (bind_ok (accept_found isSemicolon)).trans rfl
  · exact (bind_ok (accept_absent isSemicolon)).trans
      ((bind_ok (accept_found isVariable)).trans rfl)
  · exact (bind_ok (accept_absent isSemicolon)).trans
      ((bind_ok (accept_absent isVariable)).trans rfl)

/-- Every run of a rule without a complaint is one. -/
theorem runs_read {rule : Rule α} {meaning : Meaning α} (reads : rule.Reads meaning) :
    rule.Reads fun before _ tree after => rule before = .ok tree after := by
  intro before
  have account := reads before
  cases run : rule before with
  | ok tree after =>
      rw [run] at account
      refine ⟨account.1, fun same => ?_⟩
      obtain ⟨read, split, -⟩ := account.2 same
      exact ⟨read, split, run⟩
  | error complaint after =>
      rw [run] at account
      exact account

/-- No declarations are read where none begin, and a single one is all that has been read. -/
theorem declarations_single {rule : Rule α} {meaning : Meaning α} (reads : rule.Reads meaning)
    (closes : Kind → Bool) (rounds : Nat) :
    (declarations rule closes rounds).Reads fun before _ trees after =>
      (trees = [] → before = after) ∧ ∀ tree, trees = [tree] → rule before = .ok tree after := by
  induction rounds with
  | zero => exact .pure fun _ => ⟨fun _ => rfl, nofun⟩
  | succ rounds induction =>
      rw [declarations_succ]
      refine next_reads.bind fun token => ?_
      split_ifs
      · refine .pure ?_
        rintro here before front ⟨rfl, rfl, rfl⟩
        exact ⟨fun _ => rfl, nofun⟩
      · refine (recovering_reads (runs_read reads)).bind fun found => induction.finish ?_
        rintro middle back others after ⟨noMore, -⟩ second front ⟨first, rfl, run⟩ before looked
          ⟨rfl, rfl, rfl⟩
        refine ⟨fun empty => absurd empty (List.cons_ne_nil first others), fun tree single => ?_⟩
        obtain ⟨rfl, none⟩ := List.cons.inj single
        exact noMore none ▸ run

section Alone

variable {tokens : List Token} {order : Statement}
  (inner : ∀ token ∈ tokens, token.kind ≠ .endOfInput)
  (parsed : (parseProgram (alone tokens) 0).outcome = .ok [order])

include inner parsed

theorem declaration_alone : declaration (nesting (alone tokens)) ⟨alone tokens, 0, []⟩ =
    .ok order ⟨[⟨.endOfInput, "", 1⟩], (parseProgram (alone tokens) 0).nextId, []⟩ := by
  have whole : parseProgram (alone tokens) 0 =
      ⟨.ok [order], (parseProgram (alone tokens) 0).nextId⟩ := by rw [← parsed]
  have reads := declarations_single (accounts (nesting (alone tokens))).declaration
    (· = .endOfInput) (nesting (alone tokens))
  have ended : (⟨.endOfInput, "", 1⟩ : Token).kind = .endOfInput := rfl
  exact (program_means ended inner whole reads).2 order rfl

theorem statement_run (plain : order.isDeclaration = false) {bound : Nat}
    (isLater : nesting (alone tokens) ≤ bound) {rest : List Token}
    (noBranch : leading rest ≠ .elseWord) : statement bound ⟨tokens ++ rest, 0, []⟩ =
      .ok order ⟨rest, (parseProgram (alone tokens) 0).nextId, []⟩ := by
  obtain ⟨fewer, isFewer⟩ : ∃ fewer, nesting (alone tokens) = fewer + 1 :=
    ⟨nesting (alone tokens) - 1, by unfold nesting; omega⟩
  have run := declaration_alone inner parsed
  rw [isFewer] at run isLater
  have repeats := (all_repeat (Nat.le_of_succ_le isLater)).statement ((alone tokens).length + 1) (by
    unfold nesting at isFewer
    omega)
  exact repeats.run (statement_of_declaration run plain) (Nat.lt_succ_self _)
    (.inr ⟨rfl, noBranch⟩)

/-- A statement that is accepted on its own is read before everything that does not go on with it;
before a branch, if it ends there. -/
theorem statement_spans (plain : order.isDeclaration = false) {bound : Nat} {rest : List Token}
    (stands : leading rest = .elseWord → nesting (tokens ++ rest) ≤ bound ∧ ∃ tree next,
      statement (nesting (tokens ++ rest)) (.start (tokens ++ rest) 0) = .ok tree ⟨rest, next, []⟩)
    (isLater : nesting (alone tokens) ≤ bound) :
    (statement bound).Spans (Statement.relabel .unnumbered) tokens rest
      (order.relabel .unnumbered) (parseProgram (alone tokens) 0).nextId := by
  refine spans_of_run (fun distance => (all_natural (Labels.shift_silent distance) bound).statement)
    Statement.unnumbered_shift ?_
  by_cases branch : leading rest = .elseWord
  · obtain ⟨enough, tree, next, run⟩ := stands branch
    have repeats := (all_repeat enough).statement ((tokens ++ rest).length + 1) (by
      unfold nesting
      omega)
    -- the end of the input in place of the branch shows that it is the same tree
    have ended : leading [⟨.endOfInput, "", 1⟩] ≠ .elseWord := nofun
    have own := repeats.run run (Nat.lt_succ_self _) (.inr ⟨rfl, ended⟩)
    have same := own.symm.trans (statement_run inner parsed plain isLater ended)
    injection same with trees readings
    injection readings with _ numbers
    rw [repeats.run run (Nat.lt_succ_self _) (.inl rfl), trees, numbers]
  · exact statement_run inner parsed plain isLater branch

/-- The first clause of a loop, accepted on its own. -/
theorem first_clause_spans (initializes : order.initializes = true) {bound : Nat}
    (isLater : nesting (alone tokens) ≤ bound) {rest : List Token}
    (noBranch : leading rest ≠ .elseWord) :
    (forInitializer (expression bound)).Spans (Option.map (Statement.relabel .unnumbered)) tokens
        rest (some (order.relabel .unnumbered)) (parseProgram (alone tokens) 0).nextId ∧
      (declaration bound).Spans (Statement.relabel .unnumbered) tokens rest
        (order.relabel .unnumbered) (parseProgram (alone tokens) 0).nextId := by
  obtain ⟨fewer, isFewer⟩ : ∃ fewer, nesting (alone tokens) = fewer + 2 :=
    ⟨nesting (alone tokens) - 2, by unfold nesting; omega⟩
  have run := declaration_alone inner parsed
  constructor
  · rw [isFewer] at run isLater
    have room : 8 * ((alone tokens).length + 1) = fewer + 2 := isFewer
    have ran : forInitializer (expression bound) ⟨tokens ++ rest, 0, []⟩ =
        .ok (some order) ⟨rest, (parseProgram (alone tokens) 0).nextId, []⟩ := by
      rcases initializer_of_declaration run initializes with ⟨keyword, declared⟩ | evaluated
      · cases tokens with
        | nil => cases keyword
        | cons word tokens =>
            have each := (all_repeat (show fewer + 1 ≤ bound by omega)).expression
              (alone (word :: tokens)).length (by omega)
            have isVariable : word.kind = .varWord := keyword
            have short : (alone tokens).length < (alone (word :: tokens)).length := by
              simp [alone]
            have further := (variable_declaration_repeats each).run declared short
              (.inr ⟨rfl, noBranch⟩)
            have noSemicolon : word.kind ≠ .semicolon := fun same => by
              cases isVariable.symm.trans same
            rw [for_initializer_eq, if_neg (by exact noSemicolon), if_pos (by exact isVariable)]
            exact map_ok further
      · have each := (all_repeat (show fewer ≤ bound by omega)).expression
          ((alone tokens).length + 1) (by omega)
        have further := (expression_statement_repeats each).run evaluated (Nat.lt_succ_self _)
          (.inr ⟨rfl, noBranch⟩)
        have starts := (expression_statement_begins evaluated).leads rest
        have other {kind : Kind} (never : kind.startsExpression = false) :
            (Reading.next ⟨tokens ++ rest, 0, []⟩).kind ≠ kind := by
          rintro rfl
          cases starts.symm.trans never
        have noSemicolon := other (show Kind.semicolon.startsExpression = false from rfl)
        have noVariable := other (show Kind.varWord.startsExpression = false from rfl)
        rw [for_initializer_eq, if_neg noSemicolon, if_neg noVariable]
        exact map_ok further
    exact spans_of_run
      (fun distance => for_initializer_natural (Labels.shift_silent distance)
        (all_natural (Labels.shift_silent distance) bound).expression)
      (fun distance tree => by cases tree <;> simp [Statement.unnumbered_shift]) ran
  · have repeats := (all_repeat isLater).declaration ((alone tokens).length + 1) (by
      unfold nesting
      omega)
    exact spans_of_run
      (fun distance => (all_natural (Labels.shift_silent distance) bound).declaration)
      Statement.unnumbered_shift (repeats.run run (Nat.lt_succ_self _) (.inr ⟨rfl, noBranch⟩))

end Alone

/-- An expression that is accepted on its own is read before everything that ends it. -/
theorem expression_spans {tokens : List Token} {value : Expression}
    (inner : ∀ token ∈ tokens, token.kind ≠ .endOfInput)
    (parsed : (parseExpression (alone tokens) 0).outcome = .ok value) :
    Begins Kind.startsExpression tokens ∧ ∃ width, ∀ bound, nesting (alone tokens) ≤ bound →
      ∀ rest, (leading rest).EndsExpression →
        (expression bound).Spans (Expression.relabel .unnumbered) tokens rest
          (value.relabel .unnumbered) width := by
  have ended : (⟨.endOfInput, "", 1⟩ : Token).kind = .endOfInput := rfl
  obtain ⟨width, run⟩ := expression_run inner ended parsed
  refine ⟨expression_begins (expression_derived inner ended parsed), width, ?_⟩
  intro bound isLater rest stops
  exact spans_of_run
    (fun distance => (all_natural (Labels.shift_silent distance) bound).expression)
    Expression.unnumbered_shift (expression_before_stop ended run isLater stops)

section Layers

variable {bound : Nat} {tokens front back rest : List Token} {order another : Statement}
  {value : Expression} {width further : Nat}

/-- No list of declarations is closed where one of them begins. -/
theorem declaration_spans_ongoing {view : Statement → α} {seen : α}
    (spans : (declaration bound).Spans view tokens rest seen width) :
    (leading (tokens ++ rest)).leadsDeclaration = true := by
  obtain ⟨tree, run, -⟩ := spans 0
  have account := (accounts bound).declaration ⟨tokens ++ rest, 0, []⟩
  rw [run] at account
  obtain ⟨read, split, derived, -⟩ := account.2 rfl
  obtain rfl : tokens = read := List.append_cancel_right split
  obtain ⟨first, others, rfl, leads⟩ := declaration_begins derived
  exact leads

theorem declarations_span {closes : Kind → Bool} {rounds : Nat} {view : Statement → α} {seen : α}
    {others : List α} (ongoing : closes (leading (front ++ (back ++ rest))) = false)
    (first : (declaration bound).Spans view front (back ++ rest) seen width)
    (following : (declarations (declaration bound) closes rounds).Spans (List.map view) back rest
      others further) :
    (declarations (declaration bound) closes (rounds + 1)).Spans (List.map view) (front ++ back)
      rest (seen :: others) (width + further) := by
  intro firstId
  obtain ⟨tree, run, looks⟩ := first firstId
  obtain ⟨trees, ran, look⟩ := following (firstId + width)
  have found : recovering (declaration bound) ⟨front ++ (back ++ rest), firstId, []⟩ =
      .ok (some tree) ⟨back ++ rest, firstId + width, []⟩ := by rw [recovering, run]
  refine ⟨tree :: trees, ?_, by rw [List.map_cons, looks, look]⟩
  rw [List.append_assoc, declarations_once (by exact ongoing) found, ← Nat.add_assoc]
  exact map_ok ran

/-- A block of two statements. -/
theorem pair_spans {opening closing : Token} (opens : opening.kind = .leftBrace)
    (closes : closing.kind = .rightBrace) (enough : 2 ≤ bound)
    (first : (declaration bound).Spans (Statement.relabel .unnumbered) front
      (back ++ closing :: rest) order width)
    (second : (declaration bound).Spans (Statement.relabel .unnumbered) back (closing :: rest)
      another further) :
    (statement (bound + 1)).Spans (Statement.relabel .unnumbered)
      (opening :: (front ++ (back ++ [closing]))) rest (.block [order, another])
      (width + further) := by
  obtain ⟨rounds, rfl⟩ : ∃ rounds, bound = rounds + 2 := ⟨bound - 2, by omega⟩
  have ongoing {kind : Kind} (leads : kind.leadsDeclaration = true) :
      (decide (kind = .rightBrace) || decide (kind = .endOfInput)) = false := by
    cases kind <;> first | rfl | cases leads
  have none : (declarations (declaration (rounds + 2))
      (fun kind => decide (kind = .rightBrace) || decide (kind = .endOfInput)) rounds).Spans
        (List.map (Statement.relabel .unnumbered)) [] (closing :: rest) [] 0 := by
    intro firstId
    refine ⟨[], declarations_closed ?_, rfl⟩
    rw [show (Reading.next ⟨[] ++ closing :: rest, firstId, []⟩).kind = .rightBrace from closes]
    rfl
  have last := declarations_span (ongoing (declaration_spans_ongoing second)) second none
  rw [List.append_nil, Nat.add_zero further] at last
  have both := declarations_span (ongoing (declaration_spans_ongoing first)) first last
  have block : (Rule.block (declaration (rounds + 2)) (rounds + 2)).Spans
      (List.map (Statement.relabel .unnumbered)) (front ++ back ++ [closing]) rest [order, another]
      (width + further + 0) := by
    refine bind_spans both fun orders looks => expect_spans closes ?_
    rw [← looks]
    exact pure_spans orders
  rw [List.append_assoc] at block
  have made : (Rule.block (declaration (rounds + 2)) (rounds + 2) >>= fun orders =>
      pure (Statement.block orders)).Spans (Statement.relabel .unnumbered)
        (front ++ (back ++ [closing])) rest (.block [order, another]) (width + further) := by
    refine finish_spans block fun orders looks => ?_
    rw [Statement.relabel, Statement.relabel_all_eq, looks]
  refine entering_spans (fun others nextId => ?_) made
  obtain ⟨kind, lexeme, line⟩ := opening
  obtain rfl : kind = .leftBrace := opens
  rfl

theorem while_spans {keyword opening closing : Token} (loops : keyword.kind = .whileWord)
    (opens : opening.kind = .leftParen) (closes : closing.kind = .rightParen)
    (test : (expression bound).Spans (Expression.relabel .unnumbered) front
      (closing :: (back ++ rest)) value width)
    (body : (statement bound).Spans (Statement.relabel .unnumbered) back rest order further) :
    (statement (bound + 1)).Spans (Statement.relabel .unnumbered)
      (keyword :: opening :: (front ++ closing :: back)) rest (.loop value order)
      (width + further) := by
  have loop : (whileStatement (expression bound) (statement bound)).Spans
      (Statement.relabel .unnumbered) (opening :: (front ++ closing :: back)) rest
      (.loop value order) (width + further) := by
    refine expect_spans opens (bind_spans test fun condition conditions => expect_spans closes ?_)
    refine finish_spans body fun tree trees => ?_
    rw [Statement.relabel, conditions, trees]
  refine entering_spans (fun others nextId => ?_) loop
  obtain ⟨kind, lexeme, line⟩ := keyword
  obtain rfl : kind = .whileWord := loops
  rfl

end Layers

end Rule

end Lox
