import Lox.Proofs.Grammar.Handles

/-!
What the rules for statements and declarations get through, given the rules that
they are built from. A statement without a branch of its own may take over the
branches that the grammar gives to statements around it, so that what a statement
leaves is not always what follows it in the derivation.
-/

namespace Lox

open Phrase

/-- Some number of branches that statements may take over, and what comes after. -/
inductive Branches (stop : List Token) : Nat → List Token → Prop where
  | none : Branches stop 0 stop
  | more {count : Nat} {keyword : Token} {tokens rest : List Token}
      (fits : keyword.kind = .elseWord) (derived : Derives (.form .statement) tokens)
      (others : Branches stop count rest) :
      Branches stop (count + 1) (keyword :: (tokens ++ rest))

namespace Rule

/-- A statement may take over branches, and leaves no more of them than there were. -/
def HandlesStatement (rule : Rule Statement) (phrase : Phrase) (size : Nat) : Prop :=
  ∀ tokens rest stop count, Derives phrase tokens → Branches stop count rest →
    leading stop ≠ .elseWord → (tokens ++ rest).length ≤ size →
      rule.Accepts (tokens ++ rest) fun _ left =>
        (∃ fewer ≤ count, Branches stop fewer left) ∧ left.length ≤ (tokens ++ rest).length

variable {expression : Rule Expression} {statement declaration : Rule Statement}
  {bound size : Nat}

/-- A declaration is followed by another one or by what closes the list. -/
theorem declarations_accept (closes : Kind → Bool) {tokens rest : List Token}
    (each : declaration.Handles (form .declaration) (· ≠ .elseWord) size)
    (inner : ∀ kind, kind.leadsDeclaration = true → closes kind = false) (bound : Nat)
    (derived : Derives (many (form .declaration)) tokens) (closed : closes (leading rest) = true)
    (stops : leading rest ≠ .elseWord) (short : (tokens ++ rest).length ≤ size)
    (enough : tokens.length ≤ bound) :
    (declarations declaration closes bound).Accepts (tokens ++ rest) fun _ left => left = rest := by
  induction bound generalizing tokens with
  | zero =>
      rw [List.length_eq_zero_iff.mp (Nat.le_zero.mp enough)]
      exact .pure rfl
  | succ bound induction =>
      unfold declarations
      refine .peek fun token same => ?_
      rcases derives_many.mp derived with rfl | ⟨front, back, rfl, head, tail⟩
      · rw [same, if_pos (show closes (leading ([] ++ rest)) = true from closed)]
        exact .pure rfl
      · obtain ⟨first, others, rfl, leads⟩ := declaration_begins head
        have ongoing : ¬ closes token.kind = true := by
          rw [same, show leading (first :: others ++ back ++ rest) = first.kind from rfl,
            inner _ leads]
          exact Bool.false_ne_true
        rw [if_neg ongoing]
        rw [List.append_assoc] at short ⊢
        have next : leading (back ++ rest) ≠ .elseWord := by
          rcases derives_many.mp tail with rfl | ⟨second, more, rfl, start, -⟩
          · exact stops
          · obtain ⟨token, others, rfl, starts⟩ := declaration_begins start
            intro elseNext
            have fits : token.kind = .elseWord := elseNext
            rw [fits] at starts
            cases starts
        have reads := each (first :: others) (back ++ rest) head next short
        refine reads.recovering.leaving fun found => .finish ?_ fun _ => rfl
        simp only [List.cons_append, List.length_cons, List.length_append] at short enough
        refine induction tail ?_ ?_
        · simp only [List.length_append]
          omega
        · omega

theorem block_handles (each : declaration.Handles (form .declaration) (· ≠ .elseWord) size)
    {bound : Nat} (enough : size ≤ bound) : (block declaration bound).HandlesBlock size := by
  intro tokens rest derived _ short
  obtain ⟨inside, closing, rfl, statements, last⟩ := derives_in_order.mp derived
  obtain ⟨brace, rfl, fits⟩ := derives_word.mp (derives_in_order_one.mp last)
  rw [List.append_assoc] at short ⊢
  have leads : leading ([brace] ++ rest) = .rightBrace := fits
  have inner : ∀ kind : Kind, kind.leadsDeclaration = true →
      (kind = .rightBrace || kind = .endOfInput) = false := by
    intro kind leads
    cases kind <;> first | rfl | cases leads
  unfold block
  refine (declarations_accept _ each inner bound statements ?_ ?_ short ?_).leaving
    fun _ => .expect fits fun _ => .pure rfl
  · rw [leads]
    rfl
  · rw [leads]
    exact nofun
  · simp only [List.length_append] at short
    omega

theorem statement_of_handles {rule : Rule Statement} {phrase : Phrase}
    (handles : rule.Handles phrase (fun _ => True) size) : rule.HandlesStatement phrase size := by
  intro tokens rest stop count derived branches _ short
  refine (handles tokens rest derived trivial short).weaken fun _ left same => ?_
  rw [same, List.length_append]
  exact ⟨⟨count, Nat.le_refl _, branches⟩, Nat.le_add_left ..⟩

/-- An expression before a token that cannot continue it. -/
theorem expression_before {closing : Token} {kind : Kind} {tokens : List Token}
    (each : expression.Handles (form .expression) (Kind.LooserThan 1) size)
    (derived : Derives (form .expression) tokens) (fits : closing.kind = kind)
    (ends : kind.tightness = 0) (rest : List Token)
    (short : (tokens ++ closing :: rest).length ≤ size) :
    expression.Accepts (tokens ++ closing :: rest) fun _ left => left = closing :: rest := by
  refine each tokens (closing :: rest) derived ?_ short
  rw [show leading (closing :: rest) = kind from fits]
  exact Nat.lt_succ_of_le (Nat.le_of_eq ends)

/-- An expression that may be missing before such a token. -/
theorem optional_before {closing : Token} {kind : Kind} {tokens : List Token}
    (each : expression.Handles (form .expression) (Kind.LooserThan 1) size)
    (derived : Derives (Phrase.optional (form .expression)) tokens) (fits : closing.kind = kind)
    (ends : kind.tightness = 0) (never : kind.startsExpression = false) (rest : List Token)
    (short : (tokens ++ closing :: rest).length ≤ size) :
    (optional kind expression).Accepts (tokens ++ closing :: rest)
      fun _ left => left = closing :: rest := by
  unfold optional
  refine .peek fun token same => ?_
  rcases derives_optional.mp derived with present | rfl
  · have different : token.kind ≠ kind := by
      have starts := (expression_begins present).leads (closing :: rest)
      rw [same]
      intro closes
      rw [closes, never] at starts
      cases starts
    rw [if_neg different]
    exact (expression_before each present fits ends rest short).some
  · rw [if_pos (same.trans fits)]
    exact .pure rfl

theorem variable_declaration_handles
    (each : expression.Handles (form .expression) (Kind.LooserThan 1) size) :
    (variableDeclaration expression).Handles (inOrder [word .identifier,
      Phrase.optional (inOrder [word .equal, form .expression]), word .semicolon])
      (fun _ => True) size := by
  intro tokens rest derived _ short
  obtain ⟨name, others, rfl, named, derived⟩ := derives_word_first.mp derived
  obtain ⟨value, closing, rfl, initializer, last⟩ := derives_in_order.mp derived
  obtain ⟨semicolon, rfl, ends⟩ := derives_word.mp (derives_in_order_one.mp last)
  rw [List.cons_append, List.append_assoc] at short ⊢
  unfold variableDeclaration
  refine .expect named fun _ => ?_
  rcases derives_optional.mp initializer with present | rfl
  · obtain ⟨equals, value, rfl, sign, present⟩ := derives_word_first.mp present
    rw [derives_in_order_one] at present
    have shorter : (value ++ semicolon :: rest).length ≤ size := by
      simp only [List.length_cons, List.length_append] at short ⊢
      omega
    have reads := expression_before each present ends rfl rest shorter
    exact (Accepts.following sign reads).leaving fun _ => .expect ends fun _ => .pure rfl
  · have different : leading ([] ++ semicolon :: rest) ≠ .equal := by
      rw [show leading ([] ++ semicolon :: rest) = .semicolon from ends]
      exact nofun
    exact (Accepts.not_following different).leaving fun _ => .expect ends fun _ => .pure rfl

theorem expression_statement_handles
    (each : expression.Handles (form .expression) (Kind.LooserThan 1) size) :
    (expressionStatement expression).Handles (inOrder [form .expression, word .semicolon])
      (fun _ => True) size := by
  intro tokens rest derived _ short
  obtain ⟨value, closing, rfl, value, last⟩ := derives_in_order.mp derived
  obtain ⟨semicolon, rfl, ends⟩ := derives_word.mp (derives_in_order_one.mp last)
  rw [List.append_assoc] at short ⊢
  unfold expressionStatement
  exact (expression_before each value ends rfl rest short).leaving fun _ =>
    .expect ends fun _ => .pure rfl

theorem print_statement_handles
    (each : expression.Handles (form .expression) (Kind.LooserThan 1) size) :
    (printStatement expression).Handles (inOrder [form .expression, word .semicolon])
      (fun _ => True) size := by
  intro tokens rest derived _ short
  obtain ⟨value, closing, rfl, value, last⟩ := derives_in_order.mp derived
  obtain ⟨semicolon, rfl, ends⟩ := derives_word.mp (derives_in_order_one.mp last)
  rw [List.append_assoc] at short ⊢
  unfold printStatement
  exact (expression_before each value ends rfl rest short).leaving fun _ =>
    .expect ends fun _ => .pure rfl

theorem exit_statement_handles (keyword : Token)
    (each : expression.Handles (form .expression) (Kind.LooserThan 1) size) :
    (exitStatement keyword expression).Handles
      (inOrder [Phrase.optional (form .expression), word .semicolon]) (fun _ => True) size := by
  intro tokens rest derived _ short
  obtain ⟨value, closing, rfl, value, last⟩ := derives_in_order.mp derived
  obtain ⟨semicolon, rfl, ends⟩ := derives_word.mp (derives_in_order_one.mp last)
  rw [List.append_assoc] at short ⊢
  unfold exitStatement
  exact (optional_before each value ends rfl rfl rest short).leaving fun _ =>
    .expect ends fun _ => .pure rfl

theorem while_statement_handles
    (each : expression.Handles (form .expression) (Kind.LooserThan 1) size)
    (inner : statement.HandlesStatement (form .statement) size) :
    (whileStatement expression statement).HandlesStatement (inOrder [word .leftParen,
      form .expression, word .rightParen, form .statement]) size := by
  intro tokens rest stop count derived branches stops short
  obtain ⟨opening, others, rfl, opens, derived⟩ := derives_word_first.mp derived
  obtain ⟨condition, others, rfl, test, derived⟩ := derives_in_order.mp derived
  obtain ⟨paren, body, rfl, closes, derived⟩ := derives_word_first.mp derived
  rw [derives_in_order_one] at derived
  simp only [List.cons_append, List.append_assoc, List.length_cons, List.length_append] at short ⊢
  have tested := expression_before each test closes rfl (body ++ rest)
  have looped := inner body rest stop count derived branches stops
  simp only [List.length_append, List.length_cons] at tested looped
  unfold whileStatement
  exact .expect opens fun _ => (tested (by omega)).leaving fun _ => .expect closes fun _ =>
    (looped (by omega)).bind fun _ _ holds => .pure ⟨holds.1, by omega⟩

theorem for_initializer_accepts {tokens : List Token}
    (each : expression.Handles (form .expression) (Kind.LooserThan 1) size)
    (derived : Derives (form .variableDeclaration ||| form .expressionStatement |||
      word .semicolon) tokens) (rest : List Token) (short : (tokens ++ rest).length ≤ size) :
    (forInitializer expression).Accepts (tokens ++ rest) fun _ left => left = rest := by
  unfold forInitializer
  rw [derives_choice, derives_choice] at derived
  rcases derived with (declared | plain) | empty
  · obtain ⟨keyword, others, rfl, fits, derived⟩ :=
      derives_word_first.mp (derives_form.mp declared)
    refine .pass fits nofun (.accept fits fun _ => ?_)
    exact (variable_declaration_handles each others rest derived trivial
      (Nat.le_of_succ_le short)).some
  · rw [derives_form, grammar] at plain
    have starts : (leading (tokens ++ rest)).startsExpression = true := by
      obtain ⟨front, back, rfl, head, -⟩ := derives_in_order.mp plain
      rw [List.append_assoc]
      exact (expression_begins head).leads (back ++ rest)
    have different (kind : Kind) (never : kind.startsExpression = false) :
        leading (tokens ++ rest) ≠ kind := by
      intro same
      rw [same, never] at starts
      cases starts
    refine .decline (different _ rfl) (.decline (different _ rfl) ?_)
    exact (expression_statement_handles each tokens rest plain trivial short).some
  · obtain ⟨semicolon, rfl, fits⟩ := derives_word.mp empty
    exact .accept fits fun _ => .pure rfl

theorem for_statement_handles
    (each : expression.Handles (form .expression) (Kind.LooserThan 1) size)
    (inner : statement.HandlesStatement (form .statement) size) :
    (forStatement expression statement).HandlesStatement (inOrder [word .leftParen,
      form .variableDeclaration ||| form .expressionStatement ||| word .semicolon,
      Phrase.optional (form .expression), word .semicolon, Phrase.optional (form .expression),
      word .rightParen, form .statement]) size := by
  intro tokens rest stop count derived branches stops short
  obtain ⟨opening, others, rfl, opens, derived⟩ := derives_word_first.mp derived
  obtain ⟨initializer, others, rfl, starts, derived⟩ := derives_in_order.mp derived
  obtain ⟨condition, others, rfl, test, derived⟩ := derives_in_order.mp derived
  obtain ⟨semicolon, others, rfl, ends, derived⟩ := derives_word_first.mp derived
  obtain ⟨increment, others, rfl, steps, derived⟩ := derives_in_order.mp derived
  obtain ⟨paren, body, rfl, closes, derived⟩ := derives_word_first.mp derived
  rw [derives_in_order_one] at derived
  simp only [List.cons_append, List.append_assoc, List.length_cons, List.length_append] at short ⊢
  have initial := for_initializer_accepts each starts
    (condition ++ semicolon :: (increment ++ paren :: (body ++ rest)))
  have tested := optional_before each test ends rfl rfl (increment ++ paren :: (body ++ rest))
  have stepped := optional_before each steps closes rfl rfl (body ++ rest)
  have looped := inner body rest stop count derived branches stops
  simp only [List.length_append, List.length_cons] at initial tested stepped looped
  unfold forStatement
  exact .expect opens fun _ => (initial (by omega)).leaving fun _ =>
    (tested (by omega)).leaving fun _ => .expect ends fun _ =>
    (stepped (by omega)).leaving fun _ => .expect closes fun _ =>
    (looped (by omega)).bind fun _ _ holds => .pure ⟨holds.1, by omega⟩

theorem if_statement_handles
    (each : expression.Handles (form .expression) (Kind.LooserThan 1) size)
    (inner : statement.HandlesStatement (form .statement) size) :
    (ifStatement expression statement).HandlesStatement (inOrder [word .leftParen,
      form .expression, word .rightParen, form .statement,
      Phrase.optional (inOrder [word .elseWord, form .statement])]) size := by
  intro tokens rest stop count derived branches stops short
  obtain ⟨opening, others, rfl, opens, derived⟩ := derives_word_first.mp derived
  obtain ⟨condition, others, rfl, test, derived⟩ := derives_in_order.mp derived
  obtain ⟨paren, others, rfl, closes, derived⟩ := derives_word_first.mp derived
  obtain ⟨chosen, otherwise, rfl, derived, last⟩ := derives_in_order.mp derived
  rw [derives_in_order_one, derives_optional] at last
  -- the statement behind the condition may take any of the branches after it, its own included
  have available : ∃ more ≤ count + 1, Branches stop more (otherwise ++ rest) := by
    rcases last with last | rfl
    · obtain ⟨keyword, tokens, rfl, fits, written⟩ := derives_word_first.mp last
      exact ⟨count + 1, Nat.le_refl _, .more fits (derives_in_order_one.mp written) branches⟩
    · exact ⟨count, Nat.le_succ _, branches⟩
  obtain ⟨more, most, available⟩ := available
  simp only [List.cons_append, List.append_assoc, List.length_cons, List.length_append] at short ⊢
  have tested := expression_before each test closes rfl (chosen ++ (otherwise ++ rest))
  have taken := inner chosen (otherwise ++ rest) stop more derived available stops
  simp only [List.length_append, List.length_cons] at tested taken
  unfold ifStatement
  refine .expect opens fun _ => (tested (by omega)).leaving fun _ => .expect closes fun _ =>
    (taken (by omega)).bind fun thenBranch left holds => ?_
  obtain ⟨⟨fewer, few, remaining⟩, shorter⟩ := holds
  cases remaining with
  | none =>
      exact (Accepts.not_following stops).finish fun _ => ⟨⟨0, Nat.zero_le _, .none⟩, by omega⟩
  | @more fewer keyword elseTokens last fits written others =>
      simp only [List.length_cons, List.length_append] at shorter
      have branch := inner elseTokens last stop fewer written others stops
      simp only [List.length_append] at branch
      refine (Accepts.following fits (branch (by omega))).bind fun elseBranch left holds => ?_
      obtain ⟨⟨least, below, remaining⟩, shortest⟩ := holds
      exact .pure ⟨⟨least, by omega, remaining⟩, by omega⟩

theorem function_handles (enough : size ≤ bound)
    (body : (block declaration bound).HandlesBlock size) :
    (function declaration bound).Handles (inOrder [word .identifier, word .leftParen,
      Phrase.optional (form .parameters), word .rightParen, form .block])
      (fun _ => True) size := by
  intro tokens rest derived _ short
  obtain ⟨name, others, rfl, named, derived⟩ := derives_word_first.mp derived
  obtain ⟨opening, others, rfl, opens, derived⟩ := derives_word_first.mp derived
  have parts : Derives (inOrder ([Phrase.optional (form .parameters), word .rightParen] ++
      [form .block])) others := derived
  obtain ⟨listed, written, rfl, list, last⟩ := derives_in_order_append.mp parts
  rw [derives_in_order_one, derives_form, grammar, derives_word_first] at last
  obtain ⟨brace, statements, rfl, braced, last⟩ := last
  simp only [List.cons_append, List.append_assoc, List.length_cons, List.length_append] at short ⊢
  have names := parameters_handle enough listed (brace :: (statements ++ rest)) list trivial
  have statements := body statements rest last trivial
  simp only [List.length_append, List.length_cons] at names statements
  unfold function
  exact .expect named fun _ => .expect opens fun _ => (names (by omega)).leaving fun _ =>
    .expect braced fun _ => .finish (statements (by omega)) fun _ => rfl

theorem method_handles (enough : size ≤ bound)
    (body : (block declaration bound).HandlesBlock size) :
    (method declaration bound).Handles (form .method) (fun _ => True) size := by
  intro tokens rest derived _ short
  rw [derives_form, grammar, derives_word_first] at derived
  obtain ⟨name, others, rfl, named, derived⟩ := derived
  obtain ⟨listed, written, rfl, list, last⟩ := derives_in_order.mp derived
  rw [derives_in_order_one, derives_form, grammar, derives_word_first] at last
  obtain ⟨brace, statements, rfl, braced, last⟩ := last
  simp only [List.cons_append, List.append_assoc, List.length_cons, List.length_append] at short ⊢
  have reads := body statements rest last trivial
  simp only [List.length_append] at reads
  unfold method
  refine .expect named fun _ => ?_
  rcases derives_optional.mp list with present | rfl
  · obtain ⟨opening, inside, rfl, opens, inner⟩ := derives_word_first.mp present
    have names := parameters_handle enough inside (brace :: (statements ++ rest)) inner trivial
    simp only [List.length_append, List.length_cons] at names short
    refine (Accepts.following opens (names (by omega))).leaving fun _ => .expect braced fun _ =>
      .finish (reads (by omega)) fun _ => rfl
  · have different : leading ([] ++ brace :: (statements ++ rest)) ≠ .leftParen := by
      rw [show leading ([] ++ brace :: _) = .leftBrace from braced]
      decide
    exact (Accepts.not_following different).leaving fun _ => .expect braced fun _ =>
      .finish (reads (by omega)) fun _ => rfl

theorem members_accept {method : Rule Routine} {tokens rest : List Token}
    (each : method.Handles (form .method) (fun _ => True) size) (bound : Nat)
    (derived : Derives (many (inOrder [Phrase.optional (word .classWord), form .method])) tokens)
    (closes : leading rest = .rightBrace) (short : (tokens ++ rest).length ≤ size)
    (enough : tokens.length ≤ bound) :
    (members method bound).Accepts (tokens ++ rest) fun _ left => left = rest := by
  induction bound generalizing tokens with
  | zero =>
      rw [List.length_eq_zero_iff.mp (Nat.le_zero.mp enough)]
      exact .pure rfl
  | succ bound induction =>
      unfold members
      refine .peek fun token same => ?_
      rcases derives_many.mp derived with rfl | ⟨front, back, rfl, head, tail⟩
      · have closed : token.kind = .rightBrace := same.trans closes
        simp only [closed]
        exact .pure rfl
      · obtain ⟨marks, written, rfl, mark, head⟩ := derives_in_order.mp head
        rw [derives_in_order_one] at head
        obtain ⟨name, others, rfl, named, -⟩ := derives_word_first.mp (derives_form.mp head)
        have first := each (name :: others) (back ++ rest) head trivial
        have further := induction tail
        simp only [List.cons_append, List.append_assoc, List.length_append, List.length_cons]
          at short enough first further ⊢
        have going (other : Token) (kind : other.kind = .classWord ∨ other.kind = .identifier) :
            ¬ (other.kind = .rightBrace || other.kind = .endOfInput) = true := by
          rcases kind with kind | kind <;> simp [kind]
        rcases derives_optional.mp mark with marked | rfl
        · obtain ⟨keyword, rfl, fits⟩ := derives_word.mp marked
          simp only [List.length_singleton] at short enough
          rw [if_neg (going token (.inl (same.trans fits)))]
          exact .accept fits fun _ => (first (by omega)).leaving fun _ =>
            .finish (further (by omega) (by omega)) fun _ => rfl
        · simp only [List.length_nil] at short enough
          rw [if_neg (going token (.inr (same.trans named)))]
          exact .pass named nofun ((first (by omega)).leaving fun _ =>
            .finish (further (by omega) (by omega)) fun _ => rfl)

theorem class_declaration_handles (enough : size ≤ bound)
    (body : (block declaration bound).HandlesBlock size) :
    (classDeclaration declaration bound).Handles (inOrder [word .identifier,
      Phrase.optional (inOrder [word .less, word .identifier]), word .leftBrace,
      many (inOrder [Phrase.optional (word .classWord), form .method]), word .rightBrace])
      (fun _ => True) size := by
  intro tokens rest derived _ short
  obtain ⟨name, others, rfl, named, derived⟩ := derives_word_first.mp derived
  obtain ⟨inherits, others, rfl, inherited, derived⟩ := derives_in_order.mp derived
  obtain ⟨brace, others, rfl, braced, derived⟩ := derives_word_first.mp derived
  obtain ⟨listed, closing, rfl, list, last⟩ := derives_in_order.mp derived
  obtain ⟨ending, rfl, closes⟩ := derives_word.mp (derives_in_order_one.mp last)
  simp only [List.cons_append, List.append_assoc, List.length_cons, List.length_append,
    List.length_nil] at short ⊢
  have stops : leading ([ending] ++ rest) = .rightBrace := closes
  have all := members_accept (method_handles enough body) bound list stops
  simp only [List.length_append, List.length_cons, List.length_nil] at all
  have finished (name : Token) (superclass : Option Occurrence) : Accepts (do
      let _ ← expect .leftBrace .classBody
      let all ← members (method declaration bound) bound
      let _ ← expect .rightBrace .classEnd
      return Statement.classDeclaration name superclass
        ((all.filter (!·.1)).map (·.2)) ((all.filter (·.1)).map (·.2)))
      (brace :: (listed ++ ([ending] ++ rest))) fun _ left => left = rest :=
    .expect braced fun _ => (all (by omega) (by omega)).leaving fun _ =>
      .expect closes fun _ => .pure rfl
  unfold classDeclaration
  refine .expect named fun _ => ?_
  rcases derives_optional.mp inherited with present | rfl
  · obtain ⟨less, others, rfl, sign, above⟩ := derives_word_first.mp present
    obtain ⟨parent, rfl, called⟩ := derives_word.mp (derives_in_order_one.mp above)
    have place : superclass.Accepts (parent :: brace :: (listed ++ ([ending] ++ rest)))
        fun _ left => left = brace :: (listed ++ ([ending] ++ rest)) :=
      .expect called fun _ => .fresh fun _ => .pure rfl
    exact (Accepts.following sign place).leaving fun found => finished _ found
  · have different : leading ([] ++ brace :: (listed ++ ([ending] ++ rest))) ≠ .less := by
      rw [show leading ([] ++ brace :: _) = .leftBrace from braced]
      exact nofun
    exact (Accepts.not_following different).leaving fun found => finished _ found

end Rule

end Lox
