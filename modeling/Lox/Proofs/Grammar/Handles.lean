import Lox.Proofs.Grammar.Accepts

/-!
What the rules for expressions get through, given the rules that they are built
from. Each level of operators stops before a token that binds less tightly than
its own operators, which is all that the levels above it have to know.
-/

namespace Lox

open Phrase

/-- How tightly a token of some kind binds what stands before it. -/
def Kind.tightness : Kind → Nat
  | .equal => 1
  | .question => 2
  | .orWord => 3
  | .andWord => 4
  | .bangEqual | .equalEqual => 5
  | .greater | .greaterEqual | .less | .lessEqual => 6
  | .minus | .plus => 7
  | .star | .slash => 8
  | .leftParen | .dot => 9
  | _ => 0

/-- A token that cannot continue what has been read on a level. -/
def Kind.LooserThan (tight : Nat) (kind : Kind) : Prop := kind.tightness < tight

namespace Rule

section

variable {α : Type} {item : Rule α} {phrase : Phrase} {size : Nat}

/-- Items after a comma have a lower limit, and as many fewer tokens as the bound. -/
theorem comma_separated_accepts
    (each : item.Handles phrase (fun kind => kind = .comma ∨ kind = .rightParen) size)
    (excess : SyntaxError) (bound limit count : Nat) {tokens rest : List Token}
    (derived : Derives (.list limit phrase) tokens) (fewer : limit + count ≤ listLimit)
    (stops : leading rest = .rightParen) (short : (tokens ++ rest).length ≤ size)
    (enough : (tokens ++ rest).length ≤ bound) :
    (commaSeparated item excess bound count).Accepts (tokens ++ rest) fun _ left =>
      left = rest := by
  induction bound generalizing limit count tokens with
  | zero =>
      have empty := List.append_eq_nil_iff.mp (List.length_eq_zero_iff.mp (Nat.le_zero.mp enough))
      rw [empty.2] at stops
      cases stops
  | succ bound induction =>
      obtain ⟨lower, rfl, derived | ⟨front, comma, back, rfl, head, fits, tail⟩⟩ :=
        derives_list.mp derived
      all_goals
        unfold commaSeparated
        have room : ¬ 255 ≤ count := by
          unfold listLimit at fewer
          omega
        rw [if_neg room]
      · refine (each tokens rest derived (.inr stops) short).leaving fun first => ?_
        exact .decline (by rw [stops]; exact nofun) (.pure rfl)
      · rw [List.append_assoc, List.cons_append] at short enough ⊢
        have shorter : (back ++ rest).length < (front ++ comma :: (back ++ rest)).length := by
          simp only [List.length_append, List.length_cons]
          omega
        refine (each front (comma :: (back ++ rest)) head (.inl fits) short).leaving fun first =>
          .accept fits fun found => .finish ?_ fun _ => rfl
        exact induction lower (count + 1) tail (by omega) (by omega) (by omega)

end

theorem parameters_handle {bound size : Nat} (enough : size ≤ bound) :
    (parameters bound).Handles (inOrder [Phrase.optional (form .parameters), word .rightParen])
      (fun _ => True) size := by
  intro tokens rest derived _ short
  obtain ⟨inside, closing, rfl, names, closes⟩ := derives_in_order.mp derived
  obtain ⟨paren, rfl, fits⟩ := derives_word.mp (derives_in_order_one.mp closes)
  rw [List.append_assoc] at short ⊢
  have finished (names : List Token) : Accepts (do
      let _ ← expect .rightParen .parametersEnd
      return names) (paren :: rest) fun _ left => left = rest :=
    .expect fits fun _ => .pure rfl
  unfold parameters
  refine .peek fun token same => ?_
  rcases derives_optional.mp names with present | rfl
  · have list := derives_form.mp present
    have each : (expect .identifier .parameterName).Handles (word .identifier)
        (fun kind => kind = .comma ∨ kind = .rightParen) size := by
      intro front others derived _ _
      obtain ⟨name, rfl, called⟩ := derives_word.mp derived
      exact .expected called
    have other : token.kind ≠ .rightParen := by
      obtain ⟨first, back, rfl, head⟩ := derives_list_head list
      obtain ⟨name, rfl, called⟩ := derives_word.mp head
      rw [same]
      exact fun closed => nomatch called.symm.trans closed
    rw [if_neg other]
    have stops : leading (paren :: rest) = .rightParen := fits
    exact (comma_separated_accepts each .tooManyParameters bound listLimit 0 list (Nat.le_refl _)
      stops short (Nat.le_trans short enough)).leaving finished
  · rw [if_pos (same.trans fits)]
    exact finished []

/-- What a call or a property access adds to a call. -/
def trailer : Phrase :=
  inOrder [word .leftParen, Phrase.optional (form .arguments), word .rightParen]
    ||| inOrder [word .dot, word .identifier]

theorem trailers_accept {expression : Rule Expression} {size : Nat}
    (each : expression.Handles (form .expression) (Kind.LooserThan 1) size)
    {good : Expression → List Token → Prop} {rest : List Token} (bound : Nat)
    (target : Expression) {tokens : List Token} (derived : Derives (many trailer) tokens)
    (short : (tokens ++ rest).length ≤ size) (enough : (tokens ++ rest).length ≤ bound)
    (following : ∀ later target, rest.length ≤ later →
      (trailers expression later target).Accepts rest good) :
    (trailers expression bound target).Accepts (tokens ++ rest) good := by
  induction bound generalizing target tokens with
  | zero =>
      have empty := List.append_eq_nil_iff.mp (List.length_eq_zero_iff.mp (Nat.le_zero.mp enough))
      rw [empty.1] at enough ⊢
      exact following 0 target enough
  | succ bound induction =>
      rcases derives_many.mp derived with rfl | ⟨front, back, rfl, head, tail⟩
      · exact following (bound + 1) target enough
      rw [trailer, derives_choice, derives_word_first, derives_word_first] at head
      unfold trailers
      rcases head with ⟨opening, inner, rfl, opens, head⟩ | ⟨dot, inner, rfl, dotted, head⟩
      · obtain ⟨inside, closing, rfl, values, closes⟩ := derives_in_order.mp head
        obtain ⟨paren, rfl, fits⟩ := derives_word.mp (derives_in_order_one.mp closes)
        simp only [List.cons_append, List.append_assoc, List.nil_append, List.length_cons]
          at short enough ⊢
        have stops : leading (paren :: (back ++ rest)) = .rightParen := fits
        have finished (values : List Expression) : Accepts (do
            let closing ← expect .rightParen .argumentsEnd
            trailers expression bound (.call target closing values))
              (paren :: (back ++ rest)) good :=
          .expect fits fun closing => induction _ tail
            (by simp only [List.length_append, List.length_cons] at short ⊢; omega)
            (by simp only [List.length_append, List.length_cons] at enough ⊢; omega)
        refine .accept opens fun found => .peek fun token same => ?_
        rcases derives_optional.mp values with present | rfl
        · have list := derives_form.mp present
          have items : expression.Handles (form .expression)
              (fun kind => kind = .comma ∨ kind = .rightParen) size := by
            intro front others derived stops short
            refine each front others derived ?_ short
            rcases stops with stops | stops <;> rw [stops] <;> exact Nat.one_pos
          have other : token.kind ≠ .rightParen := by
            obtain ⟨first, others, rfl, start⟩ := derives_list_head list
            have begins : Begins Kind.startsExpression (first ++ others) :=
              (expression_begins start).append
            have starts := begins.leads (paren :: (back ++ rest))
            rw [same]
            intro closed
            rw [closed] at starts
            cases starts
          rw [if_neg other]
          exact (comma_separated_accepts items .tooManyArguments (bound + 1) listLimit 0 list
            (Nat.le_refl _) stops (by omega) (by omega)).leaving finished
        · rw [if_pos (same.trans fits)]
          exact finished []
      · obtain ⟨name, rfl, named⟩ := derives_word.mp (derives_in_order_one.mp head)
        simp only [List.cons_append, List.nil_append, List.length_cons] at short enough ⊢
        refine .pass dotted nofun (.accept dotted fun found => .expect named fun name => ?_)
        exact induction _ tail (by omega) (by omega)

/-- A rule that reads a block after its opening brace. -/
def HandlesBlock (rule : Rule (List Statement)) (size : Nat) : Prop :=
  rule.Handles (inOrder [many (form .declaration), word .rightBrace]) (fun _ => True) size

section

variable {expression : Rule Expression} {declaration : Rule Statement} {bound size : Nat}

theorem lambda_handles (enough : size ≤ bound)
    (body : (block declaration bound).HandlesBlock size) :
    (lambda declaration bound).Handles (inOrder [word .leftParen,
      Phrase.optional (form .parameters), word .rightParen, form .block]) (fun _ => True) size := by
  intro tokens rest derived _ short
  obtain ⟨opening, others, rfl, opens, inner⟩ := derives_word_first.mp derived
  have parts : Derives (inOrder ([Phrase.optional (form .parameters), word .rightParen] ++
      [form .block])) others := inner
  obtain ⟨listed, written, rfl, list, last⟩ := derives_in_order_append.mp parts
  rw [derives_in_order_one, derives_form, grammar, derives_word_first] at last
  obtain ⟨brace, statements, rfl, braced, last⟩ := last
  simp only [List.cons_append, List.append_assoc, List.length_cons] at short ⊢
  unfold lambda
  refine .expect opens fun _ => ?_
  refine (parameters_handle enough listed _ list trivial (by omega)).leaving fun names =>
    .expect braced fun _ => .finish ?_ fun _ => rfl
  refine body statements rest last trivial ?_
  simp only [List.length_append, List.length_cons] at short ⊢
  omega

/-- A primary expression takes a token before it goes deeper. -/
theorem primary_handles (enough : size ≤ bound)
    (inner : expression.Handles (form .expression) (Kind.LooserThan 1) size)
    (body : (block declaration bound).HandlesBlock size) :
    (primary expression declaration bound).Handles (form .primary) (fun _ => True) (size + 1) := by
  intro tokens rest derived _ short
  rw [derives_form] at derived
  simp only [grammar, derives_choice, derives_word, derives_number, derives_string,
    or_assoc] at derived
  rcases derived with ⟨token, value, rfl, fits⟩ | ⟨token, text, rfl, fits⟩ | ⟨token, rfl, fits⟩ |
    ⟨token, rfl, fits⟩ | ⟨token, rfl, fits⟩ | ⟨token, rfl, fits⟩ | inherited |
    ⟨token, rfl, fits⟩ | grouped | function
  case inr.inr.inr.inr.inr.inr.inl =>
    obtain ⟨token, others, rfl, fits, back⟩ := derives_word_first.mp inherited
    obtain ⟨dot, others, rfl, dotted, back⟩ := derives_word_first.mp back
    obtain ⟨name, rfl, named⟩ := derives_word.mp (derives_in_order_one.mp back)
    unfold primary
    refine .peek fun looked same => ?_
    simp only [same.trans fits]
    exact .skip (.expect dotted fun _ => .expect named fun _ => .fresh fun _ => .pure rfl)
  case inr.inr.inr.inr.inr.inr.inr.inr.inl =>
    obtain ⟨token, others, rfl, fits, back⟩ := derives_word_first.mp grouped
    obtain ⟨within, closing, rfl, derived, last⟩ := derives_in_order.mp back
    obtain ⟨paren, rfl, closes⟩ := derives_word.mp (derives_in_order_one.mp last)
    have stops : Kind.LooserThan 1 (leading (paren :: rest)) := by
      rw [show leading (paren :: rest) = .rightParen from closes]
      exact Nat.one_pos
    unfold primary
    refine .peek fun looked same => ?_
    simp only [same.trans fits]
    simp only [List.cons_append, List.append_assoc, List.length_cons] at short ⊢
    refine .skip ((inner within (paren :: rest) derived stops
      (Nat.le_of_succ_le_succ short)).leaving
      fun _ => .expect closes fun _ => .pure rfl)
  case inr.inr.inr.inr.inr.inr.inr.inr.inr =>
    obtain ⟨token, others, rfl, fits, back⟩ := derives_word_first.mp function
    unfold primary
    refine .peek fun looked same => ?_
    simp only [same.trans fits]
    exact .skip (lambda_handles enough body others rest back trivial (Nat.le_of_succ_le_succ short))
  all_goals
    unfold primary
    refine .peek fun looked same => ?_
    simp only [same.trans fits]
    first
    | exact .skip (.pure rfl)
    | exact .skip (.fresh fun id => .pure rfl)

end

/-- The operators of a level, and how tightly they bind. -/
structure LevelAt (level : Level) (operators : Phrase) (tight : Nat) : Prop where
  derives : ∀ tokens, Derives operators tokens →
    ∃ token, tokens = [token] ∧ token.kind ∈ level.operators
  tight : ∀ kind ∈ level.operators, kind.tightness = tight

section

variable {level : Level} {operators operand : Phrase} {tight size : Nat}
  {tighter : Rule Expression} {tokens rest : List Token}

/-- After an operand comes another operator of the level or something looser. -/
theorem operators_stop (is : LevelAt level operators tight)
    (derived : Derives (many (inOrder [operators, operand])) tokens)
    (stops : Kind.LooserThan tight (leading rest)) :
    Kind.LooserThan (tight + 1) (leading (tokens ++ rest)) := by
  rcases derives_many.mp derived with rfl | ⟨front, back, rfl, head, -⟩
  · exact Nat.lt_succ_of_lt stops
  · obtain ⟨operator, others, rfl, between, -⟩ := derives_in_order.mp head
    obtain ⟨token, rfl, member⟩ := is.derives operator between
    exact Nat.lt_succ_of_le (Nat.le_of_eq (is.tight _ member))

theorem chain_accepts (is : LevelAt level operators tight)
    (each : tighter.Handles operand (Kind.LooserThan (tight + 1)) size) (bound : Nat)
    (left : Expression) (derived : Derives (many (inOrder [operators, operand])) tokens)
    (stops : Kind.LooserThan tight (leading rest)) (short : (tokens ++ rest).length ≤ size)
    (enough : (tokens ++ rest).length ≤ bound) :
    (chain level tighter bound left).Accepts (tokens ++ rest) fun _ left => left = rest := by
  induction bound generalizing left tokens with
  | zero =>
      have empty := List.append_eq_nil_iff.mp (List.length_eq_zero_iff.mp (Nat.le_zero.mp enough))
      rw [empty.1]
      exact .pure rfl
  | succ bound induction =>
      unfold chain
      rcases derives_many.mp derived with rfl | ⟨front, back, rfl, head, tail⟩
      · refine .decline_any (fun member => ?_) (.pure rfl)
        exact absurd (is.tight _ member) (Nat.ne_of_lt stops)
      · obtain ⟨operator, others, rfl, between, last⟩ := derives_in_order.mp head
        obtain ⟨token, rfl, member⟩ := is.derives operator between
        rw [derives_in_order_one] at last
        simp only [List.cons_append, List.append_assoc, List.nil_append, List.length_cons,
          List.length_append] at short enough ⊢
        refine .accept_any member fun found => ?_
        refine (each others (back ++ rest) last (operators_stop is tail stops) ?_).leaving
          fun right => ?_
        · simp only [List.length_append]
          omega
        · refine induction _ tail ?_ ?_ <;> simp only [List.length_append] <;> omega

theorem level_handles (is : LevelAt level operators tight)
    (each : tighter.Handles operand (Kind.LooserThan (tight + 1)) size) {bound : Nat}
    (enough : size ≤ bound) :
    Handles (do chain level tighter bound (← tighter)) (joined operators operand)
      (Kind.LooserThan tight) size := by
  intro tokens rest derived stops short
  obtain ⟨front, back, rfl, head, tail⟩ := derives_in_order.mp derived
  rw [derives_in_order_one] at tail
  rw [List.append_assoc] at short ⊢
  refine (each front (back ++ rest) head (operators_stop is tail stops) short).leaving
    fun left => ?_
  have shorter : (back ++ rest).length ≤ size := by
    simp only [List.length_append] at short ⊢
    omega
  exact chain_accepts is each bound left tail stops shorter (Nat.le_trans shorter enough)

end

theorem operations_handle {operand : Rule Expression} {bound size : Nat} (enough : size ≤ bound)
    (each : operand.Handles (form .unary) (Kind.LooserThan 9) size) :
    (operations bound operand).Handles (form .disjunction) (Kind.LooserThan 3) size := by
  have named (wide narrow : Form) (tight : Nat) {level : Level} {tighter : Rule Expression}
      {operators : Phrase} (means : grammar wide = joined operators (form narrow))
      (is : LevelAt level operators tight)
      (each : tighter.Handles (form narrow) (Kind.LooserThan (tight + 1)) size) :
      Handles (do chain level tighter bound (← tighter)) (form wide) (Kind.LooserThan tight) size :=
    fun tokens rest derived => level_handles is each enough tokens rest
      (means ▸ derives_form.mp derived)
  simp only [operations, levels, List.foldr_cons, List.foldr_nil]
  refine named .disjunction .conjunction 3 rfl ⟨fun tokens derived => ?_, by decide⟩ ?_
  · simpa [derives_word] using derived
  refine named .conjunction .equality 4 rfl ⟨fun tokens derived => ?_, by decide⟩ ?_
  · simpa [derives_word] using derived
  refine named .equality .comparison 5 rfl ⟨fun tokens derived => ?_, by decide⟩ ?_
  · simpa [derives_choice, derives_word, ← exists_or, ← and_or_left] using derived
  refine named .comparison .term 6 rfl ⟨fun tokens derived => ?_, by decide⟩ ?_
  · simpa [derives_choice, derives_word, ← exists_or, ← and_or_left, or_assoc] using derived
  refine named .term .factor 7 rfl ⟨fun tokens derived => ?_, by decide⟩ ?_
  · simpa [derives_choice, derives_word, ← exists_or, ← and_or_left] using derived
  refine named .factor .unary 8 rfl ⟨fun tokens derived => ?_, by decide⟩ each
  simpa [derives_choice, derives_word, ← exists_or, ← and_or_left, or_comm] using derived

/-- Levels whose operators do not come next pass on what is read below them. -/
theorem operations_pass {operand : Rule Expression} {input : List Token}
    {good : Expression → List Token → Prop} (bound : Nat) (accepts : operand.Accepts input good)
    (stops : ∀ tree rest, good tree rest → Kind.LooserThan 3 (leading rest)) :
    (operations bound operand).Accepts input good := by
  have tight : ∀ level ∈ levels, ∀ kind ∈ level.operators, 3 ≤ kind.tightness := by decide
  unfold operations
  generalize levels = remaining at tight
  induction remaining with
  | nil => exact accepts
  | cons level others induction =>
      rw [List.forall_mem_cons] at tight
      refine (induction tight.2).bind fun tree rest holds => ?_
      cases bound with
      | zero => exact .pure holds
      | succ bound =>
          have different : leading rest ∉ level.operators := fun member =>
            absurd (stops tree rest holds) (Nat.not_lt.mpr (tight.1 _ member))
          unfold chain
          exact .decline_any different (.pure holds)

end Rule

end Lox
