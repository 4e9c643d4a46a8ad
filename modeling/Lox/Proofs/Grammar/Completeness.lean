import Lox.Proofs.Grammar.Branches
import Lox.Syntax.Parse

/-!
What the grammar derives is read without a complaint. The rules that call each
other are shown to get through inputs of growing size: whatever a rule calls
after a token has a smaller input, and eight levels of nesting for each token are
more than the rules take between two tokens.
-/

namespace Lox

open Phrase

/-- What stands before an equals sign in the grammar. -/
def Targeted (tokens : List Token) : Prop :=
  Derives (word .identifier) tokens ∨
    Derives (inOrder [form .call, word .dot, word .identifier]) tokens

def Expression.isTarget : Expression → Bool
  | .reference _ | .get _ _ => true
  | _ => false

/-- An expression assigns to a target or has no equals sign of its own. -/
theorem expression_cases {tokens : List Token} (derived : Derives (form .expression) tokens) :
    (∃ target equals value, tokens = target ++ equals :: value ∧ Targeted target ∧
      equals.kind = .equal ∧ Derives (form .expression) value) ∨
      Derives (form .ternary) tokens := by
  rw [derives_form, grammar, derives_form, grammar, derives_choice, derives_in_order] at derived
  rcases derived with ⟨object, others, rfl, owner, assigns⟩ | derived
  · obtain ⟨name, others, rfl, named, assigns⟩ := derives_word_first.mp assigns
    obtain ⟨equals, value, rfl, sign, assigns⟩ := derives_word_first.mp assigns
    have assigned : Derives (form .expression) value := .form (derives_in_order_one.mp assigns)
    refine .inl ⟨object ++ [name], equals, value, by simp, ?_, sign, assigned⟩
    rcases derives_optional.mp owner with owner | rfl
    · have property : Derives (inOrder ([form .call, word .dot] ++ [word .identifier]))
          (object ++ [name]) := owner.followed (.alone (.word named))
      exact .inr property
    · exact .inl (.word named)
  · exact .inr derived

theorem Targeted.leads {tokens : List Token} (targeted : Targeted tokens) (rest : List Token) :
    (leading (tokens ++ rest)).startsCall = true := by
  rcases targeted with named | property
  · obtain ⟨token, rfl, fits⟩ := derives_word.mp named
    rw [show leading ([token] ++ rest) = .identifier from fits]
    rfl
  · obtain ⟨front, back, rfl, call, -⟩ := derives_in_order.mp property
    rw [List.append_assoc]
    exact (call_begins call).leads (back ++ rest)

/-- No call starts with the sign of a unary operator. -/
theorem unsigned {kind : Kind} (starts : kind.startsCall = true) :
    kind ∉ [Kind.bang, .minus] := by
  intro member
  simp only [List.mem_cons, List.not_mem_nil, or_false] at member
  rcases member with rfl | rfl <;> cases starts

namespace Rule

section

variable {expression : Rule Expression} {declaration : Rule Statement} {bound size : Nat}
  {tokens rest : List Token} {good : Expression → List Token → Prop}

/-- Trailers end before a token that starts none. -/
theorem trailers_stop (target : Expression) (stops : Kind.LooserThan 9 (leading rest)) :
    (trailers expression bound target).Accepts rest fun tree left =>
      tree = target ∧ left = rest := by
  cases bound with
  | zero => exact .pure ⟨rfl, rfl⟩
  | succ bound =>
      have different (kind : Kind) (tight : kind.tightness = 9) : leading rest ≠ kind := by
        rintro rfl
        exact absurd tight (Nat.ne_of_lt stops)
      unfold trailers
      exact .decline (different _ rfl) (.decline (different _ rfl) (.pure ⟨rfl, rfl⟩))

/-- A call is read to its end, where its trailers go on with what comes next. -/
theorem call_accepts (enough : size ≤ bound)
    (inner : expression.Handles (form .expression) (Kind.LooserThan 1) size)
    (body : (block declaration bound).HandlesBlock size)
    (derived : Derives (form .call) tokens) (short : (tokens ++ rest).length ≤ size + 1)
    (following : ∀ later target, rest.length ≤ later →
      (trailers expression later target).Accepts rest good) :
    Accepts (do trailers expression bound (← primary expression declaration bound))
      (tokens ++ rest) good := by
  rw [derives_form, grammar, derives_in_order] at derived
  obtain ⟨front, back, rfl, head, tail⟩ := derived
  rw [derives_in_order_one] at tail
  obtain ⟨first, others, rfl, -⟩ := primary_begins head
  rw [List.append_assoc] at short ⊢
  refine (primary_handles enough inner body _ (back ++ rest) head trivial short).leaving
    fun tree => ?_
  have shorter : (back ++ rest).length ≤ size := by
    simp only [List.cons_append, List.length_cons, List.length_append] at short ⊢
    omega
  exact trailers_accept inner bound tree tail shorter (Nat.le_trans shorter enough) following

theorem target_accepts (enough : size ≤ bound)
    (inner : expression.Handles (form .expression) (Kind.LooserThan 1) size)
    (body : (block declaration bound).HandlesBlock size) (targeted : Targeted tokens)
    (stops : Kind.LooserThan 9 (leading rest)) (short : (tokens ++ rest).length ≤ size + 1) :
    Accepts (do trailers expression bound (← primary expression declaration bound))
      (tokens ++ rest) fun tree left => tree.isTarget = true ∧ left = rest := by
  rcases targeted with named | property
  · obtain ⟨token, rfl, fits⟩ := derives_word.mp named
    have reference : (primary expression declaration bound).Accepts ([token] ++ rest)
        fun tree left => tree.isTarget = true ∧ left = rest := by
      unfold primary
      refine .peek fun looked same => ?_
      simp only [same.trans fits]
      exact .skip (.fresh fun id => .pure ⟨rfl, rfl⟩)
    refine reference.bind fun tree left holds => ?_
    obtain ⟨target, rfl⟩ := holds
    refine (trailers_stop tree stops).weaken fun result others same => ?_
    exact ⟨same.1 ▸ target, same.2⟩
  · obtain ⟨front, back, rfl, call, last⟩ := derives_in_order.mp property
    obtain ⟨dot, others, rfl, dotted, last⟩ := derives_word_first.mp last
    obtain ⟨name, rfl, named⟩ := derives_word.mp (derives_in_order_one.mp last)
    rw [List.append_assoc] at short ⊢
    refine call_accepts enough inner body call short fun later target long => ?_
    cases later with
    | zero => cases long
    | succ later =>
        unfold trailers
        refine .pass dotted (by decide) (.accept dotted fun _ => .expect named fun name => ?_)
        refine (trailers_stop (.get target name) stops).weaken fun result others same => ?_
        exact ⟨same.1 ▸ rfl, same.2⟩

end

/-- The rules that call each other get through inputs of some size, if their bounds
leave room for it. -/
structure Reaches (size : Nat) : Prop where
  expression : ∀ bound, 8 * size + 3 ≤ bound →
    (expression bound).Handles (form .expression) (Kind.LooserThan 1) size
  conditional : ∀ bound, 8 * size + 2 ≤ bound →
    (conditional bound).Handles (form .ternary) (Kind.LooserThan 2) size
  unary : ∀ bound, 8 * size + 1 ≤ bound →
    (unary bound).Handles (form .unary) (Kind.LooserThan 9) size
  statement : ∀ bound, 8 * size + 4 ≤ bound →
    (statement bound).HandlesStatement (form .statement) size
  declaration : ∀ bound, 8 * size + 5 ≤ bound →
    (declaration bound).Handles (form .declaration) (· ≠ .elseWord) size

variable {bound size : Nat}

theorem Reaches.block (smaller : Reaches size) (enough : 8 * size + 8 ≤ bound) :
    (block (Rule.declaration bound) bound).HandlesBlock size :=
  block_handles (smaller.declaration bound (by omega)) (by omega)

theorem unary_reaches (smaller : Reaches size) (enough : 8 * size + 9 ≤ bound) :
    (unary bound).Handles (form .unary) (Kind.LooserThan 9) (size + 1) := by
  intro tokens rest derived stops short
  obtain ⟨bound, rfl⟩ : ∃ fewer, bound = fewer + 1 := ⟨bound - 1, by omega⟩
  rw [derives_form, grammar, derives_choice] at derived
  unfold unary
  rcases derived with signed | call
  · obtain ⟨operator, others, rfl, sign, last⟩ := derives_in_order.mp signed
    rw [derives_in_order_one] at last
    have token : ∃ token : Token, operator = [token] ∧ token.kind ∈ [Kind.bang, .minus] := by
      simpa [derives_choice, derives_word, ← exists_or, ← and_or_left] using sign
    obtain ⟨token, rfl, member⟩ := token
    refine .accept_any member fun found => .finish ?_ fun _ => rfl
    exact smaller.unary bound (by omega) others rest last stops (Nat.le_of_succ_le_succ short)
  · refine .decline_any (unsigned ((call_begins call).leads rest)) ?_
    refine call_accepts (by omega) (smaller.expression bound (by omega))
      (smaller.block (by omega)) call short fun later target _ => ?_
    exact (trailers_stop target stops).weaken fun _ _ same => same.2

/-- A target is read as such by all rules down to the one for unary operators. -/
theorem target_reaches (smaller : Reaches size) (enough : 8 * size + 10 ≤ bound)
    {tokens rest : List Token} (targeted : Targeted tokens)
    (stops : Kind.LooserThan 2 (leading rest)) (short : (tokens ++ rest).length ≤ size + 1) :
    (conditional bound).Accepts (tokens ++ rest) fun tree left =>
      tree.isTarget = true ∧ left = rest := by
  obtain ⟨bound, rfl⟩ : ∃ fewer, bound = fewer + 2 := ⟨bound - 2, by omega⟩
  have unary : (unary (bound + 1)).Accepts (tokens ++ rest) fun tree left =>
      tree.isTarget = true ∧ left = rest := by
    unfold Rule.unary
    refine .decline_any (unsigned (targeted.leads rest)) ?_
    exact target_accepts (by omega) (smaller.expression bound (by omega))
      (smaller.block (by omega)) targeted (Nat.lt_of_lt_of_le stops (by omega)) short
  unfold conditional
  refine (operations_pass _ unary fun tree left holds => ?_).bind fun tree left holds => ?_
  · rw [holds.2]
    exact Nat.lt_succ_of_lt stops
  · refine .decline ?_ (.pure holds)
    rw [holds.2]
    intro same
    rw [same] at stops
    exact absurd stops (Nat.lt_irrefl 2)

theorem conditional_reaches (smaller : Reaches size) (enough : 8 * size + 10 ≤ bound) :
    (conditional bound).Handles (form .ternary) (Kind.LooserThan 2) (size + 1) := by
  intro tokens rest derived stops short
  obtain ⟨bound, rfl⟩ : ∃ fewer, bound = fewer + 1 := ⟨bound - 1, by omega⟩
  rw [derives_form, grammar, derives_in_order] at derived
  obtain ⟨front, back, rfl, head, branches⟩ := derived
  rw [derives_in_order_one, derives_optional] at branches
  rw [List.append_assoc] at short ⊢
  have operands : (operations bound (unary bound)).Handles (form .disjunction)
      (Kind.LooserThan 3) (size + 1) :=
    operations_handle (by omega) (unary_reaches smaller (by omega))
  obtain ⟨first, others, rfl, -⟩ := disjunction_begins head
  unfold conditional
  rcases branches with chosen | rfl
  · obtain ⟨question, inner, rfl, asks, chosen⟩ := derives_word_first.mp chosen
    obtain ⟨thenTokens, last, rfl, middle, last⟩ := derives_in_order.mp chosen
    obtain ⟨colon, elseTokens, rfl, separates, last⟩ := derives_word_first.mp last
    rw [derives_in_order_one] at last
    simp only [List.cons_append, List.append_assoc, List.length_cons, List.length_append] at short ⊢
    have looser : Kind.LooserThan 3
        (leading (question :: (thenTokens ++ colon :: (elseTokens ++ rest)))) := by
      rw [show leading (question :: _) = .question from asks]
      exact Nat.lt_succ_self 2
    have ends : Kind.LooserThan 1 (leading (colon :: (elseTokens ++ rest))) := by
      rw [show leading (colon :: _) = .colon from separates]
      exact Nat.one_pos
    have thenBranch := smaller.expression bound (by omega) thenTokens _ middle ends
    have elseBranch := smaller.conditional bound (by omega) elseTokens rest last stops
    simp only [List.length_append, List.length_cons] at thenBranch elseBranch
    have condition := operands (first :: others) _ head looser
    simp only [List.length_append, List.length_cons, List.cons_append] at condition
    refine (condition (by omega)).leaving fun _ => .accept asks fun _ =>
      (thenBranch (by omega)).leaving fun _ => .expect separates fun _ =>
      .finish (elseBranch (by omega)) fun _ => rfl
  · have looser : Kind.LooserThan 3 (leading rest) := Nat.lt_succ_of_lt stops
    refine (operands _ rest head looser short).leaving fun condition => .decline ?_ (.pure rfl)
    intro same
    rw [same] at stops
    exact absurd stops (Nat.lt_irrefl 2)

theorem assignment_accepts {target value : Expression} (equals : Token) {rest : List Token}
    (isTarget : target.isTarget = true) :
    (assignment target equals value).Accepts rest fun _ left => left = rest := by
  cases target with
  | reference place => exact .fresh fun id => .pure rfl
  | get object name => exact .pure rfl
  | _ => cases isTarget

theorem expression_reaches (smaller : Reaches size) (enough : 8 * size + 11 ≤ bound) :
    (expression bound).Handles (form .expression) (Kind.LooserThan 1) (size + 1) := by
  intro tokens rest derived stops short
  obtain ⟨bound, rfl⟩ : ∃ fewer, bound = fewer + 1 := ⟨bound - 1, by omega⟩
  unfold expression
  rcases expression_cases derived with ⟨front, sign, back, rfl, targeted, fits, derived⟩ | derived
  · rw [List.append_assoc, List.cons_append] at short ⊢
    have looser : Kind.LooserThan 2 (leading (sign :: (back ++ rest))) := by
      rw [show leading (sign :: _) = .equal from fits]
      exact Nat.lt_succ_self 1
    have shorter : (back ++ rest).length ≤ size := by
      simp only [List.length_append, List.length_cons] at short ⊢
      omega
    refine (target_reaches smaller (by omega) targeted looser short).bind
      fun target left holds => ?_
    obtain ⟨isTarget, rfl⟩ := holds
    refine .accept fits fun equals => ?_
    exact (smaller.expression bound (by omega) back rest derived stops shorter).leaving
      fun value => assignment_accepts equals isTarget
  · have looser : Kind.LooserThan 2 (leading rest) := Nat.lt_succ_of_lt stops
    refine (conditional_reaches smaller (by omega) tokens rest derived looser short).leaving
      fun target => .decline ?_ (.pure rfl)
    intro same
    rw [same] at stops
    exact absurd stops (Nat.lt_irrefl 1)

/-- A statement that is announced by a word of its own. -/
theorem announced_reaches {kind : Kind} {phrases : List Phrase} {rule : Rule Statement}
    {next : Token → Rule Statement} (derived : ∀ token : Token, token.kind = kind →
      next token = (skip >>= fun _ => rule))
    (handles : rule.HandlesStatement (inOrder phrases) size) :
    HandlesStatement (Rule.next >>= next) (inOrder (word kind :: phrases)) (size + 1) := by
  intro tokens rest stop count derives branches stops short
  obtain ⟨keyword, others, rfl, fits, inner⟩ := derives_word_first.mp derives
  refine .peek fun token same => ?_
  rw [derived token (same.trans fits)]
  refine .skip ((handles others rest stop count inner branches stops
    (Nat.le_of_succ_le_succ short)).weaken fun _ left holds => ⟨holds.1, ?_⟩)
  exact Nat.le_succ_of_le holds.2

theorem statement_reaches (smaller : Reaches size) (enough : 8 * size + 12 ≤ bound) :
    (statement bound).HandlesStatement (form .statement) (size + 1) := by
  obtain ⟨bound, rfl⟩ : ∃ fewer, bound = fewer + 1 := ⟨bound - 1, by omega⟩
  have each := smaller.expression bound (by omega)
  have inner := smaller.statement bound (by omega)
  intro tokens rest stop count derived branches stops short
  rw [derives_form, grammar] at derived
  simp only [derives_choice, or_assoc] at derived
  unfold statement
  rcases derived with plain | derived | derived | derived | derived | derived | derived
  case inl =>
    rw [derives_form, grammar] at plain
    have starts : (leading (tokens ++ rest)).startsExpression = true := by
      obtain ⟨front, back, rfl, head, -⟩ := derives_in_order.mp plain
      rw [List.append_assoc]
      exact (expression_begins head).leads (back ++ rest)
    refine .peek fun token same => ?_
    rw [← same] at starts
    split
    case h_7 =>
      exact statement_of_handles
        (expression_statement_handles (expression_reaches smaller (by omega)))
        tokens rest stop count plain branches stops short
    all_goals
      rename_i fits
      rw [fits] at starts
      cases starts
  case inr.inl =>
    refine announced_reaches (fun token fits => ?_)
      (statement_of_handles (print_statement_handles each)) tokens rest stop count
      (derives_form.mp derived) branches stops short
    simp only [fits]
  case inr.inr.inl =>
    refine announced_reaches (fun token fits => ?_) (while_statement_handles each inner)
      tokens rest stop count (derives_form.mp derived) branches stops short
    simp only [fits]
  case inr.inr.inr.inl =>
    refine announced_reaches (fun token fits => ?_) (for_statement_handles each inner)
      tokens rest stop count (derives_form.mp derived) branches stops short
    simp only [fits]
  case inr.inr.inr.inr.inl =>
    refine announced_reaches (fun token fits => ?_) (if_statement_handles each inner)
      tokens rest stop count (derives_form.mp derived) branches stops short
    simp only [fits]
  case inr.inr.inr.inr.inr.inl =>
    have body : Handles (do return Statement.block (← Rule.block (declaration bound) bound))
        (inOrder [many (form .declaration), word .rightBrace]) (fun _ => True) size :=
      fun tokens rest derived _ short =>
        (smaller.block (by omega) tokens rest derived trivial short).finish fun _ => rfl
    refine announced_reaches (fun token fits => ?_) (statement_of_handles body)
      tokens rest stop count (derives_form.mp derived) branches stops short
    simp only [fits]
  case inr.inr.inr.inr.inr.inr =>
    obtain ⟨keyword, others, rfl, fits, written⟩ := derives_word_first.mp (derives_form.mp derived)
    refine .peek fun token same => ?_
    simp only [same.trans fits]
    refine .skip ((exit_statement_handles token each others rest written trivial
      (Nat.le_of_succ_le_succ short)).weaken fun _ left same => ?_)
    rw [same]
    refine ⟨⟨count, Nat.le_refl _, branches⟩, ?_⟩
    simp only [List.length_append]
    omega

theorem at_function_declaration {α : Type} {input : List Token} {next : Bool → Rule α}
    {good : α → List Token → Prop}
    (following : (next (startsFunction input)).Accepts input good) :
    Accepts (atFunctionDeclaration >>= next) input good := by
  intro nextId complaints
  rw [bind_ok (at_function_eq _)]
  exact following nextId complaints

/-- No name comes after the keyword of functions where that begins an expression. -/
theorem begins_no_function {allowed : Kind → Bool} {tokens : List Token}
    (begins : Begins allowed tokens) (rest : List Token) :
    startsFunction (tokens ++ rest) = false := by
  obtain ⟨first, others, rfl, -, function⟩ := begins
  by_cases keyword : first.kind = .funWord
  · obtain ⟨second, others, rfl, parenthesis⟩ := function keyword
    simp [startsFunction, parenthesis]
  · cases others with
    | nil => cases rest <;> simp [startsFunction, keyword]
    | cons second others => simp [startsFunction, keyword]

theorem declaration_reaches (smaller : Reaches size) (enough : 8 * size + 13 ≤ bound) :
    (declaration bound).Handles (form .declaration) (· ≠ .elseWord) (size + 1) := by
  obtain ⟨bound, rfl⟩ : ∃ fewer, bound = fewer + 1 := ⟨bound - 1, by omega⟩
  have body : (Rule.block (declaration bound) bound).HandlesBlock size := smaller.block (by omega)
  intro tokens rest derived stops short
  rw [derives_form, grammar] at derived
  simp only [derives_choice, or_assoc] at derived
  unfold declaration
  rcases derived with derived | derived | derived | derived
  · obtain ⟨keyword, others, rfl, fits, written⟩ := derives_word_first.mp (derives_form.mp derived)
    exact .accept fits fun _ =>
      class_declaration_handles (by omega) body others rest written trivial
      (Nat.le_of_succ_le_succ short)
  · obtain ⟨keyword, others, rfl, fits, written⟩ := derives_word_first.mp (derives_form.mp derived)
    obtain ⟨name, back, rfl, named, -⟩ := derives_word_first.mp written
    have reads := function_handles (by omega) body _ rest written trivial
      (Nat.le_of_succ_le_succ short)
    rw [List.cons_append] at reads
    rw [List.cons_append, List.cons_append]
    refine .pass fits (by decide) (at_function_declaration ?_)
    have starts : startsFunction (keyword :: name :: (back ++ rest)) = true := by
      simp [startsFunction, fits, named]
    rw [if_pos starts]
    exact .skip (.finish reads fun _ => rfl)
  · obtain ⟨keyword, others, rfl, fits, written⟩ := derives_word_first.mp (derives_form.mp derived)
    have reads := variable_declaration_handles (smaller.expression bound (by omega)) others rest
      written trivial (Nat.le_of_succ_le_succ short)
    have other : ¬ startsFunction (keyword :: (others ++ rest)) = true := by
      generalize others ++ rest = following
      cases following <;> simp [startsFunction, fits]
    rw [List.cons_append]
    refine .pass fits (by decide) (at_function_declaration ?_)
    rw [if_neg other]
    exact .accept fits fun _ => reads
  · have handles : (statement bound).HandlesStatement (form .statement) (size + 1) :=
      statement_reaches smaller (by omega)
    have reads := handles tokens rest rest 0 derived .none stops short
    have leads := (statement_begins derived).leads rest
    have different (kind : Kind) (never : kind.leadsStatement = false) :
        leading (tokens ++ rest) ≠ kind := by
      intro same
      rw [same, never] at leads
      cases leads
    have other : ¬ startsFunction (tokens ++ rest) = true := by
      rw [begins_no_function (statement_begins derived)]
      exact Bool.false_ne_true
    refine .decline (different _ rfl) (at_function_declaration ?_)
    rw [if_neg other]
    refine .decline (different _ rfl) (reads.weaken fun _ left holds => ?_)
    obtain ⟨⟨fewer, few, remaining⟩, -⟩ := holds
    obtain rfl := Nat.le_zero.mp few
    cases remaining
    rfl

/-- On inputs of any size. -/
theorem reaches (size : Nat) : Reaches size := by
  induction size with
  | zero =>
      have nonempty {allowed : Kind → Bool} {tokens rest : List Token}
          (begins : Begins allowed tokens) : ¬ (tokens ++ rest).length ≤ 0 := by
        obtain ⟨first, others, rfl, -⟩ := begins
        exact Nat.not_succ_le_zero _
      exact {
        expression := fun _ _ _ _ derived _ short =>
          absurd short (nonempty (expression_begins derived))
        conditional := fun _ _ _ _ derived _ short =>
          absurd short (nonempty (ternary_begins derived))
        unary := fun _ _ _ _ derived _ short => absurd short (nonempty (unary_begins derived))
        statement := fun _ _ _ _ _ _ derived _ _ short =>
          absurd short (nonempty (statement_begins derived))
        declaration := fun _ _ tokens rest derived _ short => by
          obtain ⟨first, others, rfl, -⟩ := declaration_begins derived
          exact absurd short (Nat.not_succ_le_zero _) }
  | succ size smaller =>
      exact ⟨fun _ => expression_reaches smaller, fun _ => conditional_reaches smaller,
        fun _ => unary_reaches smaller, fun _ => statement_reaches smaller,
        fun _ => declaration_reaches smaller⟩

end Rule

open Rule

theorem program_accepted {tokens : List Token} (ending : Token) (firstId : Nat)
    (ends : ending.kind = .endOfInput) (derived : Derives (form .program) tokens) :
    ∃ statements, (parseProgram (tokens ++ [ending]) firstId).outcome = .ok statements := by
  have handles := (reaches (tokens ++ [ending]).length).declaration (nesting (tokens ++ [ending]))
    (by unfold nesting; omega)
  have inner : ∀ kind : Kind, kind.leadsDeclaration = true →
      decide (kind = .endOfInput) = false := by
    intro kind leads
    cases kind <;> first | rfl | cases leads
  have leads : leading [ending] = .endOfInput := ends
  have closed : decide (leading [ending] = .endOfInput) = true := decide_eq_true leads
  have stops : leading [ending] ≠ .elseWord := by
    rw [leads]
    exact nofun
  have short : tokens.length ≤ nesting (tokens ++ [ending]) := by
    unfold nesting
    rw [List.length_append]
    omega
  obtain ⟨statements, rest, laterId, run, -⟩ := declarations_accept (· = .endOfInput) handles inner
    (nesting (tokens ++ [ending])) (derives_form.mp derived) closed stops (Nat.le_refl _) short
    firstId []
  refine ⟨statements, ?_⟩
  unfold parseProgram
  dsimp only [Reading.start]
  rw [run]
  rfl

theorem expression_accepted {tokens : List Token} (ending : Token) (firstId : Nat)
    (ends : ending.kind = .endOfInput) (derived : Derives (form .expression) tokens) :
    ∃ value, (parseExpression (tokens ++ [ending]) firstId).outcome = .ok value := by
  have stops : Kind.LooserThan 1 (leading [ending]) := by
    rw [show leading [ending] = .endOfInput from ends]
    exact Nat.one_pos
  obtain ⟨value, rest, laterId, run, rfl⟩ := (reaches (tokens ++ [ending]).length).expression
    (nesting (tokens ++ [ending])) (by unfold nesting; omega) tokens [ending] derived stops
    (Nat.le_refl _) firstId []
  have atEnd : Reading.atEnd ⟨[ending], laterId, []⟩ = true := decide_eq_true ends
  refine ⟨value, ?_⟩
  unfold parseExpression
  dsimp only [Reading.start]
  rw [run]
  dsimp only
  rw [if_pos atEnd]
  rfl

end Lox
