import Lox.Proofs.Grammar.Forms

/-!
How phrases begin. One token of lookahead is enough for the rules because the
forms between which they choose begin with different tokens; only the keyword of
functions takes a second one, which is a parenthesis in an expression and a name
in a declaration. No phrase reaches over the end of the input.
-/

namespace Lox

/-- The kind of the token that a list starts with; a list that just stops ends there. -/
def leading (tokens : List Token) : Kind := (tokens.headD ⟨.endOfInput, "", 1⟩).kind

def Kind.startsCall : Kind → Bool
  | .number _ | .string _ | .trueWord | .falseWord | .nilWord | .selfWord | .superWord
  | .identifier | .leftParen | .funWord => true
  | _ => false

def Kind.startsExpression : Kind → Bool
  | .bang | .minus => true
  | kind => kind.startsCall

def Kind.leadsStatement : Kind → Bool
  | .printWord | .whileWord | .forWord | .ifWord | .leftBrace | .returnWord => true
  | kind => kind.startsExpression

def Kind.leadsDeclaration : Kind → Bool
  | .classWord | .varWord => true
  | kind => kind.leadsStatement

/-- The first token is of an allowed kind, and if it is the keyword of functions
then the token after it opens a parameter list. -/
def Begins (allowed : Kind → Bool) (tokens : List Token) : Prop :=
  ∃ first rest, tokens = first :: rest ∧ allowed first.kind = true ∧
    (first.kind = .funWord → ∃ second others, rest = second :: others ∧ second.kind = .leftParen)

namespace Begins

variable {allowed wider : Kind → Bool} {tokens more : List Token}

theorem append (begins : Begins allowed tokens) : Begins allowed (tokens ++ more) := by
  obtain ⟨first, rest, rfl, fits, function⟩ := begins
  refine ⟨first, rest ++ more, rfl, fits, fun keyword => ?_⟩
  obtain ⟨second, others, rfl, parenthesis⟩ := function keyword
  exact ⟨second, others ++ more, rfl, parenthesis⟩

theorem weaken (begins : Begins allowed tokens)
    (wide : ∀ kind, allowed kind = true → wider kind = true) : Begins wider tokens := by
  obtain ⟨first, rest, rfl, fits, function⟩ := begins
  exact ⟨first, rest, rfl, wide _ fits, function⟩

theorem leads (begins : Begins allowed tokens) (rest : List Token) :
    allowed (leading (tokens ++ rest)) = true := by
  obtain ⟨first, others, rfl, fits, -⟩ := begins
  exact fits

theorem of_first {first : Token} {rest : List Token} (fits : allowed first.kind = true)
    (plain : first.kind ≠ .funWord) : Begins allowed (first :: rest) :=
  ⟨first, rest, rfl, fits, fun keyword => absurd keyword plain⟩

end Begins

section

open Phrase

variable {tokens : List Token}

theorem primary_begins (derived : Derives (.form .primary) tokens) :
    Begins Kind.startsCall tokens := by
  rw [derives_form] at derived
  simp only [grammar, derives_choice, derives_word, derives_number, derives_string,
    derives_word_first, or_assoc] at derived
  rcases derived with ⟨token, value, rfl, fits⟩ | ⟨token, text, rfl, fits⟩ | ⟨token, rfl, fits⟩ |
    ⟨token, rfl, fits⟩ | ⟨token, rfl, fits⟩ | ⟨token, rfl, fits⟩ | ⟨token, back, rfl, fits, -⟩ |
    ⟨token, rfl, fits⟩ | ⟨token, back, rfl, fits, -⟩ |
    ⟨token, back, rfl, fits, second, others, rfl, parenthesis, -⟩
  case inr.inr.inr.inr.inr.inr.inr.inr.inr =>
    exact ⟨token, second :: others, rfl, by rw [fits]; rfl,
      fun _ => ⟨second, others, rfl, parenthesis⟩⟩
  all_goals exact .of_first (by rw [fits]; rfl) (by rw [fits]; exact nofun)

theorem call_begins (derived : Derives (.form .call) tokens) :
    Begins Kind.startsCall tokens := by
  rw [derives_form, grammar, derives_in_order] at derived
  obtain ⟨front, back, rfl, head, -⟩ := derived
  exact (primary_begins head).append

theorem starts_expression_of_call (kind : Kind) (starts : kind.startsCall = true) :
    kind.startsExpression = true := by
  cases kind <;> first | rfl | cases starts

theorem unary_begins (derived : Derives (.form .unary) tokens) :
    Begins Kind.startsExpression tokens := by
  rw [derives_form, grammar, derives_choice, derives_in_order] at derived
  rcases derived with ⟨front, back, rfl, operator, -⟩ | derived
  · simp only [derives_choice, derives_word] at operator
    rcases operator with ⟨token, rfl, fits⟩ | ⟨token, rfl, fits⟩
    all_goals exact .of_first (by rw [fits]; rfl) (by rw [fits]; exact nofun)
  · exact (call_begins derived).weaken starts_expression_of_call

/-- Binary operators stand after their first operand. -/
theorem joined_begins {operators operand : Phrase}
    (each : ∀ front, Derives operand front → Begins Kind.startsExpression front)
    (derived : Derives (joined operators operand) tokens) :
    Begins Kind.startsExpression tokens := by
  rw [joined, derives_in_order] at derived
  obtain ⟨front, back, rfl, head, -⟩ := derived
  exact (each front head).append

theorem disjunction_begins (derived : Derives (.form .disjunction) tokens) :
    Begins Kind.startsExpression tokens := by
  have factor : ∀ front, Derives (.form .factor) front → Begins Kind.startsExpression front :=
    fun _ derived => joined_begins (fun _ => unary_begins) (derives_form.mp derived)
  have term : ∀ front, Derives (.form .term) front → Begins Kind.startsExpression front :=
    fun _ derived => joined_begins factor (derives_form.mp derived)
  have comparison : ∀ front, Derives (.form .comparison) front →
      Begins Kind.startsExpression front :=
    fun _ derived => joined_begins term (derives_form.mp derived)
  have equality : ∀ front, Derives (.form .equality) front → Begins Kind.startsExpression front :=
    fun _ derived => joined_begins comparison (derives_form.mp derived)
  have conjunction : ∀ front, Derives (.form .conjunction) front →
      Begins Kind.startsExpression front :=
    fun _ derived => joined_begins equality (derives_form.mp derived)
  exact joined_begins conjunction (derives_form.mp derived)

theorem ternary_begins (derived : Derives (.form .ternary) tokens) :
    Begins Kind.startsExpression tokens := by
  rw [derives_form, grammar, derives_in_order] at derived
  obtain ⟨front, back, rfl, head, -⟩ := derived
  exact (disjunction_begins head).append

theorem expression_begins (derived : Derives (.form .expression) tokens) :
    Begins Kind.startsExpression tokens := by
  rw [derives_form, grammar, derives_form, grammar, derives_choice, derives_in_order] at derived
  rcases derived with ⟨front, back, rfl, target, rest⟩ | derived
  · rw [derives_optional, derives_in_order] at target
    rcases target with ⟨object, dot, rfl, head, -⟩ | rfl
    · exact (call_begins head).append.append.weaken starts_expression_of_call
    · obtain ⟨token, others, rfl, fits, -⟩ := derives_word_first.mp rest
      exact .of_first (by rw [fits]; rfl) (by rw [fits]; exact nofun)
  · exact ternary_begins derived

theorem statement_begins (derived : Derives (.form .statement) tokens) :
    Begins Kind.leadsStatement tokens := by
  rw [derives_form] at derived
  simp only [grammar, derives_choice, derives_form, derives_word_first, or_assoc] at derived
  rcases derived with derived | ⟨token, back, rfl, fits, -⟩ | ⟨token, back, rfl, fits, -⟩ |
    ⟨token, back, rfl, fits, -⟩ | ⟨token, back, rfl, fits, -⟩ | ⟨token, back, rfl, fits, -⟩ |
    ⟨token, back, rfl, fits, -⟩
  case inl =>
    obtain ⟨front, back, rfl, head, -⟩ := derives_in_order.mp derived
    refine (expression_begins head).append.weaken fun kind starts => ?_
    cases kind <;> first | rfl | cases starts
  all_goals exact .of_first (by rw [fits]; rfl) (by rw [fits]; exact nofun)

/-- A declaration begins like a statement, or with a word of its own. -/
theorem declaration_begins (derived : Derives (.form .declaration) tokens) :
    ∃ first rest, tokens = first :: rest ∧ first.kind.leadsDeclaration = true := by
  rw [derives_form] at derived
  simp only [grammar, derives_choice, or_assoc] at derived
  rcases derived with derived | derived | derived | derived
  case inr.inr.inr =>
    obtain ⟨first, rest, rfl, fits, -⟩ := statement_begins derived
    refine ⟨first, rest, rfl, ?_⟩
    generalize first.kind = kind at fits
    cases kind <;> first | rfl | cases fits
  all_goals
    rw [derives_form, grammar, derives_word_first] at derived
    obtain ⟨first, rest, rfl, fits, -⟩ := derived
    exact ⟨first, rest, rfl, by rw [fits]; rfl⟩

end

/-- A phrase does not name the end of the input. -/
def Phrase.isInner : Phrase → Bool
  | .word kind => kind ≠ .endOfInput
  | .number | .string | .form _ | .nothing => true
  | .sequence first second | .choice first second => first.isInner && second.isInner
  | .many item | .list _ item => item.isInner

theorem grammar_inner (form : Form) : (grammar form).isInner = true := by
  cases form <;> rfl

theorem derives_inner {phrase : Phrase} {tokens : List Token} (derived : Derives phrase tokens)
    (inner : phrase.isInner = true) : ∀ token ∈ tokens, token.kind ≠ .endOfInput := by
  induction derived with
  | word fits =>
      intro token member
      rw [List.mem_singleton.mp member, fits]
      simpa [Phrase.isInner] using inner
  | number fits | string fits =>
      intro token member
      rw [List.mem_singleton.mp member, fits]
      exact nofun
  | form _ induction => exact induction (grammar_inner _)
  | nothing | none => exact nofun
  | sequence _ _ front back =>
      rw [Phrase.isInner, Bool.and_eq_true] at inner
      exact List.forall_mem_append.mpr ⟨front inner.1, back inner.2⟩
  | one _ induction =>
      rw [Phrase.isInner, Bool.and_eq_true] at inner
      exact induction inner.1
  | other _ induction =>
      rw [Phrase.isInner, Bool.and_eq_true] at inner
      exact induction inner.2
  | more _ _ front back => exact List.forall_mem_append.mpr ⟨front inner, back inner⟩
  | last _ induction => exact induction inner
  | comma _ fits _ front back =>
      refine List.forall_mem_append.mpr ⟨front inner, List.forall_mem_cons.mpr ⟨?_, back inner⟩⟩
      rw [fits]
      exact nofun

end Lox
