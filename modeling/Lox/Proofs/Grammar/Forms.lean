import Lox.Token

/-!
The grammar as it is documented: for each form the phrase that describes it, and
which lists of tokens each phrase derives. Nothing here knows in which order the
rules try things, or how many tokens they look ahead.
-/

namespace Lox

/-- The forms that the grammar names. -/
inductive Form where
  | program
  | declaration
  | classDeclaration
  | method
  | functionDeclaration
  | variableDeclaration
  | statement
  | expressionStatement
  | printStatement
  | whileStatement
  | forStatement
  | ifStatement
  | exitStatement
  | block
  | parameters
  | arguments
  | expression
  | assignment
  | ternary
  | disjunction
  | conjunction
  | equality
  | comparison
  | term
  | factor
  | unary
  | call
  | primary

inductive Phrase where
  | word (kind : Kind)
  | number
  | string
  | form (form : Form)
  | nothing
  | sequence (first rest : Phrase)
  | choice (one other : Phrase)
  | many (item : Phrase)
  /-- One or more items with commas between them, but not more than the limit. -/
  | list (limit : Nat) (item : Phrase)

namespace Phrase

instance : OrOp Phrase := ⟨choice⟩

def inOrder : List Phrase → Phrase
  | [] => nothing
  | first :: rest => sequence first (inOrder rest)

def optional (phrase : Phrase) : Phrase := phrase ||| nothing

/-- Operands of one kind, with one or more operators of another kind between them. -/
def joined (operators operand : Phrase) : Phrase :=
  inOrder [operand, many (inOrder [operators, operand])]

end Phrase

/-- How many parameters a function can have, and a call arguments. -/
def listLimit : Nat := 255

section

open Phrase

def grammar : Form → Phrase
  | .program => many (form .declaration)
  | .declaration =>
      form .classDeclaration ||| form .functionDeclaration ||| form .variableDeclaration
        ||| form .statement
  | .classDeclaration =>
      inOrder [word .classWord, word .identifier,
        optional (inOrder [word .less, word .identifier]), word .leftBrace,
        many (inOrder [optional (word .classWord), form .method]), word .rightBrace]
  | .method =>
      inOrder [word .identifier,
        optional (inOrder [word .leftParen, optional (form .parameters), word .rightParen]),
        form .block]
  | .functionDeclaration =>
      inOrder [word .funWord, word .identifier, word .leftParen, optional (form .parameters),
        word .rightParen, form .block]
  | .variableDeclaration =>
      inOrder [word .varWord, word .identifier,
        optional (inOrder [word .equal, form .expression]), word .semicolon]
  | .statement =>
      form .expressionStatement ||| form .printStatement ||| form .whileStatement
        ||| form .forStatement ||| form .ifStatement ||| form .block ||| form .exitStatement
  | .expressionStatement => inOrder [form .expression, word .semicolon]
  | .printStatement => inOrder [word .printWord, form .expression, word .semicolon]
  | .whileStatement =>
      inOrder [word .whileWord, word .leftParen, form .expression, word .rightParen,
        form .statement]
  | .forStatement =>
      inOrder [word .forWord, word .leftParen,
        form .variableDeclaration ||| form .expressionStatement ||| word .semicolon,
        optional (form .expression), word .semicolon, optional (form .expression),
        word .rightParen, form .statement]
  | .ifStatement =>
      inOrder [word .ifWord, word .leftParen, form .expression, word .rightParen,
        form .statement, optional (inOrder [word .elseWord, form .statement])]
  | .exitStatement =>
      inOrder [word .returnWord, optional (form .expression), word .semicolon]
  | .block => inOrder [word .leftBrace, many (form .declaration), word .rightBrace]
  | .parameters => list listLimit (word .identifier)
  | .arguments => list listLimit (form .expression)
  | .expression => form .assignment
  | .assignment =>
      inOrder [optional (inOrder [form .call, word .dot]), word .identifier, word .equal,
        form .assignment] ||| form .ternary
  | .ternary =>
      inOrder [form .disjunction,
        optional (inOrder [word .question, form .expression, word .colon, form .ternary])]
  | .disjunction => joined (word .orWord) (form .conjunction)
  | .conjunction => joined (word .andWord) (form .equality)
  | .equality => joined (word .bangEqual ||| word .equalEqual) (form .comparison)
  | .comparison =>
      joined (word .greater ||| word .greaterEqual ||| word .less ||| word .lessEqual)
        (form .term)
  | .term => joined (word .minus ||| word .plus) (form .factor)
  | .factor => joined (word .slash ||| word .star) (form .unary)
  | .unary => inOrder [word .bang ||| word .minus, form .unary] ||| form .call
  | .call =>
      inOrder [form .primary,
        many (inOrder [word .leftParen, optional (form .arguments), word .rightParen]
          ||| inOrder [word .dot, word .identifier])]
  | .primary =>
      number ||| string ||| word .trueWord ||| word .falseWord ||| word .nilWord
        ||| word .selfWord ||| inOrder [word .superWord, word .dot, word .identifier]
        ||| word .identifier ||| inOrder [word .leftParen, form .expression, word .rightParen]
        ||| inOrder [word .funWord, word .leftParen, optional (form .parameters),
          word .rightParen, form .block]

end

/-- The token lists that a phrase derives. -/
inductive Derives : Phrase → List Token → Prop where
  | word {token : Token} {kind : Kind} (fits : token.kind = kind) : Derives (.word kind) [token]
  | number {token : Token} {value : Float} (fits : token.kind = .number value) :
      Derives .number [token]
  | string {token : Token} {text : String} (fits : token.kind = .string text) :
      Derives .string [token]
  | form {form : Form} {tokens : List Token} (body : Derives (grammar form) tokens) :
      Derives (.form form) tokens
  | nothing : Derives .nothing []
  | sequence {first rest : Phrase} {front back : List Token} (head : Derives first front)
      (tail : Derives rest back) : Derives (.sequence first rest) (front ++ back)
  | one {one other : Phrase} {tokens : List Token} (chosen : Derives one tokens) :
      Derives (.choice one other) tokens
  | other {one other : Phrase} {tokens : List Token} (chosen : Derives other tokens) :
      Derives (.choice one other) tokens
  | none {item : Phrase} : Derives (.many item) []
  | more {item : Phrase} {front back : List Token} (head : Derives item front)
      (tail : Derives (.many item) back) : Derives (.many item) (front ++ back)
  | last {limit : Nat} {item : Phrase} {tokens : List Token} (only : Derives item tokens) :
      Derives (.list (limit + 1) item) tokens
  | comma {limit : Nat} {item : Phrase} {front back : List Token} {separator : Token}
      (head : Derives item front) (fits : separator.kind = .comma)
      (tail : Derives (.list limit item) back) :
      Derives (.list (limit + 1) item) (front ++ separator :: back)

section

variable {first rest one other item phrase : Phrase} {phrases : List Phrase} {kind : Kind}
  {form : Form} {limit : Nat} {tokens : List Token}

theorem derives_word : Derives (.word kind) tokens ↔
    ∃ token, tokens = [token] ∧ token.kind = kind := by
  constructor
  · intro derived
    cases derived with
    | word fits => exact ⟨_, rfl, fits⟩
  · rintro ⟨token, rfl, fits⟩
    exact .word fits

theorem derives_number :
    Derives .number tokens ↔ ∃ token value, tokens = [token] ∧ token.kind = .number value := by
  constructor
  · intro derived
    cases derived with
    | number fits => exact ⟨_, _, rfl, fits⟩
  · rintro ⟨token, value, rfl, fits⟩
    exact .number fits

theorem derives_string :
    Derives .string tokens ↔ ∃ token text, tokens = [token] ∧ token.kind = .string text := by
  constructor
  · intro derived
    cases derived with
    | string fits => exact ⟨_, _, rfl, fits⟩
  · rintro ⟨token, text, rfl, fits⟩
    exact .string fits

theorem derives_form : Derives (.form form) tokens ↔ Derives (grammar form) tokens := by
  constructor
  · intro derived
    cases derived with
    | form body => exact body
  · exact .form

theorem derives_nothing : Derives .nothing tokens ↔ tokens = [] := by
  constructor
  · intro derived
    cases derived
    rfl
  · rintro rfl
    exact .nothing

theorem derives_choice : Derives (one ||| other) tokens ↔
    Derives one tokens ∨ Derives other tokens := by
  constructor
  · intro derived
    cases derived with
    | one chosen => exact .inl chosen
    | other chosen => exact .inr chosen
  · rintro (chosen | chosen)
    · exact .one chosen
    · exact .other chosen

theorem derives_optional : Derives (.optional phrase) tokens ↔
    Derives phrase tokens ∨ tokens = [] := by
  rw [Phrase.optional, derives_choice, derives_nothing]

theorem derives_in_order_nil : Derives (.inOrder []) tokens ↔ tokens = [] := derives_nothing

theorem derives_in_order : Derives (.inOrder (phrase :: phrases)) tokens ↔
    ∃ front back, tokens = front ++ back ∧ Derives phrase front ∧
      Derives (.inOrder phrases) back := by
  constructor
  · intro derived
    cases derived with
    | sequence head tail => exact ⟨_, _, rfl, head, tail⟩
  · rintro ⟨front, back, rfl, head, tail⟩
    exact .sequence head tail

/-- A phrase that starts with a certain word. -/
theorem derives_word_first : Derives (.inOrder (.word kind :: phrases)) tokens ↔
    ∃ token back, tokens = token :: back ∧ token.kind = kind ∧ Derives (.inOrder phrases) back := by
  rw [derives_in_order]
  constructor
  · rintro ⟨front, back, rfl, head, tail⟩
    obtain ⟨token, rfl, fits⟩ := derives_word.mp head
    exact ⟨token, back, rfl, fits, tail⟩
  · rintro ⟨token, back, rfl, fits, tail⟩
    exact ⟨[token], back, rfl, .word fits, tail⟩

theorem derives_in_order_one : Derives (.inOrder [phrase]) tokens ↔ Derives phrase tokens := by
  rw [derives_in_order]
  constructor
  · rintro ⟨front, back, rfl, head, tail⟩
    rw [derives_in_order_nil] at tail
    rwa [tail, List.append_nil]
  · intro derived
    exact ⟨tokens, [], (List.append_nil tokens).symm, derived, .nothing⟩

theorem Derives.before {front back : List Token} (head : Derives phrase front)
    (tail : Derives (.inOrder phrases) back) :
    Derives (.inOrder (phrase :: phrases)) (front ++ back) :=
  derives_in_order.mpr ⟨front, back, rfl, head, tail⟩

theorem Derives.alone (only : Derives phrase tokens) : Derives (.inOrder [phrase]) tokens :=
  derives_in_order_one.mpr only

/-- Phrases in order can be cut at any place. -/
theorem derives_in_order_append {earlier later : List Phrase} :
    Derives (.inOrder (earlier ++ later)) tokens ↔ ∃ front back, tokens = front ++ back ∧
      Derives (.inOrder earlier) front ∧ Derives (.inOrder later) back := by
  induction earlier generalizing tokens with
  | nil =>
      constructor
      · exact fun derived => ⟨[], tokens, rfl, .nothing, derived⟩
      · rintro ⟨front, back, rfl, head, tail⟩
        rw [derives_in_order_nil] at head
        rwa [head]
  | cons phrase phrases induction =>
      rw [List.cons_append, derives_in_order]
      constructor
      · rintro ⟨first, others, rfl, head, tail⟩
        obtain ⟨front, back, rfl, middle, last⟩ := induction.mp tail
        exact ⟨first ++ front, back, (List.append_assoc ..).symm, head.before middle, last⟩
      · rintro ⟨front, back, rfl, head, tail⟩
        obtain ⟨first, others, rfl, derived, middle⟩ := derives_in_order.mp head
        exact ⟨first, others ++ back, List.append_assoc .., derived,
          induction.mpr ⟨others, back, rfl, middle, tail⟩⟩

theorem Derives.followed {earlier later : List Phrase} {front back : List Token}
    (head : Derives (.inOrder earlier) front) (tail : Derives (.inOrder later) back) :
    Derives (.inOrder (earlier ++ later)) (front ++ back) :=
  derives_in_order_append.mpr ⟨front, back, rfl, head, tail⟩

theorem Derives.present (derived : Derives phrase tokens) : Derives (.optional phrase) tokens :=
  derives_optional.mpr (.inl derived)

theorem Derives.absent : Derives (.optional phrase) [] := derives_optional.mpr (.inr rfl)

theorem derives_many : Derives (.many item) tokens ↔
    tokens = [] ∨ ∃ front back, tokens = front ++ back ∧ Derives item front ∧
      Derives (.many item) back := by
  constructor
  · intro derived
    cases derived with
    | none => exact .inl rfl
    | more head tail => exact .inr ⟨_, _, rfl, head, tail⟩
  · rintro (rfl | ⟨front, back, rfl, head, tail⟩)
    · exact .none
    · exact .more head tail

theorem derives_list : Derives (.list limit item) tokens ↔ ∃ fewer, limit = fewer + 1 ∧
    (Derives item tokens ∨ ∃ front separator back, tokens = front ++ separator :: back ∧
      Derives item front ∧ separator.kind = .comma ∧ Derives (.list fewer item) back) := by
  constructor
  · intro derived
    cases derived with
    | last only => exact ⟨_, rfl, .inl only⟩
    | comma head fits tail => exact ⟨_, rfl, .inr ⟨_, _, _, rfl, head, fits, tail⟩⟩
  · rintro ⟨fewer, rfl, only | ⟨front, separator, back, rfl, head, fits, tail⟩⟩
    · exact .last only
    · exact .comma head fits tail

theorem derives_list_head (derived : Derives (.list limit item) tokens) :
    ∃ front back, tokens = front ++ back ∧ Derives item front := by
  obtain ⟨-, -, only | ⟨front, separator, back, rfl, head, -⟩⟩ := derives_list.mp derived
  · exact ⟨tokens, [], (List.append_nil tokens).symm, only⟩
  · exact ⟨front, separator :: back, rfl, head⟩

end

end Lox
