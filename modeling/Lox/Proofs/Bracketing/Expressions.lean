import Lox.Syntax.PrefixForm
import Lox.Proofs.Bracketing.Texts
import Lox.Proofs.Grammar.Traces
import Lox.Proofs.Numerals.Written

/-!
The prefix form of an expression as a bracketed text, and the expression that such a text stands
for. Nothing is lost but lines and numbers of occurrences: the head of a list and the count of its
parts tell the node, since no operator is spelled like another head; and a word is a name, a
keyword or a number as its first character says. Strings and function expressions are left out, as
the prefix form does not show where a string ends, nor what a function does.
-/

namespace Lox

mutual

def Expression.bracketed : Expression → Bracketed
  | .literal value => .word value.prefixForm
  | .grouping inner => .list "group" [inner.bracketed]
  | .unary operator operand => .list operator.lexeme [operand.bracketed]
  | .binary left operator right | .logical left operator right =>
      .list operator.lexeme [left.bracketed, right.bracketed]
  | .conditional condition thenBranch elseBranch =>
      .list "?" [condition.bracketed, thenBranch.bracketed, elseBranch.bracketed]
  | .reference place | .receiver place => .word place.name.lexeme
  | .assign place value => .list "=" [.word place.name.lexeme, value.bracketed]
  | .call callee _ arguments =>
      .list "call" (callee.bracketed :: Expression.allBracketed arguments)
  | .get object name => .list "." [object.bracketed, .word name.lexeme]
  | .set object name value =>
      .list "=." [object.bracketed, .word name.lexeme, value.bracketed]
  | .lambda routine =>
      .list "fun" ((routine.parameters.getD []).map fun name => .word name.lexeme)
  | .inherited _ method => .list "super" [.word method.lexeme]

def Expression.allBracketed : List Expression → List Bracketed
  | [] => []
  | first :: rest => first.bracketed :: Expression.allBracketed rest

end

theorem Routine.parameters_bracketed (names : List Token) :
    (names.map fun name => " " ++ name.lexeme).flatMap String.toList =
      Bracketed.followers (names.map fun name => .word name.lexeme) := by
  induction names with
  | nil => rfl
  | cons first rest induction =>
      rw [List.map_cons, List.map_cons, List.flatMap_cons, induction, String.toList_append]
      rfl

mutual

/-- The prefix form is the text of the bracketed form. -/
theorem Expression.prefix_form_bracketed (value : Expression) :
    value.prefixForm.toList = value.bracketed.text := by
  cases value with
  | literal | reference | receiver | inherited =>
      simp [prefixForm, bracketed, Bracketed.text, Bracketed.followers]
  | grouping inner =>
      simp [prefixForm, bracketed, Bracketed.text, Bracketed.followers, inner.prefix_form_bracketed]
  | unary operator operand =>
      simp [prefixForm, bracketed, Bracketed.text, Bracketed.followers,
        operand.prefix_form_bracketed]
  | binary left operator right | logical left operator right =>
      simp [prefixForm, bracketed, Bracketed.text, Bracketed.followers, left.prefix_form_bracketed,
        right.prefix_form_bracketed]
  | conditional condition thenBranch elseBranch =>
      simp [prefixForm, bracketed, Bracketed.text, Bracketed.followers,
        condition.prefix_form_bracketed, thenBranch.prefix_form_bracketed,
        elseBranch.prefix_form_bracketed]
  | assign place value =>
      simp [prefixForm, bracketed, Bracketed.text, Bracketed.followers, value.prefix_form_bracketed]
  | call callee closing arguments =>
      simp [prefixForm, bracketed, Bracketed.text, Bracketed.followers,
        callee.prefix_form_bracketed, Expression.spaced_forms_bracketed arguments]
  | get object name =>
      simp [prefixForm, bracketed, Bracketed.text, Bracketed.followers,
        object.prefix_form_bracketed]
  | set object name value =>
      simp [prefixForm, bracketed, Bracketed.text, Bracketed.followers,
        object.prefix_form_bracketed, value.prefix_form_bracketed]
  | lambda routine =>
      simp [prefixForm, bracketed, Bracketed.text, Routine.prefixForm, Routine.parameters_bracketed]

theorem Expression.spaced_forms_bracketed (values : List Expression) :
    (Expression.spacedForms values).toList =
      Bracketed.followers (Expression.allBracketed values) := by
  match values with
  | [] => rfl
  | first :: rest =>
      simp [spacedForms, allBracketed, Bracketed.followers, first.prefix_form_bracketed,
        Expression.spaced_forms_bracketed rest]

end

/-- A token as a source text has it, of one of these kinds. -/
structure Token.Spells (token : Token) (kinds : List Kind) : Prop where
  kind : token.kind ∈ kinds
  lexeme : IsLexeme token.lexeme.toList token.kind

mutual

/-- The prefix form shows all there is of the expression: it has neither strings nor functions,
its numbers are finite, and its tokens are as a source text has them. -/
def Expression.Legible : Expression → Prop
  | .literal value =>
      match value with
      | .number value => value.isFinite = true
      | .string _ => False
      | .boolean _ | .nil => True
  | .grouping inner => inner.Legible
  | .unary operator operand => operator.Spells unaryOperators ∧ operand.Legible
  | .binary left operator right =>
      operator.Spells binaryOperators ∧ left.Legible ∧ right.Legible
  | .logical left operator right =>
      operator.Spells logicalOperators ∧ left.Legible ∧ right.Legible
  | .conditional condition thenBranch elseBranch =>
      condition.Legible ∧ thenBranch.Legible ∧ elseBranch.Legible
  | .reference place => place.name.Spells [.identifier]
  | .assign place value => place.name.Spells [.identifier] ∧ value.Legible
  | .call callee closing arguments =>
      closing.Spells [.rightParen] ∧ callee.Legible ∧ Expression.AllLegible arguments
  | .get object name => name.Spells [.identifier] ∧ object.Legible
  | .set object name value => name.Spells [.identifier] ∧ object.Legible ∧ value.Legible
  | .lambda _ => False
  | .receiver place => place.name.Spells [.selfWord]
  | .inherited place method => place.name.Spells [.superWord] ∧ method.Spells [.identifier]

def Expression.AllLegible : List Expression → Prop
  | [] => True
  | first :: rest => first.Legible ∧ Expression.AllLegible rest

end

section Lexemes

/-- The tokens that are spelled in one way only. -/
def spellings : List (String × Kind) :=
  operators.map (fun entry => (String.ofList entry.1, entry.2)) ++ keywords

variable {token : Token} {kinds : List Kind}

theorem Token.Spells.listed (spells : token.Spells kinds)
    (fixed : ∀ kind ∈ kinds, kind ∈ spellings.map Prod.snd) :
    (token.lexeme, token.kind) ∈ spellings := by
  have names : ∀ entry ∈ spellings, entry.2 ≠ .identifier := by decide
  have noLiteral : ∀ entry ∈ spellings, entry.2.name ≠ "NUMBER" ∧ entry.2.name ≠ "STRING" := by
    decide
  obtain ⟨entry, isListed, isKind⟩ := List.mem_map.mp (fixed token.kind spells.kind)
  have noName := names entry isListed
  have noValue := noLiteral entry isListed
  rw [isKind] at noName noValue
  have lexeme := spells.lexeme
  generalize text : token.lexeme.toList = characters at lexeme
  generalize token.kind = kind at lexeme noName noValue
  have isText : token.lexeme = String.ofList characters := by rw [← text, String.ofList_toList]
  cases lexeme with
  | operator inTable =>
      rw [isText]
      exact List.mem_append_left _ (List.mem_map_of_mem inTable)
  | keyword reserved =>
      rw [String.ofList_toList] at isText
      rw [isText]
      exact List.mem_append_right _ reserved
  | identifier => exact absurd rfl noName
  | numeral => exact absurd rfl noValue.1
  | quoted => exact absurd rfl noValue.2

/-- Heads of lists that are no operators. -/
def reservedHeads : List String := ["call", "group", "super", "?", "=", ".", "=."]

/-- The token with such a head, if it is an operator. -/
def operatorOf (head : String) : Token := ⟨(spellings.lookup head).getD .identifier, head, 0⟩

def allOperators : List Kind := unaryOperators ++ logicalOperators ++ binaryOperators

/-- An operator is known from its lexeme, and is no other head. -/
theorem Token.Spells.operator (spells : token.Spells kinds)
    (among : ∀ kind ∈ kinds, kind ∈ allOperators) :
    operatorOf token.lexeme = { token with line := 0 } ∧ token.lexeme ∉ reservedHeads ∧
      Bracketed.IsPlain token.lexeme.toList := by
  have known : ∀ kind ∈ allOperators, kind ∈ spellings.map Prod.snd := by decide
  have facts : ∀ entry ∈ spellings, entry.2 ∈ allOperators →
      spellings.lookup entry.1 = some entry.2 ∧ entry.1 ∉ reservedHeads ∧
        Bracketed.IsPlain entry.1.toList := by
    decide +kernel
  obtain ⟨found, free, plain⟩ :=
    facts _ (spells.listed fun kind member => known kind (among kind member))
      (among _ spells.kind)
  refine ⟨?_, free, plain⟩
  rw [operatorOf, found]
  rfl

/-- Of other tokens than operators, names and literals one knows the lexeme as well. -/
theorem Token.Spells.lexeme_eq {kind : Kind} {text : String} (spells : token.Spells [kind])
    (spelled : (spellings.filter (·.2 = kind)) = [(text, kind)]) :
    token = ⟨kind, text, token.line⟩ := by
  have isKind := List.mem_singleton.mp spells.kind
  have listed : (token.lexeme, token.kind) ∈ spellings := by
    refine spells.listed fun other member => ?_
    have inside : (text, kind) ∈ spellings.filter (·.2 = kind) := by
      rw [spelled]
      exact List.mem_singleton_self _
    rw [List.mem_singleton.mp member]
    exact List.mem_map_of_mem (List.mem_of_mem_filter inside)
  have only : (token.lexeme, token.kind) ∈ spellings.filter (·.2 = kind) :=
    List.mem_filter.mpr ⟨listed, decide_eq_true isKind⟩
  rw [spelled, List.mem_singleton, Prod.mk.injEq] at only
  cases token
  cases only.1
  cases only.2
  rfl

theorem word_plain {text : List Char} (isWord : IsWord text) : Bracketed.IsPlain text := by
  refine ⟨?_, fun character member => ?_⟩
  · rintro rfl
    exact isWord
  · exact Bracketed.delimits_no (word_parts isWord character member) rfl rfl rfl

/-- A name is known as one. -/
theorem Token.Spells.name (spells : token.Spells [.identifier]) :
    IsWord token.lexeme.toList ∧ Kind.ofWord token.lexeme = .identifier := by
  have lexeme := spells.lexeme
  rw [List.mem_singleton.mp spells.kind] at lexeme
  obtain ⟨isWord, -⟩ := identifier_shape lexeme
  refine ⟨isWord, ?_⟩
  have other := identifier_only lexeme (word_lexeme isWord)
  rwa [String.ofList_toList] at other

end Lexemes

namespace Bracketed

section Reading

/-- A part that stands for a name. -/
def nameOf : Expression → Token
  | .reference place => place.name
  | _ => ⟨.endOfInput, "", 0⟩

/-- What a word stands for. Numbers are not spelled out here, but given to be read. -/
def leaf (number : String → Float) (word : String) : Expression :=
  if word.toList.head?.any isWordStart then
    match Kind.ofWord word with
    | .trueWord => .literal (.boolean true)
    | .falseWord => .literal (.boolean false)
    | .nilWord => .literal .nil
    | .selfWord => .receiver ⟨0, ⟨.selfWord, word, 0⟩⟩
    | kind => .reference ⟨0, ⟨kind, word, 0⟩⟩
  else .literal (.number (number word))

/-- What a list stands for, given what its parts do. -/
def node (head : String) : List Expression → Expression
  | [] => .literal .nil
  | first :: others =>
      if head = "call" then .call first ⟨.rightParen, ")", 0⟩ others
      else
        match others with
        | [] =>
            if head = "group" then .grouping first
            else if head = "super" then .inherited ⟨0, ⟨.superWord, "super", 0⟩⟩ (nameOf first)
            else .unary (operatorOf head) first
        | [second] =>
            if head = "=" then .assign ⟨0, nameOf first⟩ second
            else if head = "." then .get first (nameOf second)
            else if (operatorOf head).kind ∈ logicalOperators then
              .logical first (operatorOf head) second
            else .binary first (operatorOf head) second
        | second :: third :: _ =>
            if head = "=." then .set first (nameOf second) third
            else .conditional first second third

mutual

/-- The expression that a bracketed text stands for. -/
def expression (number : String → Float) : Bracketed → Expression
  | .word text => leaf number text
  | .list head parts => node head (expressions number parts)

def expressions (number : String → Float) : List Bracketed → List Expression
  | [] => []
  | first :: rest => first.expression number :: expressions number rest

end

variable {number : String → Float}

theorem leaf_name {token : Token} (spells : token.Spells [.identifier]) :
    leaf number token.lexeme = .reference ⟨0, { token with line := 0 }⟩ := by
  obtain ⟨isWord, isName⟩ := spells.name
  have letter : token.lexeme.toList.head?.any isWordStart = true := by
    cases text : token.lexeme.toList with
    | nil =>
        rw [text] at isWord
        exact isWord.elim
    | cons first rest =>
        rw [text] at isWord
        exact word_start_iff.mpr isWord.1
  rw [leaf, if_pos letter, isName, List.mem_singleton.mp spells.kind]

theorem leaf_number {value : Float} (finite : value.isFinite = true) :
    leaf number (Number.literal.render value) =
      .literal (.number (number (Number.literal.render value))) := by
  have plain : Number.literal.Plain := .inr rfl
  obtain ⟨nonempty, characters⟩ := Number.rendered_characters plain finite
  have noLetter : (Number.literal.render value).toList.head?.any isWordStart = false := by
    obtain ⟨first, rest, text⟩ := List.exists_cons_of_ne_nil nonempty
    rw [text] at characters ⊢
    rw [List.head?_cons, Option.any_some, Bool.eq_false_iff, Ne, word_start_iff]
    rcases characters first List.mem_cons_self with digit | rfl | rfl
    · exact digit_no_letter (is_digit_iff.mp digit)
    · rw [← word_start_iff]
      decide
    · rw [← word_start_iff]
      decide
  rw [leaf, noLetter]
  rfl

theorem node_unary {token : Token} (spells : token.Spells unaryOperators) (operand : Expression) :
    node token.lexeme [operand] = .unary { token with line := 0 } operand := by
  obtain ⟨known, free, -⟩ := spells.operator (by decide)
  simp only [reservedHeads, List.mem_cons, List.not_mem_nil, or_false, not_or] at free
  simp only [node, free, known, if_false]

theorem node_binary {token : Token} (spells : token.Spells binaryOperators)
    (left right : Expression) :
    node token.lexeme [left, right] = .binary left { token with line := 0 } right := by
  obtain ⟨known, free, -⟩ := spells.operator (by decide)
  have apart : ∀ kind ∈ binaryOperators, kind ∉ logicalOperators := by decide
  simp only [reservedHeads, List.mem_cons, List.not_mem_nil, or_false, not_or] at free
  simp only [node, free, known, apart _ spells.kind, if_false]

theorem node_logical {token : Token} (spells : token.Spells logicalOperators)
    (left right : Expression) :
    node token.lexeme [left, right] = .logical left { token with line := 0 } right := by
  obtain ⟨known, free, -⟩ := spells.operator (by decide)
  simp only [reservedHeads, List.mem_cons, List.not_mem_nil, or_false, not_or] at free
  simp only [node, free, known, spells.kind, if_false, if_true]

end Reading

end Bracketed

/-- Every finite number is read again from how literals write it. -/
def ReadsLiterals (number : String → Float) : Prop :=
  ∀ value, value.isFinite = true → number (Number.literal.render value) = value

section Proper

theorem number_plain {value : Float} (finite : value.isFinite = true) :
    Bracketed.IsPlain (Number.literal.render value).toList := by
  have plain : Number.literal.Plain := .inr rfl
  obtain ⟨nonempty, characters⟩ := Number.rendered_characters plain finite
  refine ⟨nonempty, fun character member => ?_⟩
  rcases characters character member with digit | rfl | rfl
  · exact Bracketed.delimits_no digit rfl rfl rfl
  · rfl
  · rfl

mutual

/-- All words of the bracketed form of a legible expression are plain. -/
theorem Expression.bracketed_proper (value : Expression) (legible : value.Legible) :
    value.bracketed.Proper := by
  match value with
  | .literal (.number value) => exact number_plain legible
  | .literal (.boolean true) | .literal (.boolean false) | .literal .nil =>
      rw [bracketed, Bracketed.Proper]
      decide
  | .grouping inner =>
      exact ⟨by decide, inner.bracketed_proper legible, trivial⟩
  | .unary operator operand =>
      obtain ⟨-, -, plain⟩ := legible.1.operator (by decide)
      exact ⟨plain, operand.bracketed_proper legible.2, trivial⟩
  | .binary left operator right | .logical left operator right =>
      obtain ⟨-, -, plain⟩ := legible.1.operator (by decide)
      exact ⟨plain, left.bracketed_proper legible.2.1, right.bracketed_proper legible.2.2, trivial⟩
  | .conditional condition thenBranch elseBranch =>
      exact ⟨by decide, condition.bracketed_proper legible.1,
        thenBranch.bracketed_proper legible.2.1, elseBranch.bracketed_proper legible.2.2, trivial⟩
  | .reference place => exact word_plain legible.name.1
  | .assign place value =>
      exact ⟨by decide, word_plain legible.1.name.1,
        value.bracketed_proper legible.2, trivial⟩
  | .call callee closing arguments =>
      exact ⟨by decide, callee.bracketed_proper legible.2.1,
        Expression.all_bracketed_proper arguments legible.2.2⟩
  | .get object name =>
      exact ⟨by decide, object.bracketed_proper legible.2,
        word_plain legible.1.name.1, trivial⟩
  | .set object name value =>
      exact ⟨by decide, object.bracketed_proper legible.2.1,
        word_plain legible.1.name.1, value.bracketed_proper legible.2.2, trivial⟩
  | .receiver place =>
      have isSelf : place.name = ⟨.selfWord, "self", place.name.line⟩ :=
        legible.lexeme_eq (by decide)
      have plain : Bracketed.IsPlain "self".toList := by decide
      rw [bracketed, isSelf]
      exact plain
  | .inherited place method =>
      exact ⟨by decide, word_plain legible.2.name.1, trivial⟩

theorem Expression.all_bracketed_proper (values : List Expression)
    (legible : Expression.AllLegible values) :
    Bracketed.AllProper (Expression.allBracketed values) := by
  match values with
  | [] => exact trivial
  | first :: rest =>
      exact ⟨first.bracketed_proper legible.1, Expression.all_bracketed_proper rest legible.2⟩

end

end Proper

section ReadingBack

variable {number : String → Float}

mutual

/-- Reading the bracketed form gives the expression back, up to numbers and lines. -/
theorem Expression.read_back (reads : ReadsLiterals number) (value : Expression)
    (legible : value.Legible) : value.bracketed.expression number = value.relabel .bare := by
  match value with
  | .literal (.number value) =>
      exact (Bracketed.leaf_number legible).trans
        (congrArg (Expression.literal ∘ Literal.number) (reads value legible))
  | .literal (.boolean true) => rfl
  | .literal (.boolean false) => rfl
  | .literal .nil => rfl
  | .grouping inner =>
      simp only [bracketed, Bracketed.expression, Bracketed.expressions,
        inner.read_back reads legible]
      rfl
  | .unary operator operand =>
      simp only [bracketed, Bracketed.expression, Bracketed.expressions,
        operand.read_back reads legible.2, Bracketed.node_unary legible.1]
      rfl
  | .binary left operator right =>
      simp only [bracketed, Bracketed.expression, Bracketed.expressions,
        left.read_back reads legible.2.1, right.read_back reads legible.2.2,
        Bracketed.node_binary legible.1]
      rfl
  | .logical left operator right =>
      simp only [bracketed, Bracketed.expression, Bracketed.expressions,
        left.read_back reads legible.2.1, right.read_back reads legible.2.2,
        Bracketed.node_logical legible.1]
      rfl
  | .conditional condition thenBranch elseBranch =>
      simp only [bracketed, Bracketed.expression, Bracketed.expressions,
        condition.read_back reads legible.1, thenBranch.read_back reads legible.2.1,
        elseBranch.read_back reads legible.2.2]
      rfl
  | .reference place => exact Bracketed.leaf_name legible
  | .assign place value =>
      simp only [bracketed, Bracketed.expression, Bracketed.expressions,
        Bracketed.leaf_name legible.1, value.read_back reads legible.2]
      rfl
  | .call callee closing arguments =>
      have isClosing : closing = ⟨.rightParen, ")", closing.line⟩ :=
        legible.1.lexeme_eq (by decide)
      rw [isClosing]
      simp only [bracketed, Bracketed.expression, Bracketed.expressions,
        callee.read_back reads legible.2.1, Expression.all_read_back reads arguments legible.2.2]
      rfl
  | .get object name =>
      simp only [bracketed, Bracketed.expression, Bracketed.expressions,
        Bracketed.leaf_name legible.1, object.read_back reads legible.2]
      rfl
  | .set object name value =>
      simp only [bracketed, Bracketed.expression, Bracketed.expressions,
        Bracketed.leaf_name legible.1, object.read_back reads legible.2.1,
        value.read_back reads legible.2.2]
      rfl
  | .receiver place =>
      obtain ⟨id, name⟩ := place
      have isSelf : name = ⟨.selfWord, "self", name.line⟩ := legible.lexeme_eq (by decide)
      rw [isSelf]
      simp only [bracketed, Bracketed.expression]
      rfl
  | .inherited place method =>
      obtain ⟨id, name⟩ := place
      have isSuper : name = ⟨.superWord, "super", name.line⟩ := legible.1.lexeme_eq (by decide)
      rw [isSuper]
      simp only [bracketed, Bracketed.expression, Bracketed.expressions,
        Bracketed.leaf_name legible.2]
      rfl

theorem Expression.all_read_back (reads : ReadsLiterals number) (values : List Expression)
    (legible : Expression.AllLegible values) :
    Bracketed.expressions number (Expression.allBracketed values) =
      Expression.relabelAll .bare values := by
  match values with
  | [] => rfl
  | first :: rest =>
      simp only [allBracketed, Bracketed.expressions, first.read_back reads legible.1,
        Expression.all_read_back reads rest legible.2]
      rfl

end

end ReadingBack

end Lox
