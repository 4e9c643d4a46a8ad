import Lox.Proofs.Execution.History
import Lox.Proofs.Grammar.Soundness
import Lox.Proofs.Renaming.Spending
import Lox.Proofs.Tokens.Partition

/-!
How names are spelled in the lines that a session accepts. Every name in a line is a token of
its source, and tokens are spelled as their kind demands. So nothing that a program declares
is named `self` or `super`, and the expressions for the receiver and for the superclass are.
-/

namespace Lox

/-- No name that is declared in a program is spelled like a name that methods are given. -/
def Free (name : String) : Prop := name ≠ receiverName ∧ name ≠ superclassName

/-- The token is spelled as its kind demands, as far as `self` and `super` are concerned. -/
def Word.Spelled (word : Word) : Prop :=
  match word.1 with
  | .identifier => Free word.2.lexeme
  | .selfWord => word.2.lexeme = receiverName
  | .superWord => word.2.lexeme = superclassName
  | _ => True

def Node.Spelled (node : Node) : Prop := ∀ word ∈ node.ownWords, Word.Spelled word

def Line.Spelled (line : Line) : Prop := ∀ node, line.node.Contains node → node.Spelled

theorem token_spelled {source : String} {token : Token}
    (member : token ∈ tokensOf (scan source)) : Word.Spelled (token.kind, token) := by
  obtain ⟨kind, lexeme, line⟩ := token
  rcases token_lexeme member with ⟨rfl, -⟩ | isLexeme
  · trivial
  · dsimp only at isLexeme
    cases kind with
    | identifier =>
        obtain ⟨-, free⟩ := identifier_shape isLexeme
        rw [String.ofList_toList] at free
        constructor
        · rintro rfl
          exact free .selfWord (by decide)
        · rintro rfl
          exact free .superWord (by decide)
    | selfWord =>
        have listed : (receiverName, Kind.selfWord) ∈ keywords := by decide
        have same := keyword_no_other listed isLexeme rfl
        rwa [String.ofList_toList] at same
    | superWord =>
        have listed : (superclassName, Kind.superWord) ∈ keywords := by decide
        have same := keyword_no_other listed isLexeme rfl
        rwa [String.ofList_toList] at same
    | _ => trivial

/-- A name that comes from some tokens is one of them. -/
theorem word_of_tokens {tokens : List Token} {word : Word}
    (member : word ∈ (tokens.map Token.weight).sum) :
    word.2 ∈ tokens ∧ word = (word.2.kind, word.2) := by
  induction tokens with
  | nil => cases member
  | cons token rest induction =>
      rw [List.map_cons, List.sum_cons, Multiset.mem_add] at member
      rcases member with own | later
      · unfold Token.weight at own
        split_ifs at own
        · cases Multiset.mem_singleton.mp own
          exact ⟨List.mem_cons_self, rfl⟩
        · cases own
      · obtain ⟨isToken, same⟩ := induction later
        exact ⟨List.mem_cons_of_mem _ isToken, same⟩

theorem Node.own_word_in {whole inner : Node} (contained : whole.Contains inner) {word : Word}
    (own : word ∈ inner.ownWords) : word ∈ whole.words := by
  induction whole using induction_along_parts with
  | step whole parts =>
    rw [words_eq, List.mem_append, List.mem_flatMap]
    rcases contains_iff.mp contained with rfl | ⟨part, isPart, below⟩
    · exact .inr own
    · exact .inl ⟨part, isPart, parts part isPart below⟩

/-- The words of a line are tokens that were read. -/
theorem line_words {tokens : List Token} {firstId : Nat} {line : Line}
    (accepted : (parseLine tokens firstId).outcome = .ok line) :
    line.node.weight ≤ (tokens.map Token.weight).sum := by
  have asProgram (nextId : Nat) (accepted :
      (parseProgram tokens nextId).outcome.map Line.statements = .ok line) :
      line.node.weight ≤ (tokens.map Token.weight).sum := by
    cases outcome : (parseProgram tokens nextId).outcome with
    | error complaints =>
        rw [outcome] at accepted
        cases accepted
    | ok statements =>
        rw [outcome] at accepted
        cases accepted
        exact program_words outcome
  have spent := (Rule.all_spend (nesting tokens)).expression (.start tokens firstId)
  unfold Rule.SpendsAt at spent
  unfold parseLine at accepted
  revert spent accepted
  cases Rule.expression (nesting tokens) (.start tokens firstId) with
  | error complaint after => exact fun accepted _ => asProgram after.nextId accepted
  | ok value after =>
      intro accepted spent
      dsimp only at accepted spent
      split_ifs at accepted
      · obtain ⟨-, rfl⟩ := finish_ok accepted
        calc value.weight
          _ ≤ value.weight + after.weight := Multiset.le_add_right _ _
          _ ≤ 0 + (Reading.start tokens firstId).weight := spent
          _ = (tokens.map Token.weight).sum := zero_add _
      · exact asProgram after.nextId accepted

theorem prepare_accepted {α : Type} {session next : Session} {source : String}
    {parse : List Token → Nat → Parsed α} {bindings : α → Bindings} {tree : α}
    (prepared : session.prepare source parse bindings = (.ok tree, next)) :
    (parse (tokensOf (scan source)) session.nextId).outcome = .ok tree := by
  unfold Session.prepare at prepared
  dsimp only at prepared
  split at prepared
  · cases prepared
  · next outcome =>
      split_ifs at prepared <;> cases prepared
      exact outcome

/-- Names in accepted lines are spelled as names are. -/
theorem Session.receive_spelled {session next : Session} {entry : Entry} {line : Line}
    (received : session.receive entry = (.ok line, next)) : line.Spelled := by
  have spelled {source : String}
      (within : line.node.weight ≤ ((tokensOf (scan source)).map Token.weight).sum) :
      line.Spelled := by
    intro node contained word own
    obtain ⟨isToken, same⟩ :=
      word_of_tokens (Multiset.mem_of_le within
        (Multiset.mem_coe.mpr (Node.own_word_in contained own)))
    rw [same]
    exact token_spelled isToken
  cases entry with
  | program source =>
      unfold receive at received
      dsimp only at received
      cases prepared : session.prepare source parseProgram Bindings.ofProgram with
      | mk outcome after =>
          rw [prepared] at received
          cases outcome with
          | error diagnostics => cases received
          | ok statements =>
              cases received
              exact spelled (program_words (prepare_accepted prepared))
  | line source => exact spelled (line_words (prepare_accepted received))

end Lox
