import Lox.Proofs.Grammar.Statements
import Lox.Syntax.Parse

/-!
What is read without a complaint belongs to the grammar, and the occurrences in
its tree have numbers of their own. The rules that call each other are shown to
account for what they read by induction on how deep they may nest.
-/

namespace Lox

open Phrase

namespace Rule

/-- The rules that call each other account for what they read. -/
structure Accounts (bound : Nat) : Prop where
  expression : (expression bound).Yields (form .expression) fun tree => [.expression tree]
  conditional : (conditional bound).YieldsTarget (form .ternary)
  unary : (unary bound).YieldsTarget (form .unary)
  statement : (statement bound).YieldsStatement (form .statement)
  declaration : (declaration bound).Yields (form .declaration) fun tree => [.statement tree]

variable {bound : Nat}

theorem unary_accounts (inner : Accounts bound) :
    (unary (bound + 1)).YieldsTarget (form .unary) := by
  unfold unary
  refine (accept_any_reads (by simp)).bind fun found => ?_
  cases found with
  | some operator =>
      refine inner.unary.finish ?_
      rintro middle read operand after ⟨derived, numbered, -⟩ before front ⟨rfl, fits, numbers⟩
      have sign : Derives (word .bang ||| word .minus) [operator] := by
        simpa [derives_choice, derives_word] using fits operator rfl
      refine ⟨.form (.one (sign.before derived.alone)), ?_, trivial⟩
      rw [numbers] at numbered
      exact numbered.around rfl trivial
  | none =>
      have head := primary_yields inner.expression (block_yields inner.declaration bound)
      refine head.bind fun tree => (trailers_reads inner.expression bound tree).weaken ?_
      rintro third read result after means second front ⟨derived, numbered, target⟩ before empty
        ⟨rfl, -, numbers⟩
      have single : Derives (form .call) (front ++ []) := .form (derived.before (.alone .none))
      rw [List.append_nil] at single
      rw [numbers] at numbered
      obtain ⟨call, numbersCall, targetCall⟩ := means before.nextId front single numbered target
      exact ⟨.form (.other call), numbersCall, targetCall⟩

theorem conditional_accounts (inner : Accounts bound) :
    (conditional (bound + 1)).YieldsTarget (form .ternary) := by
  unfold conditional
  refine (operations_yield inner.unary bound).bind fun condition =>
    .accept nofun (fun question => ?_) (.pure ?_)
  · refine Reads.bind inner.expression fun thenBranch =>
      (expect_yields .colon _ nofun).bind fun _ =>
      inner.conditional.finish ?_
    rintro fifth back elseBranch after ⟨last, numbersLast, -⟩ fourth colons ⟨colon, sameFourth⟩
      third chosen ⟨middle, numbersMiddle⟩ second marks mark sameSecond before front
      ⟨derived, numbered, -⟩
    have branches := mark.before (middle.before (colon.before last.alone))
    refine ⟨.form (derived.before branches.present.alone), ?_, trivial⟩
    have parts := (numbered.append sameSecond).append (numbersMiddle.append
      (sameFourth.append numbersLast))
    exact parts.around rfl trivial
  · rintro after middle same before front ⟨derived, numbered, target⟩
    have whole : Derives (form .ternary) (front ++ []) := .form (derived.before (.alone .absent))
    refine ⟨whole, numbered.append same, ?_⟩
    rwa [List.append_nil]

theorem expression_accounts (inner : Accounts bound) :
    (expression (bound + 1)).Yields (form .expression) fun tree => [.expression tree] := by
  unfold expression
  refine inner.conditional.bind fun target => .accept nofun (fun equals => ?_) (.pure ?_)
  · refine Reads.bind inner.expression fun value => (assignment_reads target value equals).weaken ?_
    rintro fourth read tree after means third back ⟨derived, numbersValue⟩ second sign fits same
      before front ⟨-, numbered, targeted⟩
    have whole := means before.nextId front sign back targeted fits (derives_form.mp derived)
      ((numbered.append same).append numbersValue)
    exact ⟨.form whole.1, whole.2⟩
  · rintro after middle same before front ⟨derived, numbered, -⟩
    rw [List.append_nil]
    exact ⟨.form (.form (.other derived)), numbered.append same⟩

/-- A statement that is announced by a word of its own. -/
theorem announced_accounts (announced : Form) {kind : Kind} {phrases : List Phrase}
    {rule : Rule Statement} {token : Token} (fits : token.kind = kind) (inner : kind ≠ .endOfInput)
    (means : grammar announced = inOrder (word kind :: phrases))
    (possible : ∀ tokens, Derives (form announced) tokens → Derives (form .statement) tokens)
    (yields : rule.YieldsStatement (inOrder phrases)) :
    ReadsAt token (skip >>= fun _ => rule) fun before read tree after =>
      Derives (form .statement) read ∧ Numbered before.nextId after.nextId [.statement tree] ∧
        tree.isDeclaration = false := by
  refine .step fits inner (yields.weaken ?_)
  rintro middle read tree after ⟨derived, numbered, plain⟩ before word same
  refine ⟨possible _ (.form ?_), same.append numbered, plain⟩
  rw [means]
  exact word.before derived

theorem statement_accounts (inner : Accounts bound) :
    (statement (bound + 1)).YieldsStatement (form .statement) := by
  unfold statement
  refine .peek fun token => ?_
  split
  case h_1 fits =>
    exact announced_accounts .forStatement fits nofun rfl
      (fun _ derived => .form (.one (.one (.one (.other derived)))))
      (for_statement_yields inner.expression inner.statement)
  case h_2 fits =>
    exact announced_accounts .ifStatement fits nofun rfl
      (fun _ derived => .form (.one (.one (.other derived))))
      (if_statement_yields inner.expression inner.statement)
  case h_3 fits =>
    exact announced_accounts .whileStatement fits nofun rfl
      (fun _ derived => .form (.one (.one (.one (.one (.other derived))))))
      (while_statement_yields inner.expression inner.statement)
  case h_4 fits =>
    exact announced_accounts .exitStatement fits nofun rfl
      (fun _ derived => .form (.other derived)) (exit_statement_yields token inner.expression)
  case h_5 fits =>
    refine announced_accounts .block fits nofun rfl
      (fun _ derived => .form (.one (.other derived))) ?_
    refine Reads.finish (block_yields inner.declaration bound) ?_
    rintro before read statements after ⟨derived, numbered⟩
    exact ⟨derived, numbered.around rfl trivial, rfl⟩
  case h_6 fits =>
    exact announced_accounts .printStatement fits nofun rfl
      (fun _ derived => .form (.one (.one (.one (.one (.one (.other derived)))))))
      (print_statement_yields inner.expression)
  case h_7 =>
    refine Reads.anywhere ((expression_statement_yields inner.expression).weaken ?_)
    rintro before read tree after ⟨derived, means⟩
    exact ⟨.form (.one (.one (.one (.one (.one (.one derived)))))), means⟩

theorem at_function_declaration_reads : atFunctionDeclaration.Reads fun before read found after =>
    read = [] ∧ after = before ∧ (found = true → before.next.kind = .funWord) := by
  rintro ⟨rest, nextId, complaints⟩
  rcases rest with - | ⟨first, - | ⟨second, rest⟩⟩
  · exact ⟨.same rfl rfl, fun _ => ⟨[], rfl, rfl, rfl, nofun⟩⟩
  · exact ⟨.same rfl rfl, fun _ => ⟨[], rfl, rfl, rfl, nofun⟩⟩
  · refine ⟨.same rfl rfl, fun _ => ⟨[], rfl, rfl, rfl, fun both => ?_⟩⟩
    exact of_decide_eq_true (Bool.and_eq_true_iff.mp both).1

theorem declaration_accounts (inner : Accounts bound) :
    (declaration (bound + 1)).Yields (form .declaration) fun tree => [.statement tree] := by
  have body := block_yields inner.declaration bound
  unfold declaration
  refine .accept nofun (fun keyword => ?_) (at_function_declaration_reads.bind fun found => ?_)
  · refine (class_declaration_yields body).weaken ?_
    rintro middle read tree after ⟨derived, numbered⟩ before front fits same
    exact ⟨.form (.one (.one (.one (.form (fits.before derived))))), same.append numbered⟩
  · split
    case isTrue named =>
      refine skip_reads.bind fun _ => (function_reads body).finish ?_
      rintro fourth back routine after ⟨derived, numbered, hasName⟩ third front stepped second
        empty ⟨rfl, rfl, keyword⟩ before same
      have fits := keyword named
      obtain ⟨rfl, numbers⟩ := stepped (by rw [fits]; exact nofun)
      have word : Derives (word .funWord) [third.next] := .word fits
      refine ⟨.form (.one (.one (.other (.form (word.before derived))))), ?_⟩
      rw [numbers] at numbered
      exact (same.append numbered).around rfl hasName
    case isFalse =>
      refine .accept nofun (fun keyword => ?_) ?_
      · refine (variable_declaration_yields inner.expression).weaken ?_
        rintro fourth read tree after ⟨derived, numbered⟩ third front fits sameThird second empty
          ⟨rfl, rfl, -⟩ before sameFirst
        refine ⟨.form (.one (.other (.form (fits.before derived)))), ?_⟩
        exact sameFirst.append (sameThird.append numbered)
      · refine inner.statement.weaken ?_
        rintro fourth read tree after ⟨derived, numbered, -⟩ third sameThird second empty
          ⟨rfl, rfl, -⟩ before sameFirst
        exact ⟨.form (.other derived), sameFirst.append (sameThird.append numbered)⟩

theorem accounts (bound : Nat) : Accounts bound := by
  induction bound with
  | zero =>
      exact ⟨missing_reads _, missing_reads _, missing_reads _, missing_reads _, missing_reads _⟩
  | succ bound inner =>
      exact ⟨expression_accounts inner, conditional_accounts inner, unary_accounts inner,
        statement_accounts inner, declaration_accounts inner⟩

end Rule

open Rule

theorem finish_ok {α : Type} {reading : Reading} {tree result : α}
    (accepted : (reading.finish tree).outcome = .ok result) :
    reading.complaints = [] ∧ tree = result := by
  unfold Reading.finish at accepted
  dsimp only at accepted
  split at accepted
  case isTrue empty => exact ⟨List.isEmpty_iff.mp empty, Except.ok.inj accepted⟩
  case isFalse => cases accepted

/-- An accepted program is derived by the grammar up to the end of the input. -/
theorem program_read (tokens : List Token) (firstId : Nat) :
    firstId ≤ (parseProgram tokens firstId).nextId ∧
      ∀ statements, (parseProgram tokens firstId).outcome = .ok statements →
        Numbered firstId (parseProgram tokens firstId).nextId [.statements statements] ∧
        ∃ read rest, tokens = read ++ rest ∧ leading rest = .endOfInput ∧
          Derives (form .program) read := by
  have reads := declarations_read (· = .endOfInput) (accounts (nesting tokens)).declaration
    (nesting tokens) (.start tokens firstId)
  unfold parseProgram
  dsimp only
  revert reads
  cases declarations (declaration (nesting tokens)) (· = .endOfInput) (nesting tokens)
      (.start tokens firstId) with
  | error complaint after => exact fun before => ⟨before.1, nofun⟩
  | ok statements after =>
      rintro ⟨before, means⟩
      refine ⟨before.1, fun found accepted => ?_⟩
      obtain ⟨quiet, rfl⟩ := finish_ok accepted
      obtain ⟨read, split, derived, numbered, ending⟩ := means quiet
      refine ⟨Numbered.gather Numbered.statements_gather ?_, read, after.rest, split, ?_,
        .form derived⟩
      · rwa [List.append_nil]
      · rcases ending with closed | long
        · exact of_decide_eq_true closed
        · have total : tokens.length = read.length + after.rest.length := by
            rw [← List.length_append, ← split]
            rfl
          unfold nesting at long
          omega

theorem expression_read (tokens : List Token) (firstId : Nat) :
    firstId ≤ (parseExpression tokens firstId).nextId ∧
      ∀ value, (parseExpression tokens firstId).outcome = .ok value →
        Numbered firstId (parseExpression tokens firstId).nextId [.expression value] ∧
        ∃ read rest, tokens = read ++ rest ∧ leading rest = .endOfInput ∧
          Derives (form .expression) read := by
  have reads := (accounts (nesting tokens)).expression (.start tokens firstId)
  unfold parseExpression
  revert reads
  cases expression (nesting tokens) (.start tokens firstId) with
  | error complaint after => exact fun before => ⟨before.1, nofun⟩
  | ok value after =>
      rintro ⟨before, means⟩
      dsimp only
      split
      case isTrue ends =>
        refine ⟨before.1, fun found accepted => ?_⟩
        obtain ⟨quiet, rfl⟩ := finish_ok accepted
        obtain ⟨read, split, derived, numbered⟩ := means quiet
        exact ⟨numbered, read, after.rest, split, of_decide_eq_true ends, derived⟩
      case isFalse =>
        refine ⟨before.1, fun found accepted => ?_⟩
        have noted := (finish_ok accepted).1
        exact absurd noted (by simp [Reading.note])

def Line.node : Line → Node
  | .statements orders => .statements orders
  | .expression value => .expression value

/-- Whichever way a line is read, the numbers in it are its own. -/
theorem line_read (tokens : List Token) (firstId : Nat) :
    firstId ≤ (parseLine tokens firstId).nextId ∧
      ∀ line, (parseLine tokens firstId).outcome = .ok line →
        Numbered firstId (parseLine tokens firstId).nextId [line.node] := by
  have asProgram (nextId : Nat) (above : firstId ≤ nextId) :
      firstId ≤ (parseProgram tokens nextId).nextId ∧
        ∀ line, (parseProgram tokens nextId).outcome.map Line.statements = .ok line →
          Numbered firstId (parseProgram tokens nextId).nextId [line.node] := by
    obtain ⟨ordered, reads⟩ := program_read tokens nextId
    refine ⟨Nat.le_trans above ordered, fun line accepted => ?_⟩
    cases outcome : (parseProgram tokens nextId).outcome with
    | error complaints =>
        rw [outcome] at accepted
        cases accepted
    | ok statements =>
        rw [outcome] at accepted
        cases accepted
        exact (reads statements outcome).1.widen above (Nat.le_refl _)
  have reads := (accounts (nesting tokens)).expression (.start tokens firstId)
  unfold parseLine
  revert reads
  cases expression (nesting tokens) (.start tokens firstId) with
  | error complaint after => exact fun before => asProgram after.nextId before.1
  | ok value after =>
      rintro ⟨before, means⟩
      dsimp only
      split
      case isTrue =>
        refine ⟨before.1, fun line accepted => ?_⟩
        obtain ⟨quiet, rfl⟩ := finish_ok accepted
        obtain ⟨read, -, -, numbered⟩ := means quiet
        exact numbered
      case isFalse => exact asProgram after.nextId before.1

end Lox
