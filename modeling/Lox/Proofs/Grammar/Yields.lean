import Lox.Proofs.Grammar.Reads
import Lox.Syntax.Grammar

/-!
What the rules for expressions derive, given the rules that they are built from.
A loop that reads further operators or trailers keeps what it has read so far in
one derivation, to which each round adds at its end.
-/

namespace Lox

open Phrase

section

variable {item operators operand : Phrase} {front back : List Token}

theorem derives_many_snoc (derived : Derives (.many item) front) (last : Derives item back) :
    Derives (.many item) (front ++ back) := by
  generalize all : Phrase.many item = phrase at derived
  induction derived with
  | none =>
      cases all
      simpa using Derives.more last .none
  | more head tail _ induction =>
      cases all
      rw [List.append_assoc]
      exact .more head (induction rfl)
  | _ => cases all

theorem joined_single (derived : Derives operand front) :
    Derives (joined operators operand) front := by
  have whole : Derives (joined operators operand) (front ++ []) := derived.before (.alone .none)
  rwa [List.append_nil] at whole

theorem joined_snoc {operator : List Token} (derived : Derives (joined operators operand) front)
    (between : Derives operators operator) (last : Derives operand back) :
    Derives (joined operators operand) (front ++ (operator ++ back)) := by
  obtain ⟨first, others, rfl, head, tail⟩ := derives_in_order.mp derived
  rw [derives_in_order_one] at tail
  have pair : Derives (inOrder [operators, operand]) (operator ++ back) :=
    between.before last.alone
  rw [List.append_assoc]
  exact head.before (derives_many_snoc tail pair).alone

theorem call_snoc (derived : Derives (.form .call) front)
    (last : Derives (inOrder [word .leftParen, Phrase.optional (form .arguments), word .rightParen]
      ||| inOrder [word .dot, word .identifier]) back) :
    Derives (.form .call) (front ++ back) := by
  rw [derives_form, grammar, derives_in_order] at derived
  obtain ⟨first, others, rfl, head, tail⟩ := derived
  rw [derives_in_order_one] at tail
  rw [derives_form, grammar, List.append_assoc]
  exact head.before (derives_many_snoc tail last).alone

end

/-- A tree that can be assigned to was read off tokens that can be assigned to. -/
def Targets (read : List Token) : Expression → Prop
  | .reference _ => Derives (word .identifier) read
  | .get _ _ => Derives (inOrder [form .call, word .dot, word .identifier]) read
  | _ => True

namespace Rule

/-- What a rule for expressions derives. -/
def YieldsTarget (rule : Rule Expression) (phrase : Phrase) : Prop :=
  rule.Reads fun before read tree after =>
    Derives phrase read ∧ Numbered before.nextId after.nextId [.expression tree] ∧
      Targets read tree

section

variable {α : Type} {phrase : Phrase} {nodes : α → List Node} {item : Rule α}

/-- Items that were counted already lower the limit for those that follow. -/
theorem comma_separated_yields (each : item.Yields phrase nodes) (excess : SyntaxError)
    (bound count : Nat) :
    (commaSeparated item excess bound count).Yields (.list (listLimit - count) phrase)
      fun trees => trees.flatMap nodes := by
  induction bound generalizing count with
  | zero => exact missing_reads _
  | succ bound induction =>
      rw [comma_separated_succ]
      have others : Reads (items item (commaSeparated item excess bound (count + 1)))
          fun before read trees after => count < listLimit →
            Derives (.list (listLimit - count) phrase) read ∧
              Numbered before.nextId after.nextId (trees.flatMap nodes) := by
        refine each.bind fun first => ?_
        refine .accept (by decide) (fun separator => ?_) ?_
        · refine (induction (count + 1)).finish ?_
          rintro middle back rest after ⟨tail, numbersTail⟩ between comma separates numbersComma
            before front ⟨head, numbersHead⟩ few
          have lower : listLimit - count = listLimit - (count + 1) + 1 := by omega
          obtain ⟨token, rfl, fits⟩ := derives_word.mp separates
          rw [lower]
          exact ⟨.comma head fits tail, numbersHead.append (numbersComma.append numbersTail)⟩
        · refine .pure ?_
          rintro after middle same before front ⟨head, numbers⟩ few
          have lower : listLimit - count = listLimit - (count + 1) + 1 := by omega
          rw [lower, List.append_nil, List.flatMap_singleton]
          exact ⟨.last head, List.append_nil (nodes first) ▸ numbers.append same⟩
      split
      case isTrue =>
        refine next_reads.bind fun token => (note_reads token excess).bind fun _ => ?_
        exact others.weaken fun _ _ _ _ _ _ _ impossible => impossible.elim
      case isFalse few =>
        exact others.weaken fun _ _ _ _ means => means (Nat.lt_of_not_le few)

end

/-- What the operators of a level are, and that its nodes have two operands. -/
structure LevelOf (level : Level) (operators : Phrase) : Prop where
  derives : ∀ token : Token, token.kind ∈ level.operators → Derives operators [token]
  inner : Kind.endOfInput ∉ level.operators
  node : level.node = .binary ∨ level.node = .logical

theorem LevelOf.numbered {level : Level} {operators : Phrase} {first middle next : Nat}
    {left right : Expression} {operator : Token} (is : LevelOf level operators)
    (numbersLeft : Numbered first middle [.expression left])
    (numbersRight : Numbered middle next [.expression right]) :
    Numbered first next [.expression (level.node left operator right)] := by
  rcases is.node with same | same
  all_goals
    rw [same]
    exact (numbersLeft.append numbersRight).around rfl trivial

theorem LevelOf.no_target {level : Level} {operators : Phrase} {read : List Token}
    {left right : Expression} {operator : Token} (is : LevelOf level operators) :
    Targets read (level.node left operator right) := by
  rcases is.node with same | same
  all_goals
    rw [same]
    trivial

section

variable {level : Level} {operators operand : Phrase} {tighter : Rule Expression}

theorem chain_reads (is : LevelOf level operators) (each : tighter.YieldsTarget operand)
    (bound : Nat) (left : Expression) :
    (chain level tighter bound left).Reads fun before read tree after =>
      ∀ first front, Derives (joined operators operand) front →
        Numbered first before.nextId [.expression left] → Targets front left →
        Derives (joined operators operand) (front ++ read) ∧
          Numbered first after.nextId [.expression tree] ∧ Targets (front ++ read) tree := by
  induction bound generalizing left with
  | zero =>
      refine .pure fun here first front derived numbered target => ?_
      rw [List.append_nil]
      exact ⟨derived, numbered, target⟩
  | succ bound induction =>
      unfold chain
      refine (accept_any_reads is.inner).bind fun found => ?_
      cases found with
      | none =>
          refine .pure ?_
          rintro after before front ⟨rfl, -, numbers⟩ first sofar derived numbered target
          rw [Option.toList_none, List.append_nil, List.append_nil]
          exact ⟨derived, numbered.widen (Nat.le_refl _) (Nat.le_of_eq numbers.symm), target⟩
      | some operator =>
          refine each.bind fun right => (induction _).weaken ?_
          rintro last read tree after means middle back ⟨tail, numbersRight, -⟩ before between
            ⟨rfl, fits, numbers⟩ first front derived numbersLeft target
          have between := is.derives operator (fits operator rfl)
          have longer := joined_snoc derived between tail
          have numbered : Numbered first last.nextId
            [.expression (level.node left operator right)] :=
            is.numbered (numbersLeft.widen (Nat.le_refl _) (Nat.le_of_eq numbers.symm)) numbersRight
          have whole := means first _ longer numbered is.no_target
          simpa only [List.append_assoc, Option.toList_some] using whole

/-- One level of operators above operands that bind tighter. -/
theorem level_yields (is : LevelOf level operators) (each : tighter.YieldsTarget operand)
    (bound : Nat) :
    YieldsTarget (do chain level tighter bound (← tighter)) (joined operators operand) := by
  refine each.bind fun left => (chain_reads is each bound left).weaken ?_
  rintro middle read tree after means before front ⟨derived, numbered, target⟩
  exact means before.nextId front (joined_single derived) numbered target

end

/-- The levels are those of the grammar, from the loosest to the tightest. -/
theorem operations_yield {operand : Rule Expression} (each : operand.YieldsTarget (form .unary))
    (bound : Nat) : (operations bound operand).YieldsTarget (form .disjunction) := by
  have named (wide narrow : Form) {level : Level} {tighter : Rule Expression} {operators : Phrase}
      (means : grammar wide = joined operators (form narrow)) (is : LevelOf level operators)
      (each : tighter.YieldsTarget (form narrow)) :
      YieldsTarget (do chain level tighter bound (← tighter)) (form wide) :=
    (level_yields is each bound).weaken fun _ _ _ _ yields =>
      ⟨.form (means ▸ yields.1), yields.2⟩
  simp only [operations, levels, List.foldr_cons, List.foldr_nil]
  refine named .disjunction .conjunction rfl ⟨fun token fits => ?_, by simp, .inr rfl⟩ ?_
  · simpa [derives_word] using fits
  refine named .conjunction .equality rfl ⟨fun token fits => ?_, by simp, .inr rfl⟩ ?_
  · simpa [derives_word] using fits
  refine named .equality .comparison rfl ⟨fun token fits => ?_, by simp, .inl rfl⟩ ?_
  · simpa [derives_choice, derives_word] using fits
  refine named .comparison .term rfl ⟨fun token fits => ?_, by simp, .inl rfl⟩ ?_
  · simpa [derives_choice, derives_word, or_assoc] using fits
  refine named .term .factor rfl ⟨fun token fits => ?_, by simp, .inl rfl⟩ ?_
  · simpa [derives_choice, derives_word] using fits
  refine named .factor .unary rfl ⟨fun token fits => ?_, by simp, .inl rfl⟩ each
  simpa [derives_choice, derives_word, or_comm] using fits

/-- What stands between the parentheses of a parameter list, and the closing one. -/
theorem parameters_yield (bound : Nat) :
    (parameters bound).Yields (inOrder [Phrase.optional (form .parameters), word .rightParen])
      fun _ => [] := by
  unfold parameters
  refine next_reads.bind fun token => ?_
  have names : Yields (if token.kind = .rightParen then pure []
      else commaSeparated (expect .identifier .parameterName) .tooManyParameters bound 0)
      (Phrase.optional (form .parameters)) fun _ => [] := by
    split
    case isTrue => exact .pure fun here => ⟨.absent, .nil (Nat.le_refl _)⟩
    case isFalse =>
      refine (comma_separated_yields (expect_yields .identifier _ nofun) _ bound 0).weaken ?_
      rintro before read found after ⟨derived, numbered⟩
      exact ⟨.present (.form derived), .nil numbered.ordered⟩
  refine names.either fun found => (expect_yields .rightParen _ nofun).finish ?_
  rintro last closing paren after ⟨closes, same⟩ middle inner ⟨derived, numbered⟩ before front
    ⟨rfl, -, rfl⟩
  exact ⟨derived.before closes.alone, numbered.append same⟩

theorem trailers_reads {expression : Rule Expression}
    (each : expression.Yields (form .expression) fun tree => [.expression tree]) (bound : Nat)
    (target : Expression) :
    (trailers expression bound target).Reads fun before read tree after =>
      ∀ first front, Derives (form .call) front →
        Numbered first before.nextId [.expression target] → Targets front target →
        Derives (form .call) (front ++ read) ∧
          Numbered first after.nextId [.expression tree] ∧ Targets (front ++ read) tree := by
  induction bound generalizing target with
  | zero =>
      refine .pure fun here first front derived numbered target => ?_
      rw [List.append_nil]
      exact ⟨derived, numbered, target⟩
  | succ bound induction =>
      unfold trailers
      refine .accept nofun (fun parenthesis => ?_) ?_
      · refine next_reads.bind fun token => ?_
        have values : Yields (if token.kind = .rightParen then pure []
            else commaSeparated expression .tooManyArguments (bound + 1) 0)
            (Phrase.optional (form .arguments)) fun trees => [.expressions trees] := by
          split
          case isTrue =>
            exact .pure fun here => ⟨.absent, Numbered.around (.nil (Nat.le_refl _)) rfl trivial⟩
          case isFalse =>
            refine (comma_separated_yields each _ (bound + 1) 0).weaken ?_
            rintro before read found after ⟨derived, numbered⟩
            refine ⟨.present (.form derived), Numbered.gather Numbered.expressions_gather ?_⟩
            rwa [List.append_nil, List.map_eq_flatMap]
        refine values.either fun trees => (expect_yields .rightParen _ nofun).bind fun closing => ?_
        refine (induction _).weaken ?_
        rintro last read tree after means third closes ⟨closing, sameLast⟩ second inside
          ⟨derived, numbersInside⟩ peeked looked ⟨rfl, -, rfl⟩ before opens opening sameFirst
          first front sofar numbered target
        have call := call_snoc sofar (.one (opening.before (derived.before closing.alone)))
        have parts := (numbered.append sameFirst).append (numbersInside.append sameLast)
        have whole := means first _ call (parts.around rfl trivial) trivial
        simpa only [List.append_assoc, List.nil_append] using whole
      · refine .accept nofun (fun dot => ?_) ?_
        · refine (expect_yields .identifier _ nofun).bind fun name => (induction _).weaken ?_
          rintro last read tree after means third names ⟨named, sameLast⟩ second dots dotted
            sameMiddle before sameFirst first front sofar numbered targeted
          have call := call_snoc sofar (.other (dotted.before named.alone))
          have parts := (numbered.append sameFirst).append (sameMiddle.append sameLast)
          have property : Targets (front ++ (dots ++ names)) (.get target name) :=
            sofar.before (dotted.before named.alone)
          have whole := means first _ call (parts.around rfl trivial) property
          simpa only [List.append_assoc] using whole
        · refine .pure ?_
          rintro after middle sameLast before sameFirst first front sofar numbered target
          rw [List.append_nil]
          exact ⟨sofar, (numbered.append sameFirst).append sameLast, target⟩

/-- A block after its opening brace, given what its declarations derive. -/
def YieldsBlock (rule : Rule (List Statement)) : Prop :=
  rule.Yields (inOrder [many (form .declaration), word .rightBrace])
    fun statements => [.statements statements]

theorem lambda_yields {declaration : Rule Statement} {bound : Nat}
    (body : (block declaration bound).YieldsBlock) :
    (lambda declaration bound).Reads fun before read tree after =>
      Derives (inOrder [word .leftParen, Phrase.optional (form .parameters), word .rightParen,
        form .block]) read ∧ Numbered before.nextId after.nextId [.expression tree] ∧
          ∃ routine, tree = .lambda routine := by
  unfold lambda
  refine (expect_yields .leftParen _ nofun).bind fun _ => (parameters_yield bound).bind fun names =>
    (expect_yields .leftBrace _ nofun).bind fun _ => Reads.finish body ?_
  rintro fourth statements tree after ⟨derived, numbers⟩ third brace ⟨braced, sameThird⟩ second
    listed ⟨list, sameSecond⟩ before opens ⟨opening, sameFirst⟩
  have written : Derives (form .block) (brace ++ statements) := .form (braced.before derived)
  have parts := sameFirst.append (sameSecond.append (sameThird.append numbers))
  have routine : Numbered before.nextId after.nextId [.routine ⟨none, some names, tree⟩] :=
    parts.around rfl trivial
  exact ⟨opening.before (list.followed written.alone), routine.around rfl trivial, _, rfl⟩

/-- The one rule that gives expressions their first tokens. -/
theorem primary_yields {expression : Rule Expression} {declaration : Rule Statement} {bound : Nat}
    (inner : expression.Yields (form .expression) fun tree => [.expression tree])
    (body : (block declaration bound).YieldsBlock) :
    (primary expression declaration bound).YieldsTarget (form .primary) := by
  have leaf {token : Token} {kind : Kind} {value : Literal} (fits : token.kind = kind)
      (ordinary : kind ≠ .endOfInput) (derived : Derives (form .primary) [token]) :
      ReadsAt token (do
        skip
        return Expression.literal value) fun before read tree after =>
          Derives (form .primary) read ∧ Numbered before.nextId after.nextId [.expression tree] ∧
            Targets read tree := by
    refine .step fits ordinary (.pure fun here before _ same => ?_)
    exact ⟨derived, same.around rfl trivial, trivial⟩
  unfold primary
  refine .peek fun token => ?_
  split
  case h_1 fits | h_2 fits | h_3 fits | h_4 fits | h_5 fits =>
    refine leaf fits nofun (.form ?_)
    simp [grammar, derives_choice, derives_word, derives_number, derives_string, fits]
  case h_6 fits =>
    refine .step fits nofun (fresh_reads.finish ?_)
    rintro middle read id after ⟨rfl, rfl, numbers⟩ before word same
    refine ⟨.form ?_, ?_, trivial⟩
    · simp [grammar, derives_choice, derives_word, fits]
    · rw [numbers]
      exact same.occurring rfl rfl trivial
  case h_7 fits =>
    refine .step fits nofun ((expect_yields .dot _ nofun).bind fun dot =>
      (expect_yields .identifier _ nofun).bind fun method => fresh_reads.finish ?_)
    rintro fourth read id after ⟨rfl, rfl, numbers⟩ third names ⟨named, sameThird⟩ second dots
      ⟨dotted, sameSecond⟩ before word sameFirst
    have inherited := word.before (dotted.before named.alone)
    refine ⟨.form ?_, ?_, trivial⟩
    · simp only [grammar, derives_choice, List.append_nil]
      tauto
    · rw [numbers]
      exact (sameFirst.append (sameSecond.append sameThird)).occurring rfl rfl trivial
  case h_8 fits =>
    refine .step fits nofun (fresh_reads.finish ?_)
    rintro middle read id after ⟨rfl, rfl, numbers⟩ before word same
    refine ⟨.form ?_, ?_, word⟩
    · simp [grammar, derives_choice, derives_word, fits]
    · rw [numbers]
      exact same.occurring rfl rfl trivial
  case h_9 fits =>
    refine .step fits nofun ((lambda_yields body).weaken ?_)
    rintro middle read tree after ⟨derived, numbered, routine, rfl⟩ before word same
    refine ⟨.form ?_, same.append numbered, trivial⟩
    have whole := word.before derived
    simp only [grammar, derives_choice]
    tauto
  case h_10 fits =>
    refine .step fits nofun (Reads.bind inner fun tree =>
      (expect_yields .rightParen _ nofun).finish ?_)
    rintro third closing token after ⟨closes, sameThird⟩ second middle ⟨derived, numbered⟩ before
      word same
    refine ⟨.form ?_, ?_, trivial⟩
    · have whole := word.before (derived.before closes.alone)
      simp only [grammar, derives_choice]
      tauto
    · exact (same.append (numbered.append sameThird)).around rfl trivial
  case h_11 => exact (missing_reads _).anywhere

/-- Only what was read off a target is turned into an assignment. -/
theorem assignment_reads (target value : Expression) (equals : Token) :
    (assignment target equals value).Reads fun before read tree after =>
      ∀ first front sign back, Targets front target → Derives (word .equal) sign →
        Derives (form .assignment) back →
        Numbered first before.nextId [.expression target, .expression value] →
        Derives (form .assignment) (front ++ (sign ++ (back ++ read))) ∧
          Numbered first after.nextId [.expression tree] := by
  unfold assignment
  split
  case h_1 place =>
    refine fresh_reads.finish ?_
    rintro before read id after ⟨rfl, rfl, numbers⟩ first front sign back named sign derived
      numbered
    refine ⟨.form (.one ?_), ?_⟩
    · rw [List.append_nil, ← List.nil_append (front ++ _)]
      exact Derives.absent.before (named.before (sign.before derived.alone))
    · rw [numbers]
      exact numbered.of_cons.occurring rfl rfl trivial
  case h_2 object name =>
    refine .pure fun here first front sign back property sign derived numbered => ?_
    refine ⟨.form (.one ?_), ?_⟩
    · obtain ⟨call, rest, rfl, called, others⟩ := derives_in_order.mp property
      obtain ⟨dot, named, rfl, dotted, last⟩ := derives_in_order.mp others
      have object := (called.before dotted.alone).present
      have whole := object.before
        ((derives_in_order_one.mp last).before (sign.before derived.alone))
      simpa only [List.append_assoc, List.append_nil] using whole
    · have parts := (numbered.apart rfl).perm (.swap _ _ [])
      exact parts.around rfl trivial
  case h_3 other _ _ =>
    refine (note_reads equals .invalidTarget).finish ?_
    exact fun _ _ _ _ impossible => impossible.elim

end Rule

end Lox
