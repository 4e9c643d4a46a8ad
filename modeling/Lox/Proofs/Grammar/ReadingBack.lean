import Lox.Proofs.Grammar.Soundness
import Lox.Proofs.Grammar.Traces

/-!
What the rules for expressions make of what they read: a tree in normal form
whose reading is the tokens that were stepped over. A loop adds what it reads to
the reading of the tree that it has so far.
-/

namespace Lox

namespace Rule

/-- The tree gives back what the rule has read, unless there is a function
expression in it. -/
def ReadsBack (rule : Rule Expression) (tight : Nat) : Prop :=
  rule.Reads fun _ read tree _ => (Node.expression tree).LambdaFree → tree.ReadsAs tight read

/-- Two accounts of one rule are about the same tokens. -/
theorem Reads.both {α : Type} {rule : Rule α} {meaning other : Meaning α}
    (one : rule.Reads meaning) (two : rule.Reads other) :
    rule.Reads fun before read tree after =>
      meaning before read tree after ∧ other before read tree after := by
  intro before
  have first := one before
  have second := two before
  cases outcome : rule before with
  | ok tree after =>
      rw [outcome] at first second
      refine ⟨first.1, fun same => ?_⟩
      obtain ⟨read, split, means⟩ := first.2 same
      obtain ⟨also, split', means'⟩ := second.2 same
      obtain rfl := List.append_cancel_right (split.symm.trans split')
      exact ⟨read, split, means, means'⟩
  | error complaint after =>
      rw [outcome] at first
      exact first

theorem expect_reads (kind : Kind) (item : Missing) (inner : kind ≠ .endOfInput) :
    (expect kind item).Reads fun _ read token _ => read = [token] ∧ token.kind = kind := by
  unfold expect accept
  refine (accept_any_reads (by simpa using inner.symm)).bind fun found => ?_
  cases found with
  | none => exact missing_reads item
  | some token =>
      refine .pure ?_
      rintro after before front ⟨rfl, fits, -⟩
      exact ⟨rfl, List.mem_singleton.mp (fits token rfl)⟩

/-- A quiet list of items is not longer than the limit allows. -/
theorem comma_separated_reads_back {item : Rule Expression} (each : item.ReadsBack 1)
    (excess : SyntaxError) (bound count : Nat) :
    (commaSeparated item excess bound count).Reads fun _ read trees _ =>
      count + trees.length ≤ listLimit ∧ trees ≠ [] ∧
        ((Node.expressions trees).LambdaFree → Expression.AllReadAs trees read) := by
  induction bound generalizing count with
  | zero => exact missing_reads _
  | succ bound induction =>
      rw [comma_separated_succ]
      have others : Reads (items item (commaSeparated item excess bound (count + 1)))
          fun _ read trees _ => count < listLimit →
            count + trees.length ≤ listLimit ∧ trees ≠ [] ∧
              ((Node.expressions trees).LambdaFree → Expression.AllReadAs trees read) := by
        refine each.bind fun first => ?_
        refine .accept (by decide) (fun separator => ?_) ?_
        · refine (induction (count + 1)).finish ?_
          rintro middle back rest after ⟨short, nonempty, tail⟩ between comma separates -
            before front head few
          obtain ⟨token, rfl, fits⟩ := derives_word.mp separates
          refine ⟨by rw [List.length_cons]; omega, List.cons_ne_nil _ _, fun free => ?_⟩
          have first := head (free.part List.mem_cons_self)
          have rest' := tail (free.part (List.mem_cons_of_mem _ List.mem_cons_self))
          obtain ⟨second, others, rfl⟩ := List.exists_cons_of_ne_nil nonempty
          exact ⟨⟨first.normal, rest'.normal⟩, List.rel_append first.reading
            (.cons fits rest'.reading)⟩
        · refine .pure ?_
          rintro after middle - before front head few
          refine ⟨few, List.cons_ne_nil _ _, fun free => ?_⟩
          have only := head (free.part List.mem_cons_self)
          rw [List.append_nil]
          exact ⟨⟨only.normal, trivial⟩, only.reading⟩
      split
      case isTrue =>
        refine next_reads.bind fun token => (note_reads token excess).bind fun _ => ?_
        exact others.weaken fun _ _ _ _ _ _ _ impossible => impossible.elim
      case isFalse few =>
        exact others.weaken fun _ _ _ _ means => means (Nat.lt_of_not_le few)

section

variable {level : Level} {tight : Nat} {tighter : Rule Expression}

theorem chain_reads_back (joins : level.Joins tight) (inner : 0 < tight)
    (each : tighter.ReadsBack (tight + 1)) (bound : Nat) (left : Expression) :
    (chain level tighter bound left).Reads fun _ read tree _ => ∀ front,
      ((Node.expression left).LambdaFree → left.ReadsAs tight front) →
        (Node.expression tree).LambdaFree → tree.ReadsAs tight (front ++ read) := by
  induction bound generalizing left with
  | zero =>
      refine .pure fun here front sofar free => ?_
      rw [List.append_nil]
      exact sofar free
  | succ bound induction =>
      unfold chain
      have proper : Kind.endOfInput ∉ level.operators := fun member =>
        absurd (joins.binds _ member) (Nat.ne_of_lt inner)
      refine (accept_any_reads proper).bind fun found => ?_
      cases found with
      | none =>
          refine .pure ?_
          rintro after before front ⟨rfl, -, -⟩ sofar means free
          rw [Option.toList_none, List.append_nil, List.append_nil]
          exact means free
      | some operator =>
          refine each.bind fun right => (induction _).weaken ?_
          rintro last read tree after means middle back second before between ⟨rfl, fits, -⟩ front
            first
          have joined : (Node.expression (level.node left operator right)).LambdaFree →
              (level.node left operator right).ReadsAs tight (front ++ operator :: back) := by
            intro free
            have parts : (Node.expression left).LambdaFree ∧
              (Node.expression right).LambdaFree := by
              rcases joins with ⟨same, -⟩ | ⟨same, -⟩
              all_goals
                rw [same] at free
                exact ⟨free.part List.mem_cons_self,
                  free.part (List.mem_cons_of_mem _ List.mem_cons_self)⟩
            exact joins.normal (fits operator rfl) (first parts.1) (second parts.2)
          have whole := means _ joined
          simpa only [List.append_assoc, List.cons_append, Option.toList_some, List.nil_append]
            using whole

/-- One rung after the other, down to the operands of the tightest operators. -/
theorem ladder_reads_back {operand : Rule Expression} (each : operand.ReadsBack 9) (bound : Nat)
    {remaining : List Level} (inner : 0 < tight) (ladder : Ladder tight remaining) :
    ReadsBack (remaining.foldr (fun level tighter => do chain level tighter bound (← tighter))
      operand) tight := by
  induction remaining generalizing tight with
  | nil =>
      obtain rfl : tight = 9 := ladder
      exact each
  | cons level others induction =>
      have tighter := induction (Nat.succ_pos tight) ladder.2
      refine Reads.bind tighter fun left =>
        (chain_reads_back ladder.1 inner tighter bound left).weaken ?_
      rintro middle read tree after means before front operand free
      refine means front (fun free => ?_) free
      have first := operand free
      exact ⟨first.normal, Nat.le_of_succ_le first.tight, first.reading⟩

end

theorem trailers_reads_back {expression : Rule Expression} (each : expression.ReadsBack 1)
    (bound : Nat) (target : Expression) :
    (trailers expression bound target).Reads fun _ read tree _ => ∀ front,
      ((Node.expression target).LambdaFree → target.ReadsAs 10 front) →
        (Node.expression tree).LambdaFree → tree.ReadsAs 10 (front ++ read) := by
  induction bound generalizing target with
  | zero =>
      refine .pure fun here front sofar free => ?_
      rw [List.append_nil]
      exact sofar free
  | succ bound induction =>
      unfold trailers
      refine .accept (by decide) (fun parenthesis => ?_) ?_
      · refine next_reads.bind fun token => ?_
        have values : Reads (if token.kind = .rightParen then pure []
            else commaSeparated expression .tooManyArguments (bound + 1) 0)
            fun _ read trees _ => trees.length ≤ listLimit ∧
              ((Node.expressions trees).LambdaFree → Expression.AllReadAs trees read) := by
          split
          case isTrue => exact .pure fun here => ⟨Nat.zero_le _, fun _ => ⟨trivial, .nil⟩⟩
          case isFalse =>
            refine (comma_separated_reads_back each _ (bound + 1) 0).weaken ?_
            rintro before read trees after ⟨short, -, means⟩
            exact ⟨by omega, means⟩
        refine values.either fun trees =>
          (expect_reads .rightParen _ (by decide)).bind fun closing => (induction _).weaken ?_
        rintro last read tree after means third closes ⟨rfl, fits⟩ second inside ⟨short, listed⟩
          peeked looked ⟨rfl, -, rfl⟩ before opens opening - front sofar
        obtain ⟨opener, rfl, opened⟩ := derives_word.mp opening
        have call : (Node.expression (.call target closing trees)).LambdaFree →
            (Expression.call target closing trees).ReadsAs 10
              (front ++ opener :: (inside ++ [closing])) := by
          intro free
          have callee := sofar (free.part List.mem_cons_self)
          have arguments := listed (free.part (List.mem_cons_of_mem _ List.mem_cons_self))
          refine ⟨⟨⟨callee.tight, callee.normal⟩, fits, short, arguments.normal⟩, Nat.le_refl _, ?_⟩
          exact List.rel_append callee.reading (.cons opened (List.rel_append arguments.reading
            (.cons (Trace.describes_kept closing) .nil)))
        have whole := means _ call
        simpa only [List.append_assoc, List.cons_append, List.nil_append] using whole
      · refine .accept (by decide) (fun dot => ?_) ?_
        · refine (expect_reads .identifier _ (by decide)).bind fun name => (induction _).weaken ?_
          rintro last read tree after means third names ⟨rfl, fits⟩ second dots dotted - before -
            front sofar
          obtain ⟨dot, rfl, isDot⟩ := derives_word.mp dotted
          have property : (Node.expression (.get target name)).LambdaFree →
              (Expression.get target name).ReadsAs 10 (front ++ [dot, name]) := by
            intro free
            have object := sofar (free.part List.mem_cons_self)
            refine ⟨⟨⟨object.tight, object.normal⟩, fits⟩, Nat.le_refl _, ?_⟩
            exact List.rel_append object.reading
              (.cons isDot (.cons (Trace.describes_kept name) .nil))
          have whole := means _ property
          simpa only [List.append_assoc, List.cons_append, List.nil_append] using whole
        · refine .pure ?_
          rintro after middle - before - front sofar free
          rw [List.append_nil]
          exact sofar free

/-- The one rule that gives expressions their first tokens. -/
theorem primary_reads_back {expression : Rule Expression} {declaration : Rule Statement}
    {bound : Nat} (inner : expression.ReadsBack 1)
    (body : (block declaration bound).YieldsBlock) :
    (primary expression declaration bound).ReadsBack 10 := by
  have leaf {token : Token} {kind : Kind} {value : Literal} (fits : token.kind = kind)
      (ordinary : kind ≠ .endOfInput) (means : value.kind = kind) :
      ReadsAt token (do
        skip
        return Expression.literal value) fun _ read tree _ =>
          (Node.expression tree).LambdaFree → tree.ReadsAs 10 read := by
    refine .step fits ordinary (.pure fun here before _ _ _ => ?_)
    exact ⟨trivial, Nat.le_refl _, .cons (fits.trans means.symm) .nil⟩
  unfold primary
  refine .peek fun token => ?_
  split
  case h_1 fits | h_2 fits | h_3 fits | h_4 fits | h_5 fits => exact leaf fits nofun rfl
  case h_6 fits | h_8 fits =>
    refine .step fits nofun (fresh_reads.finish ?_)
    rintro middle read id after ⟨rfl, -, -⟩ before - - -
    exact ⟨fits, Nat.le_refl _, .cons (Trace.describes_kept token) .nil⟩
  case h_7 fits =>
    refine .step fits nofun ((expect_reads .dot _ nofun).bind fun dot =>
      (expect_reads .identifier _ nofun).bind fun method => fresh_reads.finish ?_)
    rintro fourth read id after ⟨rfl, -, -⟩ third names ⟨rfl, named⟩ second dots ⟨rfl, dotted⟩
      before - - -
    exact ⟨⟨fits, named⟩, Nat.le_refl _, .cons (Trace.describes_kept token)
      (.cons dotted (.cons (Trace.describes_kept method) .nil))⟩
  case h_9 fits =>
    refine .step fits nofun ((lambda_yields body).weaken ?_)
    rintro middle read tree after ⟨-, -, routine, rfl⟩ before - - free
    exact absurd .refl (free routine)
  case h_10 fits =>
    refine .step fits nofun (Reads.bind inner fun tree =>
      (expect_reads .rightParen _ nofun).finish ?_)
    rintro third closes closing after ⟨rfl, closed⟩ second middle means before - - free
    have inside := means (free.part List.mem_cons_self)
    exact ⟨inside.normal, Nat.le_refl _,
      .cons fits (List.rel_append inside.reading (.cons closed .nil))⟩
  case h_11 => exact (missing_reads _).anywhere

/-- What is assigned to was read as a name or as a property. -/
theorem assignment_reads_back (target value : Expression) (equals : Token) :
    (assignment target equals value).Reads fun _ read tree _ => ∀ front sign back,
      ((Node.expression target).LambdaFree → target.ReadsAs 2 front) → sign.kind = .equal →
        ((Node.expression value).LambdaFree → value.ReadsAs 1 back) →
          (Node.expression tree).LambdaFree → tree.ReadsAs 1 (front ++ sign :: (back ++ read)) := by
  unfold assignment
  split
  case h_1 place =>
    refine fresh_reads.finish ?_
    rintro before read id after ⟨rfl, -, -⟩ front sign back means isSign given free
    have assigned := given (free.part List.mem_cons_self)
    have leaf : (Node.expression (.reference place)).LambdaFree := by
      intro routine below
      rcases Node.contains_iff.mp below with same | ⟨part, member, -⟩
      · cases same
      · cases member
    have name := means leaf
    cases name.reading with
    | cons named rest =>
        cases rest
        rw [List.append_nil]
        exact ⟨⟨name.normal, assigned.normal⟩, Nat.le_refl _,
          .cons named (.cons isSign assigned.reading)⟩
  case h_2 object name =>
    refine .pure fun here front sign back means isSign given free => ?_
    have assigned := given (free.part List.mem_cons_self)
    have owner : (Node.expression (.get object name)).LambdaFree := by
      intro routine below
      rcases Node.contains_iff.mp below with same | ⟨part, member, inside⟩
      · cases same
      · rw [List.mem_singleton.mp member] at inside
        exact free.part (List.mem_cons_of_mem _ List.mem_cons_self) routine inside
    have property := means owner
    have equal : (Trace.plain .equal).Describes sign := isSign
    have written : List.Forall₂ Trace.Describes
        ((Expression.get object name).reading ++ .plain .equal :: value.reading)
        (front ++ sign :: back) := List.rel_append property.reading (.cons equal assigned.reading)
    rw [Expression.reading, List.append_assoc] at written
    rw [List.append_nil]
    exact ⟨⟨property.normal.1, property.normal.2, assigned.normal⟩, Nat.le_refl _, written⟩
  case h_3 other _ _ =>
    refine (note_reads equals .invalidTarget).finish ?_
    exact fun _ _ _ _ impossible => impossible.elim

/-- The rules that expressions are read by give back what they read. -/
structure GivesBack (bound : Nat) : Prop where
  expression : (expression bound).ReadsBack 1
  conditional : (conditional bound).ReadsBack 2
  unary : (unary bound).ReadsBack 9

variable {bound : Nat}

theorem unary_gives_back (inner : GivesBack bound) : (unary (bound + 1)).ReadsBack 9 := by
  unfold unary
  refine (accept_any_reads (by simp)).bind fun found => ?_
  cases found with
  | some operator =>
      refine Reads.finish inner.unary ?_
      rintro middle read operand after means before front ⟨rfl, fits, -⟩ free
      have inside := means (free.part List.mem_cons_self)
      exact ⟨⟨fits operator rfl, inside.tight, inside.normal⟩, Nat.le_refl _,
        .cons (Trace.describes_kept operator) inside.reading⟩
  | none =>
      have body := block_yields (accounts bound).declaration bound
      refine Reads.bind (primary_reads_back inner.expression body) fun tree =>
        (trailers_reads_back inner.expression bound tree).weaken ?_
      rintro third read result after means second front head before empty ⟨rfl, -, -⟩ free
      have call := means front head free
      exact ⟨call.normal, Nat.le_of_succ_le call.tight, call.reading⟩

theorem conditional_gives_back (inner : GivesBack bound) :
    (conditional (bound + 1)).ReadsBack 2 := by
  unfold conditional
  have operands := ladder_reads_back inner.unary bound (by decide) levels_ladder
  refine Reads.bind operands fun condition => .accept (by decide) (fun question => ?_) (.pure ?_)
  · refine Reads.bind inner.expression fun thenBranch =>
      (expect_reads .colon _ (by decide)).bind fun _ =>
      Reads.finish inner.conditional ?_
    rintro fifth back elseBranch after last fourth colons ⟨rfl, colon⟩ third chosen middle second
      marks mark - before front first free
    obtain ⟨asks, rfl, isQuestion⟩ := derives_word.mp mark
    have condition := first (free.part List.mem_cons_self)
    have thenBranch := middle (free.part (List.mem_cons_of_mem _ List.mem_cons_self))
    have elseBranch := last (free.part
      (List.mem_cons_of_mem _ (List.mem_cons_of_mem _ List.mem_cons_self)))
    refine ⟨⟨⟨condition.tight, condition.normal⟩, thenBranch.normal, elseBranch.tight,
      elseBranch.normal⟩, Nat.le_refl _, ?_⟩
    exact List.rel_append condition.reading (.cons isQuestion
      (List.rel_append thenBranch.reading (.cons colon elseBranch.reading)))
  · rintro after middle - before front first free
    have condition := first free
    rw [List.append_nil]
    exact ⟨condition.normal, Nat.le_of_succ_le condition.tight, condition.reading⟩

theorem expression_gives_back (inner : GivesBack bound) : (expression (bound + 1)).ReadsBack 1 := by
  unfold expression
  refine Reads.bind inner.conditional fun target =>
    .accept (by decide) (fun equals => ?_) (.pure ?_)
  · refine Reads.bind inner.expression fun value =>
      (assignment_reads_back target value equals).weaken ?_
    rintro fourth read tree after means third back given second signs word - before front owner free
    obtain ⟨sign, rfl, isSign⟩ := derives_word.mp word
    exact means front sign back owner isSign given free
  · rintro after middle - before front first free
    have whole := first free
    rw [List.append_nil]
    exact ⟨whole.normal, Nat.le_of_succ_le whole.tight, whole.reading⟩

theorem gives_back (bound : Nat) : GivesBack bound := by
  induction bound with
  | zero => exact ⟨missing_reads _, missing_reads _, missing_reads _⟩
  | succ bound inner =>
      exact ⟨expression_gives_back inner, conditional_gives_back inner, unary_gives_back inner⟩

end Rule

end Lox
