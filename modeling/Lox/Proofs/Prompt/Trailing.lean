import Lox.Proofs.Joining.Rules

/-!
Expressions at the end. An expression that is read up to the end of the input is read in the
same way up to a semicolon or a closing parenthesis: no rule for expressions goes on with any of
them. Only the rules at the end of an expression can come to see which of them follows; all others
are followed by tokens of the expression itself.
-/

namespace Lox

/-- A kind of token with which no expression goes on. -/
def Kind.IsStop (kind : Kind) : Prop := kind = .endOfInput ∨ kind = .semicolon

instance : DecidablePred Kind.IsStop :=
  fun kind => inferInstanceAs (Decidable (kind = .endOfInput ∨ kind = .semicolon))

/-- The same, where the closing parenthesis of what stands around an expression is one of them. -/
def Kind.EndsExpression (kind : Kind) : Prop :=
  kind = .endOfInput ∨ kind = .semicolon ∨ kind = .rightParen

instance : DecidablePred Kind.EndsExpression :=
  fun kind => inferInstanceAs
    (Decidable (kind = .endOfInput ∨ kind = .semicolon ∨ kind = .rightParen))

namespace Rule

variable {α β : Type}

/-- On fewer tokens than `size`, what the rule has read before a stop is read again by another
rule before every other stop. -/
structure Trailed (size : Nat) (other : Rule α) (before : Reading) (read : List Token) (tree : α)
    (after : Reading) : Prop where
  split : before.rest = read ++ after.rest
  again : before.rest.length < size → (leading after.rest).EndsExpression → ∀ rest complaints,
    (leading rest).EndsExpression →
      other ⟨read ++ rest, before.nextId, complaints⟩ = .ok tree ⟨rest, after.nextId, complaints⟩

def Trails (size : Nat) (rule other : Rule α) : Prop := rule.Reads (Trailed size other)

/-- What is no continuation of an expression. -/
def Continues (kinds : List Kind) : Prop := ∀ kind ∈ kinds, ¬kind.EndsExpression

namespace Trails

variable {size taken : Nat} {rule rule' : Rule α}

theorem weaken (trails : Trails size rule rule') {smaller : Nat} (isSmaller : smaller ≤ size) :
    Trails smaller rule rule' :=
  Reads.weaken trails fun _ _ _ _ once =>
    ⟨once.split, fun short => once.again (short.trans_le isSmaller)⟩

/-- A rule that ends with a token of its own sees nothing of what follows. -/
theorem of_closed (repeats : Repeats size taken true rule rule') : Trails size rule rule' := by
  refine Reads.weaken repeats fun before read tree after once => ⟨once.split, ?_⟩
  intro short _ rest complaints stop
  refine once.again short rest complaints (.inr ⟨rfl, fun branch => ?_⟩)
  rw [branch] at stop
  exact absurd stop (by decide)

theorem pure (tree : α) : Trails size (Pure.pure tree) (Pure.pure tree) :=
  of_closed (.pure tree)

theorem missing (item : Missing) {other : Rule α} : Trails size (Rule.missing item) other :=
  missing_reads item

/-- The second of two rules goes on where the first one is read again. -/
theorem joined {next' : α → Rule β} {before middle after : Reading} {front back : List Token}
    {tree : α} {result : β} (once : Repeated size taken false rule' before front tree middle)
    (again : Trailed (size - taken) (next' tree) middle back result after)
    (run : before.rest.length < size → (leading after.rest).EndsExpression → ∀ rest complaints,
      (leading rest).EndsExpression → rule' ⟨front ++ (back ++ rest), before.nextId, complaints⟩ =
        .ok tree ⟨back ++ rest, middle.nextId, complaints⟩) :
    Trailed size (rule' >>= next') before (front ++ back) result after := by
  refine ⟨by rw [once.split, again.split, List.append_assoc], ?_⟩
  intro short isStop rest complaints stop
  have shorter : middle.rest.length < size - taken := by
    have enough := once.long short
    have lengths : before.rest.length = front.length + middle.rest.length := by
      rw [once.split, List.length_append]
    omega
  rw [List.append_assoc, bind_ok (run short isStop rest complaints stop)]
  exact again.again shorter isStop rest complaints stop

/-- Of two rules the first one may be the last that takes a token. -/
theorem bind {next next' : α → Rule β} (repeats : Repeats size taken false rule rule')
    (first : Trails size rule rule')
    (following : ∀ tree, Trails (size - taken) (next tree) (next' tree)) :
    Trails size (rule >>= next) (rule' >>= next') := by
  refine Reads.bind (Reads.both repeats first) fun tree => Reads.weaken (following tree) ?_
  rintro middle back result after again before front ⟨once, last⟩
  refine joined once again fun short isStop rest complaints stop => ?_
  cases back with
  | nil =>
      have same : middle.rest = after.rest := again.split
      exact last.again short (same ▸ isStop) rest complaints stop
  | cons token back => exact once.again short _ complaints (.inl (by rw [again.split]; rfl))

/-- If the second rule takes a token, then that is what the first one sees. -/
theorem bind_before {next next' : α → Rule β} (repeats : Repeats size taken false rule rule')
    (some : ∀ tree, Repeats (size - taken) 1 false (next tree) (next' tree))
    (following : ∀ tree, Trails (size - taken) (next tree) (next' tree)) :
    Trails size (rule >>= next) (rule' >>= next') := by
  refine Reads.bind repeats fun tree => Reads.weaken (Reads.both (some tree) (following tree)) ?_
  rintro middle back result after ⟨takes, again⟩ before front once
  refine joined once again fun short isStop rest complaints stop => ?_
  have shorter : middle.rest.length < size - taken := by
    have enough := once.long short
    have lengths : before.rest.length = front.length + middle.rest.length := by
      rw [once.split, List.length_append]
    omega
  have enough := takes.long shorter
  cases back with
  | nil => exact absurd enough (by decide)
  | cons token back => exact once.again short _ complaints (.inl (by rw [again.split]; rfl))

theorem finish (repeats : Repeats size taken false rule rule') (first : Trails size rule rule')
    (make : α → β) : Trails size (rule >>= fun tree => Pure.pure (make tree))
      (rule' >>= fun tree => Pure.pure (make tree)) :=
  bind repeats first fun _ => .pure _

theorem accept_any {kinds : List Kind} (continues : Continues kinds)
    {next next' : Option Token → Rule β}
    (found : ∀ token, Trails (size - 1) (next (some token)) (next' (some token)))
    (absent : Trails size (next none) (next' none)) :
    Trails size (acceptAny kinds >>= next) (acceptAny kinds >>= next') := by
  have inner : Kind.endOfInput ∉ kinds := fun member => continues _ member (.inl rfl)
  refine Reads.bind (accept_any_takes inner) fun token => ?_
  cases token with
  | some token =>
      refine Reads.weaken (found token) ?_
      rintro middle back result after again before front ⟨split, numbers, cases⟩
      obtain ⟨_, same, rfl, isKind⟩ := cases.resolve_left nofun
      cases same
      refine ⟨by rw [split, again.split, List.append_assoc],
        fun short isStop rest complaints stop => ?_⟩
      have shorter : middle.rest.length < size - 1 := by
        rw [split, List.singleton_append, List.length_cons] at short
        omega
      rw [List.append_assoc, bind_ok (accept_any_found (by exact isKind)), ← numbers]
      exact again.again shorter isStop rest complaints stop
  | none =>
      refine Reads.weaken absent ?_
      rintro middle back result after again before front ⟨split, numbers, cases⟩
      obtain ⟨-, rfl, different⟩ := cases.resolve_right (by simp)
      rw [List.nil_append] at split
      refine ⟨by rw [split, again.split, List.nil_append],
        fun short isStop rest complaints stop => ?_⟩
      have declined : leading (back ++ rest) ∉ kinds := by
        cases back with
        | nil => exact fun member => continues _ member stop
        | cons first others =>
            rw [split, again.split] at different
            exact different
      rw [List.nil_append, bind_ok (accept_any_absent (by exact declined)), ← numbers]
      exact again.again (split ▸ short) isStop rest complaints stop

theorem accept {kind : Kind} {next next' : Option Token → Rule β} (continues : ¬kind.EndsExpression)
    (found : ∀ token, Trails (size - 1) (next (some token)) (next' (some token)))
    (absent : Trails size (next none) (next' none)) :
    Trails size (Rule.accept kind >>= next) (Rule.accept kind >>= next') :=
  accept_any (fun _ member => List.mem_singleton.mp member ▸ continues) found absent

/-- A token that has to be there hides what follows it from the rules before it. -/
theorem expect_then {kind : Kind} {item : Missing} {next next' : Token → Rule β}
    (inner : kind ≠ .endOfInput)
    (following : ∀ token, Trails (size - 1) (next token) (next' token)) :
    Trails size (Rule.expect kind item >>= next) (Rule.expect kind item >>= next') :=
  bind (.expect inner item) (of_closed (.expect inner item)) following

/-- A choice by the kind of the next token, where some token is taken in any case. -/
theorem glance (test : Kind → Prop) [DecidablePred test] {yes yes' no no' : Rule β}
    (takesOne : Repeats size 1 false yes yes') (takesTwo : Repeats size 1 false no no')
    (one : Trails size yes yes') (two : Trails size no no') :
    Trails size (Rule.next >>= fun token => if test token.kind then yes else no)
      (Rule.next >>= fun token => if test token.kind then yes' else no') := by
  refine Reads.bind next_reads fun token => ?_
  have chosen : Repeats size 1 false (if test token.kind then yes else no)
      (if test token.kind then yes' else no') ∧
        Trails size (if test token.kind then yes else no)
          (if test token.kind then yes' else no') := by
    split_ifs
    · exact ⟨takesOne, one⟩
    · exact ⟨takesTwo, two⟩
  refine Reads.weaken (Reads.both chosen.1 chosen.2) ?_
  rintro same back result after ⟨takes, again⟩ before front ⟨rfl, rfl, rfl⟩
  refine ⟨again.split, fun short isStop rest complaints stop => ?_⟩
  have looked : leading (back ++ rest) = same.next.kind := by
    have enough := takes.long short
    rw [Reading.next, again.split]
    cases back with
    | nil => exact absurd enough (by decide)
    | cons first others => rfl
  change (if test (leading (back ++ rest)) then yes' else no') _ = _
  rw [looked]
  exact again.again short isStop rest complaints stop

/-- A bound that is used up where nothing is left is as good as a larger one. -/
theorem exhausted {tree : α} {other : Rule α}
    (stays : ∀ rest nextId complaints, (leading rest).EndsExpression →
      other ⟨rest, nextId, complaints⟩ = .ok tree ⟨rest, nextId, complaints⟩) :
    Trails size (Pure.pure tree) other :=
  Reads.pure fun here =>
    ⟨rfl, fun _ _ rest complaints stop => stays rest here.nextId complaints stop⟩

end Trails

section Rules

variable {size bound later : Nat} {operand operand' expression expression' : Rule Expression}

theorem declines {kinds : List Kind} (continues : Continues kinds) {rest : List Token}
    (stop : (leading rest).EndsExpression) (nextId : Nat) (complaints : List Complaint) :
    acceptAny kinds ⟨rest, nextId, complaints⟩ = .ok none ⟨rest, nextId, complaints⟩ :=
  accept_any_absent fun member => continues _ member stop

theorem chain_trails {level : Level} (continues : Continues level.operators)
    (repeats : Repeats size 1 false operand operand') (each : Trails size operand operand')
    (isLater : bound ≤ later) (enough : size ≤ bound + 1) (left : Expression) :
    Trails size (chain level operand bound left) (chain level operand' later left) := by
  induction bound generalizing size later left with
  | zero =>
      refine .exhausted fun rest nextId complaints stop => ?_
      cases later with
      | zero => rfl
      | succ later =>
          exact bind_ok (declines continues stop nextId complaints)
  | succ bound induction =>
      obtain ⟨later, rfl⟩ : ∃ fewer, later = fewer + 1 := ⟨later - 1, by omega⟩
      have isLater := Nat.le_of_succ_le_succ isLater
      have inner : Kind.endOfInput ∉ level.operators := fun member => continues _ member (.inl rfl)
      unfold chain
      refine .accept_any continues (fun operator => ?_) (.pure _)
      have right := repeats.weaken (Nat.sub_le size 1) (Nat.le_refl 1)
      refine .bind right (each.weaken (Nat.sub_le size 1)) fun tree => ?_
      exact induction (right.weaken (Nat.sub_le (size - 1) 1) (Nat.le_refl 1))
        (each.weaken (by omega)) isLater (by omega) _

theorem operations_trail (repeats : Repeats size 1 false operand operand')
    (each : Trails size operand operand') (isLater : bound ≤ later) (enough : size ≤ bound + 1) :
    Trails size (operations bound operand) (operations later operand') := by
  have continues : ∀ level ∈ levels, Continues level.operators := by
    simp [levels, Continues, Kind.EndsExpression]
  have both (remaining : List Level) (continues : ∀ level ∈ remaining, Continues level.operators) :
      Repeats size 1 false
          (remaining.foldr (fun level tighter => do chain level tighter bound (← tighter)) operand)
          (remaining.foldr (fun level tighter => do chain level tighter later (← tighter))
            operand') ∧
        Trails size
          (remaining.foldr (fun level tighter => do chain level tighter bound (← tighter)) operand)
          (remaining.foldr (fun level tighter => do chain level tighter later (← tighter))
            operand') := by
    induction remaining with
    | nil => exact ⟨repeats, each⟩
    | cons level rest induction =>
        rw [List.forall_mem_cons] at continues
        obtain ⟨tighter, last⟩ := induction continues.2
        have inner : Kind.endOfInput ∉ level.operators :=
          fun member => continues.1 _ member (.inl rfl)
        have fewer := tighter.weaken (Nat.sub_le size 1) (Nat.le_refl 1)
        exact ⟨tighter.bind (fun left => chain_repeats inner fewer isLater (by omega) left)
            Bool.noConfusion,
          .bind tighter last fun left => chain_trails continues.1 fewer
            (last.weaken (Nat.sub_le size 1)) isLater (by omega) left⟩
  exact (both levels continues).2

theorem trailers_trail (each : Repeats size 1 false expression expression')
    (isLater : bound ≤ later)
    (enough : size ≤ bound + 1) (target : Expression) :
    Trails size (trailers expression bound target) (trailers expression' later target) := by
  induction bound generalizing size later target with
  | zero =>
      refine .exhausted fun rest nextId complaints stop => ?_
      cases later with
      | zero => rfl
      | succ later =>
          have single {kind : Kind} (continues : ¬kind.EndsExpression) : Continues [kind] :=
            fun _ member => List.mem_singleton.mp member ▸ continues
          have parenthesis := declines (single (show ¬Kind.leftParen.EndsExpression by decide))
            stop nextId complaints
          have dot := declines (single (show ¬Kind.dot.EndsExpression by decide)) stop nextId
            complaints
          exact (bind_ok parenthesis).trans (bind_ok dot)
  | succ bound induction =>
      obtain ⟨later, rfl⟩ : ∃ fewer, later = fewer + 1 := ⟨later - 1, by omega⟩
      have isLater := Nat.le_of_succ_le_succ isLater
      have further (fewer : Nat) (isFewer : fewer ≤ size - 1) (target : Expression) :
          Trails fewer (trailers expression bound target) (trailers expression' later target) :=
        induction (each.weaken (isFewer.trans (Nat.sub_le size 1)) (Nat.le_refl 1)) isLater
          (by omega) target
      have repeated (fewer : Nat) (isFewer : fewer ≤ size - 1) (target : Expression) :
          Repeats fewer 0 false (trailers expression bound target)
            (trailers expression' later target) :=
        trailers_repeat (each.weaken (isFewer.trans (Nat.sub_le size 1)) (Nat.le_refl 1)) isLater
          (by omega) target
      unfold trailers
      refine .accept (by decide) (fun parenthesis => ?_)
        (.accept (by decide) (fun dot => ?_) (.pure _))
      · have closed (fewer : Nat) (isFewer : fewer ≤ size - 1) (arguments : List Expression) :
            Repeats fewer 1 false
                (do
                  let closing ← expect .rightParen .argumentsEnd
                  trailers expression bound (.call target closing arguments))
                (do
                  let closing ← expect .rightParen .argumentsEnd
                  trailers expression' later (.call target closing arguments)) ∧
              Trails fewer
                (do
                  let closing ← expect .rightParen .argumentsEnd
                  trailers expression bound (.call target closing arguments))
                (do
                  let closing ← expect .rightParen .argumentsEnd
                  trailers expression' later (.call target closing arguments)) :=
          ⟨.expect_then (by decide) fun closing => repeated _ (by omega) _,
            .expect_then (by decide) fun closing => further _ (by omega) _⟩
        have items := (each.weaken (Nat.sub_le size 1) (Nat.le_refl 1)).comma_separated
          .tooManyArguments (Nat.succ_le_succ isLater) 0
        have last (arguments : List Expression) :=
          closed (size - 1 - 1) (Nat.sub_le _ _) arguments
        refine .glance (· = .rightParen) (closed _ (Nat.le_refl _) []).1 ?_
          (closed _ (Nat.le_refl _) []).2
          (.bind_before items (fun arguments => (last arguments).1)
            fun arguments => (last arguments).2)
        exact items.bind
          (fun arguments => (last arguments).1.weaken (Nat.le_refl _) (Nat.zero_le 1))
          Bool.noConfusion
      · exact .expect_then (by decide) fun name => further _ (Nat.sub_le _ _) _

end Rules

/-- The rules for expressions that call each other, with one bound and with a larger one. -/
structure AllTrail (bound later : Nat) : Prop where
  expression : ∀ size, 8 * size + 3 ≤ bound + 8 → Trails size (expression bound) (expression later)
  conditional : ∀ size, 8 * size + 2 ≤ bound + 8 →
    Trails size (conditional bound) (conditional later)
  unary : ∀ size, 8 * size + 1 ≤ bound + 8 → Trails size (unary bound) (unary later)

section Cycle

variable {size bound later : Nat} (repeats : AllRepeat bound later) (smaller : AllTrail bound later)
  (isLater : bound ≤ later)

include repeats smaller isLater

theorem unary_trails (enough : 8 * size + 1 ≤ bound + 9) :
    Trails size (unary (bound + 1)) (unary (later + 1)) := by
  have expressions := repeats.expression (size - 1) (by omega)
  have declarations := repeats.declaration (size - 1) (by omega)
  unfold unary
  refine .accept_any (by simp [Continues, Kind.EndsExpression]) (fun operator => ?_) ?_
  · exact .finish (repeats.unary (size - 1) (by omega)) (smaller.unary (size - 1) (by omega)) _
  · have primary (closed : Bool) :
        Repeats size 1 closed (primary (expression bound) (declaration bound) bound)
          (primary (expression later) (declaration later) later) :=
      primary_repeats expressions (declarations.weaken (Nat.le_refl _) (by decide)) isLater
        (by omega)
    exact .bind (primary false) (.of_closed (primary true)) fun head =>
      trailers_trail expressions isLater (by omega) head

theorem conditional_trails (enough : 8 * size + 2 ≤ bound + 9) :
    Trails size (conditional (bound + 1)) (conditional (later + 1)) := by
  have operand := repeats.unary size (by omega)
  have condition := operations_repeats operand isLater (by omega)
  unfold conditional
  refine .bind condition
    (operations_trail operand (smaller.unary size (by omega)) isLater (by omega))
    fun condition => ?_
  refine .accept (by decide) (fun question => ?_) (.pure _)
  refine .bind (repeats.expression (size - 1 - 1) (by omega)) (smaller.expression _ (by omega))
    fun thenBranch => ?_
  refine .expect_then (by decide) fun colon => ?_
  exact .finish (repeats.conditional _ (by omega)) (smaller.conditional _ (by omega)) _

omit isLater in
theorem expression_trails (enough : 8 * size + 3 ≤ bound + 9) :
    Trails size (expression (bound + 1)) (expression (later + 1)) := by
  unfold expression
  refine .bind (repeats.conditional size (by omega)) (smaller.conditional size (by omega))
    fun target => ?_
  refine .accept (by decide) (fun equals => ?_) (.pure _)
  exact .bind (repeats.expression (size - 1 - 1) (by omega)) (smaller.expression _ (by omega))
    fun value => .of_closed (assignment_repeats target value equals)

end Cycle

/-- With bounds of any size, an expression before one stop is read again before another one. -/
theorem all_trail {bound later : Nat} (isLater : bound ≤ later) : AllTrail bound later := by
  induction bound generalizing later with
  | zero => exact ⟨fun _ _ => .missing _, fun _ _ => .missing _, fun _ _ => .missing _⟩
  | succ bound induction =>
      obtain ⟨later, rfl⟩ : ∃ fewer, later = fewer + 1 := ⟨later - 1, by omega⟩
      have isLater := Nat.le_of_succ_le_succ isLater
      have repeats := all_repeat isLater
      have smaller := induction isLater
      exact ⟨fun _ => expression_trails repeats smaller,
        fun _ => conditional_trails repeats smaller isLater,
        fun _ => unary_trails repeats smaller isLater⟩

end Rule

end Lox
