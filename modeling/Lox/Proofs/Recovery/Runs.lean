import Lox.Proofs.Joining.Programs
import Lox.Proofs.Prompt.Trailing

/-!
Two runs in step. The same rule is run twice, or a rule and one with a larger bound, on inputs that
agree up to some stop; what stands behind the stop, the complaints made before and the numbers
given out may differ. Both runs then take the same tokens and end with the same complaint, or both
with a tree. The inputs may also differ behind the brace that opens some block, a gap, as long as
the block itself ends alike in both runs; that the brace opens a block is known from a third run,
which reads something else behind it without a complaint.
-/

namespace Lox

/-- What each of the two runs has for itself. -/
structure Side where
  /-- What stands behind the stop. -/
  beyond : List Token
  /-- The complaints that were made before. -/
  earlier : List Complaint
  /-- What stands behind the brace of the gap. -/
  content : List Token

/-- A brace behind which the runs read different tokens, and tokens to be read there otherwise. -/
structure Gap where
  opening : Token
  usual : List Token
  opens : opening.kind = .leftBrace
  keyword : leading usual = .returnWord

/-- What two runs have in common. If they are to be exactly the same, they give equal trees and
equal numbers. -/
structure Pairing where
  inside : Kind → Prop
  stop : Kind
  exactly : Prop
  first : Side
  second : Side
  gap : Option Gap

/-- The input before a gap is read. -/
def Gap.upTo (gap : Gap) (front content : List Token) (nextId : Nat) : Reading :=
  ⟨front ++ gap.opening :: content, nextId, []⟩

namespace Pairing

variable {pairing : Pairing} {α β : Type}

/-- Tokens through the stop. -/
inductive Covers (pairing : Pairing) : List Token → Prop where
  | stop {last : Token} (fits : last.kind = pairing.stop) : Covers pairing [last]
  | more {first : Token} {rest : List Token} (fits : pairing.inside first.kind)
      (others : Covers pairing rest) : Covers pairing (first :: rest)

theorem Covers.step {first : Token} {rest : List Token} (covers : pairing.Covers (first :: rest))
    (inner : first.kind ≠ pairing.stop) : pairing.inside first.kind ∧ pairing.Covers rest := by
  cases covers with
  | stop fits => exact absurd fits inner
  | more fits others => exact ⟨fits, others⟩

theorem Covers.head {tokens : List Token} (covers : pairing.Covers tokens) :
    ∃ first rest, tokens = first :: rest := by
  cases covers with
  | stop _ => exact ⟨_, [], rfl⟩
  | more _ _ => exact ⟨_, _, rfl⟩

/-- Both readings have the same tokens before them up to the stop. -/
structure Beside (pairing : Pairing) (tokens : List Token) (one other : Reading) : Prop where
  covers : pairing.Covers tokens
  oneRest : one.rest = tokens ++ pairing.first.beyond
  otherRest : other.rest = tokens ++ pairing.second.beyond
  numbers : pairing.exactly → one.nextId = other.nextId
  complaints : ∃ added, one.complaints = pairing.first.earlier ++ added ∧
    other.complaints = pairing.second.earlier ++ added

theorem Beside.next {tokens rest : List Token} {first : Token} {one other : Reading}
    (beside : pairing.Beside tokens one other) (same : tokens = first :: rest) :
    one.next = first ∧ other.next = first := by
  rw [Reading.next, Reading.next, beside.oneRest, beside.otherRest, same]
  exact ⟨rfl, rfl⟩

theorem Beside.skipped {rest : List Token} {first : Token} {one other : Reading}
    (beside : pairing.Beside (first :: rest) one other) (inner : first.kind ≠ pairing.stop) :
    pairing.Beside rest { one with rest := one.rest.drop 1 }
      { other with rest := other.rest.drop 1 } where
  covers := (beside.covers.step inner).2
  oneRest := by rw [beside.oneRest]; rfl
  otherRest := by rw [beside.otherRest]; rfl
  numbers := beside.numbers
  complaints := beside.complaints

theorem Beside.noted {tokens : List Token} {one other : Reading}
    (beside : pairing.Beside tokens one other) (complaint : Complaint) :
    pairing.Beside tokens (one.note complaint) (other.note complaint) := by
  obtain ⟨added, oneAdded, otherAdded⟩ := beside.complaints
  refine ⟨beside.covers, beside.oneRest, beside.otherRest, beside.numbers, added ++ [complaint],
    ?_, ?_⟩
  · rw [← List.append_assoc, ← oneAdded, Reading.note]
  · rw [← List.append_assoc, ← otherAdded, Reading.note]

/-- Trees that need not be the same unless the runs are. -/
def Same (pairing : Pairing) (tree twin : α) : Prop := pairing.exactly → tree = twin

instance : Std.Refl (pairing.Same (α := α)) := ⟨fun _ _ => rfl⟩

/-- Two runs end alike, after so many of the tokens. -/
inductive Ends (pairing : Pairing) (tokens : List Token) (taken : Nat) (alike : α → α → Prop) :
    EStateM.Result Complaint Reading α → EStateM.Result Complaint Reading α → Prop where
  | ok {tree twin : α} {one other : Reading} {read left : List Token} (trees : alike tree twin)
      (split : tokens = read ++ left) (enough : taken ≤ read.length)
      (beside : pairing.Beside left one other) :
      Ends pairing tokens taken alike (.ok tree one) (.ok twin other)
  | error {complaint : Complaint} {one other : Reading} {read left : List Token}
      (split : tokens = read ++ left) (beside : pairing.Beside left one other) :
      Ends pairing tokens taken alike (.error complaint one) (.error complaint other)

/-- Before the gap two runs are at the same token as the third one; once that has passed the gap,
they have ended alike. -/
inductive Passes (pairing : Pairing) (gap : Gap) (front : List Token) (taken : Nat)
    (alike : α → α → Prop) (tree : α) (after : Reading) :
    EStateM.Result Complaint Reading α → EStateM.Result Complaint Reading α → Prop where
  | before {twin : α} {read left : List Token} {laterId : Nat} (trees : alike tree twin)
      (split : front = read ++ left) (enough : taken ≤ read.length)
      (here : after = gap.upTo left gap.usual laterId) :
      Passes pairing gap front taken alike tree after
        (.ok tree (gap.upTo left pairing.first.content laterId))
        (.ok twin (gap.upTo left pairing.second.content laterId))
  | behind {one other : EStateM.Result Complaint Reading α}
      (ends : pairing.Ends (front ++ gap.opening :: pairing.first.content) taken alike one other) :
      Passes pairing gap front taken alike tree after one other

/-- What two runs have taken earlier, they have taken in the end. -/
theorem Ends.further {tokens read left : List Token} {taken fewer : Nat} {alike : α → α → Prop}
    {one other : EStateM.Result Complaint Reading α}
    (ends : pairing.Ends left fewer alike one other)
    (split : tokens = read ++ left) (enough : taken ≤ read.length + fewer) :
    pairing.Ends tokens taken alike one other := by
  cases ends with
  | ok trees splitLeft fewerEnough beside =>
      refine .ok trees (by rw [split, splitLeft, List.append_assoc]) ?_ beside
      rw [List.length_append]
      omega
  | error splitLeft beside =>
      exact .error (by rw [split, splitLeft, List.append_assoc]) beside

theorem Ends.weaken {tokens : List Token} {taken fewer : Nat} {alike wider : α → α → Prop}
    {one other : EStateM.Result Complaint Reading α}
    (ends : pairing.Ends tokens taken alike one other) (isFewer : fewer ≤ taken)
    (wide : ∀ tree twin, alike tree twin → wider tree twin) :
    pairing.Ends tokens fewer wider one other := by
  cases ends with
  | ok trees split enough beside => exact .ok (wide _ _ trees) split (isFewer.trans enough) beside
  | error split beside => exact .error split beside

theorem Passes.weaken {gap : Gap} {front : List Token} {taken fewer : Nat}
    {alike wider : α → α → Prop} {tree : α} {after : Reading}
    {one other : EStateM.Result Complaint Reading α}
    (passes : pairing.Passes gap front taken alike tree after one other) (isFewer : fewer ≤ taken)
    (wide : ∀ tree twin, alike tree twin → wider tree twin) :
    pairing.Passes gap front fewer wider tree after one other := by
  cases passes with
  | before trees split enough here =>
      exact .before (wide _ _ trees) split (isFewer.trans enough) here
  | behind ends => exact .behind (ends.weaken isFewer wide)

end Pairing

namespace Rule

variable {α β : Type} {pairing : Pairing}

/-- A rule takes no complaint back. -/
abbrev Grows (rule : Rule α) : Prop := rule.Reads fun _ _ _ _ => True

theorem Grows.quiet {rule : Rule α} {before after : Reading} {tree : α} (grows : rule.Grows)
    (run : rule before = .ok tree after) (quiet : after.complaints = []) :
    before.complaints = [] := by
  have ordered := grows before
  rw [run] at ordered
  obtain ⟨-, added, adds⟩ := ordered.1
  rw [quiet] at adds
  exact (List.append_eq_nil_iff.mp adds.symm).1

theorem at_function_grows : atFunctionDeclaration.Grows :=
  at_function_reads.weaken fun _ _ _ _ _ => trivial

/-- On fewer tokens than `size`, of which the next one has been seen, a rule and its twin run in
step and take at least so many tokens. -/
structure InStepWhen (pairing : Pairing) (seen : Token → Prop) (size taken : Nat)
    (alike : α → α → Prop) (rule twin : Rule α) : Prop where
  grows : rule.Grows
  beside : ∀ tokens one other, pairing.Beside tokens one other → seen one.next →
    tokens.length < size → pairing.Ends tokens taken alike (rule one) (twin other)
  ahead : ∀ gap ∈ pairing.gap, ∀ front nextId, seen ((front ++ [gap.opening]).headD gap.opening) →
    (front ++ gap.opening :: pairing.first.content).length < size →
    (front ++ gap.opening :: pairing.second.content).length < size →
    ∀ tree after, rule (gap.upTo front gap.usual nextId) = .ok tree after → after.complaints = [] →
      pairing.Passes gap front taken alike tree after
        (rule (gap.upTo front pairing.first.content nextId))
        (twin (gap.upTo front pairing.second.content nextId))

abbrev InStep (pairing : Pairing) (size taken : Nat) (alike : α → α → Prop)
    (rule twin : Rule α) : Prop :=
  InStepWhen pairing (fun _ => True) size taken alike rule twin

/-- Behind the brace of the gap the runs end alike if the third one is content. -/
def Crosses (pairing : Pairing) (size taken : Nat) (alike : α → α → Prop)
    (rule twin : Rule α) : Prop :=
  ∀ gap ∈ pairing.gap, ∀ nextId, pairing.first.content.length < size →
    pairing.second.content.length < size → ∀ tree after,
      rule ⟨gap.usual, nextId, []⟩ = .ok tree after → after.complaints = [] →
        pairing.Ends pairing.first.content taken alike
          (rule ⟨pairing.first.content, nextId, []⟩) (twin ⟨pairing.second.content, nextId, []⟩)

/-- Behind an opening brace two rules run in step if runs can get there at all, and cross the gap
if the brace is the one of the gap. -/
structure Opened (pairing : Pairing) (size taken : Nat) (alike : α → α → Prop)
    (rule twin : Rule α) : Prop where
  grows : rule.Grows
  inStep : pairing.inside .leftBrace ∨ pairing.gap ≠ none →
    InStep pairing size taken alike rule twin
  crosses : Crosses pairing size taken alike rule twin

namespace InStepWhen

variable {seen : Token → Prop} {size taken total : Nat} {alike wider : α → α → Prop}
  {rule twin : Rule α}

theorem weaken (inStep : InStepWhen pairing seen size taken alike rule twin) {smaller fewer : Nat}
    (isSmaller : smaller ≤ size) (isFewer : fewer ≤ taken)
    (wide : ∀ tree twin, alike tree twin → wider tree twin) :
    InStepWhen pairing seen smaller fewer wider rule twin where
  grows := inStep.grows
  beside tokens one other beside looked short :=
    (inStep.beside tokens one other beside looked (short.trans_le isSmaller)).weaken isFewer wide
  ahead gap isGap front nextId looked shortOne shortOther tree after run quiet :=
    (inStep.ahead gap isGap front nextId looked (shortOne.trans_le isSmaller)
      (shortOther.trans_le isSmaller) tree after run quiet).weaken isFewer wide

theorem smaller (inStep : InStepWhen pairing seen size taken alike rule twin) {smaller fewer : Nat}
    (isSmaller : smaller ≤ size) (isFewer : fewer ≤ taken) :
    InStepWhen pairing seen smaller fewer alike rule twin :=
  inStep.weaken isSmaller isFewer fun _ _ trees => trees

theorem anywhere (inStep : InStep pairing size taken alike rule twin) :
    InStepWhen pairing seen size taken alike rule twin where
  grows := inStep.grows
  beside tokens one other beside _ := inStep.beside tokens one other beside trivial
  ahead gap isGap front nextId _ := inStep.ahead gap isGap front nextId trivial

/-- There are no fewer tokens than none. -/
theorem idle (grows : rule.Grows) : InStepWhen pairing seen 0 taken alike rule twin where
  grows := grows
  beside _ _ _ _ _ short := absurd short (Nat.not_lt_zero _)
  ahead _ _ _ _ _ short := absurd short (Nat.not_lt_zero _)

theorem pure {tree twin : α} (trees : alike tree twin) :
    InStepWhen pairing seen size 0 alike (Pure.pure tree) (Pure.pure twin) where
  grows := .pure fun _ => trivial
  beside _ _ _ beside _ _ := .ok trees (List.nil_append _).symm (Nat.le_refl 0) beside
  ahead gap _ front nextId _ _ _ tree after run _ := by
    cases run
    exact .before trees (List.nil_append _).symm (Nat.le_refl 0) rfl

theorem missing (item : Missing) :
    InStepWhen pairing seen size taken alike (Rule.missing item) (Rule.missing item) where
  grows := missing_reads item
  beside tokens one other beside _ _ := by
    obtain ⟨first, rest, same⟩ := beside.covers.head
    have next := beside.next same
    change pairing.Ends tokens taken alike (.error ⟨one.next, .expected item⟩ one)
      (.error ⟨other.next, .expected item⟩ other)
    rw [next.1, next.2]
    exact .error (List.nil_append _).symm beside
  ahead gap _ front nextId _ _ _ tree after run _ := by cases run

theorem fresh : InStepWhen pairing seen size 0 pairing.Same Rule.fresh Rule.fresh where
  grows := fresh_reads.weaken fun _ _ _ _ _ => trivial
  beside _ _ _ beside _ _ :=
    .ok beside.numbers (List.nil_append _).symm (Nat.le_refl 0)
      ⟨beside.covers, beside.oneRest, beside.otherRest,
        fun isExact => congrArg (· + 1) (beside.numbers isExact), beside.complaints⟩
  ahead gap _ front nextId _ _ _ tree after run _ := by
    cases run
    exact .before (fun _ => rfl) (List.nil_append _).symm (Nat.le_refl 0) rfl

theorem note (place : Token) (cause : SyntaxError) :
    InStepWhen pairing seen size 0 pairing.Same (Rule.note place cause)
      (Rule.note place cause) where
  grows := (note_reads place cause).weaken fun _ _ _ _ _ => trivial
  beside _ _ _ beside _ _ :=
    .ok (fun _ => rfl) (List.nil_append _).symm (Nat.le_refl 0) (beside.noted ⟨place, cause⟩)
  ahead gap _ front nextId _ _ _ tree after run quiet := by
    cases run
    cases quiet

/-- What follows a rule runs in step on what the rule leaves. -/
theorem bind {same : β → β → Prop} {next next' : α → Rule β} [Std.Refl alike]
    (first : InStepWhen pairing seen size taken alike rule twin)
    (following : ∀ tree tree', alike tree tree' →
      InStep pairing (size - taken) (total - taken) same (next tree) (next' tree')) :
    InStepWhen pairing seen size total same (rule >>= next) (twin >>= next') where
  grows := first.grows.bind fun tree =>
    (following tree tree (Std.Refl.refl tree)).grows.weaken fun _ _ _ _ _ _ _ _ => trivial
  beside tokens one other beside looked short := by
    have ends := first.beside tokens one other beside looked short
    generalize ran : rule one = outcome, ranToo : twin other = outcome' at ends
    cases ends with
    | error split beside =>
        rw [bind_error ran, bind_error ranToo]
        exact .error split beside
    | @ok tree tree' one other read left trees split enough beside =>
        have lengths := congrArg List.length split
        rw [List.length_append] at lengths
        rw [bind_ok ran, bind_ok ranToo]
        refine ((following tree tree' trees).beside left one other beside trivial
          (by omega)).further split ?_
        omega
  ahead gap isGap front nextId looked shortOne shortOther result after run quiet := by
    obtain ⟨tree, middle, runFirst, runNext⟩ := of_bind_ok run
    have calm := (following tree tree (Std.Refl.refl tree)).grows.quiet runNext quiet
    have passes := first.ahead gap isGap front nextId looked shortOne shortOther tree middle
      runFirst calm
    generalize ran : rule (gap.upTo front pairing.first.content nextId) = outcome,
      ranToo : twin (gap.upTo front pairing.second.content nextId) = outcome' at passes
    rw [List.length_append] at shortOne shortOther
    cases passes with
    | @before tree' read left laterId trees split enough here =>
        subst here
        have lengths := congrArg List.length split
        rw [List.length_append] at lengths
        rw [bind_ok ran, bind_ok ranToo]
        have further := (following tree tree' trees).ahead gap isGap left laterId trivial
          (by rw [List.length_append]; omega) (by rw [List.length_append]; omega) result after
          runNext quiet
        generalize next tree (gap.upTo left pairing.first.content laterId) = outcome,
          next' tree' (gap.upTo left pairing.second.content laterId) = outcome' at further
        cases further with
        | before trees splitLeft fewerEnough here =>
            refine .before trees (by rw [split, splitLeft, List.append_assoc]) ?_ here
            rw [List.length_append]
            omega
        | behind ends =>
            refine .behind (ends.further (by rw [split, List.append_assoc]) ?_)
            omega
    | behind ends =>
        refine .behind ?_
        cases ends with
        | error split beside =>
            rw [bind_error ran, bind_error ranToo]
            exact .error split beside
        | @ok tree tree' one other read left trees split enough beside =>
            have lengths := congrArg List.length split
            rw [List.length_append, List.length_append] at lengths
            rw [bind_ok ran, bind_ok ranToo]
            refine ((following tree tree' trees).beside left one other beside trivial
              (by omega)).further split ?_
            omega

/-- A rule that only makes something of what another rule reads. -/
theorem finish {same : β → β → Prop} {make make' : α → β} [Std.Refl alike]
    (inStep : InStepWhen pairing seen size taken alike rule twin)
    (made : ∀ tree tree', alike tree tree' → same (make tree) (make' tree')) :
    InStepWhen pairing seen size taken same (rule >>= fun tree => Pure.pure (make tree))
      (twin >>= fun tree => Pure.pure (make' tree)) :=
  inStep.bind fun tree tree' trees =>
    (InStepWhen.pure (made tree tree' trees)).smaller (Nat.le_refl _) (Nat.sub_self taken).le

theorem map {same : β → β → Prop} {make : α → β} [Std.Refl alike]
    (inStep : InStepWhen pairing seen size taken alike rule twin)
    (made : ∀ tree tree', alike tree tree' → same (make tree) (make tree')) :
    InStepWhen pairing seen size taken same (make <$> rule) (make <$> twin) := by
  rw [map_eq_pure_bind, map_eq_pure_bind]
  exact inStep.finish made

/-- A rule that goes on after a look at the next token. -/
theorem peek {next next' : Token → Rule β} {same : β → β → Prop}
    (each : ∀ token, InStepWhen pairing (· = token) size taken same (next token) (next' token)) :
    InStep pairing size taken same (Rule.next >>= next) (Rule.next >>= next') where
  grows := next_reads.bind fun token =>
    (each token).grows.weaken fun _ _ _ _ _ _ _ _ => trivial
  beside tokens one other beside _ short := by
    obtain ⟨first, rest, same⟩ := beside.covers.head
    have looked := beside.next same
    change pairing.Ends tokens taken _ (next one.next one) (next' other.next other)
    rw [looked.1, looked.2]
    exact (each first).beside tokens one other beside looked.1 short
  ahead gap isGap front nextId _ shortOne shortOther tree after run quiet := by
    have looked (content : List Token) :
        (gap.upTo front content nextId).next = (front ++ [gap.opening]).headD gap.opening := by
      cases front <;> rfl
    have passes := (each _).ahead gap isGap front nextId rfl shortOne shortOther tree after
      (by rw [← looked gap.usual]; exact run) quiet
    change pairing.Passes gap front taken _ tree after
      (next (gap.upTo front pairing.first.content nextId).next _)
      (next' (gap.upTo front pairing.second.content nextId).next _)
    rwa [looked, looked]

/-- Stepping over the token on which a choice was made, which may be the brace of the gap. -/
theorem enter {token : Token} (inner : token.kind ≠ pairing.stop) (grows : rule.Grows)
    (inStep : pairing.inside token.kind ∨ pairing.gap ≠ none →
      InStep pairing (size - 1) (taken - 1) alike rule twin)
    (crosses : token.kind = .leftBrace →
      Crosses pairing (size - 1) (taken - 1) alike rule twin) :
    InStepWhen pairing (· = token) size taken alike (skip >>= fun _ => rule)
      (skip >>= fun _ => twin) where
  grows := skip_reads.bind fun _ => grows.weaken fun _ _ _ _ _ _ _ _ => trivial
  beside tokens one other beside looked short := by
    obtain ⟨first, rest, rfl⟩ := beside.covers.head
    have same : first = token := (beside.next rfl).1.symm.trans looked
    subst same
    have skipped := beside.skipped inner
    rw [List.length_cons] at short
    refine ((inStep (.inl (beside.covers.step inner).1)).beside rest _ _ skipped trivial
      (by omega)).further (show first :: rest = [first] ++ rest from rfl) ?_
    rw [List.length_singleton]
    omega
  ahead gap isGap front nextId looked shortOne shortOther tree after run quiet := by
    cases front with
    | nil =>
        have same : gap.opening = token := looked
        rw [List.nil_append, List.length_cons] at shortOne shortOther
        have ends := crosses (same ▸ gap.opens) gap isGap nextId (by omega) (by omega) tree after
          run quiet
        refine .behind (ends.further (show _ = [gap.opening] ++ _ from rfl) ?_)
        rw [List.length_singleton]
        omega
    | cons first front =>
        rw [List.cons_append, List.length_cons] at shortOne shortOther
        have among : pairing.gap ≠ none := fun isNone => by
          rw [isNone] at isGap
          cases isGap
        have passes := (inStep (.inr among)).ahead gap isGap front nextId trivial (by omega)
          (by omega) tree after run quiet
        change pairing.Passes gap (first :: front) taken alike tree after
          (rule (gap.upTo front pairing.first.content nextId))
          (twin (gap.upTo front pairing.second.content nextId))
        generalize rule (gap.upTo front pairing.first.content nextId) = outcome,
          twin (gap.upTo front pairing.second.content nextId) = outcome' at passes ⊢
        cases passes with
        | @before tree' read left laterId trees split enough here =>
            refine .before trees (show _ = (first :: read) ++ left by rw [split, List.cons_append])
              ?_ here
            rw [List.length_cons]
            omega
        | behind ends =>
            refine .behind (ends.further (show _ = [first] ++ _ from rfl) ?_)
            rw [List.length_singleton]
            omega

theorem step {token : Token} {kind : Kind} (fits : token.kind = kind) (inner : kind ≠ pairing.stop)
    (plain : kind ≠ .leftBrace) (inStep : InStep pairing (size - 1) (taken - 1) alike rule twin) :
    InStepWhen pairing (· = token) size taken alike (skip >>= fun _ => rule)
      (skip >>= fun _ => twin) :=
  enter (fits ▸ inner) inStep.grows (fun _ => inStep) fun brace =>
    absurd (fits.symm.trans brace) plain

end InStepWhen

theorem Opened.of_in_step {size taken : Nat} {alike : α → α → Prop} {rule twin : Rule α}
    (inStep : InStep pairing size taken alike rule twin)
    (crosses : Crosses pairing size taken alike rule twin) :
    Opened pairing size taken alike rule twin :=
  ⟨inStep.grows, fun _ => inStep, crosses⟩

theorem Opened.smaller {size taken smaller fewer : Nat} {alike : α → α → Prop} {rule twin : Rule α}
    (opened : Opened pairing size taken alike rule twin) (isSmaller : smaller ≤ size)
    (isFewer : fewer ≤ taken) : Opened pairing smaller fewer alike rule twin where
  grows := opened.grows
  inStep reachable := (opened.inStep reachable).smaller isSmaller isFewer
  crosses gap isGap nextId shortOne shortOther tree after run quiet :=
    (opened.crosses gap isGap nextId (shortOne.trans_le isSmaller) (shortOther.trans_le isSmaller)
      tree after run quiet).weaken isFewer fun _ _ trees => trees

theorem Opened.finish {size taken : Nat} {alike : α → α → Prop} {same : β → β → Prop}
    {make make' : α → β} {rule twin : Rule α} [Std.Refl alike]
    (opened : Opened pairing size taken alike rule twin)
    (made : ∀ tree tree', alike tree tree' → same (make tree) (make' tree')) :
    Opened pairing size taken same (rule >>= fun tree => Pure.pure (make tree))
      (twin >>= fun tree => Pure.pure (make' tree)) where
  grows := opened.grows.bind fun tree =>
    Reads.pure fun _ _ _ _ => trivial
  inStep reachable := (opened.inStep reachable).finish made
  crosses gap isGap nextId shortOne shortOther result after run quiet := by
    obtain ⟨tree, middle, runRule, runMake⟩ := of_bind_ok run
    cases runMake
    have ends := opened.crosses gap isGap nextId shortOne shortOther tree _ runRule quiet
    generalize ran : rule ⟨pairing.first.content, nextId, []⟩ = outcome,
      ranToo : twin ⟨pairing.second.content, nextId, []⟩ = outcome' at ends
    cases ends with
    | error split beside =>
        rw [bind_error ran, bind_error ranToo]
        exact .error split beside
    | ok trees split enough beside =>
        rw [bind_ok ran, bind_ok ranToo]
        exact .ok (made _ _ trees) split enough beside

namespace InStep

variable {size taken total : Nat} {alike : α → α → Prop} {same : β → β → Prop} {rule twin : Rule α}

/-- Going on after a token that may be missing. -/
theorem accept_any {kinds : List Kind} (inner : pairing.stop ∉ kinds) (plain : .leftBrace ∉ kinds)
    {next next' : Option Token → Rule β}
    (found : ∀ token, InStep pairing (size - 1) (taken - 1) same (next (some token))
      (next' (some token)))
    (absent : InStep pairing size taken same (next none) (next' none)) :
    InStep pairing size taken same (acceptAny kinds >>= next) (acceptAny kinds >>= next') := by
  rw [accept_any_then, accept_any_then]
  refine .peek fun token => ?_
  split_ifs with isKind
  · have member := List.contains_iff_mem.mp isKind
    exact .step rfl (fun stops => inner (stops ▸ member)) (fun brace => plain (brace ▸ member))
      (found token)
  · exact .anywhere absent

theorem accept {kind : Kind} (inner : kind ≠ pairing.stop) (plain : kind ≠ .leftBrace)
    {next next' : Option Token → Rule β}
    (found : ∀ token, InStep pairing (size - 1) (taken - 1) same (next (some token))
      (next' (some token)))
    (absent : InStep pairing size taken same (next none) (next' none)) :
    InStep pairing size taken same (Rule.accept kind >>= next) (Rule.accept kind >>= next') :=
  accept_any (fun member => inner (List.mem_singleton.mp member).symm)
    (fun member => plain (List.mem_singleton.mp member).symm) found absent

/-- A token that must be there, and what follows it. -/
theorem expect {kind : Kind} {item : Missing} (inner : kind ≠ pairing.stop)
    (plain : kind ≠ .leftBrace) {next next' : Token → Rule β}
    (following : ∀ token, InStep pairing (size - 1) (total - 1) same (next token) (next' token)) :
    InStep pairing size total same (Rule.expect kind item >>= next)
      (Rule.expect kind item >>= next') := by
  unfold Rule.expect
  rw [bind_assoc, bind_assoc]
  refine accept inner plain (fun token => ?_) ?_
  · change InStep pairing _ _ same (Pure.pure token >>= next) (Pure.pure token >>= next')
    rw [pure_bind, pure_bind]
    exact following token
  · exact .missing item

/-- An opening brace that must be there, and what follows it. -/
theorem expect_brace {item : Missing} (inner : Kind.leftBrace ≠ pairing.stop) {rule twin : Rule β}
    (opened : Opened pairing (size - 1) (total - 1) same rule twin) :
    InStep pairing size total same (Rule.expect .leftBrace item >>= fun _ => rule)
      (Rule.expect .leftBrace item >>= fun _ => twin) := by
  have chosen (rule : Rule β) : (Rule.expect .leftBrace item >>= fun _ => rule) =
      Rule.next >>= fun token =>
        if token.kind = .leftBrace then skip >>= fun _ => rule else Rule.missing item := by
    funext reading
    change _ = (if reading.next.kind = .leftBrace then skip >>= fun _ => rule
      else Rule.missing item) reading
    split_ifs with isBrace
    · exact bind_ok (expect_found isBrace)
    · exact bind_error (expect_absent isBrace)
  rw [chosen, chosen]
  refine .peek fun token => ?_
  split_ifs with isBrace
  · exact .enter (isBrace ▸ inner) opened.grows
      (fun reachable => opened.inStep (isBrace ▸ reachable))
      fun _ => opened.crosses
  · exact .missing item

theorem expected {kind : Kind} {item : Missing} (inner : kind ≠ pairing.stop)
    (plain : kind ≠ .leftBrace) :
    InStep pairing size 1 pairing.Same (Rule.expect kind item) (Rule.expect kind item) := by
  rw [← bind_pure (Rule.expect kind item)]
  exact expect inner plain fun token => .pure fun _ => rfl

/-- What was announced, if it was. -/
theorem following {kind : Kind} (inner : kind ≠ pairing.stop) (plain : kind ≠ .leftBrace)
    (inStep : InStep pairing (size - 1) 0 pairing.Same rule twin) :
    InStep pairing size 0 pairing.Same (Rule.following kind rule) (Rule.following kind twin) := by
  unfold Rule.following
  exact accept inner plain
    (fun _ => inStep.map fun tree twin trees isExact => congrArg some (trees isExact))
    (.pure fun _ => rfl)

/-- A choice by the kind of the next token. -/
theorem glance (test : Kind → Prop) [DecidablePred test] {yes yes' no no' : Rule β}
    (one : InStep pairing size taken same yes yes') (two : InStep pairing size taken same no no') :
    InStep pairing size taken same (Rule.next >>= fun token => if test token.kind then yes else no)
      (Rule.next >>= fun token => if test token.kind then yes' else no') := by
  refine .peek fun token => ?_
  split_ifs
  · exact .anywhere one
  · exact .anywhere two

/-- A choice by whether a function with a name comes next. The second token is looked at only
behind the keyword, which is not the stop. -/
theorem at_function (keyword : Kind.funWord ≠ pairing.stop) {yes yes' no no' : Rule β}
    (one : InStep pairing (size - 1) (taken - 1) same yes yes')
    (two : InStep pairing size taken same no no') :
    InStep pairing size taken same
      (atFunctionDeclaration >>= fun found => if found = true then skip >>= fun _ => yes else no)
      (atFunctionDeclaration >>= fun found =>
        if found = true then skip >>= fun _ => yes' else no') := by
  have stepped (token : Token) (isFunction : token.kind = .funWord) :
      InStepWhen pairing (· = token) size taken same (skip >>= fun _ => yes)
        (skip >>= fun _ => yes') := .step isFunction keyword (by decide) one
  constructor
  · refine at_function_grows.bind fun found => ?_
    split_ifs
    · exact skip_reads.bind fun _ => one.grows.weaken fun _ _ _ _ _ _ _ _ _ _ _ => trivial
    · exact two.grows.weaken fun _ _ _ _ _ _ _ _ => trivial
  · intro tokens before other beside _ short
    obtain ⟨first, rest, rfl⟩ := beside.covers.head
    have same : startsFunction before.rest = startsFunction other.rest := by
      rw [beside.oneRest, beside.otherRest]
      cases beside.covers with
      | stop fits =>
          have isNone (more : List Token) : startsFunction ([first] ++ more) = false := by
            cases more with
            | nil => rfl
            | cons second more =>
                simp [startsFunction, fits, keyword.symm]
          rw [isNone, isNone]
      | more _ others =>
          obtain ⟨second, rest, rfl⟩ := others.head
          rfl
    have looked := (beside.next rfl).1
    rw [at_function_then, at_function_then, ← same]
    split_ifs with starts
    · rw [beside.oneRest] at starts
      exact (stepped first (starts_function_leads starts)).beside _ _ _ beside looked short
    · exact two.beside _ _ _ beside trivial short
  · intro gap isGap front nextId _ shortOne shortOther tree after run quiet
    have same (content : List Token) : startsFunction (gap.upTo front content nextId).rest =
        startsFunction (front ++ [gap.opening]) := by
      have plain : Kind.leftBrace ≠ .funWord ∧ Kind.leftBrace ≠ .identifier := by decide
      rcases front with - | ⟨first, - | ⟨second, front⟩⟩
      · cases content with
        | nil => rfl
        | cons second content => simp [Gap.upTo, startsFunction, gap.opens]
      · rfl
      · rfl
    rw [at_function_then, same] at run
    rw [at_function_then, at_function_then, same, same]
    split_ifs at run ⊢ with starts
    · cases front with
      | nil => cases starts
      | cons first front =>
          exact (stepped first (starts_function_leads starts)).ahead gap isGap _ nextId rfl
            shortOne shortOther tree after run quiet
    · exact two.ahead gap isGap front nextId trivial shortOne shortOther tree after run quiet

theorem comma_separated (inStep : InStep pairing size 1 pairing.Same rule twin)
    (comma : Kind.comma ≠ pairing.stop) (excess : SyntaxError) {bound later : Nat}
    (isLater : bound ≤ later) (enough : size ≤ bound) (count : Nat) :
    InStep pairing size 1 pairing.Same (commaSeparated rule excess bound count)
      (commaSeparated twin excess later count) := by
  induction bound generalizing size later count with
  | zero =>
      obtain rfl := Nat.le_zero.mp enough
      exact .idle (missing_reads _)
  | succ bound induction =>
      obtain ⟨later, rfl⟩ : ∃ fewer, later = fewer + 1 := ⟨later - 1, by omega⟩
      have others : InStep pairing size 1 pairing.Same
          (items rule (commaSeparated rule excess bound (count + 1)))
          (items twin (commaSeparated twin excess later (count + 1))) := by
        refine inStep.bind fun first first' firsts => ?_
        refine accept comma (by decide) (fun _ => ?_)
          (.pure fun isExact => by rw [firsts isExact])
        have fewer := inStep.smaller (show size - 1 - 1 ≤ size by omega) (Nat.le_refl 1)
        have more := induction fewer (Nat.le_of_succ_le_succ isLater) (by omega) (count + 1)
        refine (more.smaller (Nat.le_refl _) (Nat.zero_le 1)).finish
          fun rest rest' rests isExact => ?_
        rw [firsts isExact, rests isExact]
      rw [comma_separated_succ, comma_separated_succ]
      split_ifs
      · refine .peek fun token => ?_
        exact (InStepWhen.note token excess).bind fun _ _ _ => others
      · exact others

end InStep

section Recovering

variable {size : Nat} {rule twin : Rule α} (ends : pairing.stop = .endOfInput)

include ends

/-- Two readings with the same tokens before them go on to the same boundary. -/
theorem boundary_covers {tokens : List Token} (covers : pairing.Covers tokens)
    (afterSemicolon : Bool) : ∃ read left, tokens = read ++ left ∧ pairing.Covers left ∧
      ∀ beyond, fromBoundary afterSemicolon (tokens ++ beyond) = left ++ beyond := by
  induction covers generalizing afterSemicolon with
  | @stop last fits =>
      refine ⟨[], [last], rfl, .stop fits, fun beyond => ?_⟩
      simp [fromBoundary, fits, ends]
  | @more first rest fits others induction =>
      by_cases boundary : (first.kind = .endOfInput || afterSemicolon ||
          first.kind.startsStatement) = true
      · refine ⟨[], first :: rest, rfl, .more fits others, fun beyond => ?_⟩
        rw [List.cons_append, fromBoundary, if_pos boundary]
      · obtain ⟨read, left, split, covers, goes⟩ := induction (first.kind = .semicolon)
        refine ⟨first :: read, left, by rw [split, List.cons_append], covers, fun beyond => ?_⟩
        rw [List.cons_append, fromBoundary, if_neg boundary, goes]

theorem resume_beside {tokens : List Token} {one other : Reading}
    (beside : pairing.Beside tokens one other) : ∃ read left, tokens = read ++ left ∧
      pairing.Beside left one.resume other.resume ∧
        (∀ first rest, tokens = first :: rest → first.kind ≠ .endOfInput → 0 < read.length) := by
  obtain ⟨first, rest, rfl⟩ := beside.covers.head
  obtain ⟨oneRest, oneId, oneComplaints⟩ := one
  obtain ⟨otherRest, otherId, otherComplaints⟩ := other
  obtain ⟨covers, rfl, rfl, numbers, complaints⟩ := beside
  by_cases atEnd : first.kind = .endOfInput
  · refine ⟨[], first :: rest, rfl, ?_, ?_⟩
    · simp only [List.cons_append, Reading.resume, if_pos atEnd]
      exact ⟨covers, rfl, rfl, numbers, complaints⟩
    · rintro _ _ ⟨⟩ inner
      exact absurd atEnd inner
  · obtain ⟨-, others⟩ := covers.step (by rwa [ends])
    obtain ⟨read, left, split, coversLeft, goes⟩ :=
      boundary_covers ends others (first.kind = .semicolon)
    refine ⟨first :: read, left, by rw [split, List.cons_append], ?_, fun _ _ _ _ => ?_⟩
    · simp only [List.cons_append, Reading.resume, if_neg atEnd]
      exact ⟨coversLeft, goes _, goes _, numbers, complaints⟩
    · exact Nat.succ_pos _

/-- Whether a declaration was read or not, some token has been taken. -/
theorem ends_recovering {tokens : List Token} {one other : Reading}
    (inner : ∀ first rest, tokens = first :: rest → first.kind ≠ .endOfInput)
    (ended : pairing.Ends tokens 1 pairing.Same (rule one) (twin other)) :
    pairing.Ends tokens 1 pairing.Same (recovering rule one) (recovering twin other) := by
  unfold recovering
  generalize rule one = outcome, twin other = outcome' at ended ⊢
  cases ended with
  | ok trees split enough beside =>
      exact .ok (fun isExact => congrArg some (trees isExact)) split enough beside
  | @error complaint _ _ read left split beside =>
      obtain ⟨dropped, rest, splitLeft, resumed, some⟩ := resume_beside ends beside
      refine .ok (fun _ => rfl) (by rw [split, splitLeft, List.append_assoc]) ?_
        (resumed.noted complaint)
      rw [List.length_append]
      cases read with
      | nil =>
          obtain ⟨first, others, same⟩ := beside.covers.head
          have dropsOne := some first others same (inner first others (by rw [split, same]; rfl))
          omega
      | cons first others =>
          rw [List.length_cons]
          omega

/-- A declaration that may fail, before the end of the input. -/
theorem recovering_in_step {seen : Token → Prop}
    (inner : ∀ token, seen token → token.kind ≠ .endOfInput)
    (inStep : InStep pairing size 1 pairing.Same rule twin) :
    InStepWhen pairing seen size 1 pairing.Same (recovering rule) (recovering twin) where
  grows := (recovering_reads inStep.grows).weaken fun _ _ _ _ _ => trivial
  beside tokens one other beside looked short := by
    refine ends_recovering ends ?_ (inStep.beside tokens one other beside trivial short)
    intro first rest same
    exact (beside.next same).1 ▸ inner _ looked
  ahead gap isGap front nextId looked shortOne shortOther tree after run quiet := by
    -- a failed declaration would have left its complaint
    obtain ⟨found, rfl, runRule⟩ : ∃ found, tree = some found ∧
        rule (gap.upTo front gap.usual nextId) = .ok found after := by
      unfold recovering at run
      cases ran : rule (gap.upTo front gap.usual nextId) with
      | ok found middle =>
          rw [ran] at run
          cases run
          exact ⟨found, rfl, rfl⟩
      | error complaint middle =>
          rw [ran] at run
          cases run
          simp [Reading.note] at quiet
    have passes := inStep.ahead gap isGap front nextId trivial shortOne shortOther found after
      runRule quiet
    generalize ran : rule (gap.upTo front pairing.first.content nextId) = outcome,
      ranToo : twin (gap.upTo front pairing.second.content nextId) = outcome' at passes
    cases passes with
    | before trees split enough here =>
        unfold recovering
        rw [ran, ranToo]
        exact .before (fun isExact => congrArg some (trees isExact)) split enough here
    | behind ended =>
        refine .behind (ends_recovering ends ?_ (by rwa [ran, ranToo]))
        intro first rest same
        have isFirst : first = (front ++ [gap.opening]).headD gap.opening := by
          cases front with
          | nil => exact (List.cons.inj same).1.symm
          | cons token front => exact (List.cons.inj same).1.symm
        exact isFirst ▸ inner _ looked

/-- A list of declarations that is closed by the end of the input at the latest. -/
theorem declarations_in_step (inStep : InStep pairing size 1 pairing.Same rule twin)
    (closes : Kind → Bool) (closed : closes .endOfInput = true) {bound later : Nat}
    (isLater : bound ≤ later) (enough : size ≤ bound) :
    InStep pairing size 0 pairing.Same (declarations rule closes bound)
      (declarations twin closes later) := by
  induction bound generalizing size later with
  | zero =>
      obtain rfl := Nat.le_zero.mp enough
      exact .idle (.pure fun _ => trivial)
  | succ bound induction =>
      obtain ⟨later, rfl⟩ : ∃ fewer, later = fewer + 1 := ⟨later - 1, by omega⟩
      rw [declarations_succ, declarations_succ]
      refine .peek fun token => ?_
      split_ifs with isClosed
      · exact .pure fun _ => rfl
      · have first : InStepWhen pairing (· = token) size 1 pairing.Same (recovering rule)
            (recovering twin) := by
          refine recovering_in_step ends (fun _ same atEnd => isClosed ?_) inStep
          rw [← same, atEnd, closed]
        have others := induction (inStep.smaller (Nat.sub_le size 1) (Nat.le_refl 1))
          (Nat.le_of_succ_le_succ isLater) (by omega)
        exact (first.smaller (Nat.le_refl _) (Nat.le_refl 1)).bind fun found found' founds =>
          (others.smaller (Nat.le_refl _) (Nat.zero_le _)).finish fun rest rest' rests isExact => by
            rw [founds isExact, rests isExact]

end Recovering

end Rule

end Lox
