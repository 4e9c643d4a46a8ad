import Lox.Proofs.Sequence
import Lox.Proofs.Grammar.Forms
import Lox.Proofs.Grammar.Numbering
import Lox.Syntax.Reading

/-!
What a rule reads when it has nothing to complain about. A rule is judged by how
the reading before it, the tokens it steps over, its tree and the reading after
it belong together. A rule that notes a complaint owes no such account, but like
every other rule it takes back neither numbers nor complaints.
-/

namespace Lox

/-- Reading only gives out numbers and adds complaints. -/
def Reading.Precedes (earlier later : Reading) : Prop :=
  earlier.nextId ≤ later.nextId ∧ ∃ added, later.complaints = earlier.complaints ++ added

theorem Reading.Precedes.trans {earlier middle later : Reading} (before : earlier.Precedes middle)
    (after : middle.Precedes later) : earlier.Precedes later := by
  obtain ⟨below, early, earlyAdded⟩ := before
  obtain ⟨above, late, lateAdded⟩ := after
  exact ⟨Nat.le_trans below above, early ++ late, by rw [lateAdded, earlyAdded, List.append_assoc]⟩

theorem Reading.Precedes.same {earlier later : Reading} (numbers : later.nextId = earlier.nextId)
    (complaints : later.complaints = earlier.complaints) : earlier.Precedes later :=
  ⟨Nat.le_of_eq numbers.symm, [], by rw [complaints, List.append_nil]⟩

/-- Complaints that are the same after two steps were the same after the first. -/
theorem Reading.Precedes.quiet {earlier middle later : Reading} (before : earlier.Precedes middle)
    (after : middle.Precedes later) (same : later.complaints = earlier.complaints) :
    middle.complaints = earlier.complaints ∧ later.complaints = middle.complaints := by
  obtain ⟨-, early, earlyAdded⟩ := before
  obtain ⟨-, late, lateAdded⟩ := after
  rw [lateAdded, earlyAdded, List.append_assoc] at same
  have nothing := List.append_eq_nil_iff.mp (List.append_right_eq_self.mp same)
  rw [lateAdded, earlyAdded, nothing.1, nothing.2]
  simp

namespace Rule

variable {α β : Type}

/-- How a rule accounts for what it read. -/
abbrev Meaning (α : Type) := Reading → List Token → α → Reading → Prop

def Reads (rule : Rule α) (meaning : Meaning α) : Prop :=
  ∀ before, match rule before with
  | .ok tree after => before.Precedes after ∧ (after.complaints = before.complaints →
      ∃ read, before.rest = read ++ after.rest ∧ meaning before read tree after)
  | .error _ after => before.Precedes after

namespace Reads

variable {rule : Rule α} {meaning wider : Meaning α}

theorem weaken (reads : rule.Reads meaning)
    (wide : ∀ before read tree after, meaning before read tree after →
      wider before read tree after) :
    rule.Reads wider := by
  intro before
  have run := reads before
  cases outcome : rule before with
  | ok tree after =>
      rw [outcome] at run
      refine ⟨run.1, fun same => ?_⟩
      obtain ⟨read, split, means⟩ := run.2 same
      exact ⟨read, split, wide _ _ _ _ means⟩
  | error complaint after =>
      rw [outcome] at run
      exact run

theorem pure {tree : α} (means : ∀ here, meaning here [] tree here) :
    Reads (Pure.pure tree) meaning :=
  fun here => ⟨.same rfl rfl, fun _ => ⟨[], rfl, means here⟩⟩

theorem bind {next : α → Rule β} {whole : Meaning β} (first : rule.Reads meaning)
    (following : ∀ tree, (next tree).Reads fun middle read result after =>
      ∀ before front, meaning before front tree middle →
        whole before (front ++ read) result after) :
    Reads (rule >>= next) whole := by
  intro before
  have start := first before
  cases outcome : rule before with
  | error complaint middle =>
      rw [outcome] at start
      rw [bind_error outcome]
      exact start
  | ok tree middle =>
      rw [outcome] at start
      rw [bind_ok outcome]
      have rest := following tree middle
      cases final : next tree middle with
      | error complaint after =>
          rw [final] at rest
          exact start.1.trans rest
      | ok result after =>
          rw [final] at rest
          refine ⟨start.1.trans rest.1, fun same => ?_⟩
          obtain ⟨quietFirst, quietRest⟩ := start.1.quiet rest.1 same
          obtain ⟨front, splitFront, meansFront⟩ := start.2 quietFirst
          obtain ⟨back, splitBack, meansBack⟩ := rest.2 quietRest
          refine ⟨front ++ back, ?_, meansBack before front meansFront⟩
          rw [splitFront, splitBack, List.append_assoc]

/-- Going on after either of two rules. -/
theorem either {chosen : Prop} [Decidable chosen] {yes no : Rule α} {next : α → Rule β}
    {whole : Meaning β} (reads : Reads (if chosen then yes else no) meaning)
    (following : ∀ tree, (next tree).Reads fun middle read result after =>
      ∀ before front, meaning before front tree middle →
        whole before (front ++ read) result after) :
    Reads (if chosen then yes >>= next else no >>= next) whole := by
  have both := reads.bind following
  split
  case isTrue holds => rwa [if_pos holds] at both
  case isFalse fails => rwa [if_neg fails] at both

/-- A rule that only makes something of what another rule reads. -/
theorem finish {make : α → β} {whole : Meaning β} (reads : rule.Reads meaning)
    (means : ∀ before read tree after, meaning before read tree after →
      whole before read (make tree) after) :
    Reads (rule >>= fun tree => Pure.pure (make tree)) whole := by
  refine reads.bind fun tree => .pure fun here before front meant => ?_
  rw [List.append_nil]
  exact means before front tree here meant

end Reads

theorem next_reads : next.Reads fun before read token after =>
    read = [] ∧ token = before.next ∧ after = before :=
  fun _ => ⟨.same rfl rfl, fun _ => ⟨[], rfl, rfl, rfl, rfl⟩⟩

theorem missing_reads {meaning : Meaning α} (item : Missing) : (missing item).Reads meaning :=
  fun _ => .same rfl rfl

/-- A rule that notes a complaint promises nothing. -/
theorem note_reads (place : Token) (cause : SyntaxError) :
    (note place cause).Reads fun _ _ _ _ => False := by
  intro before
  refine ⟨⟨Nat.le_refl _, _, rfl⟩, fun same => ?_⟩
  have noted : before.complaints ++ [⟨place, cause⟩] = before.complaints := same
  simp at noted

theorem fresh_reads : fresh.Reads fun before read id after =>
    read = [] ∧ id = before.nextId ∧ after.nextId = before.nextId + 1 :=
  fun _ => ⟨⟨Nat.le_succ _, [], (List.append_nil _).symm⟩, fun _ => ⟨[], rfl, rfl, rfl, rfl⟩⟩

/-- There is a token to step over unless the input ends. -/
theorem rest_of_next {reading : Reading} (inner : reading.next.kind ≠ .endOfInput) :
    reading.rest = reading.next :: reading.rest.drop 1 := by
  obtain ⟨rest, nextId, complaints⟩ := reading
  cases rest with
  | nil => exact absurd rfl inner
  | cons token rest => rfl

theorem skip_reads : skip.Reads fun before read _ after =>
    before.next.kind ≠ .endOfInput → read = [before.next] ∧ after.nextId = before.nextId := by
  intro before
  refine ⟨.same rfl rfl, fun _ => ⟨before.rest.take 1, (List.take_append_drop 1 _).symm, ?_⟩⟩
  intro inner
  rw [rest_of_next inner]
  exact ⟨rfl, rfl⟩

/-- How a rule goes on when the next token was looked at already. -/
def ReadsAt (token : Token) (rule : Rule α) (meaning : Meaning α) : Prop :=
  rule.Reads fun before read tree after => before.next = token → meaning before read tree after

theorem Reads.anywhere {token : Token} {rule : Rule α} {meaning : Meaning α}
    (reads : rule.Reads meaning) : ReadsAt token rule meaning :=
  reads.weaken fun _ _ _ _ means _ => means

theorem Reads.peek {following : Token → Rule β} {whole : Meaning β}
    (each : ∀ token, ReadsAt token (following token) whole) :
    Reads (next >>= following) whole := by
  refine next_reads.bind fun token => (each token).weaken ?_
  rintro middle read tree after means before front ⟨rfl, same, rfl⟩
  exact means same.symm

/-- Stepping over the token on which a choice was made. -/
theorem ReadsAt.step {token : Token} {kind : Kind} {rule : Rule β} {whole : Meaning β}
    (fits : token.kind = kind) (inner : kind ≠ .endOfInput)
    (following : rule.Reads fun middle read tree after =>
      ∀ before : Reading, Derives (.word kind) [token] → Numbered before.nextId middle.nextId [] →
        whole before (token :: read) tree after) :
    ReadsAt token (skip >>= fun _ => rule) whole := by
  refine skip_reads.bind fun _ => following.weaken ?_
  rintro middle read tree after means before stepped steps rfl
  obtain ⟨rfl, numbers⟩ := steps (fits ▸ inner)
  exact means before (.word fits) (.nil (Nat.le_of_eq numbers.symm))

theorem accept_any_reads {kinds : List Kind} (inner : Kind.endOfInput ∉ kinds) :
    (acceptAny kinds).Reads fun before read found after =>
      read = found.toList ∧ (∀ token ∈ found, token.kind ∈ kinds) ∧
        after.nextId = before.nextId := by
  unfold acceptAny
  refine next_reads.bind fun token => ?_
  split
  case isTrue accepted =>
    have member : token.kind ∈ kinds := by simpa using accepted
    refine skip_reads.bind fun _ => .pure fun after before front stepped earlier peeked looked => ?_
    obtain ⟨rfl, rfl, rfl⟩ := looked
    obtain ⟨rfl, numbers⟩ := stepped fun same => inner (same ▸ member)
    refine ⟨rfl, fun found foundSame => ?_, numbers⟩
    rwa [← Option.some.inj foundSame]
  case isFalse =>
    refine .pure fun after before front looked => ?_
    obtain ⟨rfl, -, rfl⟩ := looked
    exact ⟨rfl, nofun, rfl⟩

/-- What a rule derives, and the nodes that the occurrences in its tree belong to. -/
def Yields (rule : Rule α) (phrase : Phrase) (nodes : α → List Node) : Prop :=
  rule.Reads fun before read tree after =>
    Derives phrase read ∧ Numbered before.nextId after.nextId (nodes tree)

theorem expect_yields (kind : Kind) (item : Missing) (inner : kind ≠ .endOfInput) :
    (expect kind item).Yields (.word kind) fun _ => [] := by
  unfold expect accept
  refine (accept_any_reads (by simpa using inner.symm)).bind fun found => ?_
  cases found with
  | none => exact missing_reads item
  | some token =>
      refine .pure ?_
      rintro after before front ⟨rfl, fits, numbers⟩
      exact ⟨.word (List.mem_singleton.mp (fits token rfl)), .nil (Nat.le_of_eq numbers.symm)⟩

/-- Going on after a token that may be missing. -/
theorem Reads.accept {kind : Kind} {next : Option Token → Rule β} {whole : Meaning β}
    (inner : kind ≠ .endOfInput)
    (found : ∀ token, (next (some token)).Reads fun middle read tree after =>
      ∀ before front, Derives (.word kind) front → Numbered before.nextId middle.nextId [] →
        whole before (front ++ read) tree after)
    (absent : (next none).Reads fun middle read tree after =>
      ∀ before : Reading, Numbered before.nextId middle.nextId [] →
        whole before read tree after) :
    Reads (accept kind >>= next) whole := by
  unfold Rule.accept
  refine (accept_any_reads (by simpa using inner.symm)).bind fun token => ?_
  cases token with
  | none =>
      refine absent.weaken ?_
      rintro middle read tree after means before front ⟨rfl, -, numbers⟩
      exact means before (.nil (Nat.le_of_eq numbers.symm))
  | some token =>
      refine (found token).weaken ?_
      rintro middle read tree after means before front ⟨rfl, fits, numbers⟩
      exact means before _ (.word (List.mem_singleton.mp (fits token rfl)))
        (.nil (Nat.le_of_eq numbers.symm))

end Rule

end Lox
