import Lox.Proofs.Grammar.Acceptance
import Lox.Proofs.Joining.Rules

/-!
Programs read one behind the other. Where one program ends, another one can begin: what a list
of declarations is read as does not change when more declarations follow, and these are read as
they are on their own, with the numbers that come next.
-/

namespace Lox

open Phrase

namespace Rule

variable {α β : Type}

/-- The declarations that have been read stand before those that follow. -/
theorem declarations_continue {size bound : Nat} {rule rule' : Rule α}
    (each : Repeats size 2 true rule rule') (closes : Kind → Bool) :
    (declarations rule closes bound).Reads fun before read trees after =>
      before.rest = read ++ after.rest ∧ (before.rest.length < size →
        trees.length ≤ read.length ∧
        ∀ rest complaints later, leading rest ≠ .elseWord →
          declarations rule' closes (later + trees.length)
              ⟨read ++ rest, before.nextId, complaints⟩ =
            ((trees ++ ·) <$> declarations rule' closes later)
              ⟨rest, after.nextId, complaints⟩) := by
  induction bound generalizing size with
  | zero =>
      refine .pure fun here => ⟨rfl, fun _ => ⟨Nat.zero_le _, ?_⟩⟩
      exact fun rest complaints later _ => declarations_none _ _ _ _
  | succ bound induction =>
      rw [declarations_succ rule closes bound]
      refine next_reads.bind fun token => ?_
      split
      case isTrue closed =>
        refine .pure ?_
        rintro here before front ⟨rfl, rfl, rfl⟩
        exact ⟨rfl, fun _ => ⟨Nat.zero_le _, fun rest complaints later _ =>
          declarations_none _ _ _ _⟩⟩
      case isFalse ongoing =>
        have others := induction (each.weaken (Nat.sub_le size 2) (Nat.le_refl 2))
        refine (recovering_reads each).bind fun first => others.finish ?_
        rintro third back others after ⟨splitBack, further⟩ second front ⟨tree, rfl, once⟩ before
          looked ⟨rfl, rfl, rfl⟩
        rw [List.nil_append]
        refine ⟨by rw [once.split, splitBack, List.append_assoc], fun short => ?_⟩
        have enough := once.long short
        have lengths : second.rest.length = front.length + third.rest.length := by
          rw [once.split, List.length_append]
        obtain ⟨few, again⟩ := further (by omega)
        refine ⟨by simp only [Option.toList_some, List.length_append, List.length_cons,
          List.length_nil]; omega, fun rest complaints later noBranch => ?_⟩
        have hidden : Replaces true third.rest (back ++ rest) := by
          rw [splitBack]
          cases back with
          | nil => exact .inr ⟨rfl, noBranch⟩
          | cons first more => exact .inl rfl
        have run : recovering rule' ⟨front ++ (back ++ rest), second.nextId, complaints⟩ =
            .ok (some tree) ⟨back ++ rest, third.nextId, complaints⟩ := by
          rw [recovering, once.again short (back ++ rest) complaints hidden]
        have next : leading (front ++ (back ++ rest)) = second.next.kind := by
          rw [Reading.next, once.split]
          cases front with
          | nil => exact absurd enough (by decide)
          | cons first more => rfl
        have goesOn : closes (leading (front ++ (back ++ rest))) = false := by
          rw [next]
          exact Bool.eq_false_iff.mpr ongoing
        have counted : later + (some tree).toList.length + others.length =
            later + others.length + 1 := by
          simp only [Option.toList_some, List.length_singleton]
          omega
        rw [List.length_append, ← Nat.add_assoc, counted, List.append_assoc]
        exact declarations_more goesOn run (again rest complaints later noBranch)

end Rule

open Rule

theorem program_run {tokens : List Token} {firstId next : Nat} {statements : List Statement}
    (parsed : parseProgram tokens firstId = ⟨.ok statements, next⟩) :
    ∃ rest, declarations (declaration (nesting tokens)) (· = .endOfInput) (nesting tokens)
      (.start tokens firstId) = .ok statements ⟨rest, next, []⟩ := by
  unfold parseProgram at parsed
  dsimp only at parsed
  cases run : declarations (declaration (nesting tokens)) (· = .endOfInput) (nesting tokens)
      (.start tokens firstId) with
  | error complaint after =>
      rw [run] at parsed
      cases parsed
  | ok trees after =>
      rw [run] at parsed
      have outcome := congrArg Parsed.outcome parsed
      obtain ⟨quiet, rfl⟩ := finish_ok outcome
      have numbers : after.nextId = next := congrArg Parsed.nextId parsed
      obtain ⟨rest, nextId, complaints⟩ := after
      subst quiet numbers
      exact ⟨rest, rfl⟩

/-- No declaration begins with a branch. -/
theorem program_leads {tokens : List Token} {last : Token} (ends : last.kind = .endOfInput)
    (derived : Derives (many (form .declaration)) tokens) :
    leading (tokens ++ [last]) ≠ .elseWord := by
  rcases derives_many.mp derived with rfl | ⟨front, back, rfl, head, -⟩
  · rw [List.nil_append, show leading [last] = .endOfInput from ends]
    exact nofun
  · obtain ⟨first, others, rfl, leads⟩ := declaration_begins head
    intro branch
    have fits : first.kind = .elseWord := branch
    rw [fits] at leads
    cases leads

section Reading

variable {tokens : List Token} {ending : Token} {firstId next bound : Nat}
  {statements : List Statement} (ends : ending.kind = .endOfInput)
  (inner : ∀ token ∈ tokens, token.kind ≠ .endOfInput)
  (parsed : parseProgram (tokens ++ [ending]) firstId = ⟨.ok statements, next⟩)

include ends inner parsed

/-- A program that is accepted has been read up to the end of the input. -/
theorem program_means {meaning : Meaning (List Statement)}
    (reads : (declarations (declaration (nesting (tokens ++ [ending]))) (· = .endOfInput)
      (nesting (tokens ++ [ending]))).Reads meaning) :
    meaning (.start (tokens ++ [ending]) firstId) tokens statements ⟨[ending], next, []⟩ := by
  obtain ⟨left, run⟩ := program_run parsed
  have account := declarations_read (· = .endOfInput)
    (accounts (nesting (tokens ++ [ending]))).declaration (nesting (tokens ++ [ending]))
  have both := reads.both account (.start (tokens ++ [ending]) firstId)
  rw [run] at both
  obtain ⟨read, split, means, derived, -, stops⟩ := both.2 rfl
  change tokens ++ [ending] = read ++ left at split
  have atEnd : leading left = .endOfInput := by
    rcases stops with closed | long
    · exact of_decide_eq_true closed
    · have total := congrArg List.length split
      rw [List.length_append, List.length_append] at total
      simp only [nesting, List.length_append, List.length_singleton] at long total
      omega
  obtain rfl := read_all split atEnd ends inner (derives_inner derived rfl)
  rwa [← List.append_cancel_left split] at means

variable (isLater : nesting (tokens ++ [ending]) ≤ bound)

include isLater

/-- What follows a program is read as if the program had been read to its end. -/
theorem program_continues {rest : List Token} (noBranch : leading rest ≠ .elseWord) (later : Nat) :
    statements.length ≤ tokens.length ∧
      declarations (declaration bound) (· = .endOfInput) (later + statements.length)
          ⟨tokens ++ rest, firstId, []⟩ =
        ((statements ++ ·) <$> declarations (declaration bound) (· = .endOfInput) later)
          ⟨rest, next, []⟩ := by
  have each := (all_repeat isLater).declaration (tokens.length + 2) (by
    simp only [nesting, List.length_append, List.length_singleton]
    omega)
  obtain ⟨-, further⟩ := program_means ends inner parsed
    (declarations_continue each (· = .endOfInput))
  obtain ⟨few, again⟩ := further (by simp [Reading.start])
  exact ⟨few, again rest [] later noBranch⟩

/-- A program is read again with a larger bound, and before another end of the input. -/
theorem program_repeats {last : Token} (stops : last.kind = .endOfInput) {later : Nat}
    (enough : nesting (tokens ++ [ending]) ≤ later) :
    declarations (declaration bound) (· = .endOfInput) later ⟨tokens ++ [last], firstId, []⟩ =
      .ok statements ⟨[last], next, []⟩ := by
  have each := (all_repeat isLater).declaration (tokens.length + 2) (by
    simp only [nesting, List.length_append, List.length_singleton]
    omega)
  have once := program_means ends inner parsed
    ((each.weaken (Nat.le_refl _) (Nat.le_succ 1)).declarations (· = .endOfInput) rfl enough (by
      simp only [nesting, List.length_append, List.length_singleton]
      omega))
  refine once.again (by simp [Reading.start]) [last] [] (.inl ?_)
  exact stops.trans ends.symm

end Reading

/-- Two programs that are read one behind the other are read as each of them is on its own. -/
theorem program_joined {front back : List Token} {ending closing last : Token}
    {firstId middle next : Nat} {statements others : List Statement}
    (ends : ending.kind = .endOfInput) (closes : closing.kind = .endOfInput)
    (stops : last.kind = .endOfInput) (innerFront : ∀ token ∈ front, token.kind ≠ .endOfInput)
    (innerBack : ∀ token ∈ back, token.kind ≠ .endOfInput)
    (first : parseProgram (front ++ [ending]) firstId = ⟨.ok statements, middle⟩)
    (second : parseProgram (back ++ [closing]) middle = ⟨.ok others, next⟩) :
    parseProgram (front ++ back ++ [last]) firstId = ⟨.ok (statements ++ others), next⟩ := by
  have account := program_means closes innerBack second
    (declarations_read (· = .endOfInput) (accounts (nesting (back ++ [closing]))).declaration
      (nesting (back ++ [closing])))
  have noBranch := program_leads stops account.1
  have bounds : nesting (front ++ [ending]) ≤ nesting (front ++ back ++ [last]) ∧
      nesting (back ++ [closing]) + front.length ≤ nesting (front ++ back ++ [last]) := by
    simp only [nesting, List.length_append, List.length_singleton]
    omega
  unfold parseProgram
  dsimp only [Reading.start]
  generalize nesting (front ++ back ++ [last]) = bound at bounds ⊢
  obtain ⟨few, continues⟩ := program_continues ends innerFront first bounds.1 noBranch
    (bound - statements.length)
  have repeats : declarations (declaration bound) (· = .endOfInput) (bound - statements.length)
      ⟨back ++ [last], middle, []⟩ = .ok others ⟨[last], next, []⟩ :=
    program_repeats closes innerBack second (by omega) stops (by omega)
  rw [Nat.sub_add_cancel (by omega), map_run, repeats, ← List.append_assoc] at continues
  rw [continues]
  rfl

end Lox
