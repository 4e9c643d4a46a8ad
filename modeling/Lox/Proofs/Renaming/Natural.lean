import Lox.Proofs.Renaming.Relabel
import Lox.Proofs.Sequence
import Lox.Syntax.Grammar
import Mathlib.Tactic.SplitIfs

/-!
Grammar rules look at nothing but the kinds of tokens. When tokens are exchanged
for others of the same kinds and the first number is another one, a rule does the
same, and what it reads and complains about differs in the same way.
-/

namespace Lox

namespace Labels

/-- The labels that rules do not notice. -/
structure Silent (labels : Labels) : Prop where
  kind : ∀ token, (labels.token token).kind = token.kind
  /-- What a list without an end is taken to end with stays. -/
  ending : labels.token ⟨.endOfInput, "", 1⟩ = ⟨.endOfInput, "", 1⟩
  next : ∀ id, labels.number (id + 1) = labels.number id + 1

end Labels

def Complaint.relabel (labels : Labels) (complaint : Complaint) : Complaint :=
  { complaint with place := labels.token complaint.place }

def Reading.relabel (labels : Labels) (reading : Reading) : Reading where
  rest := reading.rest.map labels.token
  nextId := labels.number reading.nextId
  complaints := reading.complaints.map (Complaint.relabel labels)

namespace Rule

variable {α β γ δ : Type} {labels : Labels}

/-- How a rule ends among the new labels. -/
def relabelled (labels : Labels) (change : α → β) :
    EStateM.Result Complaint Reading α → EStateM.Result Complaint Reading β
  | .ok tree after => .ok (change tree) (after.relabel labels)
  | .error complaint after => .error (complaint.relabel labels) (after.relabel labels)

/-- The second rule does among the new labels what the first does among the old. -/
def Natural (labels : Labels) (change : α → β) (rule : Rule α) (rule' : Rule β) : Prop :=
  ∀ reading : Reading, rule' (reading.relabel labels) = relabelled labels change (rule reading)

section Combined

variable {change : α → β} {alter : γ → δ} {rule : Rule α} {rule' : Rule β}

theorem pure_natural {tree : α} {tree' : β} (same : tree' = change tree) :
    Natural labels change (pure tree) (pure tree') := fun _ => same ▸ rfl

theorem bind_natural {following : α → Rule γ} {following' : β → Rule δ}
    (first : Natural labels change rule rule')
    (rest : ∀ tree, Natural labels alter (following tree) (following' (change tree))) :
    Natural labels alter (rule >>= following) (rule' >>= following') := by
  intro reading
  have same := first reading
  cases ended : rule reading with
  | ok tree after =>
      rw [ended] at same
      rw [bind_ok same, bind_ok ended]
      exact rest tree after
  | error complaint after =>
      rw [ended] at same
      rw [bind_error same, bind_error ended]
      rfl

theorem map_natural {make : α → γ} {make' : β → δ} (first : Natural labels change rule rule')
    (same : ∀ tree, make' (change tree) = alter (make tree)) :
    Natural labels alter (make <$> rule) (make' <$> rule') := by
  rw [map_eq_pure_bind, map_eq_pure_bind]
  exact bind_natural first fun tree => pure_natural (same tree)

end Combined

variable (silent : labels.Silent)

include silent

theorem next_relabel (reading : Reading) :
    (reading.relabel labels).next = labels.token reading.next := by
  obtain ⟨rest, nextId, complaints⟩ := reading
  cases rest with
  | nil => exact silent.ending.symm
  | cons token rest => rfl

theorem next_natural : Natural labels labels.token next next := by
  intro reading
  exact congrArg (EStateM.Result.ok · (reading.relabel labels)) (next_relabel silent reading)

omit silent in
theorem skip_natural : Natural labels id skip skip := by
  intro reading
  change EStateM.Result.ok () { reading.relabel labels with
    rest := (reading.rest.map labels.token).drop 1 } = _
  rw [← List.map_drop]
  rfl

theorem missing_natural (change : α → β) (item : Missing) :
    Natural labels change (missing item) (missing item) :=
  bind_natural (next_natural silent) fun _ _ => rfl

omit silent in
theorem note_natural (place : Token) (cause : SyntaxError) :
    Natural labels id (note place cause) (note (labels.token place) cause) := by
  intro reading
  have noted : (reading.relabel labels).note ⟨labels.token place, cause⟩ =
      (reading.note ⟨place, cause⟩).relabel labels := by
    simp only [Reading.relabel, Reading.note, List.map_append, List.map_singleton,
      Complaint.relabel]
  exact congrArg (EStateM.Result.ok ()) noted

theorem accept_any_natural (kinds : List Kind) :
    Natural labels (Option.map labels.token) (acceptAny kinds) (acceptAny kinds) := by
  apply bind_natural (next_natural silent)
  intro token
  rw [silent.kind]
  split_ifs
  · exact bind_natural skip_natural fun _ => pure_natural rfl
  · exact pure_natural rfl

theorem accept_natural (kind : Kind) :
    Natural labels (Option.map labels.token) (accept kind) (accept kind) :=
  accept_any_natural silent [kind]

theorem expect_natural (kind : Kind) (item : Missing) :
    Natural labels labels.token (expect kind item) (expect kind item) := by
  apply bind_natural (accept_natural silent kind)
  intro found
  cases found with
  | some token => exact pure_natural rfl
  | none => exact missing_natural silent _ item

theorem fresh_natural : Natural labels labels.number fresh fresh := by
  intro reading
  have counted : labels.number reading.nextId + 1 = labels.number (reading.nextId + 1) :=
    (silent.next _).symm
  change EStateM.Result.ok _ { reading.relabel labels with
    nextId := labels.number reading.nextId + 1 } = _
  rw [counted]
  rfl

theorem comma_separated_natural {change : α → β} {item : Rule α} {item' : Rule β}
    (each : Natural labels change item item') (excess : SyntaxError) (bound count : Nat) :
    Natural labels (List.map change) (commaSeparated item excess bound count)
      (commaSeparated item' excess bound count) := by
  induction bound generalizing count with
  | zero => exact missing_natural silent _ _
  | succ bound induction =>
      have others : Natural labels (List.map change)
          (items item (commaSeparated item excess bound (count + 1)))
          (items item' (commaSeparated item' excess bound (count + 1))) := by
        apply bind_natural each
        intro first
        apply bind_natural (accept_natural silent .comma)
        intro comma
        cases comma with
        | none => exact pure_natural rfl
        | some comma => exact bind_natural (induction _) fun rest => pure_natural rfl
      rw [comma_separated_succ, comma_separated_succ]
      split_ifs
      · apply bind_natural (next_natural silent)
        intro token
        exact bind_natural (note_natural token excess) fun _ => others
      · exact others

theorem from_boundary_map (afterSemicolon : Bool) (tokens : List Token) :
    fromBoundary afterSemicolon (tokens.map labels.token) =
      (fromBoundary afterSemicolon tokens).map labels.token := by
  induction tokens generalizing afterSemicolon with
  | nil => rfl
  | cons token rest induction =>
      rw [List.map_cons, fromBoundary, fromBoundary, silent.kind]
      split_ifs
      · rfl
      · exact induction _

theorem resume_relabel (reading : Reading) :
    (reading.relabel labels).resume = reading.resume.relabel labels := by
  obtain ⟨rest, nextId, complaints⟩ := reading
  cases rest with
  | nil => rfl
  | cons token rest =>
      simp only [Reading.relabel, Reading.resume, List.map_cons, silent.kind]
      split_ifs
      · rfl
      · rw [from_boundary_map silent]

theorem recovering_natural {change : α → β} {rule : Rule α} {rule' : Rule β}
    (natural : Natural labels change rule rule') :
    Natural labels (Option.map change) (recovering rule) (recovering rule') := by
  intro reading
  unfold recovering
  rw [natural]
  cases rule reading with
  | ok tree after => rfl
  | error complaint after =>
      simp only [relabelled, resume_relabel silent, Option.map_none]
      simp only [Reading.note, Reading.relabel, List.map_append, List.map_singleton]

theorem declarations_natural {change : α → β} {rule : Rule α} {rule' : Rule β}
    (natural : Natural labels change rule rule') (closes : Kind → Bool) (bound : Nat) :
    Natural labels (List.map change) (declarations rule closes bound)
      (declarations rule' closes bound) := by
  induction bound with
  | zero => exact pure_natural rfl
  | succ bound induction =>
      apply bind_natural (next_natural silent)
      intro token
      rw [silent.kind]
      split_ifs
      · exact pure_natural rfl
      · apply bind_natural (recovering_natural silent natural)
        intro first
        refine bind_natural induction fun others => pure_natural ?_
        cases first <;> rfl

end Rule

end Lox
