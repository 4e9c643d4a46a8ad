import Lox.Proofs.Sequence
import Lox.Syntax.Grammar
import Mathlib.Tactic.SplitIfs

/-!
Single steps of the rules: what those that only look at the next token make of a reading.
-/

namespace Lox.Rule

variable {α β : Type} {rule : Rule α} {before after : Reading}

theorem map_run (make : α → β) (rule : Rule α) (reading : Reading) :
    (make <$> rule) reading = match rule reading with
      | .ok tree after => .ok (make tree) after
      | .error complaint after => .error complaint after := by
  change EStateM.map make rule reading = _
  unfold EStateM.map
  cases rule reading <;> rfl

theorem map_ok {make : α → β} {tree : α} (run : rule before = .ok tree after) :
    (make <$> rule) before = .ok (make tree) after := by
  rw [map_run, run]

section Tokens

variable {kinds : List Kind} {kind : Kind} {reading : Reading}

theorem accept_any_eq (kinds : List Kind) (reading : Reading) :
    acceptAny kinds reading = if kinds.contains reading.next.kind then
      .ok (some reading.next) { reading with rest := reading.rest.drop 1 }
        else .ok none reading := by
  change (if kinds.contains reading.next.kind then
    (do skip; return some reading.next : Rule (Option Token)) else return none) reading = _
  split_ifs <;> rfl

theorem accept_any_found (member : reading.next.kind ∈ kinds) : acceptAny kinds reading =
    .ok (some reading.next) { reading with rest := reading.rest.drop 1 } := by
  rw [accept_any_eq, if_pos (List.contains_iff_mem.mpr member)]

theorem accept_any_absent (absent : reading.next.kind ∉ kinds) :
    acceptAny kinds reading = .ok none reading := by
  rw [accept_any_eq, if_neg fun found => absent (List.contains_iff_mem.mp found)]

theorem accept_found (fits : reading.next.kind = kind) : accept kind reading =
    .ok (some reading.next) { reading with rest := reading.rest.drop 1 } :=
  accept_any_found (List.mem_singleton.mpr fits)

theorem accept_absent (different : reading.next.kind ≠ kind) :
    accept kind reading = .ok none reading :=
  accept_any_absent fun member => different (List.mem_singleton.mp member)

/-- A token that may be missing is looked at first. -/
theorem accept_any_then (kinds : List Kind) (next : Option Token → Rule β) :
    acceptAny kinds >>= next = Rule.next >>= fun token =>
      if kinds.contains token.kind then skip >>= fun _ => next (some token) else next none := by
  funext reading
  change _ = (if kinds.contains reading.next.kind then skip >>= fun _ => next (some reading.next)
    else next none) reading
  have taken := accept_any_eq kinds reading
  split_ifs at taken ⊢
  · exact bind_ok taken
  · exact bind_ok taken

theorem expect_found {item : Missing} (fits : reading.next.kind = kind) :
    expect kind item reading = .ok reading.next { reading with rest := reading.rest.drop 1 } :=
  bind_ok (accept_found fits)

theorem expect_absent {item : Missing} (different : reading.next.kind ≠ kind) :
    expect kind item reading = .error ⟨reading.next, .expected item⟩ reading :=
  bind_ok (accept_absent different)

end Tokens

section Declarations

variable {closes : Kind → Bool} {rounds : Nat}

theorem declarations_succ (rule : Rule α) (closes : Kind → Bool) (bound : Nat) :
    declarations rule closes (bound + 1) = (Rule.next >>= fun token =>
      if closes token.kind = true then pure []
      else recovering rule >>= fun first => declarations rule closes bound >>= fun others =>
        pure (first.toList ++ others)) := rfl

theorem declarations_closed (closed : closes before.next.kind = true) :
    declarations rule closes rounds before = .ok [] before := by
  cases rounds with
  | zero => rfl
  | succ rounds =>
      rw [declarations_succ]
      change (if closes before.next.kind = true then pure [] else _ : Rule (List α)) before = _
      rw [if_pos closed]
      rfl

theorem declarations_once {found : Option α} (ongoing : closes before.next.kind = false)
    (run : recovering rule before = .ok found after) :
    declarations rule closes (rounds + 1) before =
      ((found.toList ++ ·) <$> declarations rule closes rounds) after := by
  rw [declarations_succ, map_eq_pure_bind]
  change (if closes before.next.kind = true then pure [] else _ : Rule (List α)) before = _
  rw [if_neg (Bool.eq_false_iff.mp ongoing), bind_ok run]

/-- No declaration has been read yet. -/
theorem declarations_none (rule : Rule α) (closes : Kind → Bool) (rounds : Nat) (before : Reading) :
    declarations rule closes rounds before =
      (([] ++ ·) <$> declarations rule closes rounds) before :=
  (congrFun (id_map (declarations rule closes rounds)) before).symm

/-- One declaration before others. -/
theorem declarations_more {found : Option α} {fewer : Nat} {others : List α} {middle : Reading}
    (ongoing : closes before.next.kind = false) (run : recovering rule before = .ok found middle)
    (further : declarations rule closes rounds middle =
      ((others ++ ·) <$> declarations rule closes fewer) after) :
    declarations rule closes (rounds + 1) before =
      ((found.toList ++ others ++ ·) <$> declarations rule closes fewer) after := by
  rw [declarations_once ongoing run, map_run, further, map_run, map_run]
  cases declarations rule closes fewer after with
  | ok trees last => simp only [List.append_assoc]
  | error complaint last => rfl

end Declarations

section Choices

/-- Whether a named function comes next. -/
def startsFunction : List Token → Bool
  | first :: second :: _ => first.kind = .funWord && second.kind = .identifier
  | _ => false

theorem at_function_eq (reading : Reading) :
    atFunctionDeclaration reading = .ok (startsFunction reading.rest) reading := by
  obtain ⟨rest, nextId, complaints⟩ := reading
  rcases rest with - | ⟨first, - | ⟨second, rest⟩⟩ <;> rfl

theorem at_function_then (yes no : Rule β) (reading : Reading) :
    (atFunctionDeclaration >>= fun found =>
      if found = true then skip >>= fun _ => yes else no) reading =
        if startsFunction reading.rest = true then (skip >>= fun _ => yes) reading
          else no reading := by
  rw [bind_ok (at_function_eq reading)]
  split_ifs <;> rfl

/-- A declaration goes by its first token, or by its first two. -/
theorem declaration_eq (bound : Nat) (reading : Reading) : declaration (bound + 1) reading =
    if reading.next.kind = .classWord then
      classDeclaration (declaration bound) bound { reading with rest := reading.rest.drop 1 }
    else if startsFunction reading.rest = true then
      (function (declaration bound) bound >>= fun routine => pure (.routineDeclaration routine))
        { reading with rest := reading.rest.drop 1 }
    else if reading.next.kind = .varWord then
      variableDeclaration (expression bound) { reading with rest := reading.rest.drop 1 }
    else statement bound reading := by
  rw [declaration]
  split_ifs with isClass isFunction isVariable
  · exact (bind_ok (accept_found isClass)).trans rfl
  all_goals
    refine (bind_ok (accept_absent isClass)).trans ?_
    refine (bind_ok (at_function_eq reading)).trans ?_
  · rw [isFunction]
    rfl
  · rw [Bool.eq_false_iff.mpr isFunction]
    exact (bind_ok (accept_found isVariable)).trans rfl
  · rw [Bool.eq_false_iff.mpr isFunction]
    exact (bind_ok (accept_absent isVariable)).trans rfl

/-- What no keyword or brace begins is an expression. -/
theorem statement_plain {bound : Nat} {reading : Reading} (plain : reading.next.kind ∉
      [Kind.forWord, .ifWord, .printWord, .returnWord, .leftBrace, .whileWord]) :
    statement (bound + 1) reading = expressionStatement (expression bound) reading := by
  unfold statement
  refine (bind_ok (show next reading = .ok reading.next reading from rfl)).trans (congrFun ?_ _)
  split
  case h_7 => rfl
  all_goals
    rename_i fits
    exact absurd (by simp [fits]) plain

end Choices

end Lox.Rule
