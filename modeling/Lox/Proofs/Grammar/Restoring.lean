import Lox.Proofs.Grammar.Completeness
import Lox.Proofs.Grammar.Traces

/-!
The reading of a normal tree is read as that tree. Operands on the left are read
before their operator is seen; what is said of them is therefore said with all
ways to go on, and the induction follows the left operands down to the first
token.
-/

namespace Lox

namespace Rule

section

variable {α β : Type} {input rest : List Token} {good : α → List Token → Prop} {token : Token}

/-- A token that is looked at is the one that comes next. -/
theorem Accepts.look {next : Token → Rule α} (each : (next token).Accepts (token :: rest) good) :
    Accepts (Rule.next >>= next) (token :: rest) good :=
  fun nextId complaints => each nextId complaints

theorem Accepts.take_any {kinds : List Kind} {next : Option Token → Rule α}
    (fits : token.kind ∈ kinds) (following : (next (Option.some token)).Accepts rest good) :
    Accepts (acceptAny kinds >>= next) (token :: rest) good := by
  have accepted : (acceptAny kinds).Accepts (token :: rest) fun found left =>
      found = Option.some token ∧ left = rest := by
    unfold acceptAny
    refine .look ?_
    rw [if_pos (List.contains_iff_mem.mpr fits)]
    exact .skip (.pure ⟨rfl, rfl⟩)
  refine accepted.bind fun found left holds => ?_
  rw [holds.1, holds.2]
  exact following

theorem Accepts.take {kind : Kind} {item : Missing} {next : Token → Rule α}
    (fits : token.kind = kind) (following : (next token).Accepts rest good) :
    Accepts (Rule.expect kind item >>= next) (token :: rest) good := by
  have expected : (Rule.expect kind item).Accepts (token :: rest) fun found left =>
      found = token ∧ left = rest := by
    unfold Rule.expect Rule.accept
    exact .take_any (List.mem_singleton.mpr fits) (.pure ⟨rfl, rfl⟩)
  refine expected.bind fun found left holds => ?_
  rw [holds.1, holds.2]
  exact following

end

/-- The rule reads every tree that is tight enough from its reading, if what
follows binds more loosely. -/
def Restores (rule : Rule Expression) (tight stop size : Nat) : Prop :=
  ∀ tree tokens rest, Expression.ReadsAs tree tight tokens → Kind.LooserThan stop (leading rest) →
    (tokens ++ rest).length ≤ size → rule.Accepts (tokens ++ rest) fun result left =>
      result.SameUpToPlaces tree ∧ left = rest

section

variable {size : Nat} {rest : List Token} {good : Expression → List Token → Prop}

theorem same_name {place : Occurrence} {token : Token}
    (describes : (Trace.kept place.name).Describes token) (id : Nat) :
    Occurrence.relabel .bare ⟨id, token⟩ = place.relabel .bare := by
  simp [Occurrence.relabel, Labels.bare, describes.1, describes.2]

end

variable {bound size : Nat}

end Rule

end Lox
