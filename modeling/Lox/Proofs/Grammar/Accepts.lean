import Lox.Proofs.Grammar.Openings
import Lox.Proofs.Grammar.Steps

/-!
What a rule gets through. An input is accepted if the rule reads a tree from it
without a complaint, whatever was read before, and what it leaves is as it should
be. Since a rule looks at the next token only, what matters about the tokens that
it must leave is the kind of the first of them.
-/

namespace Lox.Rule

variable {α β : Type}

def Accepts (rule : Rule α) (input : List Token) (good : α → List Token → Prop) : Prop :=
  ∀ nextId complaints, ∃ tree rest laterId,
    rule ⟨input, nextId, complaints⟩ = .ok tree ⟨rest, laterId, complaints⟩ ∧ good tree rest

/-- A rule reads what a phrase derives if the token after it is of a kind that may
stand there, on inputs up to some size. -/
def Handles (rule : Rule α) (phrase : Phrase) (stops : Kind → Prop) (size : Nat) : Prop :=
  ∀ tokens rest, Derives phrase tokens → stops (leading rest) → (tokens ++ rest).length ≤ size →
    rule.Accepts (tokens ++ rest) fun _ left => left = rest

namespace Accepts

variable {rule : Rule α} {input rest : List Token} {good : α → List Token → Prop}
  {wanted : β → List Token → Prop} {token : Token}

theorem weaken {wider : α → List Token → Prop} (accepts : rule.Accepts input good)
    (wide : ∀ tree rest, good tree rest → wider tree rest) : rule.Accepts input wider := by
  intro nextId complaints
  obtain ⟨tree, rest, laterId, run, holds⟩ := accepts nextId complaints
  exact ⟨tree, rest, laterId, run, wide tree rest holds⟩

theorem pure {tree : α} (holds : good tree input) : Accepts (Pure.pure tree) input good :=
  fun nextId _ => ⟨tree, input, nextId, rfl, holds⟩

theorem bind {next : α → Rule β} (first : rule.Accepts input good)
    (following : ∀ tree rest, good tree rest → (next tree).Accepts rest wanted) :
    Accepts (rule >>= next) input wanted := by
  intro nextId complaints
  obtain ⟨tree, rest, middleId, run, holds⟩ := first nextId complaints
  obtain ⟨result, left, laterId, final, reached⟩ := following tree rest holds middleId complaints
  refine ⟨result, left, laterId, ?_, reached⟩
  exact (bind_ok run).trans final

/-- Going on after a rule of which only matters what it leaves. -/
theorem leaving {next : α → Rule β} (first : rule.Accepts input fun _ left => left = rest)
    (following : ∀ tree, (next tree).Accepts rest wanted) :
    Accepts (rule >>= next) input wanted :=
  first.bind fun tree _ same => same ▸ following tree

theorem peek {next : Token → Rule β}
    (each : ∀ token, token.kind = leading input → (next token).Accepts input wanted) :
    Accepts (Rule.next >>= next) input wanted :=
  fun nextId complaints => each _ rfl nextId complaints

theorem skip {next : Unit → Rule β} (following : (next ()).Accepts rest wanted) :
    Accepts (Rule.skip >>= next) (token :: rest) wanted :=
  fun nextId complaints => following nextId complaints

theorem fresh {next : Nat → Rule β} (following : ∀ id, (next id).Accepts input wanted) :
    Accepts (Rule.fresh >>= next) input wanted :=
  fun nextId complaints => following nextId (nextId + 1) complaints

theorem accept_any {kinds : List Kind} {next : Option Token → Rule β} (fits : token.kind ∈ kinds)
    (following : ∀ found, (next (some found)).Accepts rest wanted) :
    Accepts (acceptAny kinds >>= next) (token :: rest) wanted := by
  have accepted : (acceptAny kinds).Accepts (token :: rest) fun found left =>
      found.isSome = true ∧ left = rest := by
    unfold acceptAny
    refine .peek fun looked same => ?_
    have member : kinds.contains looked.kind = true := by
      rw [same]
      exact List.contains_iff_mem.mpr fits
    rw [if_pos member]
    exact .skip (.pure ⟨rfl, rfl⟩)
  refine accepted.bind fun found left holds => ?_
  obtain ⟨isSome, rfl⟩ := holds
  obtain ⟨found, rfl⟩ := Option.isSome_iff_exists.mp isSome
  exact following found

theorem decline_any {kinds : List Kind} {next : Option Token → Rule β}
    (different : leading input ∉ kinds) (following : (next none).Accepts input wanted) :
    Accepts (acceptAny kinds >>= next) input wanted := by
  have declined : (acceptAny kinds).Accepts input fun found left =>
      found = none ∧ left = input := by
    unfold acceptAny
    refine .peek fun looked same => ?_
    have strange : ¬ kinds.contains looked.kind = true := by
      rw [same]
      simpa using different
    rw [if_neg strange]
    exact .pure ⟨rfl, rfl⟩
  refine declined.bind fun found left holds => ?_
  obtain ⟨rfl, rfl⟩ := holds
  exact following

theorem accept {kind : Kind} {next : Option Token → Rule β} (fits : token.kind = kind)
    (following : ∀ found, (next (some found)).Accepts rest wanted) :
    Accepts (Rule.accept kind >>= next) (token :: rest) wanted :=
  accept_any (List.mem_singleton.mpr fits) following

theorem decline {kind : Kind} {next : Option Token → Rule β} (different : leading input ≠ kind)
    (following : (next none).Accepts input wanted) :
    Accepts (Rule.accept kind >>= next) input wanted :=
  decline_any (fun member => different (List.mem_singleton.mp member)) following

theorem pass {kind other : Kind} {next : Option Token → Rule β} (fits : token.kind = other)
    (different : other ≠ kind) (following : (next none).Accepts (token :: rest) wanted) :
    Accepts (Rule.accept kind >>= next) (token :: rest) wanted :=
  decline (fun same => different (fits.symm.trans same)) following

theorem expected {kind : Kind} {item : Missing} (fits : token.kind = kind) :
    Accepts (Rule.expect kind item) (token :: rest) fun _ left => left = rest := by
  unfold Rule.expect
  exact .accept fits fun found => .pure rfl

theorem expect {kind : Kind} {item : Missing} {next : Token → Rule β} (fits : token.kind = kind)
    (following : ∀ found, (next found).Accepts rest wanted) :
    Accepts (Rule.expect kind item >>= next) (token :: rest) wanted :=
  (expected fits).leaving following

/-- A rule that only makes something of what another rule reads. -/
theorem finish {make : α → β} (first : rule.Accepts input fun _ left => left = rest)
    (holds : ∀ tree, wanted (make tree) rest) :
    Accepts (rule >>= fun tree => Pure.pure (make tree)) input wanted :=
  first.leaving fun tree => .pure (holds tree)

theorem some {holds : List Token → Prop} (accepts : rule.Accepts input fun _ => holds) :
    Accepts (Option.some <$> rule) input fun _ => holds := by
  rw [map_eq_pure_bind]
  exact accepts.bind fun _ _ kept => .pure kept

/-- What was announced is there. -/
theorem following {kind : Kind} {holds : List Token → Prop} (fits : token.kind = kind)
    (accepts : rule.Accepts input fun _ => holds) :
    Accepts (Rule.following kind rule) (token :: input) fun _ => holds := by
  unfold Rule.following
  exact .accept fits fun _ => accepts.some

theorem not_following {kind : Kind} (different : leading input ≠ kind) :
    Accepts (Rule.following kind rule) input fun _ left => left = input := by
  unfold Rule.following
  exact .decline different (.pure rfl)

theorem recovering (accepts : rule.Accepts input fun _ left => left = rest) :
    Accepts (Rule.recovering rule) input fun _ left => left = rest := by
  intro nextId complaints
  obtain ⟨tree, left, laterId, run, holds⟩ := accepts nextId complaints
  refine ⟨Option.some tree, left, laterId, ?_, holds⟩
  rw [Rule.recovering, run]

end Accepts

end Lox.Rule
