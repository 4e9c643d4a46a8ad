import Lox.Proofs.Grammar.Steps
import Lox.Proofs.Names.Node
import Mathlib.Algebra.Order.Group.Multiset
import Mathlib.Tactic.Abel
import Mathlib.Tactic.SplitIfs

/-!
Names are read once. The words of a tree are the tokens in it that stand for names,
and a rule spends words: what its tree holds together with what is left to read is
within what there was to read. So no name in a tree comes from a token that another
one has come from.
-/

namespace Lox

/-- A token for a name, with the kind that the grammar asks for in its place. -/
abbrev Word := Kind × Token

namespace Node

/-- The names that a node holds apart from its parts. -/
def ownWords : Node → List Word
  | .expression (.reference place) | .expression (.assign place _) => [(.identifier, place.name)]
  | .expression (.receiver place) => [(.selfWord, place.name)]
  | .expression (.inherited place method) => [(.superWord, place.name), (.identifier, method)]
  | .expression (.get _ name) | .expression (.set _ name _) => [(.identifier, name)]
  | .statement (.variableDeclaration name _) => [(.identifier, name)]
  | .statement (.classDeclaration name _ _ _) => [(.identifier, name)]
  | .routine declared =>
      (declared.name.toList ++ declared.parameters.getD []).map (Kind.identifier, ·)
  | _ => []

/-- All names in a node. -/
def words (node : Node) : List Word :=
  (node.parts.attach.flatMap fun part => part.1.words) ++ node.ownWords
termination_by node
decreasing_by exact part_smaller node part.1 part.2

theorem words_eq (node : Node) : node.words = node.parts.flatMap words ++ node.ownWords := by
  rw [words, List.flatMap_subtype, List.unattach_attach]
  intro part member
  rfl

/-- The names in a node, without their order. -/
def weight (node : Node) : Multiset Word := node.words

theorem weight_eq (node : Node) :
    node.weight = (node.parts.map weight).sum + (node.ownWords : Multiset Word) := by
  have sum (nodes : List Node) : ((nodes.flatMap words : List Word) : Multiset Word) =
      (nodes.map weight).sum := by
    induction nodes with
    | nil => rfl
    | cons first rest induction =>
        rw [List.flatMap_cons, ← Multiset.coe_add, induction, List.map_cons, List.sum_cons]
        rfl
  rw [weight, words_eq, ← Multiset.coe_add, sum]

end Node

/-- What a token can give to a tree. -/
def Token.weight (token : Token) : Multiset Word :=
  if token.kind ∈ [.identifier, .selfWord, .superWord] then {(token.kind, token)} else 0

/-- What is left to give to a tree. -/
def Reading.weight (reading : Reading) : Multiset Word := (reading.rest.map Token.weight).sum

theorem Reading.weight_cons (token : Token) (rest : List Token) (nextId : Nat)
    (complaints : List Complaint) : (Reading.mk (token :: rest) nextId complaints).weight =
      token.weight + (Reading.mk rest nextId complaints).weight := by
  rw [weight, List.map_cons, List.sum_cons, weight]

namespace Rule

variable {α β : Type} {credit : Multiset Word} {value : α → Multiset Word}
  {other : β → Multiset Word} {rule : Rule α}

/-- With some words at hand already, the rule makes a tree out of these and of what is
read. -/
def SpendsAt (credit : Multiset Word) (value : α → Multiset Word) (rule : Rule α)
    (reading : Reading) : Prop :=
  match rule reading with
  | .ok tree after => value tree + after.weight ≤ credit + reading.weight
  | .error _ after => after.weight ≤ credit + reading.weight

def Spends (credit : Multiset Word) (value : α → Multiset Word) (rule : Rule α) : Prop :=
  ∀ reading, rule.SpendsAt credit value reading

theorem pure_spends {tree : α} (within : value tree ≤ credit) :
    (pure tree : Rule α).Spends credit value :=
  fun reading => add_le_add_left within reading.weight

theorem spends_more (spends : rule.Spends 0 value) (credit : Multiset Word) :
    rule.Spends credit fun tree => credit + value tree := by
  intro reading
  have spent := spends reading
  unfold SpendsAt at spent ⊢
  cases ended : rule reading with
  | ok tree after =>
      rw [ended] at spent
      dsimp only at spent ⊢
      rw [zero_add] at spent
      rw [add_assoc]
      exact add_le_add_right spent credit
  | error complaint after =>
      rw [ended] at spent
      dsimp only at spent ⊢
      rw [zero_add] at spent
      exact spent.trans (Multiset.le_add_left _ _)

theorem bind_spends {following : α → Rule β} (first : rule.Spends 0 value)
    (rest : ∀ tree, (following tree).Spends (credit + value tree) other) :
    (rule >>= following).Spends credit other := by
  intro reading
  have spent := spends_more first credit reading
  unfold SpendsAt at *
  cases ended : rule reading with
  | ok tree after =>
      rw [ended] at spent
      rw [bind_ok ended]
      have later := rest tree after
      unfold SpendsAt at later
      dsimp only at spent
      cases finished : following tree after <;> rw [finished] at later <;>
        exact later.trans spent
  | error complaint after =>
      rw [ended] at spent
      rw [bind_error ended]
      exact spent

/-- What comes to nothing can be left out. -/
theorem idle_spends {following : α → Rule β} (first : rule.Spends 0 fun _ => 0)
    (rest : ∀ tree, (following tree).Spends credit other) :
    (rule >>= following).Spends credit other :=
  bind_spends first fun tree => by rw [add_zero]; exact rest tree

theorem map_spends {make : α → β} (spends : rule.Spends 0 value)
    (within : ∀ tree, other (make tree) ≤ value tree) : (make <$> rule).Spends 0 other := by
  rw [map_eq_pure_bind]
  refine bind_spends spends fun tree => pure_spends ?_
  rw [zero_add]
  exact within tree

theorem next_spends : next.Spends 0 fun _ => 0 := fun _ => le_rfl

/-- A rule that looks at what comes next before it goes on. -/
theorem peek_spends {following : Token → Rule β}
    (each : ∀ reading : Reading, (following reading.next).SpendsAt credit other reading) :
    (next >>= following).Spends credit other := each

/-- A token that is stepped over can be had. -/
theorem weight_drop (reading : Reading) :
    reading.next.weight + (Reading.weight { reading with rest := reading.rest.drop 1 }) ≤
      reading.weight := by
  obtain ⟨rest, nextId, complaints⟩ := reading
  cases rest with
  | nil => exact le_rfl
  | cons token rest => exact (Reading.weight_cons token rest nextId complaints).ge

theorem skip_spends : skip.Spends 0 fun _ => 0 := by
  intro reading
  exact add_le_add_right ((Multiset.le_add_left _ _).trans (weight_drop reading)) 0

theorem missing_spends (item : Missing) : (missing item : Rule α).Spends credit value := by
  refine idle_spends next_spends fun token reading => ?_
  exact Multiset.le_add_left _ _

theorem note_spends (place : Token) (cause : SyntaxError) :
    (note place cause).Spends 0 fun _ => 0 :=
  fun _ => le_rfl

theorem fresh_spends : fresh.Spends 0 fun _ => 0 := fun _ => le_rfl

/-- Of most tokens nothing is kept. -/
theorem accept_any_spends (kinds : List Kind) : (acceptAny kinds).Spends 0 fun _ => 0 := by
  intro reading
  unfold SpendsAt
  rw [accept_any_eq]
  split_ifs
  · exact skip_spends reading
  · exact le_rfl

theorem accept_spends (kind : Kind) : (accept kind).Spends 0 fun _ => 0 := accept_any_spends [kind]

theorem expect_spends (kind : Kind) (item : Missing) : (expect kind item).Spends 0 fun _ => 0 := by
  refine idle_spends (accept_spends kind) fun found => ?_
  cases found with
  | none => exact missing_spends item
  | some token => exact pure_spends le_rfl

theorem name_weight {token : Token} {kind : Kind} (isKind : token.kind = kind)
    (isName : kind ∈ [Kind.identifier, .selfWord, .superWord]) :
    token.weight = {(kind, token)} := by
  subst isKind
  exact if_pos isName

/-- A name is had by stepping over it. -/
theorem skip_name_spends {following : Rule β} {reading : Reading} {kind : Kind}
    (isKind : reading.next.kind = kind) (isName : kind ∈ [Kind.identifier, .selfWord, .superWord])
    (rest : following.Spends {(kind, reading.next)} other) :
    (skip >>= fun _ => following).SpendsAt 0 other reading := by
  have spent := weight_drop reading
  rw [name_weight isKind isName] at spent
  have later := rest { reading with rest := reading.rest.drop 1 }
  change following.SpendsAt _ _ _ at later
  change SpendsAt 0 other (fun _ => following { reading with rest := reading.rest.drop 1 }) reading
  unfold SpendsAt at later ⊢
  rw [zero_add]
  cases finished : following { reading with rest := reading.rest.drop 1 } <;>
    rw [finished] at later <;> exact later.trans spent

theorem expect_name_spends (item : Missing) :
    (expect .identifier item).Spends 0 fun name => {(.identifier, name)} := by
  intro reading
  change SpendsAt 0 _ (EStateM.bind (acceptAny [.identifier]) _) reading
  unfold SpendsAt EStateM.bind
  rw [accept_any_eq]
  split_ifs with isName
  · have kind : reading.next.kind = .identifier := by simpa using isName
    have spent := weight_drop reading
    rw [name_weight kind List.mem_cons_self] at spent
    exact spent.trans (Multiset.le_add_left _ _)
  · have refused : (missing item : Rule Token).Spends 0 fun name => {(Kind.identifier, name)} :=
      missing_spends item
    exact refused reading

theorem comma_separated_spends {item : Rule α} (each : item.Spends 0 value) (excess : SyntaxError)
    (bound count : Nat) :
    (commaSeparated item excess bound count).Spends 0 fun trees => (trees.map value).sum := by
  induction bound generalizing count with
  | zero => exact missing_spends _
  | succ bound induction =>
      have others : Spends 0 (fun trees => (trees.map value).sum)
          (items item (commaSeparated item excess bound (count + 1))) := by
        refine bind_spends each fun first => idle_spends (accept_spends _) fun comma => ?_
        cases comma with
        | none => exact pure_spends (by simp)
        | some comma => exact bind_spends (induction _) fun rest => pure_spends (by simp)
      rw [comma_separated_succ]
      split_ifs
      · exact idle_spends next_spends fun token => idle_spends (note_spends _ _) fun _ => others
      · exact others

theorem from_boundary_suffix (afterSemicolon : Bool) (tokens : List Token) :
    fromBoundary afterSemicolon tokens <:+ tokens := by
  induction tokens generalizing afterSemicolon with
  | nil => exact List.suffix_rfl
  | cons token rest induction =>
      rw [fromBoundary]
      split_ifs
      · exact List.suffix_rfl
      · exact (induction _).trans (List.suffix_cons _ _)

theorem resume_weight (reading : Reading) : reading.resume.weight ≤ reading.weight := by
  obtain ⟨rest, nextId, complaints⟩ := reading
  cases rest with
  | nil => exact le_rfl
  | cons token rest =>
      unfold Reading.resume
      dsimp only
      split_ifs
      · exact le_rfl
      · obtain ⟨skipped, split⟩ := from_boundary_suffix (decide (token.kind = .semicolon)) rest
        rw [Reading.weight_cons]
        refine le_trans ?_ (Multiset.le_add_left _ _)
        unfold Reading.weight
        rw [← split, List.map_append, List.sum_append]
        simp only [split]
        exact Multiset.le_add_left _ _

theorem recovering_spends (spends : rule.Spends 0 value) :
    (recovering rule).Spends 0 fun found => found.elim 0 value := by
  intro reading
  have spent := spends reading
  unfold SpendsAt at spent ⊢
  unfold recovering
  cases ended : rule reading <;> rw [ended] at spent
  · exact spent
  · next complaint after =>
      dsimp only at spent ⊢
      exact (add_le_add_right (resume_weight after) _).trans ((zero_add _).le.trans spent)

theorem declarations_spends (each : rule.Spends 0 value) (closes : Kind → Bool) (bound : Nat) :
    (declarations rule closes bound).Spends 0 fun trees => (trees.map value).sum := by
  induction bound with
  | zero => exact pure_spends le_rfl
  | succ bound induction =>
      refine idle_spends next_spends fun token => ?_
      split_ifs
      · exact pure_spends le_rfl
      · refine bind_spends (recovering_spends each) fun first => bind_spends induction fun others =>
          pure_spends ?_
        cases first <;> simp

end Rule

end Lox
