import Lox.Machine
import Lox.Proofs.Joining.Origins
import Lox.Proofs.Renaming.Relabel
import Mathlib.Data.List.Forall2
import Mathlib.Data.Option.Basic

/-!
Values of two runs that keep abreast. Their programs are one and the same tree, but its
tokens may stand at other lines in the one than in the other. A leeway says which lines
may stand for each other, and of which numbers both runs know the bonds.
-/

namespace Lox

structure Leeway where
  /-- The lines at which one token may stand in the two runs. -/
  line : Nat → Nat → Prop
  /-- The numbers whose bonds both runs know alike. -/
  known : Nat → Prop
  /-- What the second run had written before, newest first. -/
  earlier : List String

namespace Leeway

/-- The second token is the first one, but for its line. -/
structure Matches (leeway : Leeway) (token token' : Token) : Prop where
  kind : token'.kind = token.kind
  lexeme : token'.lexeme = token.lexeme
  line : leeway.line token.line token'.line

/-- The second leeway allows for all that the first one does. -/
structure Within (leeway wider : Leeway) : Prop where
  line : ∀ line line', leeway.line line line' → wider.line line line'
  known : ∀ id, leeway.known id → wider.known id

theorem Matches.widen {leeway wider : Leeway} {token token' : Token}
    (pair : leeway.Matches token token') (allows : leeway.Within wider) :
    wider.Matches token token' :=
  ⟨pair.kind, pair.lexeme, allows.line _ _ pair.line⟩

end Leeway

/-- Two ways to label a tree that differ in the lines of its tokens only. -/
structure Node.Twins (leeway : Leeway) (labels labels' : Labels) (node : Node) : Prop where
  tokens : node.From fun token => leeway.Matches (labels.token token) (labels'.token token)
  places : ∀ place ∈ node.occurrences,
    labels'.number place.id = labels.number place.id ∧ leeway.known (labels.number place.id)

namespace Node.Twins

variable {leeway wider : Leeway} {labels labels' : Labels} {node : Node}

theorem part (twins : node.Twins leeway labels labels') {inner : Node}
    (isPart : inner ∈ node.parts) : inner.Twins leeway labels labels' where
  tokens := (from_iff.mp twins.tokens).2 inner isPart
  places place inside := twins.places place (part_occurrences isPart inside)

theorem own (twins : node.Twins leeway labels labels') {token : Token}
    (isOwn : token ∈ node.ownTokens) :
    leeway.Matches (labels.token token) (labels'.token token) :=
  (from_iff.mp twins.tokens).1 token isOwn

theorem widen (twins : node.Twins leeway labels labels') (allows : leeway.Within wider) :
    node.Twins wider labels labels' where
  tokens inner contained token isOwn := (twins.tokens inner contained token isOwn).widen allows
  places place inside := (twins.places place inside).imp_right (allows.known _)

end Node.Twins

/-- Two occurrences of one name with one number. -/
structure Occurrence.Twins (leeway : Leeway) (place place' : Occurrence) : Prop where
  id : place'.id = place.id
  known : leeway.known place.id
  name : leeway.Matches place.name place'.name

theorem Node.Twins.place {leeway : Leeway} {labels labels' : Labels} {node : Node}
    (twins : node.Twins leeway labels labels') {place : Occurrence}
    (isPlace : node.place? = some place) :
    (place.relabel labels).Twins leeway (place.relabel labels') := by
  obtain ⟨id, known⟩ := twins.places place (own_occurrence isPlace)
  refine ⟨id, known, twins.own ?_⟩
  unfold Node.place? at isPlace
  split at isPlace <;> cases isPlace <;> exact List.mem_cons_self

/-- One routine at two places. -/
def Routine.Abreast (leeway : Leeway) (routine routine' : Routine) : Prop :=
  ∃ (tree : Routine) (labels labels' : Labels), (Node.routine tree).Twins leeway labels labels' ∧
    routine = tree.relabel labels ∧ routine' = tree.relabel labels'

structure Closure.Abreast (leeway : Leeway) (closure closure' : Closure) : Prop where
  scope : closure'.scope = closure.scope
  yieldsReceiver : closure'.yieldsReceiver = closure.yieldsReceiver
  routine : closure.routine.Abreast leeway closure'.routine

/-- The same names, with entries that belong together. -/
def Names.Abreast {α : Type} (related : α → α → Prop) (names names' : Names α) : Prop :=
  ∀ name, Option.Rel related (names.find? name) (names'.find? name)

inductive Class.Abreast (leeway : Leeway) : Class → Class → Prop where
  | base {identity : Nat} {name : String}
      {methods methods' classMethods classMethods' : Names Closure}
      (first : methods.Abreast (Closure.Abreast leeway) methods')
      (second : classMethods.Abreast (Closure.Abreast leeway) classMethods') :
      Abreast leeway ⟨identity, name, methods, classMethods, none⟩
        ⟨identity, name, methods', classMethods', none⟩
  | derived {identity : Nat} {name : String}
      {methods methods' classMethods classMethods' : Names Closure} {superclass superclass' : Class}
      (first : methods.Abreast (Closure.Abreast leeway) methods')
      (second : classMethods.Abreast (Closure.Abreast leeway) classMethods')
      (above : Abreast leeway superclass superclass') :
      Abreast leeway ⟨identity, name, methods, classMethods, some superclass⟩
        ⟨identity, name, methods', classMethods', some superclass'⟩

inductive Value.Abreast (leeway : Leeway) : Value → Value → Prop where
  | nil : Abreast leeway .nil .nil
  | boolean (value : Bool) : Abreast leeway (.boolean value) (.boolean value)
  | number (value : Float) : Abreast leeway (.number value) (.number value)
  | string (text : String) : Abreast leeway (.string text) (.string text)
  | native (provided : Native) : Abreast leeway (.native provided) (.native provided)
  | function (identity : Nat) {closure closure' : Closure}
      (inside : closure.Abreast leeway closure') :
      Abreast leeway (.function identity closure) (.function identity closure')
  | classValue {cls cls' : Class} (inside : cls.Abreast leeway cls') :
      Abreast leeway (.classValue cls) (.classValue cls')
  | object (identity : Nat) {cls cls' : Class} (inside : cls.Abreast leeway cls') :
      Abreast leeway (.object identity cls) (.object identity cls')

inductive Completion.Abreast (leeway : Leeway) : Completion → Completion → Prop where
  | normal : Abreast leeway .normal .normal
  | returned {value value' : Value} (same : value.Abreast leeway value') :
      Abreast leeway (.returned value) (.returned value')

inductive Callable.Abreast (leeway : Leeway) : Callable → Callable → Prop where
  | native (provided : Native) : Abreast leeway (.native provided) (.native provided)
  | closure {declared declared' : Closure} (inside : declared.Abreast leeway declared') :
      Abreast leeway (.closure declared) (.closure declared')
  | construction {cls cls' : Class} (inside : cls.Abreast leeway cls') :
      Abreast leeway (.construction cls) (.construction cls')

section Options

variable {α : Type} {related wider : α → α → Prop} {one one' other other' : Option α}

theorem option_abreast_imp (both : Option.Rel related one one')
    (implies : ∀ value value', related value value' → wider value value') :
    Option.Rel wider one one' := by
  cases both with
  | none => exact .none
  | some inside => exact .some (implies _ _ inside)

theorem option_abreast_or (first : Option.Rel related one one')
    (second : Option.Rel related other other') :
    Option.Rel related (one.or other) (one'.or other') := by
  cases first with
  | none => exact second
  | some inside => exact .some inside

end Options

section Wider

variable {leeway wider : Leeway} (allows : leeway.Within wider)

include allows

theorem Closure.Abreast.widen {closure closure' : Closure}
    (abreast : closure.Abreast leeway closure') : closure.Abreast wider closure' where
  scope := abreast.scope
  yieldsReceiver := abreast.yieldsReceiver
  routine := by
    obtain ⟨tree, labels, labels', twins, same, same'⟩ := abreast.routine
    exact ⟨tree, labels, labels', twins.widen allows, same, same'⟩

theorem Class.Abreast.widen {cls cls' : Class} (abreast : cls.Abreast leeway cls') :
    cls.Abreast wider cls' := by
  have methods {methods methods' : Names Closure}
      (same : methods.Abreast (Closure.Abreast leeway) methods') :
      methods.Abreast (Closure.Abreast wider) methods' :=
    fun name => option_abreast_imp (same name) fun _ _ inside => inside.widen allows
  induction abreast with
  | base first second => exact .base (methods first) (methods second)
  | derived first second above induction =>
      exact .derived (methods first) (methods second) induction

theorem Value.Abreast.widen {value value' : Value} (abreast : value.Abreast leeway value') :
    value.Abreast wider value' := by
  cases abreast with
  | nil => exact .nil
  | boolean value => exact .boolean value
  | number value => exact .number value
  | string text => exact .string text
  | native provided => exact .native provided
  | function identity inside => exact .function identity (inside.widen allows)
  | classValue inside => exact .classValue (inside.widen allows)
  | object identity inside => exact .object identity (inside.widen allows)

end Wider

section

variable {leeway : Leeway}

namespace Node.Twins

variable {labels labels' : Labels}

theorem lexemes {node : Node} (twins : node.Twins leeway labels labels') {tokens : List Token}
    (own : ∀ token ∈ tokens, token ∈ node.ownTokens) :
    (tokens.map labels'.token).map Token.lexeme = (tokens.map labels.token).map Token.lexeme := by
  rw [List.map_map, List.map_map]
  exact List.map_congr_left fun token member => (twins.own (own token member)).lexeme

theorem each_routine {declared : List Routine}
    (twins : (Node.routines declared).Twins leeway labels labels') :
    List.Forall₂ (Routine.Abreast leeway) (Routine.relabelAll labels declared)
      (Routine.relabelAll labels' declared) := by
  induction declared with
  | nil => exact .nil
  | cons first rest induction =>
      have head : (Node.routine first).Twins leeway labels labels' :=
        twins.part (by simp [Node.parts])
      exact .cons ⟨first, labels, labels', head, rfl, rfl⟩
        (induction (twins.part (by simp [Node.parts])))

end Node.Twins

namespace Routine.Abreast

variable {routine routine' : Routine} (abreast : routine.Abreast leeway routine')

include abreast

theorem same_name : routine'.name.map Token.lexeme = routine.name.map Token.lexeme := by
  obtain ⟨⟨name, parameters, body⟩, labels, labels', twins, rfl, rfl⟩ := abreast
  cases name with
  | none => rfl
  | some name => exact congrArg some (twins.own (List.mem_cons_self)).lexeme

theorem same_parameters : routine'.parameters.map (List.map Token.lexeme) =
    routine.parameters.map (List.map Token.lexeme) := by
  obtain ⟨⟨name, parameters, body⟩, labels, labels', twins, rfl, rfl⟩ := abreast
  cases parameters with
  | none => rfl
  | some tokens =>
      exact congrArg some (twins.lexemes fun token member => List.mem_append_right _ member)

theorem same_getter : routine'.isGetter = routine.isGetter := by
  have same := congrArg Option.isNone abreast.same_parameters
  rwa [Option.isNone_map, Option.isNone_map] at same

theorem same_label : routine'.label = routine.label := by
  rw [Routine.label, Routine.label, abreast.same_name]

/-- The names that arguments are bound to. -/
theorem same_arguments : (routine'.parameters.getD []).map Token.lexeme =
    (routine.parameters.getD []).map Token.lexeme := by
  have same := congrArg (Option.getD · []) abreast.same_parameters
  cases first : routine.parameters <;> cases second : routine'.parameters <;>
    simp_all

theorem same_arity : routine'.arity = routine.arity := by
  have same := congrArg List.length abreast.same_arguments
  rwa [List.length_map, List.length_map, ← Routine.arity_eq, ← Routine.arity_eq] at same

end Routine.Abreast

namespace Names.Abreast

variable {α : Type} {related : α → α → Prop} {names names' : Names α}

theorem empty : Names.empty.Abreast related Names.empty := fun _ => .none

theorem set (abreast : names.Abreast related names') (name : String) {value value' : α}
    (same : related value value') :
    (names.set name value).Abreast related (names'.set name value') := by
  intro key
  rw [find_set, find_set]
  split_ifs
  · exact .some same
  · exact abreast key

theorem of_list {entries entries' : List (String × α)}
    (both : List.Forall₂ (fun entry entry' => entry'.1 = entry.1 ∧ related entry.2 entry'.2)
      entries entries') : (ofList entries).Abreast related (ofList entries') := by
  have fold {names names' : Names α} (start : names.Abreast related names') :
      (entries.foldl (fun names entry => names.set entry.1 entry.2) names).Abreast related
        (entries'.foldl (fun names entry => names.set entry.1 entry.2) names') := by
    induction both generalizing names names' with
    | nil => exact start
    | cons first rest induction =>
        rw [List.foldl_cons, List.foldl_cons, first.1]
        exact induction (set start _ first.2)
  exact fold empty

theorem single (name : String) {value value' : α} (same : related value value') :
    (ofList [(name, value)]).Abreast related (ofList [(name, value')]) :=
  of_list (.cons ⟨rfl, same⟩ .nil)

end Names.Abreast

theorem method_table_abreast {declared declared' : List Routine}
    (each : List.Forall₂ (Routine.Abreast leeway) declared declared') (scope : ScopeId)
    (initializers : Bool) : (Run.methodTable declared scope initializers).Abreast
      (Closure.Abreast leeway) (Run.methodTable declared' scope initializers) := by
  refine .of_list ?_
  rw [List.forall₂_map_left_iff, List.forall₂_map_right_iff]
  refine each.imp fun routine routine' same => ⟨same.same_label, rfl, ?_, same⟩
  rw [same.same_label]

theorem parameter_names_abreast {routine routine' : Routine} {arguments arguments' : List Value}
    (same : routine.Abreast leeway routine')
    (values : List.Forall₂ (Value.Abreast leeway) arguments arguments') :
    (Run.parameterNames routine arguments).Abreast (Value.Abreast leeway)
      (Run.parameterNames routine' arguments') := by
  refine .of_list ?_
  rw [same.same_arguments]
  generalize (routine.parameters.getD []).map Token.lexeme = names
  induction values generalizing names with
  | nil => cases names <;> exact .nil
  | cons first rest induction =>
      cases names with
      | nil => exact .nil
      | cons name names => exact .cons ⟨rfl, first⟩ (induction names)

namespace Class.Abreast

variable {cls cls' : Class}

theorem same_name (abreast : cls.Abreast leeway cls') : cls'.name = cls.name := by
  cases abreast <;> rfl

theorem same_identity (abreast : cls.Abreast leeway cls') : cls'.identity = cls.identity := by
  cases abreast <;> rfl

theorem method (abreast : cls.Abreast leeway cls') (name : String) :
    Option.Rel (Closure.Abreast leeway) (cls.method? name) (cls'.method? name) := by
  induction abreast with
  | base first second => exact first name
  | derived first second above induction => exact option_abreast_or (first name) induction

theorem class_method (abreast : cls.Abreast leeway cls') (name : String) :
    Option.Rel (Closure.Abreast leeway) (cls.classMethod? name) (cls'.classMethod? name) := by
  induction abreast with
  | base first second => exact second name
  | derived first second above induction => exact option_abreast_or (second name) induction

end Class.Abreast

theorem Callable.Abreast.same_arity {callable callable' : Callable}
    (abreast : callable.Abreast leeway callable') : callable'.arity = callable.arity := by
  cases abreast with
  | native provided => rfl
  | closure inside => exact inside.routine.same_arity
  | construction inside =>
      have found := inside.method initializerName
      unfold Callable.arity
      dsimp only
      generalize Class.method? initializerName _ = method at found ⊢
      generalize Class.method? initializerName _ = method' at found ⊢
      cases found with
      | none => rfl
      | some inside => exact inside.routine.same_arity

namespace Value.Abreast

variable {value value' other other' : Value}

theorem callable (abreast : value.Abreast leeway value') :
    Option.Rel (Callable.Abreast leeway) value.callable? value'.callable? := by
  cases abreast with
  | nil | boolean | number | string | object => exact .none
  | native provided => exact .some (.native provided)
  | function identity inside => exact .some (.closure inside)
  | classValue inside => exact .some (.construction inside)

theorem same_truth (abreast : value.Abreast leeway value') :
    value'.isTruthy = value.isTruthy := by
  cases abreast <;> rfl

theorem same_text (abreast : value.Abreast leeway value') : value'.text = value.text := by
  cases abreast with
  | nil | boolean | number | string | native => rfl
  | @function identity closure closure' inside =>
      have same := inside.routine.same_name
      simp only [Value.text]
      cases first : closure.routine.name <;> cases second : closure'.routine.name <;>
        simp_all
  | classValue inside => exact inside.same_name
  | object identity inside => simp only [Value.text, inside.same_name]

theorem same_same (abreast : value.Abreast leeway value')
    (others : other.Abreast leeway other') : value'.same other' = value.same other := by
  cases abreast <;> cases others
  case classValue.classValue inside _ _ inside' =>
    simp only [Value.same, inside.same_identity, inside'.same_identity]
  all_goals rfl

theorem of_literal (literal : Literal) :
    (Value.ofLiteral literal).Abreast leeway (.ofLiteral literal) := by
  cases literal <;> constructor

theorem same_unary (abreast : value.Abreast leeway value') (operator : Kind) :
    unaryResult operator value' = unaryResult operator value := by
  cases operator <;> cases abreast <;> rfl

theorem same_binary (abreast : value.Abreast leeway value')
    (others : other.Abreast leeway other') (operator : Kind) :
    binaryResult operator value' other' = binaryResult operator value other := by
  have equal := abreast.same_same others
  unfold binaryResult
  rw [equal]
  cases abreast <;> cases others <;> rfl

end Value.Abreast

/-- Operators give values that hold no code. -/
theorem unary_result_abreast {operator : Kind} {value result : Value}
    (computed : unaryResult operator value = .ok result) : result.Abreast leeway result := by
  unfold unaryResult at computed
  split at computed <;> cases computed <;> constructor

theorem binary_result_abreast {operator : Kind} {left right result : Value}
    (computed : binaryResult operator left right = .ok result) :
    result.Abreast leeway result := by
  unfold binaryResult quotient at computed
  cases operands : numberOperands left right with
  | ok pair =>
      simp only [operands, bind, Except.bind, comparison, sum] at computed
      repeat' split at computed
      all_goals cases computed <;> constructor
  | error cause =>
      simp only [operands, bind, Except.bind, comparison, sum] at computed
      repeat' split at computed
      all_goals cases computed <;> constructor

end

end Lox
