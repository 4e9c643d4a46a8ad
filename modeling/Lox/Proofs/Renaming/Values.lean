import Lox.Machine
import Lox.Proofs.Renaming.Likeness
import Mathlib.Data.List.Infix

/-!
Values of two runs that are alike. Functions have routines that are alike among
the scopes that they were made in, and everything else is the same. The views say
of each scope which of the scopes from it outwards are renamed; as a run goes on
there are more of them, and what was alike stays so.
-/

namespace Lox

/-- For each scope of a run the flags of the scopes from it outwards. -/
abbrev Views := List (List Bool)

theorem Views.kept {views later : Views} {id : ScopeId} {flags : List Bool}
    (grows : views <+: later) (view : views[id]? = some flags) : later[id]? = some flags := by
  obtain ⟨more, rfl⟩ := grows
  rw [List.getElem?_append_left (List.getElem?_eq_some_iff.mp view).1, view]

theorem Views.before {views : Views} {id : ScopeId} {flags view : List Bool}
    (found : (views ++ [view])[id]? = some flags) (earlier : id ≠ views.length) :
    views[id]? = some flags := by
  have bound := (List.getElem?_eq_some_iff.mp found).1
  rw [List.length_append, List.length_singleton] at bound
  rwa [List.getElem?_append_left (Nat.lt_of_le_of_ne (Nat.lt_succ_iff.mp bound) earlier)] at found

section Options

variable {α β : Type} {related wider : α → β → Prop} {found : Option α} {found' : Option β}

theorem option_rel_imp (both : Option.Rel related found found')
    (implies : ∀ value value', related value value' → wider value value') :
    Option.Rel wider found found' := by
  cases both with
  | none => exact .none
  | some inside => exact .some (implies _ _ inside)

theorem option_rel_is_some (both : Option.Rel related found found') :
    found'.isSome = found.isSome := by
  cases both <;> rfl

end Options

/-- Closures of the same scope. Methods have scopes of their own between that one
and their routine. -/
structure Closure.Alike (recast : Recast) (views : Views) (own : List Bool)
    (closure closure' : Closure) : Prop where
  scope : closure'.scope = closure.scope
  yieldsReceiver : closure'.yieldsReceiver = closure.yieldsReceiver
  routine : ∃ flags, views[closure.scope]? = some flags ∧
    (Node.routine closure.routine).Alike recast (own ++ flags) (.routine closure'.routine)

/-- A name leads to methods that are alike, or to none. -/
def Names.MethodsAlike (recast : Recast) (views : Views) (methods methods' : Names Closure) :
    Prop :=
  ∀ name, Option.Rel (Closure.Alike recast views [false]) (methods.find? name)
    (methods'.find? name)

inductive Class.Alike (recast : Recast) (views : Views) : Class → Class → Prop where
  | base {identity : Nat} {name : String}
      {methods methods' classMethods classMethods' : Names Closure}
      (first : methods.MethodsAlike recast views methods')
      (second : classMethods.MethodsAlike recast views classMethods') :
      Alike recast views ⟨identity, name, methods, classMethods, none⟩
        ⟨identity, name, methods', classMethods', none⟩
  | derived {identity : Nat} {name : String}
      {methods methods' classMethods classMethods' : Names Closure} {superclass superclass' : Class}
      (first : methods.MethodsAlike recast views methods')
      (second : classMethods.MethodsAlike recast views classMethods')
      (above : Alike recast views superclass superclass') :
      Alike recast views ⟨identity, name, methods, classMethods, some superclass⟩
        ⟨identity, name, methods', classMethods', some superclass'⟩

inductive Value.Alike (recast : Recast) (views : Views) : Value → Value → Prop where
  | nil : Alike recast views .nil .nil
  | boolean (value : Bool) : Alike recast views (.boolean value) (.boolean value)
  | number (value : Float) : Alike recast views (.number value) (.number value)
  | string (text : String) : Alike recast views (.string text) (.string text)
  | native (provided : Native) : Alike recast views (.native provided) (.native provided)
  | function (identity : Nat) {closure closure' : Closure}
      (inside : closure.Alike recast views [] closure') :
      Alike recast views (.function identity closure) (.function identity closure')
  | classValue {cls cls' : Class} (inside : cls.Alike recast views cls') :
      Alike recast views (.classValue cls) (.classValue cls')
  | object (identity : Nat) {cls cls' : Class} (inside : cls.Alike recast views cls') :
      Alike recast views (.object identity cls) (.object identity cls')

inductive Completion.Alike (recast : Recast) (views : Views) : Completion → Completion → Prop where
  | normal : Alike recast views .normal .normal
  | returned {value value' : Value} (same : value.Alike recast views value') :
      Alike recast views (.returned value) (.returned value')

section Later

variable {recast : Recast} {views wider : Views} (grows : views <+: wider)

include grows

theorem Closure.Alike.later {own : List Bool} {closure closure' : Closure}
    (alike : closure.Alike recast views own closure') :
    closure.Alike recast wider own closure' where
  scope := alike.scope
  yieldsReceiver := alike.yieldsReceiver
  routine := by
    obtain ⟨flags, view, inside⟩ := alike.routine
    exact ⟨flags, Views.kept grows view, inside⟩

theorem Names.MethodsAlike.later {methods methods' : Names Closure}
    (alike : methods.MethodsAlike recast views methods') :
    methods.MethodsAlike recast wider methods' :=
  fun name => option_rel_imp (alike name) fun _ _ inside => inside.later grows

theorem Class.Alike.later {cls cls' : Class} (alike : cls.Alike recast views cls') :
    cls.Alike recast wider cls' := by
  induction alike with
  | base first second => exact .base (first.later grows) (second.later grows)
  | derived first second above induction =>
      exact .derived (first.later grows) (second.later grows) induction

theorem Value.Alike.later {value value' : Value} (alike : value.Alike recast views value') :
    value.Alike recast wider value' := by
  cases alike with
  | nil => exact .nil
  | boolean value => exact .boolean value
  | number value => exact .number value
  | string text => exact .string text
  | native provided => exact .native provided
  | function identity inside => exact .function identity (inside.later grows)
  | classValue inside => exact .classValue (inside.later grows)
  | object identity inside => exact .object identity (inside.later grows)

end Later

section

variable {recast : Recast} {views : Views}

theorem Node.Alike.each_routine {flags : List Bool} {declared declared' : List Routine}
    (alike : (Node.routines declared).Alike recast flags (.routines declared')) :
    List.Forall₂ (fun first first' => (Node.routine first).Alike recast flags (.routine first'))
      declared declared' := by
  induction declared generalizing declared' with
  | nil =>
      cases alike
      exact .nil
  | cons first rest induction =>
      cases alike with
      | routines head tail => exact .cons head (induction tail)

theorem Node.Alike.same_name {flags : List Bool} {routine routine' : Routine}
    (alike : (Node.routine routine).Alike recast flags (.routine routine')) :
    routine'.name = routine.name := by
  cases alike
  rfl

theorem Node.Alike.same_arity {flags : List Bool} {routine routine' : Routine}
    (alike : (Node.routine routine).Alike recast flags (.routine routine')) :
    routine'.arity = routine.arity := by
  cases alike with
  | routine renamed spells inside =>
      cases spells with
      | none => rfl
      | some spells => exact spells.length_eq.symm

theorem Node.Alike.same_getter {flags : List Bool} {routine routine' : Routine}
    (alike : (Node.routine routine).Alike recast flags (.routine routine')) :
    routine'.isGetter = routine.isGetter := by
  cases alike with
  | routine renamed spells inside => cases spells <;> rfl

theorem Node.Alike.same_label {flags : List Bool} {routine routine' : Routine}
    (alike : (Node.routine routine).Alike recast flags (.routine routine')) :
    routine'.label = routine.label := by rw [Routine.label, Routine.label, alike.same_name]

namespace Names.MethodsAlike

variable {methods methods' : Names Closure}

theorem set (alike : methods.MethodsAlike recast views methods') (name : String)
    {closure closure' : Closure} (same : closure.Alike recast views [false] closure') :
    (methods.set name closure).MethodsAlike recast views (methods'.set name closure') := by
  intro key
  rw [find_set, find_set]
  split_ifs
  · exact .some same
  · exact alike key

section Tables

variable {scope : ScopeId} {flags : List Bool} {declared declared' : List Routine}
  (view : views[scope]? = some flags) (initializers : Bool)

include view

theorem fold (alike : methods.MethodsAlike recast views methods')
    (each : List.Forall₂ (fun first first' =>
      (Node.routine first).Alike recast (false :: flags) (.routine first')) declared declared') :
    ((declared.map fun routine => (routine.label,
        Closure.mk routine scope (initializers && routine.label = initializerName))).foldl
          (fun names entry => names.set entry.1 entry.2) methods).MethodsAlike recast views
      ((declared'.map fun routine => (routine.label,
        Closure.mk routine scope (initializers && routine.label = initializerName))).foldl
          (fun names entry => names.set entry.1 entry.2) methods') := by
  induction each generalizing methods methods' with
  | nil => exact alike
  | cons first rest induction =>
      rw [List.map_cons, List.map_cons, List.foldl_cons, List.foldl_cons, first.same_label]
      exact induction (alike.set _ ⟨rfl, rfl, flags, view, first⟩)

theorem of_table
    (inside : (Node.routines declared).Alike recast (false :: flags) (.routines declared')) :
    (Run.methodTable declared scope initializers).MethodsAlike recast views
      (Run.methodTable declared' scope initializers) :=
  fold view initializers (fun _ => .none) inside.each_routine

end Tables

end Names.MethodsAlike

namespace Class.Alike

variable {cls cls' : Class}

theorem same_name (alike : cls.Alike recast views cls') : cls'.name = cls.name := by
  cases alike <;> rfl

theorem same_identity (alike : cls.Alike recast views cls') : cls'.identity = cls.identity := by
  cases alike <;> rfl

theorem found_or {first first' second second' : Option Closure} {own : List Bool}
    (one : Option.Rel (Closure.Alike recast views own) first first')
    (other : Option.Rel (Closure.Alike recast views own) second second') :
    Option.Rel (Closure.Alike recast views own) (first.or second) (first'.or second') := by
  cases one with
  | none => exact other
  | some inside => exact .some inside

theorem method (alike : cls.Alike recast views cls') (name : String) :
    Option.Rel (Closure.Alike recast views [false]) (cls.method? name) (cls'.method? name) := by
  induction alike with
  | base first second => exact first name
  | derived first second above induction => exact found_or (first name) induction

theorem class_method (alike : cls.Alike recast views cls') (name : String) :
    Option.Rel (Closure.Alike recast views [false]) (cls.classMethod? name)
      (cls'.classMethod? name) := by
  induction alike with
  | base first second => exact second name
  | derived first second above induction => exact found_or (second name) induction

end Class.Alike

inductive Callable.Alike (recast : Recast) (views : Views) : Callable → Callable → Prop where
  | native (provided : Native) : Alike recast views (.native provided) (.native provided)
  | closure {declared declared' : Closure} (inside : declared.Alike recast views [] declared') :
      Alike recast views (.closure declared) (.closure declared')
  | construction {cls cls' : Class} (inside : cls.Alike recast views cls') :
      Alike recast views (.construction cls) (.construction cls')

theorem Callable.Alike.same_arity {callable callable' : Callable}
    (alike : callable.Alike recast views callable') : callable'.arity = callable.arity := by
  cases alike with
  | native provided => rfl
  | closure inside =>
      obtain ⟨flags, -, routine⟩ := inside.routine
      exact routine.same_arity
  | construction inside =>
      have found := inside.method initializerName
      unfold Callable.arity
      dsimp only
      generalize Class.method? initializerName _ = method at found ⊢
      generalize Class.method? initializerName _ = method' at found ⊢
      cases found with
      | none => rfl
      | some inside =>
          obtain ⟨flags, -, routine⟩ := inside.routine
          exact routine.same_arity

namespace Value.Alike

variable {value value' other other' : Value}

theorem callable (alike : value.Alike recast views value') :
    Option.Rel (Callable.Alike recast views) value.callable? value'.callable? := by
  cases alike with
  | nil | boolean | number | string | object => exact .none
  | native provided => exact .some (.native provided)
  | function identity inside => exact .some (.closure inside)
  | classValue inside => exact .some (.construction inside)

theorem same_truth (alike : value.Alike recast views value') :
    value'.isTruthy = value.isTruthy := by
  cases alike <;> rfl

theorem same_text (alike : value.Alike recast views value') : value'.text = value.text := by
  cases alike with
  | nil | boolean | number | string | native => rfl
  | function identity inside =>
      obtain ⟨flags, -, routine⟩ := inside.routine
      simp only [Value.text, routine.same_name]
  | classValue inside => exact inside.same_name
  | object identity inside => simp only [Value.text, inside.same_name]

theorem same_same (alike : value.Alike recast views value')
    (others : other.Alike recast views other') : value'.same other' = value.same other := by
  cases alike <;> cases others
  case classValue.classValue inside _ _ inside' =>
    simp only [Value.same, inside.same_identity, inside'.same_identity]
  all_goals rfl

theorem of_literal (literal : Literal) :
    (Value.ofLiteral literal).Alike recast views (.ofLiteral literal) := by
  cases literal <;> constructor

theorem same_unary (alike : value.Alike recast views value') (operator : Kind) :
    unaryResult operator value' = unaryResult operator value := by
  cases operator <;> cases alike <;> rfl

theorem same_binary (alike : value.Alike recast views value')
    (others : other.Alike recast views other') (operator : Kind) :
    binaryResult operator value' other' = binaryResult operator value other := by
  have equal := alike.same_same others
  unfold binaryResult
  rw [equal]
  cases alike <;> cases others <;> rfl

end Value.Alike

/-- Operators give values of kinds that are the same in all runs. -/
theorem unary_result_alike {operator : Kind} {value result : Value}
    (computed : unaryResult operator value = .ok result) : result.Alike recast views result := by
  unfold unaryResult at computed
  split at computed <;> cases computed <;> constructor

theorem binary_result_alike {operator : Kind} {left right result : Value}
    (computed : binaryResult operator left right = .ok result) :
    result.Alike recast views result := by
  unfold binaryResult quotient at computed
  cases operands : numberOperands left right with
  | ok pair =>
      simp only [operands, bind, Except.bind, comparison, sum] at computed
      repeat' split at computed
      all_goals cases computed <;> constructor
  | error cause =>
      simp only [operands, bind, Except.bind, comparison, sum] at computed
      repeat' split at computed
      all_goals cases computed <;> constructor

end

end Lox
