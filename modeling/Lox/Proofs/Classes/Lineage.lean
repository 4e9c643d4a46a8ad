import Lox.Proofs.Receivers.Store
import Mathlib.Data.List.Forall2

/-!
Classes and the declarations that made them. A class holds its superclass, so that the classes
above it form a list, and both kinds of methods are looked for along that list. What the table of
a class has under a name is the last routine of that name in the body of its declaration. So a
look-up is answered by the declarations alone, whatever the names of these classes stand for by
now.
-/

namespace Lox

namespace Class

/-- A class and those above it, upwards. -/
def lineage : Class → List Class
  | ⟨identity, name, methods, classMethods, none⟩ => [⟨identity, name, methods, classMethods, none⟩]
  | ⟨identity, name, methods, classMethods, some superclass⟩ =>
      ⟨identity, name, methods, classMethods, some superclass⟩ :: lineage superclass

theorem lineage_root {cls : Class} (root : cls.superclass = none) : cls.lineage = [cls] := by
  obtain ⟨identity, name, methods, classMethods, superclass⟩ := cls
  cases root
  rw [lineage]

theorem lineage_below {cls parent : Class} (below : cls.superclass = some parent) :
    cls.lineage = cls :: parent.lineage := by
  obtain ⟨identity, name, methods, classMethods, superclass⟩ := cls
  cases below
  rw [lineage]

/-- To show something of all classes, go from each to its superclass. -/
theorem upwards {motive : Class → Prop} (root : ∀ cls, cls.superclass = none → motive cls)
    (below : ∀ cls parent, cls.superclass = some parent → motive parent → motive cls)
    (cls : Class) : motive cls := by
  induction cls using lineage.induct with
  | case1 identity name methods classMethods => exact root _ rfl
  | case2 identity name methods classMethods superclass induction =>
      exact below _ superclass rfl induction

/-- The methods that a class has of its own: for itself, or for its instances. -/
def table (ofClass : Bool) (cls : Class) : Names Closure :=
  if ofClass then cls.classMethods else cls.methods

section Answers

variable {cls parent : Class} (ofClass : Bool) (name : String)

theorem answer_root (root : cls.superclass = none) :
    cls.answer? ofClass name = (cls.table ofClass).find? name := by
  obtain ⟨identity, label, methods, classMethods, superclass⟩ := cls
  cases root
  cases ofClass <;> rfl

theorem answer_below (below : cls.superclass = some parent) : cls.answer? ofClass name =
    ((cls.table ofClass).find? name).or (parent.answer? ofClass name) := by
  obtain ⟨identity, label, methods, classMethods, superclass⟩ := cls
  cases below
  cases ofClass <;> rfl

/-- The first class upwards that has the method in its own table answers, and it makes no
difference to the way upwards which kind of method it is. -/
theorem answer_along (cls : Class) : cls.answer? ofClass name =
    cls.lineage.findSome? fun ancestor => (ancestor.table ofClass).find? name := by
  induction cls using upwards with
  | root cls root =>
      rw [answer_root ofClass name root, lineage_root root, List.findSome?_cons, List.findSome?_nil]
      cases (cls.table ofClass).find? name <;> rfl
  | below cls parent below induction =>
      rw [answer_below ofClass name below, lineage_below below, List.findSome?_cons, induction]
      cases (cls.table ofClass).find? name <;> rfl

end Answers

end Class

/-- The last of some routines that has the name. -/
def lastNamed? (name : String) (routines : List Routine) : Option Routine :=
  routines.reverse.find? fun routine => routine.label = name

theorem method_table_find (routines : List Routine) (scope : ScopeId) (initializers : Bool)
    (name : String) : (Run.methodTable routines scope initializers).find? name =
      (lastNamed? name routines).map fun routine =>
        ⟨routine, scope, initializers && name = initializerName⟩ := by
  rw [Run.methodTable, Names.find_of_list, ← List.map_reverse, lastNamed?]
  induction routines.reverse with
  | nil => rfl
  | cons routine rest induction =>
      rw [List.map_cons, List.lookup_cons]
      by_cases same : routine.label = name
      · subst same
        simp
      · simp only [List.find?_cons, decide_eq_false same, beq_false_of_ne (Ne.symm same), induction]

/-- A class declaration as it was executed: how it stands in the source, and the machine that it
was begun on. -/
structure Declaration where
  name : Token
  superclass : Option Occurrence
  methods : List Routine
  classMethods : List Routine
  start : Machine

namespace Declaration

def statement (declaration : Declaration) : Statement :=
  .classDeclaration declaration.name declaration.superclass declaration.methods
    declaration.classMethods

/-- The scope that the methods see: with a superclass, the one that holds it. -/
def scope (declaration : Declaration) : ScopeId :=
  match declaration.superclass with
  | none => declaration.start.current
  | some _ => declaration.start.scopes.size

/-- The methods in the body: those of the class itself, or those for its instances. -/
def routines (ofClass : Bool) (declaration : Declaration) : List Routine :=
  if ofClass then declaration.classMethods else declaration.methods

/-- The method that the body has under a name. Only those for instances can be initializers. -/
def answer? (ofClass : Bool) (name : String) (declaration : Declaration) : Option Closure :=
  (lastNamed? name (declaration.routines ofClass)).map fun routine =>
    ⟨routine, declaration.scope, !ofClass && name = initializerName⟩

/-- The class that the declaration makes below a superclass. -/
def made (declaration : Declaration) (superclass : Option Class) : Class where
  identity := declaration.start.identities
  name := declaration.name.lexeme
  methods := Run.methodTable declaration.methods declaration.scope true
  classMethods := Run.methodTable declaration.classMethods declaration.scope false
  superclass := superclass

/-- What the superclass clause comes to when the declaration is begun. -/
def Inherits (declaration : Declaration) : Option Class → Prop
  | none => declaration.superclass = none
  | some parent => ∃ place, declaration.superclass = some place ∧
      Run.lookUp place declaration.start = .ok (.classValue parent) declaration.start

/-- The class is the one that the declaration made. -/
structure Makes (declaration : Declaration) (cls : Class) : Prop where
  made : cls = declaration.made cls.superclass
  inherits : declaration.Inherits cls.superclass

variable {declaration : Declaration} {cls : Class}

theorem Makes.answer (makes : declaration.Makes cls) (ofClass : Bool) (name : String) :
    (cls.table ofClass).find? name = declaration.answer? ofClass name := by
  rw [makes.made]
  cases ofClass <;> exact method_table_find ..

/-- A class is made below the superclass that its declaration names. -/
theorem make_class_runs {superclass : Option Class} (inherits : declaration.Inherits superclass) :
    ∃ scopes, Run.makeClass declaration.name superclass declaration.methods
        declaration.classMethods declaration.start =
      .ok (.classValue (declaration.made superclass))
        { declaration.start with
          scopes := scopes
          identities := declaration.start.identities + 1 } ∧
      ∀ id name value, scopes.local? id name = some value →
        declaration.start.scopes.local? id name = some value ∨
          ∃ parent, superclass = some parent ∧ value = .classValue parent := by
  obtain ⟨name, place, methods, classMethods, start⟩ := declaration
  cases superclass with
  | none =>
      cases (inherits : place = none)
      exact ⟨start.scopes, rfl, fun id name value found => .inl found⟩
  | some parent =>
      obtain ⟨named, rfl, found⟩ := inherits
      refine ⟨_, rfl, fun id key value found => ?_⟩
      rw [Scopes.local_extend] at found
      split_ifs at found
      · cases List.mem_singleton.mp (Names.mem_of_find found)
        exact .inr ⟨parent, rfl, rfl⟩
      · exact .inl found

end Declaration

/-- The last method of the name in the first body that declares one answers. -/
theorem Class.answer_declared {declarations : List Declaration} {cls : Class}
    (made : List.Forall₂ Declaration.Makes declarations cls.lineage) (ofClass : Bool)
    (name : String) : cls.answer? ofClass name =
      declarations.findSome? fun declaration => declaration.answer? ofClass name := by
  rw [answer_along]
  generalize cls.lineage = classes at made ⊢
  induction made with
  | nil => rfl
  | cons makes _ induction => rw [List.findSome?_cons, List.findSome?_cons, makes.answer, induction]

end Lox
