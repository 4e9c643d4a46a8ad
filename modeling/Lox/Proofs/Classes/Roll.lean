import Lox.Proofs.Classes.Lineage
import Lox.Proofs.Receivers.Steps

/-!
A roll of all classes. Each class that has been made stands on the roll under its identity, with
its declaration and above it a class that was on the roll before. Every class that a machine holds
a value of is on the roll, and the primitive steps keep it so: only the step that makes a class
adds to the roll, and no entry is ever changed.
-/

namespace Lox

/-- The class that a value is or is an instance of. -/
def Value.class? : Value → Option Class
  | .classValue cls | .object _ cls => some cls
  | _ => none

/-- A scope or a field has the value. -/
inductive Machine.Holds (machine : Machine) (value : Value) : Prop where
  | scope {id : ScopeId} {name : String} (found : machine.scopes.local? id name = some value)
  | field {identity : Nat} {names : Names Value} {name : String}
      (isObject : machine.fields[identity]? = some names) (found : names.find? name = some value)

namespace Machine

variable {machine : Machine} {value other : Value}

theorem holds_same {after : Machine} (scopes : after.scopes = machine.scopes)
    (fields : after.fields = machine.fields) (holds : after.Holds other) :
    machine.Holds other := by
  cases holds with
  | scope found => exact .scope (scopes ▸ found)
  | field isObject found => exact .field (fields ▸ isObject) found

theorem holds_defined {id : ScopeId} {name : String}
    (holds : ({ machine with scopes := machine.scopes.define id name value }).Holds other) :
    machine.Holds other ∨ other = value := by
  cases holds with
  | scope found =>
      rw [Scopes.local_define] at found
      split_ifs at found
      · exact .inr (Option.some.inj found).symm
      · exact .inl (.scope found)
  | field isObject found => exact .inl (.field isObject found)

theorem holds_extended {parent : Option ScopeId} {names : Names Value}
    (holds : ({ machine with scopes := machine.scopes.extend parent names }).Holds other) :
    machine.Holds other ∨ ∃ name, names.find? name = some other := by
  cases holds with
  | scope found =>
      rw [Scopes.local_extend] at found
      split_ifs at found
      · exact .inr ⟨_, found⟩
      · exact .inl (.scope found)
  | field isObject found => exact .inl (.field isObject found)

theorem holds_with_instance
    (holds : ({ machine with fields := machine.fields.push .empty }).Holds other) :
    machine.Holds other := by
  cases holds with
  | scope found => exact .scope found
  | field isObject found =>
      exact .field (Run.field_before_instance isObject found) found

theorem holds_with_field {identity : Nat} {name : String}
    (holds : ({ machine with
      fields := machine.fields.modify identity (·.set name value) }).Holds other) :
    machine.Holds other ∨ other = value := by
  cases holds with
  | scope found => exact .inl (.scope found)
  | field isObject found =>
      rcases Run.field_before_set isObject found with rfl | ⟨before, wasObject, stored⟩
      · exact .inr rfl
      · exact .inl (.field wasObject stored)

end Machine

/-- A look-up changes nothing, and finds what the machine holds. -/
theorem Run.look_up_ends (place : Occurrence) (machine : Machine) :
    (∃ halt, Run.lookUp place machine = .error halt machine) ∨
      ∃ value, machine.Holds value ∧ Run.lookUp place machine = .ok value machine := by
  rcases Run.look_up_cases place machine with ⟨scope, value, -, held, ended⟩ | ended
  · exact .inr ⟨value, .scope held, ended⟩
  · exact .inl ⟨_, ended⟩

/-- The classes that have been made, by identity. -/
abbrev Roll := Nat → Option Class

namespace Roll

/-- Nothing on the roll has changed. -/
def Grows (earlier later : Roll) : Prop :=
  ∀ identity cls, earlier identity = some cls → later identity = some cls

/-- If the value is a class or has one, this class is on the roll. -/
def Lists (roll : Roll) (value : Value) : Prop :=
  ∀ cls, value.class? = some cls → roll cls.identity = some cls

/-- The roll with one more class. -/
def add (roll : Roll) (cls : Class) : Roll := fun identity =>
  if identity = cls.identity then some cls else roll identity

/-- Every class on the roll has been declared, below a class that was on the roll before. -/
structure Sound (begun : Task → Machine → Prop) (roll : Roll) (identities : Nat) : Prop where
  fresh {identity : Nat} (unused : identities ≤ identity) : roll identity = none
  made {identity : Nat} {cls : Class} (listed : roll identity = some cls) :
    cls.identity = identity ∧ ∃ declaration : Declaration,
      begun (.execution declaration.statement) declaration.start ∧ declaration.Makes cls
  above {identity : Nat} {cls parent : Class} (listed : roll identity = some cls)
      (below : cls.superclass = some parent) :
    roll parent.identity = some parent ∧ parent.identity < identity

variable {begun : Task → Machine → Prop} {roll later last : Roll} {identities : Nat}

theorem Grows.refl (roll : Roll) : roll.Grows roll := fun _ _ => id

theorem Grows.trans (first : roll.Grows later) (second : later.Grows last) : roll.Grows last :=
  fun identity cls listed => second identity cls (first identity cls listed)

theorem Lists.grown {value : Value} (lists : roll.Lists value) (grows : roll.Grows later) :
    later.Lists value := fun cls isClass => grows _ cls (lists cls isClass)

theorem lists_plain {value : Value} (plain : value.IsPlain) : roll.Lists value := by
  cases value with
  | nil | boolean | number | string => rintro _ ⟨⟩
  | native | function | classValue | object => cases plain

/-- Whatever the superclasses are called by now, their classes form a chain without a circle. -/
theorem Sound.lineage (sound : roll.Sound begun identities) {cls : Class}
    (listed : roll cls.identity = some cls) :
    (∀ ancestor ∈ cls.lineage,
      roll ancestor.identity = some ancestor ∧ ancestor.identity ≤ cls.identity) ∧
    (cls.lineage.Pairwise fun lower upper => upper.identity < lower.identity) ∧
    ∃ declarations : List Declaration,
      (∀ declaration ∈ declarations,
        begun (.execution declaration.statement) declaration.start) ∧
      List.Forall₂ Declaration.Makes declarations cls.lineage := by
  induction cls using Class.upwards with
  | root cls root =>
      obtain ⟨-, declaration, known, makes⟩ := sound.made listed
      rw [Class.lineage_root root]
      refine ⟨?_, List.pairwise_singleton .., [declaration], ?_, .cons makes .nil⟩
      · exact List.forall_mem_singleton.mpr ⟨listed, Nat.le_refl _⟩
      · exact List.forall_mem_singleton.mpr known
  | below cls parent below induction =>
      obtain ⟨-, declaration, known, makes⟩ := sound.made listed
      obtain ⟨above, older⟩ := sound.above listed below
      obtain ⟨upper, ordered, declarations, allKnown, allMade⟩ := induction above
      rw [Class.lineage_below below]
      refine ⟨?_, List.pairwise_cons.mpr ⟨?_, ordered⟩, declaration :: declarations, ?_,
        .cons makes allMade⟩
      · refine List.forall_mem_cons.mpr ⟨⟨listed, Nat.le_refl _⟩, fun ancestor member => ?_⟩
        obtain ⟨onRoll, atMost⟩ := upper ancestor member
        exact ⟨onRoll, Nat.le_trans atMost (Nat.le_of_lt older)⟩
      · exact fun ancestor member => Nat.lt_of_le_of_lt (upper ancestor member).2 older
      · exact List.forall_mem_cons.mpr ⟨known, allKnown⟩

theorem Sound.raised (sound : roll.Sound begun identities) {more : Nat}
    (enough : identities ≤ more) : roll.Sound begun more where
  fresh unused := sound.fresh (Nat.le_trans enough unused)
  made := sound.made
  above := sound.above

theorem Sound.grows_add (sound : roll.Sound begun identities) {cls : Class}
    (unused : identities ≤ cls.identity) : roll.Grows (roll.add cls) := by
  intro identity other listed
  rw [add, if_neg]
  · exact listed
  · rintro rfl
    rw [sound.fresh unused] at listed
    cases listed

/-- A class that has just been made is put on the roll. -/
theorem Sound.add {declaration : Declaration} {superclass : Option Class}
    (sound : roll.Sound begun declaration.start.identities)
    (known : begun (.execution declaration.statement) declaration.start)
    (inherits : declaration.Inherits superclass)
    (listed : ∀ parent, superclass = some parent → roll parent.identity = some parent) :
    (roll.add (declaration.made superclass)).Sound begun (declaration.start.identities + 1) := by
  have grows : roll.Grows (roll.add (declaration.made superclass)) :=
    sound.grows_add (Nat.le_refl _)
  refine ⟨?_, ?_, ?_⟩
  · intro identity unused
    have other : ¬identity = (declaration.made superclass).identity := Nat.ne_of_gt unused
    rw [Roll.add, if_neg other]
    exact sound.fresh (Nat.le_of_succ_le unused)
  · intro identity cls found
    rw [Roll.add] at found
    split_ifs at found with here
    · cases found
      exact ⟨here.symm, declaration, known, rfl, inherits⟩
    · exact sound.made found
  · intro identity cls parent found below
    rw [Roll.add] at found
    split_ifs at found with here
    · cases found
      have onRoll := listed parent below
      refine ⟨grows _ _ onRoll, ?_⟩
      by_contra notOlder
      rw [here, Nat.not_lt] at notOlder
      rw [sound.fresh notOlder] at onRoll
      cases onRoll
    · obtain ⟨onRoll, older⟩ := sound.above found below
      exact ⟨grows _ _ onRoll, older⟩

end Roll

/-- All classes of the machine are on the roll. -/
structure Enrolled (begun : Task → Machine → Prop) (roll : Roll) (machine : Machine) : Prop where
  sound : roll.Sound begun machine.identities
  held {value : Value} (holds : machine.Holds value) : roll.Lists value

namespace Enrolled

variable {α : Type} {begun : Task → Machine → Prop} {roll : Roll} {machine : Machine}

/-- What something leads to that begins with a roll: it ends with a longer one. -/
def Leads (begun : Task → Machine → Prop) (roll : Roll) (good : Roll → α → Prop)
    (ending : Ending α) : Prop :=
  ∃ later, roll.Grows later ∧ Enrolled begun later ending.machine ∧
    ∀ value after, ending = .ok value after → good later value

abbrev anything : Roll → α → Prop := fun _ _ => True

theorem ok_leads {good : Roll → α → Prop} {value : α} {after : Machine}
    (enrolled : Enrolled begun roll after) (fine : good roll value) :
    Leads begun roll good (.ok value after) := by
  refine ⟨roll, .refl roll, enrolled, ?_⟩
  rintro _ _ ⟨⟩
  exact fine

theorem error_leads {good : Roll → α → Prop} {halt : Halt} {after : Machine}
    (enrolled : Enrolled begun roll after) : Leads begun roll good (.error halt after) := by
  refine ⟨roll, .refl roll, enrolled, ?_⟩
  rintro _ _ ⟨⟩

theorem leads_grown {later : Roll} (grows : roll.Grows later) {good : Roll → α → Prop}
    {ending : Ending α} (leads : Leads begun later good ending) : Leads begun roll good ending := by
  obtain ⟨last, grown, rest⟩ := leads
  exact ⟨last, grows.trans grown, rest⟩

theorem leads_weaker {good weaker : Roll → α → Prop} {ending : Ending α}
    (leads : Leads begun roll good ending)
    (implies : ∀ later value, good later value → weaker later value) :
    Leads begun roll weaker ending := by
  obtain ⟨later, grows, enrolled, fine⟩ := leads
  exact ⟨later, grows, enrolled, fun value after ended =>
    implies later value (fine value after ended)⟩

variable (enrolled : Enrolled begun roll machine)

include enrolled

/-- A change after which the machine holds no new values but such as the roll lists. -/
theorem changed {after : Machine} (identities : machine.identities ≤ after.identities)
    (holds : ∀ value, after.Holds value → machine.Holds value ∨ roll.Lists value) :
    Enrolled begun roll after where
  sound := enrolled.sound.raised identities
  held found := (holds _ found).elim enrolled.held id

theorem aside {after : Machine} (identities : machine.identities ≤ after.identities)
    (scopes : after.scopes = machine.scopes) (fields : after.fields = machine.fields) :
    Enrolled begun roll after :=
  enrolled.changed identities fun _ holds => .inl (Machine.holds_same scopes fields holds)

theorem defined (id : ScopeId) (name : String) {value : Value} (lists : roll.Lists value) :
    Enrolled begun roll { machine with scopes := machine.scopes.define id name value } := by
  refine enrolled.changed (Nat.le_refl _) fun other holds => ?_
  refine (Machine.holds_defined holds).imp_right ?_
  rintro rfl
  exact lists

theorem extended (parent : Option ScopeId) {names : Names Value}
    (list : ∀ name value, names.find? name = some value → roll.Lists value) :
    Enrolled begun roll { machine with scopes := machine.scopes.extend parent names } := by
  refine enrolled.changed (Nat.le_refl _) fun other holds => ?_
  refine (Machine.holds_extended holds).imp_right ?_
  rintro ⟨name, found⟩
  exact list name other found

section Steps

variable {good : Roll → α → Prop}

theorem fail_leads (line : Nat) (cause : Fault) :
    Leads begun roll good (Run.fail line cause machine) := error_leads enrolled

theorem blame_leads (line : Nat) {outcome : Except Fault Value} (tame : Tame outcome) :
    Leads begun roll Roll.Lists (Run.blame line outcome machine) := by
  cases outcome with
  | error cause => exact enrolled.fail_leads line cause
  | ok value => exact ok_leads enrolled (Roll.lists_plain tame)

theorem open_scope_leads (parent : ScopeId) {names : Names Value}
    (list : ∀ name value, names.find? name = some value → roll.Lists value) :
    Leads begun roll anything (Run.openScope parent names machine) :=
  ok_leads (enrolled.extended (some parent) list) trivial

theorem define_leads (name : String) {value : Value} (lists : roll.Lists value) :
    Leads begun roll anything (Run.define name value machine) :=
  ok_leads (enrolled.defined machine.current name lists) trivial

theorem look_up_leads (place : Occurrence) :
    Leads begun roll Roll.Lists (Run.lookUp place machine) := by
  rcases Run.look_up_ends place machine with ⟨halt, ended⟩ | ⟨value, holds, ended⟩ <;> rw [ended]
  · exact error_leads enrolled
  · exact ok_leads enrolled (enrolled.held holds)

theorem assign_leads (place : Occurrence) {value : Value} (lists : roll.Lists value) :
    Leads begun roll anything (Run.assign place value machine) := by
  rcases Run.assign_cases place value machine with ⟨scope, -, ended⟩ | ⟨-, ended⟩ <;> rw [ended]
  · exact ok_leads (enrolled.defined scope place.name.lexeme lists) trivial
  · exact enrolled.fail_leads _ _

theorem make_function_leads (closure : Closure) :
    Leads begun roll Roll.Lists (Run.makeFunction closure machine) := by
  refine ok_leads (enrolled.aside (Nat.le_succ _) rfl rfl) ?_
  rintro _ ⟨⟩

theorem make_instance_leads {cls : Class} (listed : roll cls.identity = some cls) :
    Leads begun roll Roll.Lists (Run.makeInstance cls machine) := by
  refine ok_leads ?_ ?_
  · exact enrolled.changed (Nat.le_refl _) fun _ holds => .inl (Machine.holds_with_instance holds)
  · rintro _ ⟨⟩
    exact listed

theorem field_leads (identity : Nat) (name : String) :
    Leads begun roll (fun later found => ∀ value, found = some value → later.Lists value)
      (Run.field? identity name machine) := by
  refine ok_leads enrolled fun value found => ?_
  obtain ⟨names, isObject, held⟩ := Option.bind_eq_some_iff.mp found
  exact enrolled.held (.field isObject held)

theorem set_field_leads (identity : Nat) (name : String) {value : Value}
    (lists : roll.Lists value) :
    Leads begun roll anything (Run.setField identity name value machine) := by
  refine ok_leads (enrolled.changed (Nat.le_refl _) fun other holds => ?_) trivial
  refine (Machine.holds_with_field holds).imp_right ?_
  rintro rfl
  exact lists

theorem print_leads (value : Value) : Leads begun roll anything (Run.print value machine) := by
  obtain ⟨sink, ended | ended⟩ := Run.print_cases value machine <;> rw [ended]
  · exact ok_leads (enrolled.aside (Nat.le_refl _) rfl rfl) trivial
  · exact error_leads (enrolled.aside (Nat.le_refl _) rfl rfl)

theorem bind_receiver_leads (method : Closure) {receiver : Value} (lists : roll.Lists receiver) :
    Leads begun roll anything (Run.bindReceiver method receiver machine) := by
  refine ok_leads (enrolled.extended (some method.scope) fun name value found => ?_) trivial
  cases List.mem_singleton.mp (Names.mem_of_find found)
  exact lists

theorem inherited_method_leads (place : Occurrence) (method : Token) :
    Leads begun roll (fun later found => later.Lists found.2)
      (Run.inheritedMethod place method machine) := by
  rcases Run.inherited_method_cases place method machine with
    ⟨_, _, receiver, -, -, bound, ended⟩ | ⟨_, -, ended⟩ <;> rw [ended]
  · have lists : roll.Lists receiver := enrolled.held (.scope bound)
    cases receiver <;> exact ok_leads enrolled lists
  · exact enrolled.fail_leads _ _

theorem result_leads (closure : Closure) {completion : Completion}
    (list : ∀ value, completion = .returned value → roll.Lists value) :
    Leads begun roll Roll.Lists (Run.result closure completion machine) := by
  obtain ⟨value, ended, source⟩ := Run.result_source closure completion machine
  rw [ended]
  apply ok_leads enrolled
  rcases source with rfl | bound | returned
  · exact Roll.lists_plain trivial
  · exact enrolled.held (.scope bound)
  · exact list value returned

/-- A class that is declared goes on the roll. -/
theorem make_class_leads {declaration : Declaration} {superclass : Option Class}
    (isStart : declaration.start = machine)
    (known : begun (.execution declaration.statement) declaration.start)
    (inherits : declaration.Inherits superclass)
    (listed : ∀ parent, superclass = some parent → roll parent.identity = some parent) :
    Leads begun roll Roll.Lists (Run.makeClass declaration.name superclass declaration.methods
      declaration.classMethods machine) := by
  subst isStart
  obtain ⟨scopes, runs, opened⟩ := Declaration.make_class_runs inherits
  have grows : roll.Grows (roll.add (declaration.made superclass)) :=
    enrolled.sound.grows_add (Nat.le_refl _)
  refine ⟨roll.add (declaration.made superclass), grows, ?_, ?_⟩
  · rw [runs]
    refine ⟨enrolled.sound.add known inherits listed, fun {value} holds => ?_⟩
    cases holds with
    | field isObject found => exact (enrolled.held (.field isObject found)).grown grows
    | scope found =>
        rcases opened _ _ value found with before | ⟨parent, isParent, rfl⟩
        · exact (enrolled.held (.scope before)).grown grows
        · rintro _ ⟨⟩
          exact grows _ _ (listed parent isParent)
  · rw [runs]
    rintro _ _ ⟨⟩ _ ⟨⟩
    exact if_pos rfl

end Steps

end Enrolled

end Lox
