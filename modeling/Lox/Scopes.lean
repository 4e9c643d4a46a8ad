import Lox.Names

/-!
The scopes of a running program. Scopes outlive the blocks that made them, as
closures hold on to them, so all scopes ever made are kept side by side and
name each other by number. The scope around a scope was there before it; the
walk outwards therefore gets to smaller and smaller numbers and ends.
-/

namespace Lox

abbrev ScopeId := Nat

structure Scope (α : Type) where
  names : Names α
  /-- The scope around this one; the outermost has none. -/
  parent : Option ScopeId

structure Scopes (α : Type) where
  cells : Array (Scope α)
  parents_older : ∀ id parent : Nat, (cells[id]?.bind Scope.parent) = some parent → parent < id

namespace Scopes

variable {α : Type}

def empty : Scopes α := ⟨#[], by simp⟩

def size (scopes : Scopes α) : Nat := scopes.cells.size

def parent? (scopes : Scopes α) (id : ScopeId) : Option ScopeId :=
  scopes.cells[id]?.bind Scope.parent

theorem parent_lt {scopes : Scopes α} {id parent : Nat}
    (found : scopes.parent? id = some parent) : parent < id :=
  scopes.parents_older id parent found

/-- A new scope, numbered by the count of those before it. It can only be put
into one that exists. -/
def extend (scopes : Scopes α) (parent : Option ScopeId) (names : Names α) : Scopes α where
  cells := scopes.cells.push ⟨names, parent.filter (· < scopes.cells.size)⟩
  parents_older := by
    intro id around found
    rw [Array.getElem?_push] at found
    split at found
    · next last =>
        subst last
        simp only [Option.bind_some, Option.filter_eq_some_iff, decide_eq_true_eq] at found
        exact found.2
    · exact scopes.parents_older id around found

/-- A name in one scope only, without looking further outwards. -/
def local? (scopes : Scopes α) (id : ScopeId) (name : String) : Option α :=
  scopes.cells[id]?.bind (·.names.find? name)

def declares (scopes : Scopes α) (id : ScopeId) (name : String) : Bool :=
  (scopes.local? id name).isSome

/-- Set a name in one scope, whether or not it was there. -/
def define (scopes : Scopes α) (id : ScopeId) (name : String) (value : α) : Scopes α where
  cells := scopes.cells.modify id fun scope =>
    { scope with names := scope.names.set name value }
  parents_older := by
    intro other around found
    apply scopes.parents_older other around
    rw [Array.getElem?_modify] at found
    split at found
    · simpa [Option.bind_map, Function.comp_def] using found
    · exact found

/-- The scope so many steps outwards, or the outermost if there are fewer. -/
def outwards (scopes : Scopes α) : ScopeId → Nat → ScopeId
  | id, 0 => id
  | id, distance + 1 =>
      match scopes.parent? id with
      | some parent => scopes.outwards parent distance
      | none => id

/-- The first scopes on the way outwards, at most so many of them. -/
def chainWithin (scopes : Scopes α) : Nat → ScopeId → List ScopeId
  | 0, _ => []
  | bound + 1, id =>
      match scopes.parent? id with
      | some parent => id :: scopes.chainWithin bound parent
      | none => [id]

/-- A scope and all scopes around it, innermost first. -/
def chain (scopes : Scopes α) (id : ScopeId) : List ScopeId := scopes.chainWithin (id + 1) id

/-- The innermost scope of a chain that has the name. -/
def holder? (scopes : Scopes α) (id : ScopeId) (name : String) : Option ScopeId :=
  (scopes.chain id).find? (scopes.declares · name)

/-- The scope so many steps outwards, if it has the name. -/
def holderAt? (scopes : Scopes α) (id : ScopeId) (distance : Nat) (name : String) :
    Option ScopeId :=
  let reached := scopes.outwards id distance
  if scopes.declares reached name then some reached else none

/-- The nearest value of a name, looking outwards. -/
def read? (scopes : Scopes α) (id : ScopeId) (name : String) : Option α :=
  (scopes.holder? id name).bind (scopes.local? · name)

/-- The value of a name in the scope so many steps outwards. -/
def readAt? (scopes : Scopes α) (id : ScopeId) (distance : Nat) (name : String) : Option α :=
  scopes.local? (scopes.outwards id distance) name

/-- Overwrite the nearest value of a name, if there is one. -/
def write? (scopes : Scopes α) (id : ScopeId) (name : String) (value : α) :
    Option (Scopes α) :=
  (scopes.holder? id name).map (scopes.define · name value)

/-- Overwrite the value of a name in the scope so many steps outwards, if that
scope has it. -/
def writeAt? (scopes : Scopes α) (id : ScopeId) (distance : Nat) (name : String) (value : α) :
    Option (Scopes α) :=
  (scopes.holderAt? id distance name).map (scopes.define · name value)

theorem size_extend (scopes : Scopes α) (parent : Option ScopeId) (names : Names α) :
    (scopes.extend parent names).size = scopes.size + 1 := Array.size_push _

theorem parent_extend (scopes : Scopes α) (parent : Option ScopeId) (names : Names α)
    (id : ScopeId) : (scopes.extend parent names).parent? id =
      if id = scopes.size then parent.filter (· < scopes.size) else scopes.parent? id := by
  simp only [parent?, extend, Array.getElem?_push, size]
  by_cases last : id = scopes.cells.size
  · simp only [last, if_true]
    rfl
  · simp only [last, if_false]

theorem local_extend (scopes : Scopes α) (parent : Option ScopeId) (names : Names α)
    (id : ScopeId) (name : String) : (scopes.extend parent names).local? id name =
      if id = scopes.size then names.find? name else scopes.local? id name := by
  simp only [local?, extend, Array.getElem?_push, size]
  by_cases last : id = scopes.cells.size <;> simp [last]

theorem local_beyond (scopes : Scopes α) {id : ScopeId} (beyond : scopes.size ≤ id)
    (name : String) : scopes.local? id name = none := by
  simp only [local?, size] at beyond ⊢
  rw [Array.getElem?_eq_none beyond]
  rfl

theorem parent_beyond (scopes : Scopes α) {id : ScopeId} (beyond : scopes.size ≤ id) :
    scopes.parent? id = none := by
  simp only [parent?, size] at beyond ⊢
  rw [Array.getElem?_eq_none beyond]
  rfl

theorem size_define (scopes : Scopes α) (id : ScopeId) (name : String) (value : α) :
    (scopes.define id name value).size = scopes.size := Array.size_modify

theorem parent_define (scopes : Scopes α) (id other : ScopeId) (name : String) (value : α) :
    (scopes.define id name value).parent? other = scopes.parent? other := by
  simp only [parent?, define, Array.getElem?_modify]
  split
  · next same =>
      subst same
      cases scopes.cells[id]? <;> rfl
  · rfl

theorem local_define (scopes : Scopes α) (id other : ScopeId) (name key : String) (value : α) :
    (scopes.define id name value).local? other key =
      if other = id ∧ id < scopes.size ∧ key = name then some value
      else scopes.local? other key := by
  simp only [local?, define, Array.getElem?_modify, size]
  by_cases same : id = other
  · subst same
    by_cases inside : id < scopes.cells.size
    · simp only [Array.getElem?_eq_getElem inside, if_true, Option.map_some, Option.bind_some,
        Names.find_set, true_and, inside]
    · simp [inside]
  · simp [same, Ne.symm same]

/-- Scopes are older than those inside of them, so that any bound beyond the
first number leads all the way out. -/
theorem chain_within_enough (scopes : Scopes α) {id bound other : Nat} (enough : id < bound)
    (alsoEnough : id < other) : scopes.chainWithin bound id = scopes.chainWithin other id := by
  induction id using Nat.strongRecOn generalizing bound other with
  | ind id induction =>
    cases bound with
    | zero => omega
    | succ bound =>
      cases other with
      | zero => omega
      | succ other =>
        simp only [chainWithin]
        cases around : scopes.parent? id with
        | none => rfl
        | some parent =>
            have older := parent_lt around
            exact congrArg (id :: ·) (induction parent older (by omega) (by omega))

theorem chain_outermost (scopes : Scopes α) {id : ScopeId} (outermost : scopes.parent? id = none) :
    scopes.chain id = [id] := by
  simp only [chain, chainWithin, outermost]

theorem chain_inner (scopes : Scopes α) {id parent : ScopeId}
    (around : scopes.parent? id = some parent) :
    scopes.chain id = id :: scopes.chain parent := by
  have older := parent_lt around
  simp only [chain, chainWithin, around]
  exact congrArg (id :: ·) (scopes.chain_within_enough older (Nat.lt_succ_self parent))

theorem outwards_succ (scopes : Scopes α) {id parent : ScopeId}
    (around : scopes.parent? id = some parent) (distance : Nat) :
    scopes.outwards id (distance + 1) = scopes.outwards parent distance := by
  simp only [outwards, around]

end Scopes

end Lox
