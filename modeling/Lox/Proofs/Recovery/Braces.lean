import Lox.Proofs.Recovery.Cuts
import Lox.Proofs.Recovery.Segments

/-!
The brace behind a missing semicolon. A declaration that lacks its semicolon is complained about at
the brace that closes its block, and recovery drops that brace: the block goes on behind it, from
the next boundary. The grammar opens as many braces as it closes, so with one of them dropped the
rest is no program any more, unless an opening brace has been dropped as well.
-/

namespace Lox

open Phrase Rule

/-- How many more blocks are open behind a token than before it. -/
def Kind.braces : Kind → Int
  | .leftBrace => 1
  | .rightBrace => -1
  | _ => 0

/-- How many more blocks are open behind the tokens than before them. -/
def braces (tokens : List Token) : Int := (tokens.map (·.kind.braces)).sum

@[simp] theorem braces_nil : braces [] = 0 := rfl

@[simp] theorem braces_cons (token : Token) (tokens : List Token) :
    braces (token :: tokens) = token.kind.braces + braces tokens := rfl

@[simp] theorem braces_append (front back : List Token) :
    braces (front ++ back) = braces front + braces back := by
  simp [braces]

/-- The same for what a phrase derives, if that is the same for all of it. -/
def Phrase.braces : Phrase → Option Int
  | .word kind => some kind.braces
  | .number | .string | .form _ | .nothing => some 0
  | .sequence first rest => do return (← first.braces) + (← rest.braces)
  | .choice one other => if one.braces = other.braces then one.braces else none
  | .many item | .list _ item => if item.braces = some 0 then some 0 else none

theorem grammar_braces (form : Form) : (grammar form).braces = some 0 := by
  cases form <;> rfl

theorem derives_braces {phrase : Phrase} {tokens : List Token} (derived : Derives phrase tokens)
    {total : Int} (balance : phrase.braces = some total) : braces tokens = total := by
  -- items of a list are balanced one by one
  have each {item : Phrase} {total : Int}
      (balance : (if item.braces = some 0 then some 0 else none) = some total) :
      item.braces = some 0 ∧ total = 0 := by
    split_ifs at balance with even
    exact ⟨even, (Option.some.inj balance).symm⟩
  induction derived generalizing total with
  | word fits =>
      cases balance
      simp [fits]
  | number fits | string fits =>
      cases balance
      simp [fits, Kind.braces]
  | form _ induction =>
      cases balance
      exact induction (grammar_braces _)
  | nothing =>
      cases balance
      rfl
  | none => exact (each balance).2.symm
  | sequence _ _ front back =>
      obtain ⟨opened, isOpened, others⟩ := Option.bind_eq_some_iff.mp balance
      obtain ⟨closed, isClosed, same⟩ := Option.bind_eq_some_iff.mp others
      cases same
      rw [braces_append, front isOpened, back isClosed]
  | one _ induction =>
      rw [Phrase.braces] at balance
      split_ifs at balance
      exact induction balance
  | other _ induction =>
      rw [Phrase.braces] at balance
      split_ifs at balance with same
      exact induction (same ▸ balance)
  | more _ _ front back =>
      obtain ⟨even, rfl⟩ := each balance
      rw [braces_append, front even, back balance]
      rfl
  | last _ induction =>
      obtain ⟨even, rfl⟩ := each balance
      exact induction even
  | comma _ fits _ front back =>
      obtain ⟨even, rfl⟩ := each balance
      rw [braces_append, braces_cons, fits, front even, back balance]
      rfl

theorem derives_balanced {form : Form} {tokens : List Token}
    (derived : Derives (.form form) tokens) : braces tokens = 0 := derives_braces derived rfl

/-- What is derived over and over again comes in pieces. -/
theorem derives_many_pieces {item : Phrase} {tokens : List Token}
    (derived : Derives (many item) tokens) : ∃ pieces : List (List Token),
      tokens = pieces.flatten ∧ ∀ piece ∈ pieces, Derives item piece := by
  generalize all : many item = phrase at derived
  induction derived with
  | none => exact ⟨[], rfl, List.forall_mem_nil _⟩
  | more head _ _ back =>
      cases all
      obtain ⟨pieces, rfl, each⟩ := back rfl
      exact ⟨_ :: pieces, rfl, List.forall_mem_cons.mpr ⟨head, each⟩⟩
  | _ => cases all

/-- A text without a complaint is a program. -/
theorem derived_of_quiet {tokens : List Token} {ending : Token}
    (inner : ∀ token ∈ tokens, token.kind ≠ .endOfInput) (ends : ending.kind = .endOfInput)
    {firstId : Nat} (quiet : (parseProgram (tokens ++ [ending]) firstId).complaints = []) :
    Derives (form .program) tokens := by
  cases outcome : (parseProgram (tokens ++ [ending]) firstId).outcome with
  | error complaints =>
      rw [Parsed.complaints, outcome] at quiet
      cases quiet
      exact absurd outcome (program_explained _ _)
  | ok statements => exact program_derived inner ends outcome

/-- A block from within, behind the statements that have been read. -/
def Rule.restOfBlock (declaration : Rule Statement) (rounds : Nat) (read : List Statement) :
    Rule (List Statement) := do
  let others ←
    declarations declaration (fun kind => kind = .rightBrace || kind = .endOfInput) rounds
  let _ ← expect .rightBrace .blockEnd
  return read ++ others

namespace Rule

theorem block_eq (declaration : Rule Statement) (bound : Nat) :
    block declaration bound = restOfBlock declaration bound [] := rfl

theorem rest_of_block_later {declaration : Rule Statement} {rounds fewer : Nat}
    {read more : List Statement} {reading middle : Reading}
    (same : declarations declaration (fun kind => kind = .rightBrace || kind = .endOfInput) rounds
        reading =
      ((more ++ ·) <$> declarations declaration
        (fun kind => kind = .rightBrace || kind = .endOfInput) fewer) middle) :
    restOfBlock declaration rounds read reading =
      restOfBlock declaration fewer (read ++ more) middle := by
  obtain ⟨others, after, run⟩ := declarations_ok declaration
    (fun kind => kind = .rightBrace || kind = .endOfInput) fewer middle
  rw [map_run, run] at same
  unfold restOfBlock
  rw [bind_ok same, bind_ok run]
  simp only [List.append_assoc]

theorem rest_of_block_in_step {pairing : Pairing} (ends : pairing.stop = .endOfInput)
    (inexact : ¬pairing.exactly) {size rounds more : Nat} {declaration other : Rule Statement}
    (inStep : InStep pairing size 1 pairing.Same declaration other) (isMore : rounds ≤ more)
    (enough : size ≤ rounds) (read read' : List Statement) :
    InStep pairing size 1 pairing.Same (restOfBlock declaration rounds read)
      (restOfBlock other more read') := by
  have inside := declarations_in_step ends inStep
    (fun kind => kind = .rightBrace || kind = .endOfInput) rfl isMore enough
  exact inside.bind fun _ _ _ => .expect (pairing.differs ends (by decide)) (by decide) fun _ =>
    .pure fun isExact => absurd isExact inexact

/-- A declaration that may have failed, in a block. -/
theorem rest_of_block_once {declaration : Rule Statement} (rounds : Nat) (read : List Statement)
    {first : Token} {rest : List Token} {nextId : Nat} {complaints : List Complaint}
    {found : Option Statement} {middle : Reading} (leads : first.kind.leadsDeclaration = true)
    (run : recovering declaration ⟨first :: rest, nextId, complaints⟩ = .ok found middle) :
    restOfBlock declaration (rounds + 1) read ⟨first :: rest, nextId, complaints⟩ =
      restOfBlock declaration rounds (read ++ found.toList) middle := by
  refine rest_of_block_later (declarations_once ?_ run)
  simp [Reading.next,
    Kind.leads_differs leads (show Kind.leadsDeclaration .rightBrace = false from rfl),
    Kind.leads_differs leads (show Kind.leadsDeclaration .endOfInput = false from rfl)]

/-- The complaint about a declaration without its semicolon is the same wherever it stands. -/
theorem declaration_stops_alike {front rest : List Token} {semicolon brace ending : Token}
    (derived : Derives (form .declaration) (front ++ [semicolon]))
    (closes : semicolon.kind = .semicolon) (isBrace : brace.kind = .rightBrace)
    (inner : ∀ token ∈ rest, token.kind ≠ .endOfInput) (ends : ending.kind = .endOfInput) :
    ∃ item, ∀ bound nextId complaints, nesting (front ++ brace :: (rest ++ [ending])) ≤ bound →
      ∃ laterId, declaration bound ⟨front ++ brace :: (rest ++ [ending]), nextId, complaints⟩ =
        .error ⟨brace, .expected item⟩ ⟨brace :: (rest ++ [ending]), laterId, complaints⟩ := by
  obtain ⟨item, _, run⟩ := declaration_stops derived closes isBrace (rest ++ [ending])
    (Nat.le_refl _) 0 []
  refine ⟨item, fun bound nextId complaints enough => ?_⟩
  obtain ⟨other, laterId, runToo⟩ := declaration_stops derived closes isBrace (rest ++ [ending])
    enough nextId complaints
  have innerWhole : ∀ token ∈ front ++ brace :: rest, token.kind ≠ .endOfInput := by
    simp only [List.forall_mem_append, List.forall_mem_cons, isBrace]
    exact ⟨(List.forall_mem_append.mp (derives_inner derived rfl)).1, by decide, inner⟩
  -- the two runs are in step, so that they stop with the same complaint
  let pairing : Pairing := .toEnd False ⟨[], [], []⟩ ⟨[], complaints, []⟩ none
  have all : AllInStep pairing _ (.bounded _) (.bounded bound) := all_in_step_later enough
  have whole : front ++ brace :: (rest ++ [ending]) = front ++ brace :: rest ++ [ending] := by simp
  have ended := (all.declaration rfl ((front ++ brace :: (rest ++ [ending])).length + 1) (by
    simp only [nesting]
    omega)).beside (front ++ brace :: (rest ++ [ending]))
    ⟨front ++ brace :: (rest ++ [ending]), 0, []⟩
    ⟨front ++ brace :: (rest ++ [ending]), nextId, complaints⟩
    ⟨whole ▸ Pairing.to_end_covers innerWhole ends, (List.append_nil _).symm,
      (List.append_nil _).symm, fun isExact => isExact.elim, [], rfl, (List.append_nil _).symm⟩
    trivial (Nat.lt_succ_self _)
  change pairing.Ends _ _ _ (declaration _ _) (declaration _ _) at ended
  rw [run, runToo] at ended
  cases ended
  exact ⟨laterId, runToo⟩

end Rule

/-- Recovery goes on behind some of the tokens. -/
theorem boundary_before_end {tokens : List Token} {ending : Token}
    (inner : ∀ token ∈ tokens, token.kind ≠ .endOfInput) (ends : ending.kind = .endOfInput) :
    ∃ dropped left, tokens = dropped ++ left ∧
      fromBoundary false (tokens ++ [ending]) = left ++ [ending] := by
  have covers : (Pairing.toEnd False ⟨[], [], []⟩ ⟨[], [], []⟩ none).Covers (tokens ++ [ending]) :=
    Pairing.to_end_covers inner ends
  obtain ⟨dropped, left, split, coversLeft, goes⟩ := boundary_covers rfl covers false
  obtain ⟨first, rest, same⟩ := coversLeft.head
  obtain ⟨inside, rfl, rfl⟩ := split_before_end split (by rw [same]; exact List.cons_ne_nil _ _)
  refine ⟨dropped, inside, rfl, ?_⟩
  simpa using goes []

/-- Whether a gap is watched for makes no difference to how two runs ended. -/
theorem Pairing.Ends.watched {α : Type} {exactly : Prop} {first second : Side}
    {gap other : Option Gap} {tokens : List Token} {taken : Nat} {alike : α → α → Prop}
    {one two : EStateM.Result Complaint Reading α}
    (ends : (toEnd exactly first second gap).Ends tokens taken alike one two) :
    (toEnd exactly first second other).Ends tokens taken alike one two := by
  have covered {left : List Token} (covers : (toEnd exactly first second gap).Covers left) :
      (toEnd exactly first second other).Covers left := by
    induction covers with
    | stop fits => exact .stop fits
    | more fits _ induction => exact .more fits induction
  cases ends with
  | ok trees split enough beside =>
      exact .ok trees split enough ⟨covered beside.covers, beside.oneRest, beside.otherRest,
        beside.numbers, beside.complaints⟩
  | error split beside =>
      exact .error split ⟨covered beside.covers, beside.oneRest, beside.otherRest, beside.numbers,
        beside.complaints⟩

/-- What a block begins with is read in a certain number of rounds, if it is well formed. -/
theorem program_passed {before : List Token} (derived : Derives (form .program) before) :
    ∃ count ≤ before.length, ∀ bound rounds beyond nextId, leading beyond ≠ .elseWord →
      nesting (before ++ beyond) ≤ bound → ∃ read laterId,
        restOfBlock (declaration bound) (rounds + count) [] ⟨before ++ beyond, nextId, []⟩ =
          restOfBlock (declaration bound) rounds read ⟨beyond, laterId, []⟩ := by
  obtain ⟨pieces, rfl, each⟩ := derives_many_pieces (derives_form.mp derived)
  have contained : ∀ piece ∈ pieces, Contained piece [] := fun piece member =>
    declaration_contained (each piece member)
  have ongoing (kind : Kind) (noBrace : kind ≠ .rightBrace) (isInner : kind ≠ .endOfInput) :
      (decide (kind = .rightBrace) || decide (kind = .endOfInput)) = false := by
    simp [noBrace, isInner]
  have quiet : pieces.flatMap (fun _ => ([] : List Complaint)) = [] :=
    List.flatMap_eq_nil_iff.mpr fun _ _ => rfl
  refine ⟨pieces.length, segments_length contained, ?_⟩
  intro bound rounds beyond nextId noBranch enough
  obtain ⟨read, laterId, run⟩ := segments_passed contained ongoing noBranch enough rounds nextId []
  refine ⟨read, laterId, ?_⟩
  rw [rest_of_block_later run, quiet]
  rfl

theorem bare_exit_read {bound : Nat} (enough : 2 ≤ bound) (beyond : List Token) (nextId : Nat)
    (complaints : List Complaint) :
    recovering (declaration bound) ⟨bareExit ++ beyond, nextId, complaints⟩ =
      .ok (some (.exit ⟨.returnWord, "return", 1⟩ none)) ⟨beyond, nextId, complaints⟩ := by
  obtain ⟨fewer, rfl⟩ : ∃ fewer, bound = fewer + 2 := ⟨bound - 2, by omega⟩
  rfl

/-- A declaration has more than its semicolon. -/
theorem begins_before_semicolon {front : List Token} {semicolon : Token}
    (declared : Derives (form .declaration) (front ++ [semicolon]))
    (closes : semicolon.kind = .semicolon) :
    ∃ first rest, front = first :: rest ∧ first.kind.leadsDeclaration = true := by
  obtain ⟨first, others, same, leads⟩ := declaration_begins declared
  cases front with
  | nil =>
      obtain ⟨rfl, -⟩ := List.cons.inj same
      rw [closes] at leads
      cases leads
  | cons token rest =>
      obtain ⟨rfl, -⟩ := List.cons.inj same
      exact ⟨_, rest, rfl, leads⟩

/-- Recovery drops the token at which a declaration stopped. -/
theorem recovering_drops {rule : Rule Statement} {reading : Reading} {complaint : Complaint}
    {token : Token} {rest left : List Token} {nextId : Nat} {complaints : List Complaint}
    (stopped : rule reading = .error complaint ⟨token :: rest, nextId, complaints⟩)
    (isBrace : token.kind = .rightBrace) (boundary : fromBoundary false rest = left) :
    recovering rule reading = .ok none ⟨left, nextId, complaints ++ [complaint]⟩ := by
  rw [recovering, stopped]
  simp [Reading.resume, Reading.note, isBrace, boundary]

/-- Where a declaration lacks its semicolon, a block goes on behind the brace as if another
declaration stood in front of the boundary. -/
theorem BlockPlace.crossed_lacking {place : BlockPlace} {before front left : List Token}
    {semicolon ending : Token} {item : Missing} (derived : Derives (form .program) before)
    (declared : Derives (form .declaration) (front ++ [semicolon]))
    (closes : semicolon.kind = .semicolon) (ends : ending.kind = .endOfInput)
    (inner : ∀ token ∈ left, token.kind ≠ .endOfInput)
    (stops : ∀ bound nextId complaints,
      nesting (front ++ place.closing :: (place.back ++ [ending])) ≤ bound → ∃ laterId,
        declaration bound ⟨front ++ place.closing :: (place.back ++ [ending]), nextId, complaints⟩ =
          .error ⟨place.closing, .expected item⟩
            ⟨place.closing :: (place.back ++ [ending]), laterId, complaints⟩)
    (boundary : fromBoundary false (place.back ++ [ending]) = left ++ [ending]) :
    Crossed place [ending] (before ++ front ++ place.closing :: place.back ++ [ending])
      (before ++ bareExit ++ left ++ [ending]) [⟨place.closing, .expected item⟩] [] := by
  obtain ⟨first, rest, rfl, leads⟩ := begins_before_semicolon declared closes
  obtain ⟨dropped, split⟩ := from_boundary_suffix false (place.back ++ [ending])
  rw [boundary] at split
  obtain ⟨count, few, passes⟩ := program_passed derived
  intro bound later nextId isLater roomOne roomOther
  simp only [List.append_assoc, List.cons_append] at roomOne roomOther ⊢
  obtain ⟨rounds, more, rfl, rfl⟩ : ∃ rounds more,
      bound = rounds + 1 + count ∧ later = more + 1 + count :=
    ⟨bound - 1 - count, later - 1 - count, by
      simp only [nesting, List.length_append] at roomOne
      omega, by
      simp only [nesting, List.length_append] at roomOne
      omega⟩
  have enough : count + 8 * left.length + 32 ≤ rounds + 1 + count := by
    simp only [nesting, bareExit, List.length_append, List.length_cons, List.length_nil]
      at roomOther
    omega
  -- one run notes a complaint at the brace, the other one has nothing to complain about
  obtain ⟨read, middleId, passedOne⟩ := passes _ (rounds + 1)
    (first :: (rest ++ place.closing :: (place.back ++ [ending]))) nextId
    (Kind.leads_differs leads rfl) roomOne
  obtain ⟨oneId, stopped⟩ := stops (rounds + 1 + count) middleId [] (by
    simp only [nesting, List.length_append, List.length_cons] at roomOne ⊢
    omega)
  have noted := rest_of_block_once rounds read leads
    (recovering_drops stopped place.closes boundary)
  obtain ⟨read', otherId, passedOther⟩ := passes _ (more + 1) (bareExit ++ (left ++ [ending]))
    nextId (show Kind.returnWord ≠ .elseWord by decide) (roomOther.trans isLater)
  have exited := rest_of_block_once more read'
    (show Kind.leadsDeclaration .returnWord = true from rfl)
    (bare_exit_read (show 2 ≤ more + 1 + count by omega) (left ++ [ending]) otherId [])
  -- from the boundary on both runs read the same
  let pairing : Pairing := .toEnd False ⟨[], [⟨place.closing, .expected item⟩],
    before ++ first :: (rest ++ place.closing :: (place.back ++ [ending]))⟩
    ⟨[], [], before ++ (bareExit ++ (left ++ [ending]))⟩ none
  have all : AllInStep pairing _ (.bounded _) (.bounded (more + 1 + count)) :=
    all_in_step_later isLater
  have inStep := rest_of_block_in_step (show pairing.stop = .endOfInput from rfl)
    (fun isExact => isExact) (all.declaration rfl (left.length + 2) (by omega))
    (show rounds ≤ more by omega) (show left.length + 2 ≤ rounds by omega) (read ++ [])
    (read' ++ [.exit ⟨.returnWord, "return", 1⟩ none])
  have ended := inStep.beside (left ++ [ending])
    ⟨left ++ [ending], oneId, [] ++ [⟨place.closing, .expected item⟩]⟩
    ⟨left ++ [ending], otherId, []⟩ ⟨Pairing.to_end_covers inner ends, (List.append_nil _).symm,
      (List.append_nil _).symm, fun isExact => isExact.elim, [], rfl, rfl⟩ trivial (by simp)
  rw [block_eq, block_eq, passedOne.trans noted, passedOther.trans exited]
  have front : before ++ first :: (rest ++ place.closing :: (place.back ++ [ending])) =
      before ++ first :: (rest ++ place.closing :: dropped) ++ (left ++ [ending]) := by
    simp [← split]
  exact Pairing.Ends.watched (ended.further front (Nat.le_add_left 1 _))

/-- A block does not close behind a declaration that lacks its semicolon. The complaint is made at
the brace; recovery drops that brace and goes on from the next boundary, and what stands there is
read as if it stood in the block, behind another declaration. So it is complained about as well,
unless one opening brace without its closing one has been dropped on the way to the boundary. -/
theorem missing_semicolon_leaves_block_open (place : BlockPlace) {before front : List Token}
    {semicolon ending : Token} (derived : Derives (form .program) before)
    (declared : Derives (form .declaration) (front ++ [semicolon]))
    (closes : semicolon.kind = .semicolon) (ends : ending.kind = .endOfInput) (firstId : Nat) :
    (parseProgram (place.around (before ++ (front ++ [semicolon])) ++ [ending]) firstId).complaints =
        [] ∧
      ∃ item dropped left, place.back = dropped ++ left ∧
        fromBoundary false (place.back ++ [ending]) = left ++ [ending] ∧
        let further := (parseProgram
          (place.front ++ place.opening :: (before ++ bareExit ++ left) ++ [ending]) firstId).complaints
        (parseProgram (place.around (before ++ front) ++ [ending]) firstId).complaints =
            ⟨place.closing, .expected item⟩ :: further ∧
          (braces dropped ≠ 1 → further ≠ []) := by
  have innerBefore := derives_inner derived rfl
  have innerFront := (List.forall_mem_append.mp (derives_inner declared rfl)).1
  have whole : Derives (form .program) (before ++ (front ++ [semicolon])) :=
    .form (derives_many_snoc (derives_form.mp derived) declared)
  obtain ⟨item, stops⟩ := declaration_stops_alike declared closes place.closes place.inner.2 ends
  obtain ⟨dropped, left, split, boundary⟩ := boundary_before_end place.inner.2 ends
  have innerLeft : ∀ token ∈ left, token.kind ≠ .endOfInput := by
    have inner := place.inner.2
    rw [split] at inner
    exact (List.forall_mem_append.mp inner).2
  refine ⟨BlockPlace.program_around (program_fills whole) (derives_inner whole rfl) ends firstId,
    item, dropped, left, split, boundary, ?_⟩
  intro further
  have innerOther : ∀ token ∈ before ++ bareExit ++ left, token.kind ≠ .endOfInput := by
    simp only [List.forall_mem_append]
    exact ⟨⟨innerBefore, derives_inner bare_exit_derived rfl⟩, innerLeft⟩
  have innerOne : ∀ token ∈ before ++ front ++ place.closing :: place.back,
      token.kind ≠ .endOfInput := by
    simp only [List.forall_mem_append, List.forall_mem_cons, place.closes]
    exact ⟨⟨innerBefore, innerFront⟩, by decide, place.inner.2⟩
  constructor
  · obtain ⟨added, complaints, same⟩ := BlockPlace.programs_in_place ends innerOne innerOther
      (BlockPlace.crossed_lacking derived declared closes ends innerLeft stops boundary) firstId
    rw [show further = added from same]
    exact complaints
  · intro odd quiet
    have innerRemaining : ∀ token ∈ place.front ++ place.opening :: (before ++ bareExit ++ left),
        token.kind ≠ .endOfInput := by
      simp only [List.forall_mem_append, List.forall_mem_cons, place.opens]
      exact ⟨place.inner.1, by decide,
        ⟨innerBefore, derives_inner bare_exit_derived rfl⟩, innerLeft⟩
    have remaining := derives_balanced (derived_of_quiet innerRemaining ends quiet)
    have usual := derives_balanced (place.fits bareExit bare_exit_derived)
    have balanced := derives_balanced derived
    rw [split] at usual
    simp only [braces_append, braces_cons, place.opens, place.closes, balanced,
      derives_balanced bare_exit_derived, Kind.braces] at usual remaining
    omega

/-- A block with nothing behind it. -/
theorem missing_semicolon_leaves_bare_block_open :
    let place : BlockPlace :=
      @BlockPlace.bare ⟨.leftBrace, "\x7b", 1⟩ ⟨.rightBrace, "\x7d", 1⟩ rfl rfl
    Derives (form .program) [] ∧
      Derives (form .declaration) ([⟨.returnWord, "return", 1⟩] ++ [⟨.semicolon, ";", 1⟩]) ∧
      (⟨.semicolon, ";", 1⟩ : Token).kind = .semicolon ∧
      (⟨.endOfInput, "", 1⟩ : Token).kind = .endOfInput ∧
      ∃ item first others, (parseProgram
        (place.around [⟨.returnWord, "return", 1⟩] ++ [⟨.endOfInput, "", 1⟩]) 0).complaints =
          ⟨⟨.rightBrace, "\x7d", 1⟩, .expected item⟩ :: first :: others := by
  intro place
  have empty : Derives (form .program) [] := .form .none
  have exit : Derives (form .declaration) ([⟨.returnWord, "return", 1⟩] ++ [⟨.semicolon, ";", 1⟩]) :=
    bare_exit_declared
  refine ⟨empty, exit, rfl, rfl, ?_⟩
  obtain ⟨-, item, dropped, left, split, -, complaints, unbalanced⟩ :=
    missing_semicolon_leaves_block_open place empty exit rfl
      (show (⟨.endOfInput, "", 1⟩ : Token).kind = .endOfInput from rfl) 0
  obtain ⟨rfl, rfl⟩ := List.append_eq_nil_iff.mp (show dropped ++ left = [] from split.symm)
  obtain ⟨first, others, same⟩ := List.exists_cons_of_ne_nil (unbalanced (by decide))
  exact ⟨item, first, others, complaints.trans (congrArg _ same)⟩

/-- A print statement without its semicolon makes the block end at the end of the input. -/
theorem block_without_semicolon_blamed_twice :
    (parseProgram (tokensOf (scan "\x7b print nil \x7d")) 0).complaints =
        [⟨⟨.rightBrace, "\x7d", 1⟩, .expected .printEnd⟩,
          ⟨⟨.endOfInput, "", 1⟩, .expected .blockEnd⟩] ∧
      (parseProgram (tokensOf (scan "\x7b print nil; \x7d")) 0).complaints = [] := by
  constructor
  · rfl
  · rfl

end Lox
