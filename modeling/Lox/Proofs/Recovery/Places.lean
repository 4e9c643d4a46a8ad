import Lox.Proofs.Recovery.Ends

/-!
Places for blocks. A place is what stands around the content of a block in code that is well formed
if the content is. Whatever is put there, the brace in front of it opens a block; so two contents
with which that block ends alike make no difference to the code around it, but for the complaints
about the contents themselves.
-/

namespace Lox

open Phrase Rule

/-- What stands around the content of a block, at any depth. -/
structure BlockPlace where
  front : List Token
  opening : Token
  closing : Token
  back : List Token
  opens : opening.kind = .leftBrace
  closes : closing.kind = .rightBrace
  fits : ∀ inside, Derives (form .program) inside →
    Derives (form .program) (front ++ opening :: (inside ++ closing :: back))

/-- A content that no class could have. -/
def bareExit : List Token := [⟨.returnWord, "return", 1⟩, ⟨.semicolon, ";", 1⟩]

theorem bare_exit_declared : Derives (form .declaration) bareExit := by
  have exit : Derives (form .exitStatement) bareExit :=
    .form (derives_word_first.mpr ⟨_, _, rfl, rfl, Derives.absent.before (.alone (.word rfl))⟩)
  exact .form (.other (.form (.other exit)))

theorem bare_exit_derived : Derives (form .program) bareExit :=
  .form (.more bare_exit_declared .none)

theorem Reading.finish_complaints {α : Type} (reading : Reading) (tree : α) :
    (reading.finish tree).complaints = reading.complaints := by
  unfold Parsed.complaints finish
  dsimp only
  split_ifs with quiet
  · exact (List.isEmpty_iff.mp quiet).symm
  · rfl

/-- What a program is blamed for can be seen from a run with any bound that is large enough. -/
theorem complaints_of_run {tokens : List Token} {ending : Token}
    (inner : ∀ token ∈ tokens, token.kind ≠ .endOfInput) (ends : ending.kind = .endOfInput)
    {bound firstId : Nat} (enough : nesting (tokens ++ [ending]) ≤ bound)
    {trees : List Statement} {after : Reading}
    (run : declarations (declaration bound) (· = .endOfInput) bound
      ⟨tokens ++ [ending], firstId, []⟩ = .ok trees after) :
    (parseProgram (tokens ++ [ending]) firstId).complaints = after.complaints := by
  rw [program_bounded inner ends enough firstId] at run
  unfold parseProgram
  dsimp only [Reading.start]
  rw [run]
  exact after.finish_complaints trees

/-- As the content of a block the tokens are read up to the brace that closes it, with these
complaints. -/
def FillsBlock (inside : List Token) (made : List Complaint) : Prop :=
  ∀ closing rest ending bound nextId, closing.kind = .rightBrace →
    (∀ token ∈ rest, token.kind ≠ .endOfInput) → ending.kind = .endOfInput →
    nesting (inside ++ closing :: (rest ++ [ending])) ≤ bound → ∃ statements laterId,
      block (declaration bound) bound ⟨inside ++ closing :: (rest ++ [ending]), nextId, []⟩ =
        .ok statements ⟨rest ++ [ending], laterId, made⟩

/-- Well-formed content fills its block without a complaint. -/
theorem program_fills {inside : List Token} (derived : Derives (form .program) inside) :
    FillsBlock inside [] := by
  intro closing rest ending bound nextId closes _ _ enough
  have content : Derives (inOrder [many (form .declaration), word .rightBrace])
      (inside ++ [closing]) := (derives_form.mp derived).before (.alone (.word closes))
  have handles := (reaches (inside ++ closing :: (rest ++ [ending])).length).block
    (show 8 * (inside ++ closing :: (rest ++ [ending])).length + 8 ≤ bound from enough)
  obtain ⟨statements, left, laterId, run, rfl⟩ := handles _ (rest ++ [ending]) content trivial
    (by simp) nextId []
  refine ⟨statements, laterId, ?_⟩
  rw [← run, List.append_assoc]
  rfl

namespace BlockPlace

variable (place : BlockPlace)

/-- The code with something in the place. -/
def around (inside : List Token) : List Token :=
  place.front ++ place.opening :: (inside ++ place.closing :: place.back)

theorem inner : (∀ token ∈ place.front, token.kind ≠ .endOfInput) ∧
    (∀ token ∈ place.back, token.kind ≠ .endOfInput) := by
  have whole := derives_inner (place.fits [] (.form .none)) rfl
  simp only [List.nil_append, List.forall_mem_append, List.forall_mem_cons] at whole
  exact ⟨whole.1, whole.2.2.2⟩

theorem around_inner {inside : List Token} (inner : ∀ token ∈ inside, token.kind ≠ .endOfInput) :
    ∀ token ∈ place.around inside, token.kind ≠ .endOfInput := by
  simp only [around, List.forall_mem_append, List.forall_mem_cons, place.opens, place.closes]
  exact ⟨place.inner.1, by decide, inner, by decide, place.inner.2⟩

/-- A block on its own. -/
def bare {opening closing : Token} (opens : opening.kind = .leftBrace)
    (closes : closing.kind = .rightBrace) : BlockPlace where
  front := []
  opening := opening
  closing := closing
  back := []
  opens := opens
  closes := closes
  fits inside derived := by
    have block : Derives (form .block) (opening :: (inside ++ [closing])) :=
      .form (derives_word_first.mpr ⟨opening, _, rfl, opens,
        (derives_form.mp derived).before (.alone (.word closes))⟩)
    have whole : Derives (form .program) (opening :: (inside ++ [closing]) ++ []) :=
      .form (.more (.form (.other (.form (.one (.other block))))) .none)
    rwa [List.append_nil] at whole

/-- A place in a place, one level further down. -/
def within (outer inner : BlockPlace) : BlockPlace where
  front := outer.front ++ outer.opening :: inner.front
  opening := inner.opening
  closing := inner.closing
  back := inner.back ++ outer.closing :: outer.back
  opens := inner.opens
  closes := inner.closes
  fits inside derived := by
    have whole := outer.fits _ (inner.fits inside derived)
    simpa using whole

/-- The brace of the place, behind which different contents are put. -/
def gap (more : List Token) : Gap where
  opening := place.opening
  usual := bareExit ++ place.closing :: (place.back ++ more)
  opens := place.opens
  keyword := rfl

/-- Different contents, with complaints of their own about them. -/
def contents (more one other : List Token) (oneMade otherMade : List Complaint) : Pairing :=
  .toEnd False ⟨[], oneMade, one⟩ ⟨[], otherMade, other⟩ (some (place.gap more))

variable {place} {α : Type} {more one other : List Token} {oneMade otherMade : List Complaint}

/-- If a rule gets to the end with some content, then with others it ends alike as long as the
block does. -/
theorem ends_around {rule twin : Rule α} {size taken : Nat} {alike : α → α → Prop}
    (inStep : InStep (place.contents more one other oneMade otherMade) size taken alike rule twin)
    (shortOne : (place.front ++ place.opening :: one).length < size)
    (shortOther : (place.front ++ place.opening :: other).length < size) {nextId laterId : Nat}
    {tree : α} {left : List Token}
    (usual : rule ⟨place.around bareExit ++ more, nextId, []⟩ = .ok tree ⟨left, laterId, []⟩)
    (few : left.length ≤ more.length) :
    (place.contents more one other oneMade otherMade).Ends (place.front ++ place.opening :: one)
      taken alike (rule ⟨place.front ++ place.opening :: one, nextId, []⟩)
      (twin ⟨place.front ++ place.opening :: other, nextId, []⟩) := by
  have start : place.around bareExit ++ more =
      place.front ++ place.opening :: (place.gap more).usual := by
    simp [around, gap]
  rw [start] at usual
  have passes := inStep.ahead (place.gap more) rfl place.front nextId trivial shortOne shortOther
    tree _ usual rfl
  change (place.contents more one other oneMade otherMade).Passes (place.gap more) place.front taken
    alike tree _ (rule ⟨place.front ++ place.opening :: one, nextId, []⟩)
    (twin ⟨place.front ++ place.opening :: other, nextId, []⟩) at passes
  generalize rule ⟨place.front ++ place.opening :: one, nextId, []⟩ = outcome,
    twin ⟨place.front ++ place.opening :: other, nextId, []⟩ = outcome' at passes ⊢
  -- the run with the usual content has read all of it, so that it has passed the brace
  cases passes with
  | @before _ _ before _ _ _ _ here =>
      have same : left = before ++ place.opening :: (place.gap more).usual :=
        congrArg Reading.rest here
      have long := congrArg List.length same
      simp only [gap, List.length_append, List.length_cons] at long
      omega
  | behind ends => exact ends

/-- The block ends alike with either content. -/
def Crossed (place : BlockPlace) (more one other : List Token)
    (oneMade otherMade : List Complaint) :
    Prop :=
  ∀ bound later nextId, bound ≤ later → nesting one ≤ bound → nesting other ≤ bound →
    (place.contents more one other oneMade otherMade).Ends one 1
      (place.contents more one other oneMade otherMade).Same
      (block (declaration bound) bound ⟨one, nextId, []⟩)
      (block (declaration later) later ⟨other, nextId, []⟩)

theorem blocks_cross_of_crossed (crossed : Crossed place more one other oneMade otherMade) :
    BlocksCross (place.contents more one other oneMade otherMade) (.bounded 0) := by
  intro bound later size isLater room gap isGap nextId shortOne shortOther tree after _ _
  have enough {content : List Token} (short : content.length < size) : nesting content ≤ bound := by
    unfold nesting
    omega
  have ends := crossed bound later nextId isLater (enough shortOne) (enough shortOther)
  have same : declaration later = ((Rules.bounded 0).nested later).declaration := by
    rw [← Rules.bounded_eq]
    rfl
  rwa [same] at ends

section Crossed

variable (crossed : Crossed place more one other oneMade otherMade) (bound : Nat)

include crossed

/-- The code around the place is read in step. -/
theorem declaration_around_in_step :
    InStep (place.contents more one other oneMade otherMade) (bound / 8) 1
      (place.contents more one other oneMade otherMade).Same (declaration bound)
      (declaration bound) := by
  have inStep := (all_in_step_to_end (blocks_cross_of_crossed crossed)
    (Nat.le_refl bound)).declaration rfl (bound / 8) (by omega)
  rw [← Rules.bounded_eq] at inStep
  exact inStep

theorem block_around_in_step :
    InStep (place.contents more one other oneMade otherMade) (bound / 8) 1
      (place.contents more one other oneMade otherMade).Same (block (declaration bound) bound)
      (block (declaration bound) bound) :=
  block_in_step (Nat.le_refl bound) (Nat.div_le_self bound 8) rfl
    (declaration_around_in_step crossed bound)

theorem program_around_in_step :
    InStep (place.contents more one other oneMade otherMade) (bound / 8) 0
      (place.contents more one other oneMade otherMade).Same
      (declarations (declaration bound) (· = .endOfInput) bound)
      (declarations (declaration bound) (· = .endOfInput) bound) :=
  declarations_in_step rfl (declaration_around_in_step crossed bound) _ rfl (Nat.le_refl bound)
    (Nat.div_le_self bound 8)

end Crossed

/-- Programs with different contents in a place get the same complaints but for those about the
contents. -/
theorem programs_in_place {ending : Token} (ends : ending.kind = .endOfInput)
    (innerOne : ∀ token ∈ one, token.kind ≠ .endOfInput)
    (innerOther : ∀ token ∈ other, token.kind ≠ .endOfInput)
    (crossed : Crossed place [ending] (one ++ [ending]) (other ++ [ending]) oneMade otherMade)
    (firstId : Nat) : ∃ added,
      (parseProgram (place.front ++ place.opening :: one ++ [ending]) firstId).complaints =
          oneMade ++ added ∧
        (parseProgram (place.front ++ place.opening :: other ++ [ending]) firstId).complaints =
          otherMade ++ added := by
  have innerFront {content : List Token} (inner : ∀ token ∈ content, token.kind ≠ .endOfInput) :
      ∀ token ∈ place.front ++ place.opening :: content, token.kind ≠ .endOfInput := by
    simp only [List.forall_mem_append, List.forall_mem_cons, place.opens]
    exact ⟨place.inner.1, by decide, inner⟩
  have innerExit := place.around_inner (derives_inner bare_exit_derived rfl)
  obtain ⟨statements, accepted⟩ := program_accepted ending firstId ends
    (place.fits bareExit bare_exit_derived)
  -- one bound that has room for everything
  obtain ⟨bound, roomExit, roomOne, roomOther⟩ : ∃ bound,
      nesting (place.around bareExit ++ [ending]) ≤ bound ∧
      nesting (place.front ++ place.opening :: one ++ [ending]) ≤ bound ∧
      nesting (place.front ++ place.opening :: other ++ [ending]) ≤ bound :=
    ⟨_, Nat.le_max_left _ _, (Nat.le_max_left _ _).trans (Nat.le_max_right _ _),
      (Nat.le_max_right _ _).trans (Nat.le_max_right _ _)⟩
  have parsed : parseProgram (place.around bareExit ++ [ending]) firstId =
      ⟨.ok statements, (parseProgram (place.around bareExit ++ [ending]) firstId).nextId⟩ :=
    congrArg (Parsed.mk · _) accepted
  have usual := program_repeats ends innerExit parsed roomExit ends roomExit
  have short {content : List Token}
      (room : nesting (place.front ++ place.opening :: content ++ [ending]) ≤ bound) :
      (place.front ++ place.opening :: (content ++ [ending])).length < bound / 8 := by
    unfold nesting at room
    simp only [List.length_append, List.length_cons, List.length_nil] at room ⊢
    omega
  have ended := ends_around (program_around_in_step crossed bound) (short roomOne) (short roomOther)
    usual (Nat.le_refl _)
  obtain ⟨trees, after, run⟩ := declarations_ok (declaration bound) (· = .endOfInput) bound
    ⟨place.front ++ place.opening :: (one ++ [ending]), firstId, []⟩
  obtain ⟨trees', after', runToo⟩ := declarations_ok (declaration bound) (· = .endOfInput) bound
    ⟨place.front ++ place.opening :: (other ++ [ending]), firstId, []⟩
  rw [run, runToo] at ended
  cases ended with
  | ok _ _ _ beside =>
      obtain ⟨added, complaints, complaints'⟩ := beside.complaints
      refine ⟨added, ?_, ?_⟩
      · rw [complaints_of_run (innerFront innerOne) ends roomOne (by
          rw [List.append_assoc, List.cons_append]; exact run), complaints]
        rfl
      · rw [complaints_of_run (innerFront innerOther) ends roomOther (by
          rw [List.append_assoc, List.cons_append]; exact runToo), complaints']
        rfl

section Filled

variable {inside : List Token} {made : List Complaint}

/-- The usual content and one with complaints that fills the block too. -/
theorem crossed_of_fills (fills : FillsBlock inside made) {rest : List Token} {ending : Token}
    (inner : ∀ token ∈ rest, token.kind ≠ .endOfInput) (ends : ending.kind = .endOfInput) :
    Crossed place (rest ++ [ending])
      (bareExit ++ place.closing :: (place.back ++ (rest ++ [ending])))
      (inside ++ place.closing :: (place.back ++ (rest ++ [ending]))) [] made := by
  intro bound later nextId isLater roomOne roomOther
  have innerBehind : ∀ token ∈ place.back ++ rest, token.kind ≠ .endOfInput :=
    List.forall_mem_append.mpr ⟨place.inner.2, inner⟩
  rw [← List.append_assoc place.back] at roomOne roomOther ⊢
  obtain ⟨trees, oneId, run⟩ := program_fills bare_exit_derived place.closing (place.back ++ rest)
    ending bound nextId place.closes innerBehind ends roomOne
  obtain ⟨trees', otherId, runToo⟩ := fills place.closing (place.back ++ rest) ending later nextId
    place.closes innerBehind ends (roomOther.trans isLater)
  rw [run, runToo]
  have split : bareExit ++ place.closing :: (place.back ++ rest ++ [ending]) =
      (bareExit ++ [place.closing]) ++ (place.back ++ rest ++ [ending]) := by simp
  refine .ok (fun isExact => isExact.elim) split (by simp) ?_
  exact ⟨Pairing.to_end_covers innerBehind ends, (List.append_nil _).symm, (List.append_nil _).symm,
    fun isExact => isExact.elim, [], rfl, (List.append_nil _).symm⟩

/-- Only the content of a place is complained about. -/
theorem program_around (fills : FillsBlock inside made)
    (inner : ∀ token ∈ inside, token.kind ≠ .endOfInput) {ending : Token}
    (ends : ending.kind = .endOfInput) (firstId : Nat) :
    (parseProgram (place.around inside ++ [ending]) firstId).complaints = made := by
  have innerContent {content : List Token} (inner : ∀ token ∈ content, token.kind ≠ .endOfInput) :
      ∀ token ∈ content ++ place.closing :: place.back, token.kind ≠ .endOfInput := by
    simp only [List.forall_mem_append, List.forall_mem_cons, place.closes]
    exact ⟨inner, by decide, place.inner.2⟩
  have crossed := @crossed_of_fills place _ _ fills [] ending (List.forall_mem_nil _) ends
  simp only [List.nil_append, ← List.append_assoc, ← List.cons_append] at crossed
  obtain ⟨added, usual, complaints⟩ := programs_in_place ends
    (innerContent (derives_inner bare_exit_derived rfl)) (innerContent inner) crossed firstId
  obtain ⟨statements, accepted⟩ := program_accepted ending firstId ends
    (place.fits bareExit bare_exit_derived)
  have quiet : (parseProgram (place.around bareExit ++ [ending]) firstId).complaints = [] := by
    unfold Parsed.complaints around
    rw [accepted]
  obtain rfl : added = [] := usual.symm.trans quiet
  rw [List.append_nil] at complaints
  exact complaints

/-- Blocks around a place close at their own brace. -/
theorem fills_around (fills : FillsBlock inside made)
    (inner : ∀ token ∈ inside, token.kind ≠ .endOfInput) :
    FillsBlock (place.around inside) made := by
  intro brace rest ending bound nextId closes innerRest ends enough
  have innerMore : ∀ token ∈ brace :: rest, token.kind ≠ .endOfInput := by
    rw [List.forall_mem_cons, closes]
    exact ⟨by decide, innerRest⟩
  have crossed := @crossed_of_fills place _ _ fills (brace :: rest) ending innerMore ends
  obtain ⟨larger, isLarger, room⟩ : ∃ larger, bound ≤ larger ∧
      nesting (place.around bareExit ++ brace :: (rest ++ [ending])) ≤ larger :=
    ⟨_, Nat.le_max_left _ _, Nat.le_max_right _ _⟩
  have short {content : List Token}
      (room : nesting (place.around content ++ brace :: (rest ++ [ending])) ≤ larger) :
      (place.front ++ place.opening ::
        (content ++ place.closing :: (place.back ++ (brace :: rest ++ [ending])))).length <
        larger / 8 := by
    simp only [nesting, around, List.length_append, List.length_cons, List.length_nil] at room ⊢
    omega
  obtain ⟨statements, usualId, usual⟩ := program_fills (place.fits bareExit bare_exit_derived) brace
    rest ending larger nextId closes innerRest ends room
  have ended := ends_around (block_around_in_step crossed larger) (short room)
    (short (enough.trans isLarger)) usual (by simp)
  have written (content : List Token) : place.front ++ place.opening ::
      (content ++ place.closing :: (place.back ++ (brace :: rest ++ [ending]))) =
        place.around content ++ brace :: (rest ++ [ending]) := by simp [around]
  rw [written, written] at ended
  have usualRun : block (declaration larger) larger
      ⟨place.around bareExit ++ brace :: (rest ++ [ending]), nextId, []⟩ =
        .ok statements ⟨rest ++ [ending], usualId, []⟩ := usual
  rw [usualRun] at ended
  -- the bound of the larger run makes no difference
  have innerWhole := List.forall_mem_append.mpr ⟨place.around_inner inner, innerMore⟩
  have same := (block_beyond innerWhole ends (by simpa using enough) isLarger (.bounded 0) [] []
    nextId []).agree
  rw [← Rules.bounded_eq, List.append_assoc, List.cons_append] at same
  change _ = block (declaration larger) larger _ at same
  rw [same]
  generalize block (declaration larger) larger _ = outcome at ended ⊢
  cases ended with
  | @ok _ statements' _ other _ left _ _ _ beside =>
      obtain ⟨left', laterId, complaints⟩ := other
      obtain ⟨added, quiet, noted⟩ := beside.complaints
      obtain rfl : added = [] := quiet.symm
      refine ⟨statements', laterId, ?_⟩
      have sameRest : rest ++ [ending] = left' := beside.oneRest.trans beside.otherRest.symm
      rw [sameRest, show complaints = made from noted.trans (List.append_nil _)]

end Filled

end BlockPlace

end Lox
