import Lox.Proofs.Grammar.Completeness
import Lox.Proofs.Grammar.ReadingBack
import Lox.Proofs.Renaming.Words

/-!
What a rule has read without a complaint, it reads again in front of other tokens. Of what
comes after the tokens that it took, a rule sees the kind of the first one only; a rule whose
last token closes what it reads sees at most whether a branch follows. The second of two rules
may be one with a larger bound: a bound that is as large as the number of tokens is never used
up.
-/

namespace Lox.Rule

variable {α β : Type}

/-- One rest may take the place of another one. -/
def Replaces (closed : Bool) (rest other : List Token) : Prop :=
  leading other = leading rest ∨ closed = true ∧ leading other ≠ .elseWord

/-- Tokens between a rule and two rests hide what the rests begin with. -/
theorem Replaces.behind {closed outer : Bool} {read rest other : List Token}
    (replaces : Replaces closed rest other)
    (joint : closed = true → outer = true ∨ 0 < read.length) :
    Replaces outer (read ++ rest) (read ++ other) := by
  cases read with
  | cons token read => exact .inl rfl
  | nil =>
      rcases replaces with same | ⟨isClosed, noBranch⟩
      · exact .inl same
      · rcases joint isClosed with isOuter | some
        · exact .inr ⟨isOuter, noBranch⟩
        · exact absurd some (Nat.lt_irrefl 0)

/-- On fewer tokens than `size`, the rule takes at least so many tokens, and another rule reads
the same tree from them. -/
structure Repeated (size taken : Nat) (closed : Bool) (other : Rule α) (before : Reading)
    (read : List Token) (tree : α) (after : Reading) : Prop where
  split : before.rest = read ++ after.rest
  long : before.rest.length < size → taken ≤ read.length
  again : before.rest.length < size → ∀ rest complaints, Replaces closed after.rest rest →
    other ⟨read ++ rest, before.nextId, complaints⟩ = .ok tree ⟨rest, after.nextId, complaints⟩

def Repeats (size taken : Nat) (closed : Bool) (rule other : Rule α) : Prop :=
  rule.Reads (Repeated size taken closed other)

/-- The same, once the next token has been looked at. -/
def RepeatsAt (token : Token) (size taken : Nat) (closed : Bool) (rule other : Rule α) : Prop :=
  ReadsAt token rule (Repeated size taken closed other)

/-- A token that may be missing is taken, or it is missing and nothing is. -/
theorem accept_any_takes {kinds : List Kind} (inner : Kind.endOfInput ∉ kinds) :
    (acceptAny kinds).Reads fun before read token after =>
      before.rest = read ++ after.rest ∧ after.nextId = before.nextId ∧
        (token = none ∧ read = [] ∧ leading before.rest ∉ kinds ∨
          ∃ accepted, token = some accepted ∧ read = [accepted] ∧ accepted.kind ∈ kinds) := by
  intro before
  rw [accept_any_eq]
  split_ifs with isKind
  · have member : before.next.kind ∈ kinds := by simpa using isKind
    have rest := rest_of_next fun same => inner (same ▸ member)
    exact ⟨.same rfl rfl, fun _ => ⟨[before.next], rest, rest, rfl, .inr ⟨_, rfl, rfl, member⟩⟩⟩
  · have different : leading before.rest ∉ kinds :=
      fun member => isKind (List.contains_iff_mem.mpr member)
    exact ⟨.same rfl rfl, fun _ => ⟨[], rfl, rfl, rfl, .inl ⟨rfl, rfl, different⟩⟩⟩

theorem starts_function_leads {tokens : List Token} (starts : startsFunction tokens = true) :
    leading tokens = .funWord := by
  rcases tokens with - | ⟨first, - | ⟨second, rest⟩⟩
  · cases starts
  · cases starts
  · exact of_decide_eq_true (Bool.and_eq_true_iff.mp starts).1

/-- Looking for a function with a name takes nothing. -/
theorem at_function_reads : atFunctionDeclaration.Reads fun before read found after =>
    read = [] ∧ after = before ∧ found = startsFunction before.rest := by
  intro before
  rw [at_function_eq]
  exact ⟨.same rfl rfl, fun _ => ⟨[], rfl, rfl, rfl, rfl⟩⟩

/-- Stepping over a token takes it, unless it is the end. -/
theorem skip_takes : skip.Reads fun before read _ after => before.next.kind ≠ .endOfInput →
    before.rest = read ++ after.rest ∧ read = [before.next] ∧ after.nextId = before.nextId := by
  intro before
  refine ⟨.same rfl rfl, fun _ => ⟨before.rest.take 1, (List.take_append_drop 1 _).symm, ?_⟩⟩
  intro inside
  refine ⟨(List.take_append_drop 1 _).symm, ?_, rfl⟩
  rw [rest_of_next inside]
  rfl

namespace Repeats

variable {size taken total : Nat} {closed outer : Bool} {rule rule' : Rule α}

theorem weaken (repeats : Repeats size taken closed rule rule') {smaller fewer : Nat}
    (isSmaller : smaller ≤ size) (isFewer : fewer ≤ taken) :
    Repeats smaller fewer closed rule rule' := by
  refine Reads.weaken repeats fun before read tree after once => ?_
  exact ⟨once.split, fun short => isFewer.trans (once.long (short.trans_le isSmaller)),
    fun short => once.again (short.trans_le isSmaller)⟩

/-- Who sees less of the rest may be asked about rests that are more alike. -/
theorem opened (repeats : Repeats size taken true rule rule') (closed : Bool) :
    Repeats size taken closed rule rule' := by
  refine Reads.weaken repeats fun before read tree after once => ?_
  refine ⟨once.split, once.long, fun short rest complaints replaces => ?_⟩
  have replaced : Replaces true ([] ++ after.rest) ([] ++ rest) :=
    replaces.behind fun _ => .inl rfl
  exact once.again short rest complaints replaced

theorem anywhere {token : Token} (repeats : Repeats size taken closed rule rule') :
    RepeatsAt token size taken closed rule rule' := Reads.anywhere repeats

theorem pure (tree : α) : Repeats size 0 closed (Pure.pure tree) (Pure.pure tree) :=
  Reads.pure fun _ => ⟨rfl, fun _ => Nat.zero_le _, fun _ _ _ _ => rfl⟩

theorem missing (item : Missing) {other : Rule α} :
    Repeats size taken closed (Rule.missing item) other := missing_reads item

theorem fresh : Repeats size 0 closed Rule.fresh Rule.fresh := by
  intro before
  exact ⟨⟨Nat.le_succ _, [], (List.append_nil _).symm⟩, fun _ =>
    ⟨[], rfl, rfl, fun _ => Nat.zero_le _, fun _ _ _ _ => rfl⟩⟩

/-- What is read after some tokens is read from fewer of them. -/
theorem bind {next next' : α → Rule β} (first : Repeats size taken outer rule rule')
    (following : ∀ tree, Repeats (size - taken) (total - taken) closed (next tree) (next' tree))
    (joint : closed = true → outer = true ∨ 0 < total - taken) :
    Repeats size total closed (rule >>= next) (rule' >>= next') := by
  refine Reads.bind first fun tree => Reads.weaken (following tree) ?_
  rintro middle back result after again before front once
  have lengths : before.rest.length = front.length + middle.rest.length := by
    rw [once.split, List.length_append]
  have shorter (short : before.rest.length < size) : middle.rest.length < size - taken := by
    have enough := once.long short
    omega
  refine ⟨by rw [once.split, again.split, List.append_assoc], fun short => ?_,
    fun short rest complaints replaces => ?_⟩
  · have first := once.long short
    have second := again.long (shorter short)
    rw [List.length_append]
    omega
  · have hidden : Replaces outer middle.rest (back ++ rest) := by
      rw [again.split]
      refine replaces.behind fun isClosed => (joint isClosed).imp_right fun some => ?_
      exact some.trans_le (again.long (shorter short))
    have run := once.again short (back ++ rest) complaints hidden
    rw [List.append_assoc, bind_ok run]
    exact again.again (shorter short) rest complaints replaces

/-- A rule that only makes something of what another rule reads. -/
theorem finish (repeats : Repeats size taken closed rule rule') (make : α → β) :
    Repeats size taken closed (rule >>= fun tree => Pure.pure (make tree))
      (rule' >>= fun tree => Pure.pure (make tree)) :=
  bind repeats (fun _ => (Repeats.pure _).weaken (Nat.le_refl _) (Nat.sub_self taken).le) .inl

theorem map (repeats : Repeats size taken closed rule rule') (make : α → β) :
    Repeats size taken closed (make <$> rule) (make <$> rule') := by
  rw [map_eq_pure_bind, map_eq_pure_bind]
  exact repeats.finish make

/-- Going on after a token that may be missing. -/
theorem accept_any {kinds : List Kind} (inner : Kind.endOfInput ∉ kinds)
    {next next' : Option Token → Rule β}
    (found : ∀ token,
      Repeats (size - 1) (taken - 1) closed (next (some token)) (next' (some token)))
    (absent : Repeats size taken closed (next none) (next' none))
    (joint : closed = true → 0 < taken ∨ kinds = [.elseWord]) :
    Repeats size taken closed (acceptAny kinds >>= next) (acceptAny kinds >>= next') := by
  refine Reads.bind (accept_any_takes inner) fun token => ?_
  cases token with
  | some token =>
      refine Reads.weaken (found token) ?_
      rintro middle back result after again before front ⟨split, numbers, cases⟩
      obtain ⟨_, same, rfl, isKind⟩ := cases.resolve_left nofun
      cases same
      have lengths : before.rest.length = middle.rest.length + 1 := by
        rw [split, List.singleton_append, List.length_cons]
      refine ⟨by rw [split, again.split, List.append_assoc], fun short => ?_,
        fun short rest complaints replaces => ?_⟩
      · have enough := again.long (by omega)
        rw [List.length_append, List.length_singleton]
        omega
      · rw [List.append_assoc, bind_ok (accept_any_found (by exact isKind)), ← numbers]
        exact again.again (by omega) rest complaints replaces
  | none =>
      refine Reads.weaken absent ?_
      rintro middle back result after again before front ⟨split, numbers, cases⟩
      obtain ⟨-, rfl, different⟩ := cases.resolve_right (by simp)
      rw [List.nil_append] at split
      refine ⟨by rw [split, again.split, List.nil_append], fun short => ?_,
        fun short rest complaints replaces => ?_⟩
      · exact again.long (split ▸ short)
      · have declined : leading (back ++ rest) ∉ kinds := by
          rw [split, again.split] at different
          have enough := again.long (split ▸ short)
          cases back with
          | cons first others => exact different
          | nil =>
              rcases replaces with same | ⟨isClosed, noBranch⟩
              · exact same ▸ different
              · rcases joint isClosed with some | rfl
                · exact absurd (some.trans_le enough) (Nat.lt_irrefl 0)
                · exact fun member => noBranch (List.mem_singleton.mp member)
        rw [List.nil_append, bind_ok (accept_any_absent (by exact declined)), ← numbers]
        exact again.again (split ▸ short) rest complaints replaces

theorem accept {kind : Kind} {next next' : Option Token → Rule β} (inner : kind ≠ .endOfInput)
    (found : ∀ token,
      Repeats (size - 1) (taken - 1) closed (next (some token)) (next' (some token)))
    (absent : Repeats size taken closed (next none) (next' none))
    (joint : closed = true → 0 < taken ∨ kind = .elseWord) :
    Repeats size taken closed (Rule.accept kind >>= next) (Rule.accept kind >>= next') :=
  accept_any (fun member => inner (List.mem_singleton.mp member).symm) found absent
    fun isClosed => (joint isClosed).imp_right fun isElse => congrArg (fun kind => [kind]) isElse

theorem expect {kind : Kind} (inner : kind ≠ .endOfInput) (item : Missing) :
    Repeats size 1 closed (Rule.expect kind item) (Rule.expect kind item) := by
  unfold Rule.expect
  exact .accept inner (fun token => .pure token) (.missing item) fun _ => .inl Nat.one_pos

theorem expect_then {kind : Kind} {item : Missing} {next next' : Token → Rule β}
    (inner : kind ≠ .endOfInput)
    (following : ∀ token, Repeats (size - 1) (total - 1) closed (next token) (next' token)) :
    Repeats size total closed (Rule.expect kind item >>= next) (Rule.expect kind item >>= next') :=
  bind (.expect inner item) following fun _ => .inl rfl

/-- What was announced, if it was. -/
theorem following {kind : Kind} (inner : kind ≠ .endOfInput)
    (repeats : Repeats (size - 1) 0 closed rule rule') (joint : closed = true → kind = .elseWord) :
    Repeats size 0 closed (Rule.following kind rule) (Rule.following kind rule') := by
  unfold Rule.following
  exact .accept inner (fun _ => repeats.map some) (.pure none) fun isClosed =>
    .inr (joint isClosed)

/-- A choice by the kind of the next token. -/
theorem glance (test : Kind → Prop) [DecidablePred test] {yes yes' no no' : Rule β}
    (one : Repeats size taken false yes yes') (two : Repeats size taken false no no') :
    Repeats size taken false (Rule.next >>= fun token => if test token.kind then yes else no)
      (Rule.next >>= fun token => if test token.kind then yes' else no') := by
  refine Reads.bind next_reads fun token => ?_
  have chosen : Repeats size taken false (if test token.kind then yes else no)
      (if test token.kind then yes' else no') := by
    split_ifs
    · exact one
    · exact two
  refine Reads.weaken chosen ?_
  rintro same back result after again before front ⟨rfl, rfl, rfl⟩
  refine ⟨again.split, again.long, fun short rest complaints replaces => ?_⟩
  have hidden : Replaces false same.rest (back ++ rest) := again.split ▸ replaces.behind nofun
  have looked : leading (back ++ rest) = same.next.kind := hidden.resolve_right (by simp)
  change (if test (leading (back ++ rest)) then yes' else no') _ = _
  rw [looked]
  exact again.again short rest complaints replaces

/-- A choice by the next token, of which every rule takes at least that token. -/
theorem peek {next next' : Token → Rule β}
    (each : ∀ token, RepeatsAt token size taken closed (next token) (next' token))
    (some : 0 < taken) : Repeats size taken closed (Rule.next >>= next) (Rule.next >>= next') := by
  refine Reads.peek fun token => Reads.weaken (each token) ?_
  intro before read tree after means isNext
  have once := means isNext
  refine ⟨once.split, once.long, fun short rest complaints replaces => ?_⟩
  have enough := some.trans_le (once.long short)
  have same : (read ++ rest).headD ⟨.endOfInput, "", 1⟩ = token := by
    rw [← isNext, Reading.next, once.split]
    cases read with
    | nil => exact absurd enough (Nat.lt_irrefl 0)
    | cons first others => rfl
  change next' ((read ++ rest).headD ⟨.endOfInput, "", 1⟩) _ = _
  rw [same]
  exact once.again short rest complaints replaces

/-- Stepping over a token that is not the end. -/
theorem step {rule rule' : Rule β} (repeats : Repeats (size - 1) (taken - 1) closed rule rule') :
    Reads (skip >>= fun _ => rule) fun before read tree after => before.next.kind ≠ .endOfInput →
      Repeated size taken closed (skip >>= fun _ => rule') before read tree after := by
  refine Reads.bind skip_takes fun _ => Reads.weaken repeats ?_
  rintro middle back result after again before front stepped inner
  obtain ⟨split, rfl, numbers⟩ := stepped inner
  have lengths : before.rest.length = middle.rest.length + 1 := by
    rw [split, List.singleton_append, List.length_cons]
  refine ⟨by rw [split, again.split, List.append_assoc], fun short => ?_,
    fun short rest complaints replaces => ?_⟩
  · have enough := again.long (by omega)
    rw [List.length_append, List.length_singleton]
    omega
  · change rule' ⟨back ++ rest, before.nextId, complaints⟩ = _
    rw [← numbers]
    exact again.again (by omega) rest complaints replaces

/-- A choice by whether a function with a name comes next, where two tokens are taken at least. -/
theorem at_function {yes yes' no no' : Rule β}
    (one : Repeats (size - 1) (taken - 1) closed yes yes')
    (two : Repeats size taken closed no no') (pair : 2 ≤ taken) :
    Repeats size taken closed
      (atFunctionDeclaration >>= fun found => if found = true then skip >>= fun _ => yes else no)
      (atFunctionDeclaration >>= fun found =>
        if found = true then skip >>= fun _ => yes' else no') := by
  have chosen (found : Bool) : Reads (if found = true then skip >>= fun _ => yes else no)
      fun before read tree after => (found = true → before.next.kind ≠ .endOfInput) →
        Repeated size taken closed (if found = true then skip >>= fun _ => yes' else no') before
          read tree after := by
    cases found with
    | true => exact Reads.weaken one.step fun _ _ _ _ means inner => means (inner rfl)
    | false => exact Reads.weaken two fun _ _ _ _ once _ => once
  refine at_function_reads.bind fun found => Reads.weaken (chosen found) ?_
  rintro before back result after means _ _ ⟨rfl, rfl, rfl⟩
  have again := means fun starts atEnd => by
    cases (starts_function_leads starts).symm.trans atEnd
  refine ⟨again.split, again.long, fun short rest complaints replaces => ?_⟩
  have enough := again.long short
  have same : startsFunction (back ++ rest) = startsFunction before.rest := by
    rw [again.split]
    rcases back with - | ⟨first, - | ⟨second, others⟩⟩
    · exact absurd (pair.trans enough) (by simp)
    · exact absurd (pair.trans enough) (by simp)
    · rfl
  rw [List.nil_append, bind_ok (at_function_eq _)]
  dsimp only
  rw [same]
  exact again.again short rest complaints replaces

/-- A bound that is used up at the end of the tokens is as good as a larger one. -/
theorem exhausted {tree : α} {other : Rule α} (few : size ≤ 1)
    (stays : ∀ rest nextId complaints, leading rest = .endOfInput →
      other ⟨rest, nextId, complaints⟩ = .ok tree ⟨rest, nextId, complaints⟩) :
    Repeats size 0 false (Pure.pure tree) other := by
  refine Reads.pure fun here =>
    ⟨rfl, fun _ => Nat.zero_le _, fun short rest complaints replaces => ?_⟩
  have empty : here.rest = [] := List.length_eq_zero_iff.mp (by omega)
  refine stays _ _ _ ?_
  rw [List.nil_append, replaces.resolve_right (by simp), empty]
  rfl

theorem comma_separated (each : Repeats size 1 false rule rule') (excess : SyntaxError)
    {bound later : Nat} (isLater : bound ≤ later) (count : Nat) :
    Repeats size 1 false (commaSeparated rule excess bound count)
      (commaSeparated rule' excess later count) := by
  induction bound generalizing size later count with
  | zero => exact .missing _
  | succ bound induction =>
      obtain ⟨later, rfl⟩ : ∃ fewer, later = fewer + 1 := ⟨later - 1, by omega⟩
      have others : Repeats size 1 false
          (items rule (commaSeparated rule excess bound (count + 1)))
          (items rule' (commaSeparated rule' excess later (count + 1))) := by
        refine each.bind (fun first => ?_) Bool.noConfusion
        refine .accept (by decide) (fun _ => ?_) (.pure _) Bool.noConfusion
        have fewer := each.weaken (show size - 1 - 1 ≤ size by omega) (Nat.le_refl 1)
        have more := induction fewer (Nat.le_of_succ_le_succ isLater) (count + 1)
        exact (more.weaken (Nat.le_refl _) (Nat.zero_le 1)).finish _
      rw [comma_separated_succ, comma_separated_succ]
      split_ifs
      · refine Reads.bind next_reads fun token => Reads.bind (note_reads token excess) fun _ =>
          Reads.weaken others ?_
        rintro third read tree after - second front impossible
        exact impossible.elim
      · exact others

theorem recovering (repeats : Repeats size taken closed rule rule') :
    Repeats size taken closed (Rule.recovering rule) (Rule.recovering rule') := by
  refine Reads.weaken (recovering_reads repeats) ?_
  rintro before read found after ⟨tree, rfl, once⟩
  refine ⟨once.split, once.long, fun short rest complaints replaces => ?_⟩
  rw [Rule.recovering, once.again short rest complaints replaces]

/-- A list of declarations that is closed by the end of the input at the latest. -/
theorem declarations (each : Repeats size 1 true rule rule') (closes : Kind → Bool)
    (ends : closes .endOfInput = true) {bound later : Nat} (isLater : bound ≤ later)
    (enough : size ≤ bound + 1) :
    Repeats size 0 false (Rule.declarations rule closes bound)
      (Rule.declarations rule' closes later) := by
  induction bound generalizing size later with
  | zero =>
      refine .exhausted enough fun rest nextId complaints atEnd => ?_
      cases later with
      | zero => rfl
      | succ later =>
          change (if closes (leading rest) = true then Pure.pure [] else _ : Rule (List α)) _ = _
          rw [atEnd, if_pos ends]
          rfl
  | succ bound induction =>
      obtain ⟨later, rfl⟩ : ∃ fewer, later = fewer + 1 := ⟨later - 1, by omega⟩
      unfold Rule.declarations
      refine .glance (closes · = true) (.pure _) ?_
      have first := (each.opened false).recovering
      have others := induction (each.weaken (Nat.sub_le size 1) (Nat.le_refl 1))
        (Nat.le_of_succ_le_succ isLater) (by omega)
      exact first.bind (fun found => others.finish _) Bool.noConfusion

end Repeats

/-- Stepping over the token on which a choice was made. -/
theorem RepeatsAt.step {size taken : Nat} {closed : Bool} {token : Token} {kind : Kind}
    (fits : token.kind = kind) (inner : kind ≠ .endOfInput) {rule rule' : Rule β}
    (repeats : Repeats (size - 1) (taken - 1) closed rule rule') :
    RepeatsAt token size taken closed (skip >>= fun _ => rule) (skip >>= fun _ => rule') := by
  refine Reads.weaken repeats.step fun before read tree after means isNext => means ?_
  rw [isNext, fits]
  exact inner

end Lox.Rule
