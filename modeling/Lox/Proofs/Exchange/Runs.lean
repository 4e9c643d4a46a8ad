import Lox.Proofs.Recovery.Runs
import Lox.Proofs.Renaming.Renumbered

/-!
One statement in the place of another. The same rule is run on two inputs that agree but for one
statement, which the second run finds in other tokens than the first. If the first run has nothing
to complain about, the second one takes the same tokens around the statement and makes the same
tree, but for the numbers in it. The statement begins with a word that nothing else begins with; so
a run that goes on there reads a statement, or fails.
-/

namespace Lox

/-- A statement, written in two ways, and what follows it. Both lists go on to the end. -/
structure Exchange where
  here : List Token
  there : List Token
  rest : List Token
  /-- How deep rules have to be allowed to nest so that the statement can be read. -/
  bound : Nat
  keyword : leading here = .forWord
  opens : leading there = .whileWord ∨ leading there = .leftBrace
  reads : ∀ later, bound ≤ later → ∀ firstId firstId', ∃ tree twin next next',
    Rule.statement later ⟨here, firstId, []⟩ = .ok tree ⟨rest, next, []⟩ ∧
      Rule.statement later ⟨there, firstId', []⟩ = .ok twin ⟨rest, next', []⟩ ∧
      twin.relabel .unnumbered = tree.relabel .unnumbered ∧ next' + firstId = next + firstId'

namespace Exchange

variable {exchange : Exchange} {size : Nat} {α β : Type}

/-- Both runs are behind the statement, or before it with the same tokens ahead of it. -/
inductive Beside (exchange : Exchange) (size : Nat) : Reading → Reading → Prop where
  | behind (rest : List Token) (nextId nextId' : Nat) :
      Beside exchange size ⟨rest, nextId, []⟩ ⟨rest, nextId', []⟩
  | before {front : List Token} (short : front.length < size) (nextId nextId' : Nat) :
      Beside exchange size ⟨front ++ exchange.here, nextId, []⟩
        ⟨front ++ exchange.there, nextId', []⟩

theorem Beside.larger {larger : Nat} {one other : Reading}
    (beside : exchange.Beside size one other) (isLarger : size ≤ larger) :
    exchange.Beside larger one other := by
  cases beside with
  | behind rest nextId nextId' => exact .behind rest nextId nextId'
  | before short nextId nextId' => exact .before (short.trans_le isLarger) nextId nextId'

/-- Both runs are before the statement itself. -/
structure Starts (exchange : Exchange) (size : Nat) (one other : Reading) : Prop where
  some : 0 < size
  one : one = ⟨exchange.here, one.nextId, []⟩
  other : other = ⟨exchange.there, other.nextId, []⟩

theorem Starts.next {one other : Reading} (starts : exchange.Starts size one other) :
    one.next.kind = .forWord ∧
      (other.next.kind = .whileWord ∨ other.next.kind = .leftBrace) := by
  rw [starts.one, starts.other]
  exact ⟨exchange.keyword, exchange.opens⟩

theorem Starts.beside {one other : Reading} (starts : exchange.Starts size one other) :
    exchange.Beside size one other := by
  rw [starts.one, starts.other]
  exact @Beside.before exchange size [] starts.some _ _

/-- Two runs that are not before the statement have the same token before them, and are still
beside each other when they have taken it. -/
theorem Beside.cases_next {one other : Reading} (beside : exchange.Beside size one other) :
    exchange.Starts size one other ∨ one.next = other.next ∧
      exchange.Beside (size - 1) { one with rest := one.rest.drop 1 }
        { other with rest := other.rest.drop 1 } := by
  cases beside with
  | behind rest nextId nextId' => exact .inr ⟨rfl, .behind _ _ _⟩
  | @before front short nextId nextId' =>
      cases front with
      | nil => exact .inl ⟨short, rfl, rfl⟩
      | cons token front =>
          rw [List.length_cons] at short
          exact .inr ⟨rfl, .before (by omega) _ _⟩

/-- The second run ends as the first one has ended. -/
def Ends (exchange : Exchange) (size : Nat) (alike : α → α → Prop) (one other : Reading)
    (tree : α) (after : Reading) (outcome : EStateM.Result Complaint Reading α) : Prop :=
  ∃ twin last, outcome = .ok twin last ∧ alike tree twin ∧ exchange.Beside size after last ∧
    last.nextId + one.nextId = after.nextId + other.nextId

end Exchange

namespace Rule

variable {α β γ : Type} {exchange : Exchange}

/-- Trees that look the same in some view of them. -/
def SameIn (view : α → γ) (tree twin : α) : Prop := view twin = view tree

instance {view : α → γ} : Std.Refl (SameIn view) := ⟨fun _ => rfl⟩

/-- With fewer tokens than `size` to the statement, of which the next one has been seen, a rule
that is content makes its twin end in the same way. -/
structure ExchangesWhen (exchange : Exchange) (seen : Token → Prop) (size : Nat)
    (alike : α → α → Prop) (rule twin : Rule α) : Prop where
  grows : rule.Grows
  ends : ∀ fewer ≤ size, ∀ one other, exchange.Beside fewer one other → seen one.next →
    seen other.next → ∀ tree after, rule one = .ok tree after → after.complaints = [] →
      exchange.Ends fewer alike one other tree after (twin other)

abbrev Exchanges (exchange : Exchange) (size : Nat) (alike : α → α → Prop)
    (rule twin : Rule α) : Prop :=
  ExchangesWhen exchange (fun _ => True) size alike rule twin

namespace ExchangesWhen

variable {seen : Token → Prop} {size : Nat} {alike wider : α → α → Prop} {rule twin : Rule α}

theorem smaller (exchanges : ExchangesWhen exchange seen size alike rule twin) {smaller : Nat}
    (isSmaller : smaller ≤ size) : ExchangesWhen exchange seen smaller alike rule twin :=
  ⟨exchanges.grows, fun fewer isFewer => exchanges.ends fewer (isFewer.trans isSmaller)⟩

theorem anywhere (exchanges : Exchanges exchange size alike rule twin) :
    ExchangesWhen exchange seen size alike rule twin :=
  ⟨exchanges.grows, fun fewer isFewer one other beside _ _ =>
    exchanges.ends fewer isFewer one other beside trivial trivial⟩

theorem pure {tree tree' : α} (trees : alike tree tree') :
    ExchangesWhen exchange seen size alike (Pure.pure tree) (Pure.pure tree') where
  grows := .pure fun _ => trivial
  ends fewer _ one other beside _ _ result after run _ := by
    cases run
    exact ⟨tree', other, rfl, trees, beside, Nat.add_comm _ _⟩

/-- A run that fails is not content. -/
theorem missing (item : Missing) {twin : Rule α} :
    ExchangesWhen exchange seen size alike (Rule.missing item) twin where
  grows := missing_reads item
  ends fewer _ one other _ _ _ result after run _ := by cases run

/-- Nor is one that notes a complaint. -/
theorem noted (place : Token) (cause : SyntaxError) {rule twin : Rule α} (grows : rule.Grows) :
    ExchangesWhen exchange seen size alike (Rule.note place cause >>= fun _ => rule) twin where
  grows := (note_reads place cause).bind fun _ => grows.weaken fun _ _ _ _ _ _ _ _ => trivial
  ends fewer _ one other _ _ _ result after run quiet := by
    have calm := grows.quiet (show rule (one.note ⟨place, cause⟩) = .ok result after from run) quiet
    simp [Reading.note] at calm

theorem fresh : ExchangesWhen exchange seen size (SameIn fun _ => ()) Rule.fresh Rule.fresh where
  grows := fresh_reads.weaken fun _ _ _ _ _ => trivial
  ends fewer _ one other beside _ _ result after run _ := by
    cases run
    refine ⟨other.nextId, { other with nextId := other.nextId + 1 }, rfl, rfl, ?_, ?_⟩
    · cases beside with
      | behind rest nextId nextId' => exact .behind _ _ _
      | before short nextId nextId' => exact .before short _ _
    · dsimp only
      omega

/-- What follows a rule goes on from where the rule has ended. -/
theorem bind {same : β → β → Prop} {next next' : α → Rule β} [Std.Refl alike]
    (first : ExchangesWhen exchange seen size alike rule twin)
    (following : ∀ tree tree', alike tree tree' →
      Exchanges exchange size same (next tree) (next' tree')) :
    ExchangesWhen exchange seen size same (rule >>= next) (twin >>= next') where
  grows := first.grows.bind fun tree =>
    (following tree tree (Std.Refl.refl tree)).grows.weaken fun _ _ _ _ _ _ _ _ => trivial
  ends fewer isFewer one other beside looked looked' result after run quiet := by
    obtain ⟨tree, middle, runFirst, runNext⟩ := of_bind_ok run
    have calm := (following tree tree (Std.Refl.refl tree)).grows.quiet runNext quiet
    obtain ⟨tree', middle', runTwin, trees, between, numbers⟩ :=
      first.ends fewer isFewer one other beside looked looked' tree middle runFirst calm
    obtain ⟨result', last, runLast, results, ended, further⟩ :=
      (following tree tree' trees).ends fewer isFewer middle middle' between trivial trivial result
        after runNext quiet
    refine ⟨result', last, ?_, results, ended, by omega⟩
    rw [bind_ok runTwin, runLast]

/-- A rule that only makes something of what another rule reads. -/
theorem finish {same : β → β → Prop} {make make' : α → β} [Std.Refl alike]
    (exchanges : ExchangesWhen exchange seen size alike rule twin)
    (made : ∀ tree tree', alike tree tree' → same (make tree) (make' tree')) :
    ExchangesWhen exchange seen size same (rule >>= fun tree => Pure.pure (make tree))
      (twin >>= fun tree => Pure.pure (make' tree)) :=
  exchanges.bind fun tree tree' trees => .pure (made tree tree' trees)

theorem map {same : β → β → Prop} {make : α → β} [Std.Refl alike]
    (exchanges : ExchangesWhen exchange seen size alike rule twin)
    (made : ∀ tree tree', alike tree tree' → same (make tree) (make tree')) :
    ExchangesWhen exchange seen size same (make <$> rule) (make <$> twin) := by
  rw [map_eq_pure_bind, map_eq_pure_bind]
  exact exchanges.finish made

/-- A rule that goes on after a look at the next token. Before the statement the tokens are
different ones. -/
theorem peek {next next' : Token → Rule β} {same : β → β → Prop}
    (each : ∀ token, ExchangesWhen exchange (· = token) size same (next token) (next' token))
    (starts : ∀ fewer ≤ size, ∀ one other, exchange.Starts fewer one other → ∀ tree after,
      next one.next one = .ok tree after → after.complaints = [] →
        exchange.Ends fewer same one other tree after (next' other.next other)) :
    Exchanges exchange size same (Rule.next >>= next) (Rule.next >>= next') where
  grows := next_reads.bind fun token =>
    (each token).grows.weaken fun _ _ _ _ _ _ _ _ => trivial
  ends fewer isFewer one other beside _ _ tree after run quiet := by
    change next one.next one = _ at run
    change exchange.Ends fewer same one other tree after (next' other.next other)
    rcases beside.cases_next with atStart | ⟨looked, -⟩
    · exact starts fewer isFewer one other atStart tree after run quiet
    · rw [← looked]
      exact (each one.next).ends fewer isFewer one other beside rfl looked.symm tree after run quiet

/-- Stepping over the token on which a choice was made. It is the same in both runs, so that the
statement is still to come. -/
theorem step {token : Token} (exchanges : Exchanges exchange (size - 1) alike rule twin) :
    ExchangesWhen exchange (· = token) size alike (skip >>= fun _ => rule)
      (skip >>= fun _ => twin) where
  grows := skip_reads.bind fun _ => exchanges.grows.weaken fun _ _ _ _ _ _ _ _ => trivial
  ends fewer isFewer one other beside looked looked' tree after run quiet := by
    rcases beside.cases_next with starts | ⟨-, skipped⟩
    · obtain ⟨here, there⟩ := starts.next
      rw [looked'.trans looked.symm, here] at there
      rcases there with there | there <;> cases there
    · obtain ⟨twin', last, ran, trees, ended, numbers⟩ :=
        exchanges.ends (fewer - 1) (by omega) _ _ skipped trivial trivial tree after run quiet
      exact ⟨twin', last, ran, trees, ended.larger (Nat.sub_le fewer 1), numbers⟩

end ExchangesWhen

/-- A loop is no part of what a function with a name begins with. -/
theorem starts_function_before {front tokens tokens' : List Token}
    (plain : leading tokens ≠ .funWord ∧ leading tokens ≠ .identifier)
    (plain' : leading tokens' ≠ .funWord ∧ leading tokens' ≠ .identifier) :
    startsFunction (front ++ tokens) = startsFunction (front ++ tokens') := by
  have alone {tokens : List Token} (plain : leading tokens ≠ .funWord) :
      startsFunction tokens = false :=
    Bool.eq_false_iff.mpr fun starts => plain (starts_function_leads starts)
  have second {first : Token} {tokens : List Token} (plain : leading tokens ≠ .identifier) :
      startsFunction (first :: tokens) = false := by
    cases tokens with
    | nil => rfl
    | cons token tokens => exact Bool.and_eq_false_imp.mpr fun _ => decide_eq_false plain
  rcases front with - | ⟨first, - | ⟨next, front⟩⟩
  · rw [List.nil_append, List.nil_append, alone plain.1, alone plain'.1]
  · exact (second plain.2).trans (second plain'.2).symm
  · rfl

namespace Exchanges

variable {size : Nat} {alike : α → α → Prop} {same : β → β → Prop} {rule twin : Rule α}

/-- A choice by the kind of the next token, which is none of those that a loop begins with. -/
theorem choose (test : Kind → Prop) [DecidablePred test] {yes yes' no no' : Token → Rule β}
    (plain : ¬test .forWord ∧ ¬test .whileWord ∧ ¬test .leftBrace)
    (one : ∀ token, test token.kind →
      ExchangesWhen exchange (· = token) size same (yes token) (yes' token))
    (two : ∀ token token', Exchanges exchange size same (no token) (no' token')) :
    Exchanges exchange size same
      (Rule.next >>= fun token => if test token.kind then yes token else no token)
      (Rule.next >>= fun token => if test token.kind then yes' token else no' token) := by
  refine .peek (fun token => ?_) fun fewer isFewer one other starts tree after run quiet => ?_
  · split_ifs with holds
    · exact one token holds
    · exact .anywhere (two token token)
  · obtain ⟨here, there⟩ := starts.next
    have declined : ¬test other.next.kind := by
      rcases there with there | there
      · rw [there]
        exact plain.2.1
      · rw [there]
        exact plain.2.2
    rw [here, if_neg plain.1] at run
    rw [if_neg declined]
    exact (two one.next other.next).ends fewer isFewer one other starts.beside trivial trivial tree
      after run quiet

theorem glance (test : Kind → Prop) [DecidablePred test] {yes yes' no no' : Rule β}
    (plain : ¬test .forWord ∧ ¬test .whileWord ∧ ¬test .leftBrace)
    (one : Exchanges exchange size same yes yes') (two : Exchanges exchange size same no no') :
    Exchanges exchange size same (Rule.next >>= fun token => if test token.kind then yes else no)
      (Rule.next >>= fun token => if test token.kind then yes' else no') :=
  choose test plain (fun _ _ => .anywhere one) fun _ _ => two

/-- Going on after a token that may be missing. -/
theorem accept_any {kinds : List Kind}
    (plain : .forWord ∉ kinds ∧ .whileWord ∉ kinds ∧ .leftBrace ∉ kinds)
    {next next' : Option Token → Rule β}
    (found : ∀ token, Exchanges exchange (size - 1) same (next (some token)) (next' (some token)))
    (absent : Exchanges exchange size same (next none) (next' none)) :
    Exchanges exchange size same (acceptAny kinds >>= next) (acceptAny kinds >>= next') := by
  rw [accept_any_then, accept_any_then]
  simp only [List.contains_iff_mem]
  refine choose (· ∈ kinds) plain (fun token _ => ?_) fun _ _ => absent
  exact .step (found token)

theorem accept {kind : Kind} (plain : kind ≠ .forWord ∧ kind ≠ .whileWord ∧ kind ≠ .leftBrace)
    {next next' : Option Token → Rule β}
    (found : ∀ token, Exchanges exchange (size - 1) same (next (some token)) (next' (some token)))
    (absent : Exchanges exchange size same (next none) (next' none)) :
    Exchanges exchange size same (Rule.accept kind >>= next) (Rule.accept kind >>= next') := by
  refine accept_any ?_ found absent
  simp only [List.mem_singleton]
  exact ⟨plain.1.symm, plain.2.1.symm, plain.2.2.symm⟩

/-- A token that must be there, and what follows it. -/
theorem expect {kind : Kind} {item : Missing} (plain : kind ≠ .forWord)
    {next next' : Token → Rule β}
    (following : ∀ token, Exchanges exchange (size - 1) same (next token) (next' token)) :
    Exchanges exchange size same (Rule.expect kind item >>= next)
      (Rule.expect kind item >>= next') := by
  have chosen (next : Token → Rule β) : (Rule.expect kind item >>= next) =
      Rule.next >>= fun token =>
        if token.kind = kind then skip >>= fun _ => next token else Rule.missing item := by
    funext reading
    change _ = (if reading.next.kind = kind then skip >>= fun _ => next reading.next
      else Rule.missing item) reading
    split_ifs with fits
    · exact bind_ok (expect_found fits)
    · exact bind_error (expect_absent fits)
  rw [chosen, chosen]
  refine .peek (fun token => ?_) fun fewer isFewer one other starts tree after run quiet => ?_
  · split_ifs with fits
    · exact .step (following token)
    · exact .missing item
  · rw [starts.next.1, if_neg plain.symm] at run
    cases run

/-- What was announced, if it was. -/
theorem following {view : α → γ} {kind : Kind}
    (plain : kind ≠ .forWord ∧ kind ≠ .whileWord ∧ kind ≠ .leftBrace)
    (exchanges : Exchanges exchange (size - 1) (SameIn view) rule twin) :
    Exchanges exchange size (SameIn (Option.map view)) (Rule.following kind rule)
      (Rule.following kind twin) := by
  unfold Rule.following
  exact accept plain (fun _ => exchanges.map fun tree tree' trees => congrArg some trees)
    (.pure rfl)

/-- A choice by whether a function with a name comes next. -/
theorem at_function {yes yes' no no' : Rule β}
    (one : Exchanges exchange (size - 1) same yes yes')
    (two : Exchanges exchange size same no no') :
    Exchanges exchange size same
      (atFunctionDeclaration >>= fun found => if found = true then skip >>= fun _ => yes else no)
      (atFunctionDeclaration >>= fun found =>
        if found = true then skip >>= fun _ => yes' else no') where
  grows := by
    refine at_function_grows.bind fun found => ?_
    split_ifs
    · exact skip_reads.bind fun _ => one.grows.weaken fun _ _ _ _ _ _ _ _ _ _ _ => trivial
    · exact two.grows.weaken fun _ _ _ _ _ _ _ _ => trivial
  ends fewer isFewer here there beside _ _ tree after run quiet := by
    have same : startsFunction here.rest = startsFunction there.rest := by
      cases beside with
      | behind rest nextId nextId' => rfl
      | before short nextId nextId' =>
          refine starts_function_before ?_ ?_
          · rw [exchange.keyword]
            decide
          · rcases exchange.opens with opens | opens
            all_goals
              rw [opens]
              decide
    rw [at_function_then] at run ⊢
    rw [← same]
    split_ifs at run ⊢ with starts
    · rcases beside.cases_next with atStart | ⟨looked, -⟩
      · cases atStart.next.1.symm.trans (starts_function_leads starts)
      · exact (ExchangesWhen.step one).ends fewer isFewer here there beside rfl
          looked.symm tree after run quiet
    · exact two.ends fewer isFewer here there beside trivial trivial tree after run quiet

theorem noted_next (cause : SyntaxError) (grows : rule.Grows) :
    Exchanges exchange size alike
      (Rule.next >>= fun token => Rule.note token cause >>= fun _ => rule) twin where
  grows := next_reads.bind fun token =>
    ((note_reads token cause).bind fun _ => grows.weaken fun _ _ _ _ _ _ _ _ _ _ _ => trivial)
  ends fewer isFewer one other beside looked looked' tree after run quiet := by
    have noted : Exchanges exchange size alike (Rule.note one.next cause >>= fun _ => rule) twin :=
      .noted one.next cause grows
    exact noted.ends fewer isFewer one other beside looked looked' tree after run quiet

/-- Items with commas between them. -/
theorem comma_separated {view : α → γ} (each : Exchanges exchange size (SameIn view) rule twin)
    (excess : SyntaxError) (bound count : Nat) :
    Exchanges exchange size (SameIn (List.map view)) (commaSeparated rule excess bound count)
      (commaSeparated twin excess bound count) := by
  induction bound generalizing size count with
  | zero => exact .missing _
  | succ bound induction =>
      have others : Exchanges exchange size (SameIn (List.map view))
          (items rule (commaSeparated rule excess bound (count + 1)))
          (items twin (commaSeparated twin excess bound (count + 1))) := by
        refine each.bind fun first first' firsts => ?_
        refine accept (by decide) (fun _ => ?_) (.pure (congrArg (fun view => [view]) firsts))
        refine (induction (each.smaller (Nat.sub_le size 1)) (count + 1)).finish ?_
        exact fun rest rest' rests => congrArg₂ List.cons firsts rests
      rw [comma_separated_succ, comma_separated_succ]
      split_ifs
      · exact noted_next excess others.grows
      · exact others

/-- A declaration that is read; one that fails leaves its complaint. -/
theorem recovering {view : α → γ} (exchanges : Exchanges exchange size (SameIn view) rule twin) :
    Exchanges exchange size (SameIn (Option.map view)) (Rule.recovering rule)
      (Rule.recovering twin) where
  grows := (recovering_reads exchanges.grows).weaken fun _ _ _ _ _ => trivial
  ends fewer isFewer one other beside _ _ found after run quiet := by
    unfold Rule.recovering at run
    cases ran : rule one with
    | ok tree middle =>
        rw [ran] at run
        cases run
        obtain ⟨twin', last, ranToo, trees, ended, numbers⟩ :=
          exchanges.ends fewer isFewer one other beside trivial trivial tree after ran quiet
        refine ⟨some twin', last, ?_, congrArg some trees, ended, numbers⟩
        rw [Rule.recovering, ranToo]
    | error complaint middle =>
        rw [ran] at run
        cases run
        simp [Reading.note] at quiet

theorem declarations {view : α → γ} (each : Exchanges exchange size (SameIn view) rule twin)
    (closes : Kind → Bool)
    (plain : ¬closes .forWord = true ∧ ¬closes .whileWord = true ∧ ¬closes .leftBrace = true)
    (bound : Nat) :
    Exchanges exchange size (SameIn (List.map view)) (Rule.declarations rule closes bound)
      (Rule.declarations twin closes bound) := by
  induction bound with
  | zero => exact .pure rfl
  | succ bound induction =>
      rw [declarations_succ, declarations_succ]
      refine glance (closes · = true) plain (.pure rfl) ?_
      refine each.recovering.bind fun first first' firsts => induction.finish ?_
      intro rest rest' rests
      have heads := congrArg Option.toList firsts
      rw [Option.toList_map, Option.toList_map] at heads
      rw [SameIn, List.map_append, List.map_append, heads, rests]

end Exchanges

end Rule

end Lox
