import Lox.Proofs.Renaming.Rejections

/-!
Programs in the place of others. Two token lists that are read as trees which differ in their
numbers alone are taken for the same program by every session: they break the same rules or do the
same, and whatever is played afterwards gets the same replies.
-/

namespace Lox

/-- Numbers can change places among each other so that some of them become given ones. -/
theorem exists_renumbering {inside : Nat → Prop} {ids ids' : List Nat} (unique : ids.Nodup)
    (unique' : ids'.Nodup) (count : ids'.length = ids.length) (among : ∀ id ∈ ids, inside id)
    (among' : ∀ id ∈ ids', inside id) :
    ∃ number : Equiv.Perm Nat, ids.map number = ids' ∧ ∀ id, ¬inside id → number id = id := by
  induction ids generalizing ids' with
  | nil => exact ⟨Equiv.refl Nat, (List.length_eq_zero_iff.mp count).symm, fun _ _ => rfl⟩
  | cons first rest induction =>
      obtain ⟨first', rest', rfl⟩ := List.exists_cons_of_length_eq_add_one count
      rw [List.nodup_cons] at unique unique'
      rw [List.forall_mem_cons] at among among'
      obtain ⟨number, maps, stays⟩ := induction unique.2 unique'.2 (Nat.succ.inj count) among.2
        among'.2
      -- the number that the first one has become so far gives way to the one that is wanted
      refine ⟨number.trans (Equiv.swap (number first) first'), ?_, fun id outside => ?_⟩
      · have kept : ∀ id ∈ rest, Equiv.swap (number first) first' (number id) = number id := by
          intro id member
          refine Equiv.swap_apply_of_ne_of_ne (fun same => unique.1 ?_) fun same => unique'.1 ?_
          · exact number.injective same ▸ member
          · exact maps ▸ same ▸ List.mem_map_of_mem member
        rw [List.map_cons, ← maps, Equiv.trans_apply, Equiv.swap_apply_left]
        exact congrArg _ (List.map_congr_left kept)
      · rw [Equiv.trans_apply, stays id outside]
        refine Equiv.swap_apply_of_ne_of_ne (fun same => outside ?_) fun same => outside ?_
        · have fixed : number id = number first := (stays id outside).trans same
          exact number.injective fixed ▸ among.1
        · exact same ▸ among'.1

/-- Numbers exchanged, and nothing else. -/
def Recast.renumbering (number : Nat → Nat) : Recast where
  number := number
  reach _ := none
  old := ""
  new := ""
  old_written := (Recast.moving 0 0).old_written
  new_written := (Recast.moving 0 0).new_written

namespace Session

/-- What a session makes of the tokens of a program, from whatever text they come. -/
def receiveTokens (session : Session) (tokens : List Token) :
    Except (List Diagnostic) Line × Session :=
  match parseProgram tokens session.nextId with
  | ⟨.ok orders, next⟩ => { session with nextId := next }.receiveLine (.statements orders)
  | ⟨.error complaints, next⟩ =>
      (.error (complaints.map Complaint.diagnostic), { session with nextId := next })

/-- The report on the tokens of a program, and the replies to what is played behind them. -/
def repliesToTokens (supply : Nat) (tokens : List Token) (later : List (Nat × Entry))
    (session : Session) : Option (List Reply) :=
  (respond supply (.program "") (session.receiveTokens tokens)).bind fun answered =>
    ((play later answered.2).map Prod.fst).map (answered.1 :: ·)

/-- A source text is received as its tokens, unless some of it is no token. -/
theorem receive_tokens (session : Session) {source : String}
    (clean : lexicalErrorsOf (scan source) = []) :
    session.receive (.program source) = session.receiveTokens (tokensOf (scan source)) := by
  have quiet : lexicalDiagnostics (scan source) = [] := congrArg _ clean
  unfold receive prepare receiveTokens
  simp only [quiet]
  generalize parseProgram (tokensOf (scan source)) session.nextId = parsed
  obtain ⟨complaints | orders, next⟩ := parsed
  · rfl
  · simp only [List.isEmpty_nil, if_true]
    change _ = if (Bindings.ofProgram orders).violations.isEmpty = true then _ else _
    split_ifs <;> rfl

/-- Only the tokens of a program are run. -/
theorem respond_program (supply : Nat) (source : String)
    (received : Except (List Diagnostic) Line × Session) :
    respond supply (.program source) received = respond supply (.program "") received := by
  obtain ⟨diagnostics | line, next⟩ := received
  · rfl
  · unfold respond
    dsimp only
    rcases line.run supply next.machine with ⟨value, after⟩ | ⟨_ | _, after⟩ <;> rfl

theorem replies_to_tokens (supply : Nat) (later : List (Nat × Entry)) (session : Session)
    {source : String} (clean : lexicalErrorsOf (scan source) = []) :
    (play ((supply, .program source) :: later) session).map Prod.fst =
      session.repliesToTokens supply (tokensOf (scan source)) later := by
  rw [replies_cons, answer_responds, receive_tokens session clean, respond_program]
  rfl

section Replaced

variable {sink : Sink} {time : Nat} {before : List (Nat × Entry)} {replies : List Reply}
  {session : Session} (played : play before (.start sink time) = some (replies, session))
  {tokens tokens' : List Token} {orders orders' : List Statement} {next : Nat}
  (parsed : parseProgram tokens session.nextId = ⟨.ok orders, next⟩)
  (parsed' : parseProgram tokens' session.nextId = ⟨.ok orders', next⟩)
  (shape : (Node.statements orders).SameButNumbers (.statements orders'))

include played parsed parsed' shape

/-- Both programs leave the session in the same way, but for the numbers that they have used up. -/
theorem received_replaced : ∃ recast : Recast, recast.old = recast.new ∧
    Function.Injective recast.number ∧ (∀ id, next ≤ id → recast.number id = id) ∧
      Received recast 0 (session.receiveTokens tokens) (session.receiveTokens tokens') := by
  have numbered := (program_read tokens session.nextId).2 orders (by rw [parsed])
  have numbered' := (program_read tokens' session.nextId).2 orders' (by rw [parsed'])
  replace numbered := numbered.1
  replace numbered' := numbered'.1
  rw [parsed] at numbered
  rw [parsed'] at numbered'
  have unique := numbered.unique
  have unique' := numbered'.unique
  have between := numbered.between
  have between' := numbered'.between
  rw [List.flatMap_singleton] at unique unique' between between'
  obtain ⟨number, maps, stays⟩ : ∃ number : Equiv.Perm Nat, _ ∧
      ∀ id, ¬(session.nextId ≤ id ∧ id < next) → number id = id :=
    exists_renumbering unique unique' (by rw [List.length_map, List.length_map, shape.count])
      (List.forall_mem_map.mpr between) (List.forall_mem_map.mpr between')
  have renumbered : (Node.statements orders).Renumbered number (.statements orders') := by
    rw [Node.Renumbered, ← maps, List.map_map]
    rfl
  have like : (Line.statements orders).Alike (.renumbering number) (.statements orders') :=
    .statements (Node.alike_renumbered rfl shape renumbered [])
  have start : (Session.start sink time).Alike (.renumbering number) 0 (.start sink time) :=
    ⟨rfl, [[]], Machine.start_alike _ sink time (fun _ => Std.TreeMap.getElem?_emptyc) (.inl rfl)⟩
  have itself := itself_alike rfl number.injective start played fun id given =>
    stays id fun inside => absurd given (Nat.not_lt.mpr inside.1)
  obtain ⟨views, machines⟩ := itself.machines
  have numberedAlike : Session.Alike (.renumbering number) 0 ⟨session.machine, next⟩
      ⟨session.machine, next⟩ := ⟨rfl, views, machines⟩
  refine ⟨.renumbering number, rfl, number.injective,
    fun id beyond => stays id fun inside => absurd inside.2 (Nat.not_lt.mpr beyond), ?_⟩
  rw [receiveTokens, receiveTokens, parsed, parsed']
  exact receive_line_alike rfl number.injective numberedAlike like

/-- The report on both programs is the same, and whatever is played afterwards gets the same
replies. -/
theorem replies_replaced (supply : Nat) (later : List (Nat × Entry)) :
    session.repliesToTokens supply tokens' later = session.repliesToTokens supply tokens later := by
  obtain ⟨recast, same, apart, beyond, received⟩ := received_replaced played parsed parsed' shape
  have answers := respond_alike same received supply (.program "")
  have known : (session.receiveTokens tokens).2.nextId = next := by
    rw [receiveTokens, parsed]
    change (if (Bindings.ofProgram orders).violations.isEmpty = true then _ else _ :
      Except (List Diagnostic) Line × Session).2.nextId = next
    split_ifs <;> rfl
  unfold repliesToTokens
  generalize ended : respond supply (.program "") (session.receiveTokens tokens) = answered
    at answers ⊢
  generalize respond supply (.program "") (session.receiveTokens tokens') = answered' at answers ⊢
  cases answers with
  | none => rfl
  | @some answered answered' both =>
      obtain ⟨reply, last⟩ := answered
      obtain ⟨reply', last'⟩ := answered'
      obtain ⟨rfl, sessions⟩ := both
      have further := respond_next_id ended
      have others : (play later last').map Prod.fst = (play later last).map Prod.fst :=
        play_alike same apart sessions fun id isLater => beyond id (known ▸ further ▸ isLater)
      simp only [Option.bind_some, others]

end Replaced

end Session

end Lox
