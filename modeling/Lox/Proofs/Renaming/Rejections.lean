import Lox.Proofs.Renaming.Sessions

/-!
Entries with static errors leave no trace. They use up numbers and may record
distances for them, but no occurrence that comes later has one of these numbers. The
session after such an entry is therefore like the session before it, only that the
numbers still to be given lie further on.
-/

namespace Lox

namespace Recast

variable {first distance : Nat}

theorem moving_before {id : Nat} (before : id < first) :
    (moving first distance).number id = id := if_pos before

theorem moving_beyond {id : Nat} (beyond : first ≤ id) :
    (moving first distance).number id = id + distance := if_neg (Nat.not_lt.mpr beyond)

theorem moving_injective : Function.Injective (moving first distance).number := by
  intro id other same
  rcases Nat.lt_or_ge id first with before | beyond <;>
    rcases Nat.lt_or_ge other first with before' | beyond'
  · rwa [moving_before before, moving_before before'] at same
  · rw [moving_before before, moving_beyond beyond'] at same
    omega
  · rw [moving_beyond beyond, moving_before before'] at same
    omega
  · rw [moving_beyond beyond, moving_beyond beyond'] at same
    omega

end Recast

namespace Session

theorem play_ordered {entries : List (Nat × Entry)} {session last : Session} {replies : List Reply}
    (played : play entries session = some (replies, last)) : session.nextId ≤ last.nextId := by
  induction entries generalizing session replies with
  | nil =>
      cases played
      exact Nat.le_refl _
  | cons first rest induction =>
      obtain ⟨supply, entry⟩ := first
      obtain ⟨reply, next, others, answered, further, -⟩ := play_cons played
      calc session.nextId
        _ ≤ (session.receive entry).2.nextId := session.receive_ordered entry
        _ = next.nextId := (answer_next_id answered).symm
        _ ≤ last.nextId := induction further

/-- A session is like itself for as long as the numbers that it gives stay. -/
theorem itself_alike {recast : Recast} (same : recast.old = recast.new)
    (apart : Function.Injective recast.number) {entries : List (Nat × Entry)}
    {session last : Session} {replies : List Reply} (alike : session.Alike recast 0 session)
    (played : play entries session = some (replies, last))
    (numbers : ∀ id, id < last.nextId → recast.number id = id) : last.Alike recast 0 last := by
  induction entries generalizing session replies with
  | nil =>
      cases played
      exact alike
  | cons first rest induction =>
      obtain ⟨supply, entry⟩ := first
      obtain ⟨reply, next, others, answered, further, -⟩ := play_cons played
      have answers := answer_alike same apart alike supply entry fun id _ below =>
        numbers id ((below.trans_eq (answer_next_id answered).symm).trans_le (play_ordered further))
      rw [answered] at answers
      cases answers with
      | some both => exact induction both.2 further

/-- Numbers that are already given keep their distances when something is received. -/
theorem receive_keeps {lines : List Line} {session : Session} (surveyed : session.Surveyed lines)
    (entry : Entry) (id : Nat) (given : id < session.nextId) :
    (session.receive entry).2.machine.distances[id]? = session.machine.distances[id]? := by
  have numbered := entry.readable.numbered (tokensOf (scan entry.source)) session.nextId
  rw [receive_eq]
  unfold prepare
  dsimp only
  cases outcome : (entry.parse (tokensOf (scan entry.source)) session.nextId).outcome with
  | error complaints => rfl
  | ok line =>
      have elsewhere : id ∉ line.site.ids := fun isId =>
        absurd (line_ids (numbered line outcome) isId).1 (Nat.not_le.mpr given)
      have kept : (session.machine.bondAll (Bindings.ofLine line).bonds).distances[id]? =
          session.machine.distances[id]? := by
        rw [line_readable.walked, bond_all_distances]
        change (settle line.site.after.bonds.reverse.reverse _)[id]? = _
        rw [List.reverse_reverse]
        exact (bonds_settle surveyed (numbered line outcome)).2 id elsewhere
      dsimp only
      split_ifs
      · exact kept
      · exact kept
      · rfl

/-- A session is like the one after a rejected entry, which has more numbers behind it. -/
theorem rejected_alike {lines : List Line} {session next : Session} {entry : Entry}
    {diagnostics : List Diagnostic} {ahead : Nat} (surveyed : session.Surveyed lines)
    (rejected : session.receive entry = (.error diagnostics, next))
    (further : next.nextId = session.nextId + ahead)
    (alike : session.Alike (Recast.moving session.nextId ahead) 0 session) :
    session.Alike (Recast.moving session.nextId ahead) ahead next := by
  obtain ⟨views, machines⟩ := alike.machines
  have kept := receive_keeps surveyed entry
  have after := receive_surveyed surveyed entry
  obtain ⟨distances, frame⟩ := receive_frame session entry
  rw [rejected] at kept after frame
  refine ⟨further, views, ?_⟩
  have table (id : Nat) : next.machine.distances[(Recast.moving session.nextId ahead).number id]? =
      session.machine.distances[id]? := by
    rcases Nat.lt_or_ge id session.nextId with before | beyond
    · rw [Recast.moving_before before]
      exact kept id before
    · rw [Recast.moving_beyond beyond, surveyed.unbound id beyond]
      exact after.unbound _ (by omega)
  change next.machine = _ at frame
  rw [frame] at table ⊢
  exact { machines with distances := table, reach := .inl rfl }

end Session

/-- An entry that is answered with a static error is silent and changes nothing but the
table of distances, and every other entry of the session is answered as if it had not
been there. -/
theorem rejected_entry_invisible (sink : Sink) (time : Nat) {before : List (Nat × Entry)}
    {replies : List Reply} {session next : Session} {supply : Nat} {entry : Entry} {reply : Reply}
    (played : Session.play before (.start sink time) = some (replies, session))
    (answered : session.answer supply entry = some (reply, next))
    (static : ∃ diagnostic ∈ reply.diagnostics, diagnostic.isStatic = true) :
    (reply = entry.rejection reply.diagnostics ∧
      ∃ distances, next.machine = { session.machine with distances := distances }) ∧
    ∀ after, (Session.play (before ++ (supply, entry) :: after) (.start sink time)).map
        (fun played => played.1.eraseIdx before.length) =
      (Session.play (before ++ after) (.start sink time)).map Prod.fst := by
  obtain ⟨diagnostics, rejected, rfl⟩ := Session.rejected_of_static answered static
  obtain ⟨distances, frame⟩ := session.receive_frame entry
  rw [rejected] at frame
  refine ⟨⟨by cases entry <;> rfl, distances, frame⟩, fun after => ?_⟩
  obtain ⟨lines, history⟩ := Session.play_history (.start sink time) played
  have surveyed := Session.history_surveyed history
  obtain ⟨ahead, further⟩ : ∃ ahead, next.nextId = session.nextId + ahead := by
    have ordered := session.receive_ordered entry
    rw [rejected] at ordered
    exact ⟨next.nextId - session.nextId, (Nat.add_sub_of_le ordered).symm⟩
  let recast := Recast.moving session.nextId ahead
  have start : (Session.start sink time).Alike recast 0 (.start sink time) :=
    ⟨rfl, [[]], Machine.start_alike recast sink time (fun _ => Std.TreeMap.getElem?_emptyc)
      (.inl rfl)⟩
  have itself := Session.itself_alike rfl Recast.moving_injective start played
    fun id given => Recast.moving_before given
  have alike := Session.rejected_alike surveyed rejected further itself
  have same : (Session.play after next).map Prod.fst = (Session.play after session).map Prod.fst :=
    Session.play_alike rfl Recast.moving_injective alike fun id beyond =>
      Recast.moving_beyond beyond
  have erased (others : List Reply) :
      (replies ++ entry.rejection diagnostics :: others).eraseIdx before.length =
        replies ++ others := by
    rw [← Session.play_length played, List.eraseIdx_append_of_length_le (Nat.le_refl _),
      Nat.sub_self, List.eraseIdx_cons_zero]
  calc (Session.play (before ++ (supply, entry) :: after) (.start sink time)).map
        (fun played => played.1.eraseIdx before.length)
    _ = ((Session.play (before ++ (supply, entry) :: after) (.start sink time)).map Prod.fst).map
          (·.eraseIdx before.length) := by
        rw [Option.map_map]
        rfl
    _ = ((Session.play after next).map Prod.fst).map (replies ++ ·) := by
        rw [Session.replies_append played, Session.replies_cons, answered, Option.bind_some,
          Option.map_map, Option.map_map]
        exact Option.map_congr fun others _ => erased others
    _ = ((Session.play after session).map Prod.fst).map (replies ++ ·) := by rw [same]
    _ = (Session.play (before ++ after) (.start sink time)).map Prod.fst :=
        (Session.replies_append played).symm

/-- A program that is rejected for its last statement, and has recorded a distance. -/
theorem rejected_return_invisible :
    ∃ replies session reply next,
      Session.play [(5, .line "var a;")] (.start ⟨.unlimited, []⟩ 0) = some (replies, session) ∧
      session.answer 5 (.program "{ var b; b; } return a;") = some (reply, next) ∧
      next.machine.distances[0]? = some 0 ∧
      ∀ after, (Session.play
          ((5, .line "var a;") :: (5, .program "{ var b; b; } return a;") :: after)
          (.start ⟨.unlimited, []⟩ 0)).map (fun played => played.1.eraseIdx 1) =
        (Session.play ((5, .line "var a;") :: after) (.start ⟨.unlimited, []⟩ 0)).map Prod.fst := by
  let machine : Machine := { Machine.start ⟨.unlimited, []⟩ 0 with
    scopes := (Machine.start ⟨.unlimited, []⟩ 0).scopes.define 0 "a" .nil }
  let bonded : Machine := { machine with distances := (∅ : Std.TreeMap Nat Nat).insert 0 0 }
  let misplaced : Diagnostic := .binding ⟨.returnWord, "return", 1⟩ .topLevelReturn
  have played : Session.play [(5, .line "var a;")] (.start ⟨.unlimited, []⟩ 0) =
      some ([.line ⟨none, "", []⟩], ⟨machine, 0⟩) := by rfl
  have received : (Session.mk machine 0).receive (.program "{ var b; b; } return a;") =
      (.error [misplaced], ⟨bonded, 2⟩) := by rfl
  have answered : (Session.mk machine 0).answer 5 (.program "{ var b; b; } return a;") =
      some (.report ⟨.staticError, "", [misplaced]⟩, ⟨bonded, 2⟩) := by
    rw [Session.answer_eq, received]
    rfl
  have invisible := rejected_entry_invisible ⟨.unlimited, []⟩ 0 played answered
    ⟨misplaced, List.mem_singleton.mpr rfl, rfl⟩
  exact ⟨_, _, _, _, played, answered, rfl, invisible.2⟩

end Lox
