import Lox.Proofs.Joining.Histories
import Lox.Proofs.Joining.Programs
import Lox.Proofs.Joining.Scans
import Lox.Proofs.Joining.Walks
import Lox.Proofs.Renaming.Shift

/-!
Source texts that are accepted in two pieces are accepted as a whole. The tree of the whole
is the tree of the one piece and behind it that of the other, with its tokens further down;
and the bonds of the whole are those of both pieces, recorded one after the other.
-/

namespace Lox

/-- All tokens of a text so many lines further down. -/
def Labels.lowering (drop : Nat) : Labels where
  token token := if token.kind = .endOfInput then token else token.lower drop
  number := id

namespace Labels

theorem lowering_silent (drop : Nat) : (lowering drop).Silent where
  kind token := by
    unfold lowering
    dsimp only
    split_ifs <;> rfl
  ending := rfl
  next _ := rfl

theorem lowering_textual (drop : Nat) : (lowering drop).Textual := by
  intro token
  unfold lowering
  dsimp only
  split_ifs <;> rfl

theorem lowering_none : lowering 0 = .same := by
  have token (token : Token) : (lowering 0).token token = token := by
    unfold lowering
    dsimp only
    split_ifs <;> rfl
  exact congrArg (Labels.mk · id) (funext token)

theorem lowering_inner (drop : Nat) {token : Token} (inner : token.kind ≠ .endOfInput) :
    (lowering drop).token token = token.lower drop := if_neg inner

theorem lowering_ending (drop : Nat) {token : Token} (ends : token.kind = .endOfInput) :
    (lowering drop).token token = token := if_pos ends

theorem shift_textual (ahead : Nat) : (shift ahead).Textual := fun _ => rfl

end Labels

namespace Session

/-- The source text has no static error. -/
def Accepts (session : Session) (source : String) : Prop :=
  ∃ orders next, session.prepare source parseProgram Bindings.ofProgram = (.ok orders, next)

/-- What is accepted is accepted later as well. -/
theorem Accepts.later {session later : Session} {source : String} (accepts : session.Accepts source)
    (ordered : session.nextId ≤ later.nextId) : later.Accepts source := by
  obtain ⟨orders, next, accepted⟩ := accepts
  obtain ⟨clean, parsed, none, -⟩ := prepare_accepts_iff.mp accepted
  obtain ⟨ahead, same⟩ := Nat.exists_eq_add_of_le ordered
  refine ⟨Statement.relabelAll (.shift ahead) orders, _,
    prepare_accepts_iff.mpr ⟨clean, ?_, ?_, rfl⟩⟩
  · rw [same, parse_program_shifted, Parsed.relabel, parsed]
  · rw [bindings_relabel (Labels.shift_textual ahead), none]
    rfl

end Session

/-- Only the numbers and the distances of bonds are recorded. -/
theorem bond_all_relabel {labels : Labels} (numbers : ∀ id, labels.number id = id)
    (machine : Machine) (bonds : List Bond) :
    machine.bondAll (bonds.map (Bond.relabel labels)) = machine.bondAll bonds := by
  induction bonds generalizing machine with
  | nil => rfl
  | cons bond rest induction =>
      change (machine.bond (labels.number bond.place.id) bond.distance).bondAll _ = _
      rw [numbers]
      exact induction _

namespace Session

variable {session middle ready next : Session} {first second : String}
  {orders others : List Statement}
  (accepted : session.prepare first parseProgram Bindings.ofProgram = (.ok orders, ready))
  (follows : middle.nextId = ready.nextId)
  (acceptedToo : middle.prepare second parseProgram Bindings.ofProgram = (.ok others, next))

include accepted follows acceptedToo

theorem parse_joined (gap : Nat) :
    parseProgram (tokensOf (scan (joined first gap second))) session.nextId =
      ⟨.ok (orders ++
        Statement.relabelAll (.lowering (lineEnds first + (gap + 1))) others), next.nextId⟩ := by
  obtain ⟨clean, parsed, -, rfl⟩ := prepare_accepts_iff.mp accepted
  obtain ⟨cleanToo, parsedToo, -, rfl⟩ := prepare_accepts_iff.mp acceptedToo
  obtain ⟨-, tokens⟩ := scan_joined clean cleanToo gap
  simp only [tokens_of_scan] at follows parsed parsedToo ⊢
  have front : parseProgram (written first ++ [⟨.endOfInput, "", 1 + lineEnds first⟩])
      session.nextId = ⟨.ok orders, middle.nextId⟩ := by
    rw [follows]
    exact congrArg (Parsed.mk · _) parsed
  have back := parse_program_relabel (Labels.lowering_silent (lineEnds first + (gap + 1)))
    (written second ++ [⟨.endOfInput, "", 1 + lineEnds second⟩]) middle.nextId
  have lowered : (written second).map (Labels.lowering (lineEnds first + (gap + 1))).token =
      (written second).map (Token.lower (lineEnds first + (gap + 1))) :=
    List.map_congr_left fun token member =>
      Labels.lowering_inner _ (written_inner second token member)
  have ending (line : Nat) : (Labels.lowering (lineEnds first + (gap + 1))).token
      ⟨.endOfInput, "", line⟩ = ⟨.endOfInput, "", line⟩ := Labels.lowering_ending _ rfl
  have number (id : Nat) : (Labels.lowering (lineEnds first + (gap + 1))).number id = id := rfl
  rw [List.map_append, lowered, List.map_singleton, ending, number, Parsed.relabel, parsedToo,
    number] at back
  rw [tokens]
  refine program_joined rfl rfl rfl (written_inner first) ?_ front back
  intro token member
  obtain ⟨token, isWritten, rfl⟩ := List.mem_map.mp member
  exact written_inner second token isWritten

/-- The whole is accepted if the pieces are. -/
theorem prepare_joined (gap : Nat) :
    session.prepare (joined first gap second) parseProgram Bindings.ofProgram =
      (.ok (orders ++ Statement.relabelAll (.lowering (lineEnds first + (gap + 1))) others),
        ⟨session.machine.bondAll
          ((Bindings.ofProgram orders).bonds ++ (Bindings.ofProgram others).bonds),
          next.nextId⟩) := by
  have parsed := parse_joined accepted follows acceptedToo gap
  obtain ⟨clean, -, none, -⟩ := prepare_accepts_iff.mp accepted
  obtain ⟨cleanToo, -, noneToo, -⟩ := prepare_accepts_iff.mp acceptedToo
  have found := bindings_append orders
    (Statement.relabelAll (.lowering (lineEnds first + (gap + 1))) others)
  rw [bindings_relabel (Labels.lowering_textual _), none, noneToo] at found
  refine prepare_accepts_iff.mpr ⟨(scan_joined clean cleanToo gap).1, ?_, ?_, ?_⟩
  · rw [parsed]
  · rw [found]
    rfl
  · rw [parsed, found]
    have appended (machine : Machine) (bonds more : List Bond) :
        machine.bondAll (bonds ++ more) = (machine.bondAll bonds).bondAll more :=
      List.foldl_append
    rw [appended, appended, bond_all_relabel fun _ => rfl]

end Session

end Lox
