import Lox.Proofs.Renaming.Parsing
import Lox.Proofs.Renaming.Respelling
import Lox.Proofs.Renaming.Spending
import Mathlib.Data.Multiset.AddSub

/-!
Tokens by their places. The grammar does not look at lines, so a program may be read
with the place of each token in the list for its line. No two names in the tree stand
in the same place then, and what is respelled in the list is respelled in the tree.
-/

namespace Lox

/-- Tokens with their places for lines. The first place is the second line, for a list
that just stops is taken to end on the first one. -/
def located (tokens : List Token) : List Token :=
  tokens.mapIdx fun index token => { token with line := index + 2 }

/-- Tokens of which those in some places have another text. -/
def respelled (places : List Nat) (name : String) (tokens : List Token) : List Token :=
  tokens.mapIdx fun index token =>
    if index + 2 ∈ places then { token with lexeme := name } else token

/-- The line of the token in a place. -/
def lineAt (tokens : List Token) : Nat → Nat
  | index + 2 => (tokens[index]?.map Token.line).getD 0
  | line => line

/-- Give the tokens of a tree their lines again. -/
def Labels.restoring (tokens : List Token) : Labels :=
  ⟨fun token => { token with line := lineAt tokens token.line }, id⟩

/-- Give the tokens of a tree their lines again, and those in some places another
spelling. -/
def Recast.respelling (recast : Recast) (places : List Nat) (tokens : List Token) : Labels :=
  ⟨fun token => { token with
    line := lineAt tokens token.line
    lexeme := recast.spelling (places.contains token.line) token.lexeme }, id⟩

section Lists

variable (tokens : List Token)

theorem lines_located : (located tokens).map Token.line = List.range' 2 tokens.length := by
  apply List.ext_getElem
  · simp [located]
  · intro index _ _
    simp [located, Nat.add_comm]

theorem token_of_located {token : Token} (member : token ∈ located tokens) :
    ∃ original ∈ tokens, original.lexeme = token.lexeme ∧ original.kind = token.kind ∧
      2 ≤ token.line := by
  obtain ⟨index, inside, rfl⟩ := List.mem_mapIdx.mp member
  exact ⟨_, List.getElem_mem inside, rfl, rfl, Nat.le_add_left 2 index⟩

theorem restored_located : (located tokens).map (Labels.restoring tokens).token = tokens := by
  apply List.ext_getElem
  · simp [located]
  · intro index _ inside
    simp [located, Labels.restoring, lineAt, inside]

/-- In a list of tokens, the spelling changes where it does in the tree. -/
theorem respelled_located (recast : Recast) {places : List Nat}
    (old : ∀ token ∈ located tokens, token.line ∈ places → token.lexeme = recast.old) :
    (located tokens).map (recast.respelling places tokens).token =
      respelled places recast.new tokens := by
  apply List.ext_getElem
  · simp [located, respelled]
  · intro index _ inside
    have known : index < tokens.length := by simpa [respelled] using inside
    have member : { tokens[index] with line := index + 2 } ∈ located tokens :=
      List.mem_mapIdx.mpr ⟨index, known, rfl⟩
    have text := old _ member
    by_cases marked : index + 2 ∈ places
    · simp [located, respelled, Recast.respelling, lineAt, known, marked, Recast.spelling,
        text marked]
    · simp [located, respelled, Recast.respelling, lineAt, known, marked, Recast.spelling]

theorem restoring_silent : (Labels.restoring tokens).Silent where
  kind _ := rfl
  ending := rfl
  next _ := rfl

theorem respelling_silent (recast : Recast) {places : List Nat} (beyond : 1 ∉ places) :
    (recast.respelling places tokens).Silent where
  kind _ := rfl
  ending := by
    have unmarked : places.contains 1 = false := by simpa using beyond
    simp only [Recast.respelling, unmarked]
    rfl
  next _ := rfl

theorem respelling_respells {recast : Recast} (numbers : recast.number = id) (places : List Nat) :
    recast.Respells places (.restoring tokens) (recast.respelling places tokens) where
  textual _ := rfl
  tokens _ := rfl
  numbers id := by rw [numbers]; rfl

/-- What tokens can give to a tree is at most what they are. -/
theorem weight_within : (tokens.map Token.weight).sum ≤
    ((tokens.map fun token => (token.kind, token) : List Word) : Multiset Word) := by
  induction tokens with
  | nil => exact Multiset.zero_le _
  | cons token rest induction =>
      have single : token.weight ≤ {(token.kind, token)} := by
        unfold Token.weight
        split_ifs
        · exact le_refl _
        · exact Multiset.zero_le _
      rw [List.map_cons, List.sum_cons, List.map_cons, ← Multiset.cons_coe,
        ← Multiset.singleton_add]
      exact add_le_add single induction

end Lists

section Words

variable {tokens : List Token} {tree : List Statement}
  (read : (parseProgram (located tokens) 0).outcome = .ok tree)

include read

/-- The names in the tree are tokens of the list, of the kind that is asked for. -/
theorem word_read {word : Word} (member : word ∈ (Node.statements tree).words) :
    word.2 ∈ located tokens ∧ word.1 = word.2.kind := by
  have within := (program_words read).trans (weight_within _)
  have isRead := Multiset.mem_of_le within (Multiset.mem_coe.mpr member)
  obtain ⟨token, isToken, rfl⟩ := List.mem_map.mp (Multiset.mem_coe.mp isRead)
  exact ⟨isToken, rfl⟩

theorem lines_apart : (Node.statements tree).lines.Nodup := by
  let lineOf (word : Word) : Nat := word.2.line
  have within : (Node.statements tree).weight.map lineOf ≤
      ((located tokens).map fun token => (token.kind, token) : Multiset Word).map lineOf :=
    Multiset.map_le_map ((program_words read).trans (weight_within _))
  have lines : ((located tokens).map fun token => (token.kind, token)).map lineOf =
      List.range' 2 tokens.length := by
    rw [List.map_map]
    exact lines_located tokens
  rw [Multiset.map_coe, lines] at within
  exact Multiset.coe_nodup.mp (Multiset.nodup_of_le within
    (Multiset.coe_nodup.mpr List.nodup_range'))

end Words

end Lox
