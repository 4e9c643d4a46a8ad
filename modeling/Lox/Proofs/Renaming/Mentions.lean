import Lox.Proofs.Names.Binders
import Lox.Proofs.Renaming.Words
import Mathlib.Data.List.Pairwise

/-!
Where the name of a local variable stands in a program: at its declaration, and at
the occurrences that the analysis binds to the scope of the variable. In a program
whose names stand on lines of their own, these places can be told from all others by
their lines, and the places inside of a part are those that are found from there.
-/

namespace Lox

theorem Node.orders_word {orders : List Statement} {name : Token}
    (member : name ∈ orders.flatMap Statement.locals) :
    (Kind.identifier, name) ∈ (Node.statements orders).words := by
  induction orders with
  | nil => cases member
  | cons first rest induction =>
      rw [words_eq, List.mem_append, List.mem_flatMap]
      rw [List.flatMap_cons, List.mem_append] at member
      rcases member with own | later
      · refine .inl ⟨_, List.mem_cons_self, ?_⟩
        cases first with
        | variableDeclaration =>
            rw [words_eq, List.mem_singleton.mp own]
            exact List.mem_append_right _ List.mem_cons_self
        | expression | print | block | conditional | loop | routineDeclaration | exit
        | classDeclaration => cases own
      · exact .inl ⟨_, List.mem_cons_of_mem _ List.mem_cons_self, induction later⟩

/-- A variable of a program is a name in it. -/
theorem Node.local_word {whole opener : Node} (contained : whole.Contains opener) {name : Token}
    (isLocal : name ∈ opener.locals) : (Kind.identifier, name) ∈ whole.words := by
  induction whole using induction_along_parts with
  | step whole parts =>
    rw [words_eq, List.mem_append, List.mem_flatMap]
    rcases contains_iff.mp contained with rfl | ⟨part, isPart, below⟩
    · cases opener with
      | expression | expressions | statements | routines => cases isLocal
      | statement order =>
          cases order with
          | block orders => exact .inl ⟨_, List.mem_cons_self, orders_word isLocal⟩
          | expression | print | variableDeclaration | conditional | loop | routineDeclaration
          | exit | classDeclaration => cases isLocal
      | routine written =>
          rcases List.mem_append.mp isLocal with parameter | inBody
          · exact .inr (List.mem_map_of_mem (List.mem_append_right _ parameter))
          · exact .inl ⟨_, List.mem_cons_self, orders_word inBody⟩
    · exact .inl ⟨part, isPart, parts part isPart below⟩

namespace Site

/-- The nodes that opened the scopes around a part, innermost first. A node is there
once for each of its scopes. -/
def around (site part : Site) (openers : List Node) : List Node :=
  List.replicate (part.full.length - site.full.length) site.node ++ openers

/-- The occurrence that the site itself is, if it has the name of the variable and is
bound to the scope that the variable lives in. -/
def meant? (declared : Token) (site : Site) (openers : List Node) : Option Occurrence :=
  (site.bond?.filter fun bond => bond.place.name.lexeme = declared.lexeme &&
    openers[bond.distance]?.any (declared ∈ ·.locals)).map Bond.place

/-- The occurrences of a variable in a site, in the order of the walk. -/
def boundTo (declared : Token) (site : Site) (openers : List Node) : List Occurrence :=
  (site.parts.attach.flatMap fun part =>
    part.1.boundTo declared (site.around part.1 openers)) ++
    (site.meant? declared openers).toList
termination_by site.node
decreasing_by exact Node.part_smaller _ _ (part_node_member part.2)

/-- What the site has to say of the variable apart from its parts. -/
def ownMentions (declared : Token) (site : Site) (openers : List Node) : List Token :=
  match site.node with
  | .statement (.variableDeclaration name _) =>
      if openers.isEmpty then [] else [name].filter (· = declared)
  | .routine written => (written.parameters.getD []).filter (· = declared)
  | _ => (site.meant? declared openers).toList.map Occurrence.name

/-- The names in a site that stand for the variable, its declaration among them. -/
def mentions (declared : Token) (site : Site) (openers : List Node) : List Token :=
  (site.parts.attach.flatMap fun part =>
    part.1.mentions declared (site.around part.1 openers)) ++
    site.ownMentions declared openers
termination_by site.node
decreasing_by exact Node.part_smaller _ _ (part_node_member part.2)

section

variable (declared : Token) (site : Site) (openers : List Node)

theorem bound_to_eq : site.boundTo declared openers =
    (site.parts.flatMap fun part => part.boundTo declared (site.around part openers)) ++
      (site.meant? declared openers).toList := by
  rw [boundTo, List.flatMap_subtype, List.unattach_attach]
  intro part member
  rfl

theorem mentions_eq : site.mentions declared openers =
    (site.parts.flatMap fun part => part.mentions declared (site.around part openers)) ++
      site.ownMentions declared openers := by
  rw [mentions, List.flatMap_subtype, List.unattach_attach]
  intro part member
  rfl

end

variable {declared : Token} {site part : Site} {openers : List Node}

@[simp] theorem around_same (node other : Node) (analysis later : Analysis)
    (full : List StaticScope) :
    (Site.mk node analysis full).around ⟨other, later, full⟩ openers = openers := by
  rw [around, Nat.sub_self]
  rfl

theorem around_head {opener : Node} (isHead : opener ∈ (site.around part openers).head?) :
    opener = site.node ∨ opener ∈ openers.head? := by
  unfold around at isHead
  generalize part.full.length - site.full.length = own at isHead
  cases own with
  | zero => exact .inr isHead
  | succ more =>
      cases isHead
      exact .inl rfl

theorem around_within (node other : Node) (analysis later : Analysis)
    (own full : List StaticScope) :
    (Site.mk node analysis full).around ⟨other, later, own ++ full⟩ openers =
      List.replicate own.length node ++ openers := by
  rw [around, List.length_append, Nat.add_sub_cancel]

theorem around_body {body : List Statement} {entered : Analysis} {inner : StaticScope}
    {outer : List StaticScope} (scopes : entered.scopes = inner :: outer) :
    site.around (ofBody body entered site.full) openers = site.node :: openers := by
  have grows := (Site.mk (.statements body) entered []).keeps_scopes.1
  rw [scopes] at grows
  obtain ⟨last, final, -⟩ := grows.of_cons
  have finalScopes : (Statement.analyseAll body entered).scopes = last :: outer := final
  rw [ofBody, finalScopes]
  exact around_within site.node _ site.analysis _ [last] site.full

theorem own_mention {token : Token} (member : token ∈ site.ownMentions declared openers) :
    token = declared ∨ ∃ place, site.meant? declared openers = some place ∧ place.name = token := by
  unfold ownMentions at member
  split at member
  · split_ifs at member
    · cases member
    · exact .inl (by simpa using (List.mem_filter.mp member).2)
  · exact .inl (by simpa using (List.mem_filter.mp member).2)
  · obtain ⟨place, meant, rfl⟩ := List.mem_map.mp member
    exact .inr ⟨place, by simpa using meant, rfl⟩

/-- The occurrence is one of the site and of this name. -/
theorem meant_spec {place : Occurrence} (meant : site.meant? declared openers = some place) :
    site.node.place? = some place ∧ place.name.lexeme = declared.lexeme := by
  obtain ⟨bond, found, rfl⟩ := Option.map_eq_some_iff.mp meant
  obtain ⟨isBond, right⟩ := Option.filter_eq_some_iff.mp found
  simp only [Bool.and_eq_true, decide_eq_true_eq] at right
  exact ⟨place_of_bond isBond, right.1⟩

/-- Each mention is the declaration or a bound occurrence. -/
theorem of_mention {token : Token} (member : token ∈ site.mentions declared openers) :
    token = declared ∨ token ∈ (site.boundTo declared openers).map Occurrence.name := by
  induction site using induction_along_parts generalizing openers with
  | step site parts =>
    rw [mentions_eq, List.mem_append, List.mem_flatMap] at member
    rw [bound_to_eq, List.map_append, List.mem_append]
    rcases member with ⟨part, isPart, inside⟩ | own
    · refine (parts part isPart inside).imp_right fun found => .inl ?_
      obtain ⟨place, bound, rfl⟩ := List.mem_map.mp found
      exact List.mem_map_of_mem (List.mem_flatMap.mpr ⟨part, isPart, bound⟩)
    · rcases own_mention own with same | ⟨place, meant, rfl⟩
      · exact .inl same
      · exact .inr (.inr (by simp [meant]))

theorem mention_of_bound {place : Occurrence} (member : place ∈ site.boundTo declared openers) :
    place.name ∈ site.mentions declared openers := by
  induction site using induction_along_parts generalizing openers with
  | step site parts =>
    rw [bound_to_eq, List.mem_append, List.mem_flatMap] at member
    rw [mentions_eq, List.mem_append, List.mem_flatMap]
    rcases member with ⟨part, isPart, inside⟩ | own
    · exact .inl ⟨part, isPart, parts part isPart inside⟩
    · have meant : site.meant? declared openers = some place := by simpa using own
      refine .inr ?_
      obtain ⟨isPlace, -⟩ := meant_spec meant
      obtain ⟨node, analysis, full⟩ := site
      cases node with
      | expression => exact List.mem_map_of_mem own
      | expressions | statement | statements | routine | routines => cases isPlace

theorem mention_lexeme {token : Token} (member : token ∈ site.mentions declared openers) :
    token.lexeme = declared.lexeme := by
  induction site using induction_along_parts generalizing openers with
  | step site parts =>
    rw [mentions_eq, List.mem_append, List.mem_flatMap] at member
    rcases member with ⟨part, isPart, inside⟩ | own
    · exact parts part isPart inside
    · rcases own_mention own with rfl | ⟨place, meant, rfl⟩
      · rfl
      · exact (meant_spec meant).2

theorem own_mention_word {token : Token} (own : token ∈ site.ownMentions declared openers) :
    token ∈ site.node.ownWords.map Prod.snd := by
  obtain ⟨node, analysis, full⟩ := site
  have placed {place : Occurrence}
      (meant : (Site.mk node analysis full).meant? declared openers = some place) :
      place.name ∈ node.ownWords.map Prod.snd := by
    obtain ⟨isPlace, -⟩ := meant_spec meant
    change node.place? = some place at isPlace
    cases node with
    | expression value =>
        cases value <;> cases isPlace <;> exact List.mem_cons_self
    | expressions | statement | statements | routine | routines => cases isPlace
  have elsewhere (split : token ∈ (((Site.mk node analysis full).meant? declared
      openers).toList.map Occurrence.name)) : token ∈ node.ownWords.map Prod.snd := by
    obtain ⟨place, meant, rfl⟩ := List.mem_map.mp split
    exact placed (by simpa using meant)
  cases node with
  | expression | expressions | statements | routines => exact elsewhere own
  | statement order =>
      cases order with
      | variableDeclaration name initializer =>
          simp only [ownMentions] at own
          split_ifs at own
          · cases own
          · exact (List.mem_filter.mp own).1
      | expression | print | block | conditional | loop | routineDeclaration | exit
      | classDeclaration => exact elsewhere own
  | routine written =>
      have member := (List.mem_filter.mp own).1
      simp only [Node.ownWords, List.map_map, Function.comp_def, List.map_id']
      exact List.mem_append_right _ member

theorem mention_word {token : Token} (member : token ∈ site.mentions declared openers) :
    token ∈ site.node.words.map Prod.snd := by
  induction site using induction_along_parts generalizing openers with
  | step site parts =>
    rw [mentions_eq, List.mem_append, List.mem_flatMap] at member
    rw [Node.words_eq, List.map_append, List.mem_append]
    rcases member with ⟨part, isPart, inside⟩ | own
    · obtain ⟨word, isWord, rfl⟩ := List.mem_map.mp (parts part isPart inside)
      exact .inl (List.mem_map_of_mem
        (List.mem_flatMap.mpr ⟨part.node, part_node_member isPart, isWord⟩))
    · exact .inr (own_mention_word own)

theorem orders_mention {orders : List Statement} {analysis : Analysis} {full : List StaticScope}
    (inScope : openers ≠ []) (member : declared ∈ orders.flatMap Statement.locals) :
    declared ∈ (Site.mk (.statements orders) analysis full).mentions declared openers := by
  induction orders generalizing analysis with
  | nil => cases member
  | cons first rest induction =>
      rw [mentions_eq, List.mem_append, List.mem_flatMap]
      rw [List.flatMap_cons, List.mem_append] at member
      rcases member with own | later
      · refine .inl ⟨_, List.mem_cons_self, ?_⟩
        rw [around_same, mentions_eq, List.mem_append]
        cases first with
        | variableDeclaration name initializer =>
            refine .inr ?_
            simp only [ownMentions, List.isEmpty_iff, inScope, if_false]
            exact List.mem_filter.mpr ⟨own, decide_eq_true rfl⟩
        | expression | print | block | conditional | loop | routineDeclaration | exit
        | classDeclaration => cases own
      · refine .inl ⟨_, List.mem_cons_of_mem _ List.mem_cons_self, ?_⟩
        rw [around_same]
        exact induction later

/-- The declaration of a variable is mentioned wherever its scope is. -/
theorem declaration_mentioned {opener : Node} (contained : site.node.Contains opener)
    (isLocal : declared ∈ opener.locals) : declared ∈ site.mentions declared openers := by
  induction site using induction_along_parts generalizing openers with
  | step site parts =>
    rw [mentions_eq, List.mem_append, List.mem_flatMap]
    rcases Node.contains_iff.mp contained with rfl | ⟨partNode, isPart, below⟩
    · obtain ⟨node, analysis, full⟩ := site
      cases node with
      | expression | expressions | statements | routines => cases isLocal
      | statement order =>
          cases order with
          | block orders =>
              refine .inl ⟨_, List.mem_cons_self, ?_⟩
              rw [around_body rfl]
              exact orders_mention (List.cons_ne_nil _ _) isLocal
          | expression | print | variableDeclaration | conditional | loop | routineDeclaration
          | exit | classDeclaration => cases isLocal
      | routine written =>
          obtain ⟨inner, scopes, -⟩ := entered_names written analysis
          rcases List.mem_append.mp isLocal with parameter | inBody
          · exact .inr (List.mem_filter.mpr ⟨parameter, decide_eq_true rfl⟩)
          · refine .inl ⟨_, List.mem_cons_self, ?_⟩
            rw [around_body scopes]
            exact orders_mention (List.cons_ne_nil _ _) inBody
    · rw [← part_nodes] at isPart
      obtain ⟨part, member, rfl⟩ := List.mem_map.mp isPart
      exact .inl ⟨part, member, parts part member below⟩

end Site

/-- The lines of the names in a node. -/
def Node.lines (node : Node) : List Nat := node.words.map (·.2.line)

/-- The lines of the names that a node holds apart from its parts. -/
def Node.ownLines (node : Node) : List Nat := node.ownWords.map (·.2.line)

namespace Site

variable {declared : Token} {site part : Site} {openers : List Node}

theorem lines_eq (site : Site) :
    site.node.lines = (site.parts.flatMap (·.node.lines)) ++ site.node.ownLines := by
  rw [Node.lines, Node.words_eq, List.map_append, List.map_flatMap, ← part_nodes,
    List.flatMap_map]
  rfl

theorem part_lines_sublist (isPart : part ∈ site.parts) :
    part.node.lines.Sublist site.node.lines := by
  have member : part.node.lines ∈ site.parts.map (·.node.lines) := List.mem_map_of_mem isPart
  rw [lines_eq site]
  exact (List.sublist_flatten_of_mem member).trans (List.sublist_append_left _ _)

/-- Where names have lines of their own, a part of a whole has the marked lines that
are found in the part. -/
theorem marked_in_part {parts : List Site} {own ownMarked : List Nat} {marked : Site → List Nat}
    (apart : (parts.flatMap (·.node.lines) ++ own).Nodup)
    (within : ∀ part ∈ parts, marked part ⊆ part.node.lines) (ownWithin : ownMarked ⊆ own) :
    (∀ part ∈ parts, ∀ line ∈ part.node.lines,
      (line ∈ parts.flatMap marked ++ ownMarked ↔ line ∈ marked part)) ∧
    ∀ line ∈ own, (line ∈ parts.flatMap marked ++ ownMarked ↔ line ∈ ownMarked) := by
  obtain ⟨inParts, -, distinct⟩ := List.nodup_append.mp apart
  have separate := (List.nodup_flatMap.mp inParts).2
  have symmetric : Std.Symm (Function.onFun List.Disjoint fun part : Site => part.node.lines) :=
    ⟨fun _ _ disjoint => disjoint.symm⟩
  constructor
  · intro part isPart line inside
    rw [List.mem_append, List.mem_flatMap]
    constructor
    · rintro (⟨other, isOther, found⟩ | found)
      · by_cases same : other = part
        · exact same ▸ found
        · exact (separate.forall isOther isPart same (within other isOther found) inside).elim
      · exact (distinct line (List.mem_flatMap_of_mem isPart inside) line
          (ownWithin found) rfl).elim
    · exact fun found => .inl ⟨part, isPart, found⟩
  · intro line isOwn
    rw [List.mem_append, List.mem_flatMap]
    constructor
    · rintro (⟨other, isOther, found⟩ | found)
      · exact (distinct line (List.mem_flatMap_of_mem isOther (within other isOther found)) line
          isOwn rfl).elim
      · exact found
    · exact .inr

/-- Seen from a part, the variable stands where it does seen from the whole. -/
theorem mentions_apart (apart : site.node.lines.Nodup) :
    (∀ part ∈ site.parts, ∀ line ∈ part.node.lines,
      (line ∈ (site.mentions declared openers).map Token.line ↔
        line ∈ (part.mentions declared (site.around part openers)).map Token.line)) ∧
    ∀ line ∈ site.node.ownLines, (line ∈ (site.mentions declared openers).map Token.line ↔
      line ∈ (site.ownMentions declared openers).map Token.line) := by
  rw [lines_eq] at apart
  rw [mentions_eq, List.map_append, List.map_flatMap]
  refine marked_in_part apart (fun part _ line found => ?_) fun line found => ?_
  · obtain ⟨token, mentioned, rfl⟩ := List.mem_map.mp found
    obtain ⟨word, isWord, rfl⟩ := List.mem_map.mp (mention_word mentioned)
    exact List.mem_map_of_mem isWord
  · obtain ⟨token, mentioned, rfl⟩ := List.mem_map.mp found
    obtain ⟨word, isWord, rfl⟩ := List.mem_map.mp (own_mention_word mentioned)
    exact List.mem_map_of_mem isWord

end Site

end Lox
