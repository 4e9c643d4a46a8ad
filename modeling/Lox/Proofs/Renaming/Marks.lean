import Lox.Proofs.Renaming.Likeness
import Lox.Proofs.Renaming.Mentions
import Lox.Proofs.Renaming.Sites

/-!
Respelling a variable by the lines of its name. If the lines mark the variable and
nothing else, then the tree with the new spelling is like the tree with the old one:
the name changes in the scope of the variable, and wherever the analysis binds it to
that scope.
-/

namespace Lox

/-- The statements that a node consists of, as far as they share its scope. -/
def Node.orders : Node → List Statement
  | .statement order => [order]
  | .statements orders => orders
  | _ => []

namespace Recast

/-- The second labels are the first ones, with the names on some lines respelled. -/
structure Respells (recast : Recast) (places : List Nat) (labels labels' : Labels) : Prop where
  textual : labels.Textual
  tokens : ∀ token, labels'.token token = { labels.token token with
    lexeme := recast.spelling (places.contains token.line) token.lexeme }
  numbers : ∀ id, labels'.number id = recast.number (labels.number id)

/-- The lines mark a variable, and nothing else, in a site without violations. -/
structure Marks (recast : Recast) (places : List Nat) (labels : Labels) (declared : Token)
    (site : Site) (openers : List Node) : Prop where
  clean : site.Clean
  apart : site.node.lines.Nodup
  marked : ∀ line ∈ site.node.lines,
    (line ∈ places ↔ line ∈ (site.mentions declared openers).map Token.line)
  fresh : ∀ word ∈ site.node.words, word.2.lexeme ≠ recast.new
  shaped : ∀ inner, site.node.Contains inner → inner.WellShaped
  reach : ∀ inner, site.Contains inner → ∀ place, inner.node.place? = some place →
    recast.reach (labels.number place.id) = inner.bond?.map Bond.distance
  distinct : ∀ opener ∈ openers.head?, (opener.binders.map Token.lexeme).Nodup
  lives : ∀ order ∈ site.node.orders, ∀ opener ∈ openers.head?,
    (∀ name ∈ order.locals, name ∈ opener.locals) ∧
      ∀ name ∈ order.binder?, name ∈ opener.binders

namespace Respells

variable {recast : Recast} {places : List Nat} {labels labels' : Labels}
  (respells : recast.Respells places labels labels') {token : Token}

include respells

theorem sign (token : Token) : recast.Matches (labels.token token) (labels'.token token) :=
  ⟨places.contains token.line, by rw [respells.tokens, respells.textual]⟩

theorem spells {renamed : Bool} (fresh : token.lexeme ≠ recast.new)
    (marked : token.lexeme = recast.old → (token.line ∈ places ↔ renamed = true)) :
    recast.Spells renamed (labels.token token) (labels'.token token) where
  same := by
    rw [respells.tokens, respells.textual]
    by_cases isOld : token.lexeme = recast.old
    · rw [show places.contains token.line = renamed by
        rw [Bool.eq_iff_iff, List.contains_iff_mem, marked isOld]]
    · have stays (flag : Bool) : recast.spelling flag token.lexeme = token.lexeme :=
        (spelling_fresh (fun same => absurd same fresh) flag).resolve_right
          fun other => isOld other.1
      rw [stays, stays]
  fresh := by
    rw [respells.textual]
    exact fun same => absurd same fresh

/-- A token on a line that is not marked stays as it is. -/
theorem kept (unmarked : token.line ∉ places) : labels'.token token = labels.token token := by
  rw [respells.tokens, show places.contains token.line = false by simpa using unmarked]
  have textual := respells.textual token
  generalize labels.token token = kept at textual ⊢
  cases kept
  cases textual
  rfl

end Respells

namespace Marks

variable {recast : Recast} {places : List Nat} {labels : Labels} {declared : Token} {site : Site}
  {openers : List Node} (marks : recast.Marks places labels declared site openers)

include marks

theorem own {line : Nat} (isOwn : line ∈ site.node.ownLines) :
    line ∈ places ↔ line ∈ (site.ownMentions declared openers).map Token.line := by
  have inside : line ∈ site.node.lines := by
    rw [Site.lines_eq]
    exact List.mem_append_right _ isOwn
  rw [marks.marked line inside]
  exact (Site.mentions_apart marks.apart).2 line isOwn

theorem own_fresh {word : Word} (isOwn : word ∈ site.node.ownWords) :
    word.2.lexeme ≠ recast.new := by
  refine marks.fresh word ?_
  rw [Node.words_eq]
  exact List.mem_append_right _ isOwn

theorem own_distinct : site.node.ownLines.Nodup := by
  have apart := marks.apart
  rw [Site.lines_eq] at apart
  exact (List.nodup_append.mp apart).2.1

theorem part_lives {part : Site} (isPart : part ∈ site.parts) :
    ∀ order ∈ part.node.orders, ∀ opener ∈ (site.around part openers).head?,
      (∀ name ∈ order.locals, name ∈ opener.locals) ∧
        ∀ name ∈ order.binder?, name ∈ opener.binders := by
  have shaped := marks.shaped site.node .refl
  have lives := marks.lives
  have isNode := Site.part_node_member isPart
  have none (orderless : ∀ node ∈ site.node.parts, node.orders = []) :
      ∀ order ∈ part.node.orders, ∀ opener ∈ (site.around part openers).head?,
        (∀ name ∈ order.locals, name ∈ opener.locals) ∧
          ∀ name ∈ order.binder?, name ∈ opener.binders := by
    rw [orderless _ isNode]
    exact List.forall_mem_nil _
  have branch {order : Statement} (undeclaring : order.isDeclaration = false) (opener : Node) :
      (∀ name ∈ order.locals, name ∈ opener.locals) ∧
        ∀ name ∈ order.binder?, name ∈ opener.binders := by
    cases order with
    | variableDeclaration | routineDeclaration | classDeclaration => cases undeclaring
    | expression | print | block | conditional | loop | exit =>
        exact ⟨List.forall_mem_nil _, fun _ member => absurd member (Option.not_mem_none _)⟩
  obtain ⟨node, analysis, full⟩ := site
  cases node with
  | expression value => exact none (by cases value <;> simp [Node.parts, Node.orders])
  | expressions values => exact none (by cases values <;> simp [Node.parts, Node.orders])
  | routines declared => exact none (by cases declared <;> simp [Node.parts, Node.orders])
  | routine written =>
      obtain ⟨inner, scopes, -⟩ := Site.entered_names written analysis
      cases List.mem_singleton.mp isPart
      rw [Site.around_body scopes]
      rintro order isOrder opener ⟨⟩
      exact ⟨fun name isLocal => List.mem_append_right _ (List.mem_flatMap_of_mem isOrder isLocal),
        fun name isBinder => List.mem_append_right _
          (List.mem_filterMap.mpr ⟨order, isOrder, isBinder⟩)⟩
  | statements orders =>
      cases orders with
      | nil => cases isPart
      | cons first rest =>
          rcases List.mem_pair.mp isPart with rfl | rfl <;> rw [Site.around_same]
          · exact fun order isOrder => lives order
              (List.mem_cons.mpr (.inl (List.mem_singleton.mp isOrder)))
          · exact fun order isOrder => lives order (List.mem_cons_of_mem _ isOrder)
  | statement order =>
      cases order with
      | expression | print | routineDeclaration =>
          exact none (by simp [Node.parts, Node.orders])
      | variableDeclaration name initializer =>
          exact none (by cases initializer <;> simp [Node.parts, Node.orders])
      | exit keyword value => exact none (by cases value <;> simp [Node.parts, Node.orders])
      | classDeclaration name superclass methods classMethods =>
          exact none (by cases superclass <;> simp [Node.parts, Node.orders])
      | block orders =>
          cases List.mem_singleton.mp isPart
          rw [Site.around_body rfl]
          rintro order isOrder opener ⟨⟩
          exact ⟨fun name isLocal => List.mem_flatMap_of_mem isOrder isLocal,
            fun name isBinder => List.mem_filterMap.mpr ⟨order, isOrder, isBinder⟩⟩
      | loop condition body =>
          rcases List.mem_pair.mp isPart with rfl | rfl
          · exact List.forall_mem_nil _
          · rintro order isOrder opener -
            cases List.mem_singleton.mp isOrder
            exact branch shaped opener
      | conditional condition thenBranch elseBranch =>
          cases elseBranch with
          | none =>
              rcases List.mem_pair.mp isPart with rfl | rfl
              · exact List.forall_mem_nil _
              · rintro order isOrder opener -
                cases List.mem_singleton.mp isOrder
                exact branch shaped.1 opener
          | some elseBranch =>
              simp only [Site.parts, List.mem_cons, List.not_mem_nil, or_false] at isPart
              rcases isPart with rfl | rfl | rfl
              · exact List.forall_mem_nil _
              · rintro order isOrder opener -
                cases List.mem_singleton.mp isOrder
                exact branch shaped.1 opener
              · rintro order isOrder opener -
                cases List.mem_singleton.mp isOrder
                exact branch (shaped.2 elseBranch rfl) opener

theorem part {part : Site} (isPart : part ∈ site.parts) :
    recast.Marks places labels declared part (site.around part openers) where
  clean := Site.part_clean marks.clean isPart
  apart := marks.apart.sublist (Site.part_lines_sublist isPart)
  marked line inside := by
    rw [marks.marked line ((Site.part_lines_sublist isPart).subset inside)]
    exact (Site.mentions_apart marks.apart).1 part isPart line inside
  fresh word inside := by
    refine marks.fresh word ?_
    rw [Node.words_eq]
    exact List.mem_append_left _ (List.mem_flatMap_of_mem (Site.part_node_member isPart) inside)
  shaped inner contained := marks.shaped inner (.head (Site.part_node_member isPart) contained)
  reach inner contained := marks.reach inner (.head isPart contained)
  distinct opener isHead := by
    rcases Site.around_head isHead with rfl | outer
    · exact Site.binders_distinct marks.clean
    · exact marks.distinct opener outer
  lives := marks.part_lives isPart

end Marks

end Recast

end Lox
