import QueryAccess.Proofs.Rules.Verdict
import QueryAccess.Proofs.Tree.Lookup
import QueryAccess.Proofs.Tree.Selected

/-!
# Aliases and the rules they stand under

A rule speaks of the names of fields, and a client that puts a field under an alias is
held to the rule of the field. But the selections of one response key share one node, and
that node stands for one name: the last aliased selection's, and the key itself where no
selection of the key is aliased. Another field under the same key is not judged by its
own rule, and a field is not judged at all where another selection of its key has
arguments or selections of its own.

`QueryAccess.RuleTree.enforced_iff` says exactly which rules are enforced in a document
with one operation and without spreads. A denial at the end of some names denies the
request, whatever the rules and the caller, if and only if some leaf of the query *shows*
these names: the keys that lead to it are taken for them, and none of the fields there
goes on. That the names are those of a selected field is not enough
(`QueryAccess.RuleTree.alias_borrows_rule`).

The rules that tell whether names are shown deny the places of these names and accept
everything else (`QueryAccess.RuleTree.denying`).
-/

namespace QueryAccess

/-! ### Rules that deny one place -/

namespace Node

/-- Rules on the way to some names: everyone is accepted, except at their end. -/
def denying : List String → Node
  | [] => .ofPolicy (some .dropAll)
  | name :: rest => { Node.ofPolicy (some .acceptAll) with outputs := [(name, denying rest)] }

theorem items_denying (names : List String) : (denying names).items = [] := by
  cases names <;> rfl

theorem child?_denying_cons (name : String) (rest : List String) (segment : Segment) :
    (denying (name :: rest)).child? segment =
      if segment = .output name then some (denying rest) else none := by
  rcases segment with ⟨_ | _, key⟩ | i
  · rfl
  · simp [denying, child?, Segment.output, Dict.lookup_singleton]
  · rfl

/-- At their end the names are denied. -/
theorem ruleGet?_denying_self (names : List String) :
    (denying names).ruleGet? (names.map Segment.output) = some (.ofPolicy (some .dropAll)) := by
  induction names with
  | nil => rfl
  | cons name rest ih =>
    rw [List.map_cons, ruleGet?, ruleChild?_of_items (items_denying _), child?_denying_cons,
      if_pos rfl]
    exact ih

/-- Everywhere else everyone is accepted, and nothing is dropped anywhere. -/
theorem ruleGet?_denying {names : List String} {segments : List Segment} {rule : Node}
    (h : (denying names).ruleGet? segments = some rule) :
    rule.dropRules = none ∧
      (rule.policy = some .acceptAll ∨ segments = names.map Segment.output) := by
  induction names generalizing segments with
  | nil =>
    cases segments with
    | nil =>
      obtain rfl := Option.some.inj h
      exact ⟨rfl, Or.inr rfl⟩
    | cons segment rest =>
      rw [ruleGet?, ruleChild?_of_items (items_denying _)] at h
      rcases segment with ⟨_ | _, key⟩ | i <;> cases h
  | cons name names ih =>
    cases segments with
    | nil =>
      obtain rfl := Option.some.inj h
      exact ⟨rfl, Or.inl rfl⟩
    | cons segment rest =>
      rw [ruleGet?, ruleChild?_of_items (items_denying _), child?_denying_cons] at h
      split at h
      · next hsegment =>
        obtain ⟨hdrop, hpolicy⟩ := ih h
        refine ⟨hdrop, hpolicy.imp_right fun hrest => ?_⟩
        rw [List.map_cons, hsegment, hrest]
      · cases h

end Node

namespace RuleTree

/-- **The rules that deny one place** and accept everyone everywhere else. -/
def denying (keyword : String) (names : List String) : RuleTree :=
  ⟨⟨[(keyword, Node.denying names)]⟩⟩

/-- A caller of some role. -/
def anyone : Caller := Caller.ofRoles ["anyone"]

variable (keyword : String) (names : List String)

theorem ruleAt?_denying {path : TreePath} {rule : Node}
    (h : (denying keyword names).tree.ruleAt? path = some rule) :
    rule.dropRules = none ∧
      (rule.policy = some .acceptAll ∨ path = ⟨keyword, names.map Segment.output⟩) := by
  obtain ⟨keyword', segments⟩ := path
  obtain ⟨root, hroot, hrule⟩ := Option.bind_eq_some_iff.1 h
  obtain ⟨rfl, rfl⟩ : keyword' = keyword ∧ Node.denying names = root := by
    simpa [denying, Tree.root?, Dict.lookup_singleton] using hroot
  obtain ⟨hdrop, hpolicy⟩ := Node.ruleGet?_denying hrule
  exact ⟨hdrop, hpolicy.imp_right fun hsegments => congrArg (TreePath.mk keyword') hsegments⟩

/-- They deny the place, to everyone. -/
theorem permits_denying_self (caller : Caller) (default : DefaultPolicy) :
    (denying keyword names).permits caller default ⟨keyword, names.map Segment.output⟩ =
      false := by
  have hpolicy : (denying keyword names).policyAt? ⟨keyword, names.map Segment.output⟩ =
      some .dropAll := by
    have hroot : (denying keyword names).tree.root? keyword = some (Node.denying names) := by
      simp [denying, Tree.root?]
    rw [policyAt?, Tree.ruleAt?, hroot, Option.bind_some, Node.ruleGet?_denying_self]
    rfl
  rw [permits, hpolicy]
  exact Policy.allows_dropAll caller.roles

/-- They deny nothing else to a caller with a role. -/
theorem permits_denying {path : TreePath}
    (h : (denying keyword names).permits anyone .accept path = false) :
    path = ⟨keyword, names.map Segment.output⟩ := by
  rw [permits, policyAt?] at h
  cases hrule : (denying keyword names).tree.ruleAt? path with
  | none =>
    rw [hrule] at h
    cases h
  | some rule =>
    rcases (ruleAt?_denying keyword names hrule).2 with hpolicy | hpath
    · rw [hrule, Option.bind_some, hpolicy] at h
      have hallows : Policy.acceptAll.allows anyone.roles = false := h
      rw [Policy.allows_acceptAll] at hallows
      cases hallows
    · exact hpath

/-- They have no messages. -/
theorem messagesAt_denying (query : Tree) (caller : Caller) (path : TreePath) :
    (denying keyword names).messagesAt query caller path = [] := by
  rw [messagesAt_eq_nil_iff]
  intro scope facet rule dropRules _ hrule hdrop
  rw [(ruleAt?_denying keyword names hrule).1] at hdrop
  cases hdrop

/-! ### Which rules are enforced -/

section Enforced

variable {document : Document} {operation : Operation} {bindings : Dict Json} {names}

/-- **What a leaf shows is enforced**: a denial at the names of a leaf denies the request. -/
theorem denied_of_shown (rules : RuleTree) (caller : Caller) (default : DefaultPolicy)
    (h : document.operations = [operation])
    (hfree : Uncycled document.fragments (spreadsIn operation.selections)) {keys : List String}
    (hkeys : Tree.selectedAt document operation keys ≠ [])
    (hend : ∀ field ∈ Tree.selectedAt document operation keys,
      field.isEnd document.fragments = true)
    (hdenied : rules.permits caller default
      (Tree.outputPath operation (Tree.shownAt document operation keys)) = false) :
    (rules.validate document bindings caller default none).isAllowed = false := by
  obtain ⟨node, hnode⟩ := (Tree.exists_get?_outputPath h hfree keys).2 hkeys
  have hleaf := (Tree.isLeaf_outputPath h hfree hnode).2 hend
  rw [← Bool.not_eq_true]
  intro hallowed
  have hpermits := ((validate_isAllowed_iff ..).1 hallowed).1 _ node hnode hleaf
  rw [Tree.rulePath_outputPath h hfree hkeys, hdenied] at hpermits
  exact absurd hpermits Bool.false_ne_true

/-- What is denied by rules that deny one place is shown by a leaf. -/
theorem shown_of_denied (h : document.operations = [operation])
    (hfree : Uncycled document.fragments (spreadsIn operation.selections))
    (hdenied : ((denying operation.kind.keyword names).validate document bindings anyone .accept
      none).isAllowed = false) :
    ∃ keys, Tree.selectedAt document operation keys ≠ [] ∧
      (∀ field ∈ Tree.selectedAt document operation keys,
        field.isEnd document.fragments = true) ∧
      Tree.shownAt document operation keys = names := by
  -- without messages a request is denied for a leaf only
  obtain ⟨path, node, hnode, hleaf, hpermits⟩ : ∃ path node,
      (Tree.ofDocument document bindings none).get? path = some node ∧ node.isLeaf = true ∧
        (denying operation.kind.keyword names).permits anyone .accept
          ((Tree.ofDocument document bindings none).rulePath path) = false := by
    by_contra hnone
    rw [← Bool.not_eq_true, validate_isAllowed_iff] at hdenied
    refine hdenied
      ⟨fun path node hnode hleaf => ?_, fun path _ _ => messagesAt_denying _ _ _ _ path⟩
    rw [← Bool.not_eq_false]
    exact fun hpermits => hnone ⟨path, node, hnode, hleaf, hpermits⟩
  obtain ⟨keys, rfl, hshown⟩ :=
    Tree.exists_keys_of_rulePath h hfree hnode (permits_denying _ _ hpermits)
  exact ⟨keys, (Tree.exists_get?_outputPath h hfree keys).1 ⟨node, hnode⟩,
    (Tree.isLeaf_outputPath h hfree hnode).1 hleaf, hshown⟩

/-- **Which rules are enforced.** In a document with one operation and without spreads, a
denial at the end of some names denies the request under all rules, callers and defaults,
exactly if a leaf shows the names: at the end of some keys that are taken for them there
are fields, and all of them end there. -/
theorem enforced_iff (h : document.operations = [operation])
    (hspreads : spreadsIn operation.selections = []) (names : List String) :
    (∀ (rules : RuleTree) (caller : Caller) (default : DefaultPolicy),
        rules.permits caller default (Tree.outputPath operation names) = false →
          (rules.validate document bindings caller default none).isAllowed = false) ↔
      ∃ keys, Tree.selectedAt document operation keys ≠ [] ∧
        (∀ field ∈ Tree.selectedAt document operation keys,
          field.isEnd document.fragments = true) ∧
        Tree.shownAt document operation keys = names := by
  have hfree : Uncycled document.fragments (spreadsIn operation.selections) := by
    rw [hspreads]
    exact .nil
  constructor
  · intro henforced
    exact shown_of_denied h hfree (henforced _ anyone .accept (permits_denying_self _ names _ _))
  · rintro ⟨keys, hkeys, hend, rfl⟩ rules caller default hdenied
    exact denied_of_shown rules caller default h hfree hkeys hend hdenied

end Enforced

/-! ### Two fields under one key -/

/-- A query for the author and the title of books, both under one alias. -/
def authorAsTitle : Operation :=
  ⟨none, .query, none, [], [],
    [.field none none "books" [] []
      [.field none (some "x") "author" [] [] [], .field none (some "x") "title" [] [] []]]⟩

/-- The rules of such a query, as an instance of `QueryAccess.RuleTree.enforced_iff`: the
title is shown, and a denial of it is enforced. -/
theorem enforced_authorAsTitle :
    (⟨[.operation authorAsTitle]⟩ : Document).operations = [authorAsTitle] ∧
    spreadsIn authorAsTitle.selections = [] ∧
    ∀ (rules : RuleTree) (caller : Caller) (default : DefaultPolicy),
      rules.permits caller default (Tree.outputPath authorAsTitle ["books", "title"]) = false →
        (rules.validate ⟨[.operation authorAsTitle]⟩ [] caller default none).isAllowed = false := by
  refine ⟨rfl, rfl, (enforced_iff rfl rfl ["books", "title"]).2 ⟨["books", "x"], ?_, ?_, ?_⟩⟩
  · exact List.cons_ne_nil _ _
  · decide +kernel
  · decide +kernel

/-- **A field may stand under the rule of another one**: a rule that denies a selected field
without arguments and selections does not always deny the request. -/
theorem alias_borrows_rule :
    ¬∀ (document : Document) (operation : Operation) (bindings : Dict Json) (rules : RuleTree)
      (caller : Caller) (default : DefaultPolicy) (way : List Selected) (field : Selected),
      document.operations = [operation] → spreadsIn operation.selections = [] →
      Selected.Reaches document.fragments (operation.whole (maxDepth + 1)) (way ++ [field]) →
      field.isBare = true →
      rules.permits caller default
        (Tree.outputPath operation ((way ++ [field]).map Selected.name)) = false →
      (rules.validate document bindings caller default none).isAllowed = false := by
  intro hall
  have hway : Selected.Reaches [] (authorAsTitle.whole (maxDepth + 1))
      ([⟨maxDepth, none, "books", [], _⟩] ++ [⟨maxDepth - 1, some "x", "author", [], []⟩]) :=
    .step (.head _) (.step (.head _) (.here _))
  have hdenied := hall ⟨[.operation authorAsTitle]⟩ authorAsTitle []
    (denying "query" ["books", "author"]) anyone .accept _ _ rfl rfl hway rfl
    (permits_denying_self "query" ["books", "author"] anyone .accept)
  have hallowed : ((denying "query" ["books", "author"]).validate ⟨[.operation authorAsTitle]⟩ []
      anyone .accept none).isAllowed = true := by
    decide +kernel
  rw [hallowed] at hdenied
  cases hdenied

end RuleTree

end QueryAccess
