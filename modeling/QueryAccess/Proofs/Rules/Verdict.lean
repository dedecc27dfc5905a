import QueryAccess.Proofs.Rules.Visits

/-!
# What a verdict means

A verdict is made of two lists. The *denied places* of a query
(`QueryAccess.RuleTree.deniedPlaces`) are its leaves whose rule does not permit the
caller, and the *reports* (`QueryAccess.RuleTree.reports`) are the different messages of
the drop rules on its places. Without a custom check the tally of a query consists of
these two and nothing else (`QueryAccess.RuleTree.tally_eq`), and
`QueryAccess.RuleTree.validate_meaning` reads the verdict off them: a request is allowed
if every leaf is permitted and no drop rule on any place has a message, and otherwise the
answer names exactly the leaves and the messages that stand against it.

Both lists are in the order of `QueryAccess.Tree.listing`; a message is reported where it
comes first.
-/

namespace QueryAccess

/-! ### Tallies -/

namespace Visit

/-- The messages that a visit has. -/
def messages : Visit → List String
  | dropped messages => messages
  | leaf _ => []

/-- The place that a visit denies, if it does. -/
def deniedPath? (default : DefaultPolicy) : Visit → Option TreePath
  | dropped _ => none
  | leaf context => if context.isAllowed default then none else some context.path

end Visit

namespace Tally

/-- Adding messages once each to some adds the different ones among the new, in the order
in which they come first. -/
theorem foldl_addOnce (messages failures : List String) :
    messages.foldl addOnce failures =
      failures ++ (messages.filter (· ∉ failures)).eraseDups := by
  induction messages generalizing failures with
  | nil => simp
  | cons message rest ih =>
    rw [List.foldl_cons, ih, addOnce]
    by_cases hmem : message ∈ failures
    · simp [hmem]
    · have hfilter : rest.filter (fun m => decide (m ∉ failures ++ [message])) =
          (rest.filter fun m => decide (m ∉ failures)).filter fun m => !m == message := by
        rw [List.filter_filter]
        refine List.filter_congr fun m _ => ?_
        simp [Bool.and_comm, beq_eq_decide, not_or]
      rw [if_neg hmem, hfilter, List.filter_cons_of_pos (by simpa using hmem),
        List.eraseDups_cons, List.append_assoc, List.singleton_append]

/-- The failures after some visits, without a custom check. -/
theorem failures_foldl_add (default : DefaultPolicy) (visits : List Visit) (tally : Tally) :
    (visits.foldl (add default none) tally).failures =
      (visits.flatMap Visit.messages).foldl addOnce tally.failures := by
  induction visits generalizing tally with
  | nil => rfl
  | cons visit rest ih =>
    rw [List.foldl_cons, ih, List.flatMap_cons, List.foldl_append]
    cases visit <;> rfl

/-- What a custom check says leaves the denied places as they are. -/
theorem denied_foldl_add (default : DefaultPolicy) (check : Option Check) (visits : List Visit)
    (tally : Tally) :
    (visits.foldl (add default check) tally).denied =
      tally.denied ++ visits.filterMap (Visit.deniedPath? default) := by
  induction visits generalizing tally with
  | nil => simp
  | cons visit rest ih =>
    rw [List.foldl_cons, ih, List.filterMap_cons]
    cases visit with
    | dropped messages => rfl
    | leaf context =>
      by_cases hallowed : context.isAllowed default = true
      · simp [add, Visit.deniedPath?, hallowed]
      · simp [add, Visit.deniedPath?, hallowed]

/-- A tally allows if there is nothing in it. -/
theorem verdict_isAllowed_iff (tally : Tally) (roles : List String) :
    (tally.verdict roles).isAllowed = true ↔ tally.denied = [] ∧ tally.failures = [] := by
  rw [verdict]
  by_cases hdenied : tally.denied = []
  · by_cases hfailures : tally.failures = [] <;> simp [hdenied, hfailures, Verdict.allowed,
      Verdict.denied]
  · simp [hdenied, Verdict.denied]

end Tally

theorem flatMap_ite_singleton {α β : Type} (l : List α) (p : α → Bool) (f : α → β) :
    (l.flatMap fun a => if p a then [f a] else []) = (l.filter p).map f := by
  rw [← flatMap_filter_eq, ← List.map_eq_flatMap]

namespace RuleTree

variable (rules : RuleTree) (query : Tree) (caller : Caller) (default : DefaultPolicy)

/-! ### What stands against a query -/

/-- Whether the rule at a path lets the caller see what it rules: its policy, or where
there is none the default. -/
def permits (path : TreePath) : Bool :=
  match rules.policyAt? path with
  | some policy => policy.allows caller.roles
  | none => default == .accept

/-- **The denied places**: the leaves whose rule does not permit the caller. -/
def deniedPlaces : List TreePath :=
  (query.listing.filter fun place =>
    place.2.isLeaf && !rules.permits caller default (query.rulePath place.1)).map Prod.fst

/-- **The reports**: the different messages of the drop rules on all places. -/
def reports : List String :=
  (query.listing.flatMap fun place => rules.messagesAt query caller place.1).eraseDups

theorem messages_visitsOn (exact normalized : TreePath) (node : Node) :
    (visitsOn rules query caller exact normalized node).flatMap Visit.messages =
      messagesOn rules query caller exact normalized := by
  rw [visitsOn, messagesOn, leafVisit]
  cases exact.scope? <;> cases node.isLeaf <;> simp [Visit.messages]

theorem deniedPaths_visitsOn (exact normalized : TreePath) (node : Node) :
    (visitsOn rules query caller exact normalized node).filterMap (Visit.deniedPath? default) =
      if node.isLeaf && !rules.permits caller default normalized then [exact] else [] := by
  have hleaf : (leafVisit rules caller node exact normalized).filterMap
      (Visit.deniedPath? default) =
        if node.isLeaf && !rules.permits caller default normalized then [exact] else [] := by
    rw [leafVisit]
    cases node.isLeaf with
    | false => rfl
    | true =>
      have hallowed : ∀ context : LeafContext,
          context = ⟨exact, normalized, rules.policyAt? normalized, caller, node.value⟩ →
            context.isAllowed default = rules.permits caller default normalized := by
        rintro _ rfl
        rfl
      simp only [if_true, List.filterMap_cons, List.filterMap_nil, Visit.deniedPath?,
        hallowed _ rfl, Bool.true_and]
      cases rules.permits caller default normalized <;> rfl
  rw [visitsOn, List.filterMap_append, hleaf]
  cases exact.scope? <;> rfl

/-- The places that the visits of a query deny are its denied places. -/
theorem deniedPaths_visits {query : Tree} (h : query.Ordered) :
    (rules.visits query caller).filterMap (Visit.deniedPath? default) =
      rules.deniedPlaces query caller default := by
  rw [visits_eq rules caller h, deniedPlaces, List.filterMap_flatMap]
  simp only [deniedPaths_visitsOn]
  exact flatMap_ite_singleton _ _ _

/-- With or without a custom check, the denied places are tallied. -/
theorem denied_tally {query : Tree} (h : query.Ordered) (check : Option Check) :
    (rules.tally query caller default check).denied = rules.deniedPlaces query caller default := by
  rw [tally, Tally.denied_foldl_add, deniedPaths_visits rules caller default h]
  rfl

/-- **The tally of a query** is the list of its denied places and that of its reports. -/
theorem tally_eq {query : Tree} (h : query.Ordered) :
    rules.tally query caller default none =
      ⟨rules.deniedPlaces query caller default, rules.reports query caller⟩ := by
  have hfailures : (rules.tally query caller default none).failures =
      rules.reports query caller := by
    rw [tally, Tally.failures_foldl_add, visits_eq rules caller h, Tally.foldl_addOnce, reports,
      List.flatMap_assoc]
    simp [Tally.empty, messages_visitsOn, messagesAt]
  rw [← denied_tally rules caller default h none, ← hfailures]

/-! ### The verdict -/

theorem mem_deniedPlaces_iff {query : Tree} (h : query.Ordered) (path : TreePath) :
    path ∈ rules.deniedPlaces query caller default ↔
      ∃ node, query.get? path = some node ∧ node.isLeaf = true ∧
        rules.permits caller default (query.rulePath path) = false := by
  simp only [deniedPlaces, List.mem_map, List.mem_filter, Prod.exists, Tree.mem_listing h,
    Bool.and_eq_true, Bool.not_eq_true']
  constructor
  · rintro ⟨_, node, ⟨hget, hleaf, hdenied⟩, rfl⟩
    exact ⟨node, hget, hleaf, hdenied⟩
  · rintro ⟨node, hget, hleaf, hdenied⟩
    exact ⟨path, node, ⟨hget, hleaf, hdenied⟩, rfl⟩

/-- A leaf is denied if its rule does not permit the caller. -/
theorem mem_deniedPlaces_of_isLeaf {query : Tree} (h : query.Ordered) {path : TreePath}
    {leaf : Node} (hget : query.get? path = some leaf) (hleaf : leaf.isLeaf = true) :
    path ∈ rules.deniedPlaces query caller default ↔
      rules.permits caller default (query.rulePath path) = false := by
  rw [mem_deniedPlaces_iff rules caller default h]
  exact ⟨fun ⟨_, _, _, hdenied⟩ => hdenied, fun hdenied => ⟨leaf, hget, hleaf, hdenied⟩⟩

theorem deniedPlaces_eq_nil_iff {query : Tree} (h : query.Ordered) :
    rules.deniedPlaces query caller default = [] ↔
      ∀ path node, query.get? path = some node → node.isLeaf = true →
        rules.permits caller default (query.rulePath path) = true := by
  rw [List.eq_nil_iff_forall_not_mem]
  constructor
  · intro hnone path node hget hleaf
    by_contra hdenied
    rw [Bool.not_eq_true] at hdenied
    exact hnone path ((mem_deniedPlaces_iff rules caller default h path).2
      ⟨node, hget, hleaf, hdenied⟩)
  · intro hall path hmem
    obtain ⟨node, hget, hleaf, hdenied⟩ := (mem_deniedPlaces_iff rules caller default h path).1 hmem
    rw [hall path node hget hleaf] at hdenied
    exact absurd hdenied.symm Bool.false_ne_true

/-- **A denied place denies the request**, whatever a custom check says. -/
theorem isAllowed_eq_false_of_mem_deniedPlaces {document : Document} {bindings : Dict Json}
    {path : TreePath}
    (h : path ∈ rules.deniedPlaces (Tree.ofDocument document bindings none) caller default)
    (check : Option Check) :
    (rules.validate document bindings caller default check).isAllowed = false := by
  have hordered := Tree.ofDocument_ordered document bindings none
  rw [← Bool.not_eq_true, validate, Tally.verdict_isAllowed_iff,
    denied_tally rules caller default hordered]
  intro hnone
  rw [hnone.1] at h
  exact absurd h List.not_mem_nil

theorem mem_reports_iff {query : Tree} (h : query.Ordered) (message : String) :
    message ∈ rules.reports query caller ↔
      ∃ path node, query.get? path = some node ∧
        message ∈ rules.messagesAt query caller path := by
  rw [reports, List.mem_eraseDups, List.mem_flatMap]
  simp only [Prod.exists, Tree.mem_listing h]

/-- The messages at a place, spelled out: those of the drop rules of its rule, evaluated
from its scope. -/
theorem messagesAt_eq_nil_iff (path : TreePath) :
    rules.messagesAt query caller path = [] ↔
      ∀ scope facet rule dropRules, path.scope? = some (scope, facet) →
        rules.tree.ruleAt? (query.rulePath path) = some rule →
        rule.dropRules = some dropRules →
        DropRule.evaluate dropRules query scope facet caller = [] := by
  rw [messagesAt, messagesOn]
  cases path.scope? with
  | none => simp
  | some found =>
    obtain ⟨scope, facet⟩ := found
    cases rules.tree.ruleAt? (query.rulePath path) with
    | none => simp [dropMessages]
    | some rule =>
      simp only [dropMessages, Option.bind_some]
      cases hrules : rule.dropRules with
      | none =>
        refine ⟨fun _ => ?_, fun _ => rfl⟩
        rintro _ _ _ dropRules - ⟨rfl⟩ hsome
        cases hrules.symm.trans hsome
      | some dropRules =>
        constructor
        · rintro hsilent _ _ _ _ ⟨rfl, rfl⟩ ⟨rfl⟩ hsome
          rw [hrules, Option.some.injEq] at hsome
          exact hsome ▸ hsilent
        · exact fun hall => hall scope facet rule dropRules rfl rfl hrules

theorem reports_eq_nil_iff {query : Tree} (h : query.Ordered) :
    rules.reports query caller = [] ↔
      ∀ path node, query.get? path = some node → rules.messagesAt query caller path = [] := by
  simp only [List.eq_nil_iff_forall_not_mem, mem_reports_iff rules caller h]
  constructor
  · exact fun hnone path node hget message hmem => hnone message ⟨path, node, hget, hmem⟩
  · rintro hall message ⟨path, node, hget, hmem⟩
    exact hall path node hget message hmem

/-- A request without a custom check is allowed if no leaf is denied and no drop rule has
anything to report. -/
theorem validate_isAllowed_iff (document : Document) (bindings : Dict Json) :
    (rules.validate document bindings caller default none).isAllowed = true ↔
      (∀ path node, (Tree.ofDocument document bindings none).get? path = some node →
        node.isLeaf = true → rules.permits caller default
          ((Tree.ofDocument document bindings none).rulePath path) = true) ∧
      ∀ path node, (Tree.ofDocument document bindings none).get? path = some node →
        rules.messagesAt (Tree.ofDocument document bindings none) caller path = [] := by
  have hordered := Tree.ofDocument_ordered document bindings none
  rw [validate, Tally.verdict_isAllowed_iff, tally_eq rules caller default hordered,
    deniedPlaces_eq_nil_iff rules caller default hordered, reports_eq_nil_iff rules caller hordered]

end RuleTree

end QueryAccess
