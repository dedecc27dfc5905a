import QueryAccess.Proofs.Rules.Verdict

/-!
# Custom checks

A custom check has its say on every leaf of a query, next to the policies and the drop rules.
What it can do is to deny: a request is allowed with the check exactly if it is allowed without
and the check has nothing to say of any leaf (`QueryAccess.RuleTree.check_only_restricts`). This
is not quite obvious, since its messages share a list with those of the drop rules, and a drop
rule is silent where its message is in the list already. But then the list is not empty.

**Asking.** A check is a function, and a function does not show how often it is used. So the
verdict is given a second time for a check that may also *do* something when it is asked, in any
monad (`QueryAccess.RuleTree.validateAsking`). A check that does nothing has the verdict of the
plain one there (`QueryAccess.RuleTree.validateAsking_pure`), and one that keeps a record of what
it is asked about (`QueryAccess.Check.recorded`) has afterwards the leaves in its record, each
once and in the order of the listing.
-/

namespace QueryAccess

/-! ### Asking a check -/

section Asking

variable {m : Type → Type} [Monad m]

/-- The tally after a visit, with a check that may do more than answer: a leaf asks it once. -/
def Tally.addAsking (default : DefaultPolicy) (check : LeafContext → m (List String))
    (tally : Tally) : Visit → m Tally
  | .dropped messages => pure (tally.add default none (.dropped messages))
  | .leaf context => do
    let answer ← check context
    return tally.add default (some fun _ => answer) (.leaf context)

/-- **The verdict with a check that may do more than answer**: it does so in the course of the
visits, whenever it is asked. -/
def RuleTree.validateAsking (rules : RuleTree) (query : Document) (bindings : Dict Json)
    (caller : Caller) (default : DefaultPolicy) (check : LeafContext → m (List String)) :
    m Verdict := do
  let visits := rules.visits (Tree.ofDocument query bindings none) caller
  let tally ← visits.foldlM (Tally.addAsking default check) .empty
  return tally.verdict caller.roles

/-- **A check that keeps a record** of what it is asked about. -/
def Check.recorded (check : Check) : LeafContext → StateM (List LeafContext) (List String) :=
  fun context => do
    modify (· ++ [context])
    return check context

variable [LawfulMonad m]

theorem Tally.addAsking_pure (default : DefaultPolicy) (check : Check) (tally : Tally)
    (visit : Visit) :
    tally.addAsking default (fun context => (pure (check context) : m (List String))) visit =
      pure (tally.add default (some check) visit) := by
  cases visit with
  | dropped messages => rfl
  | leaf context => rw [addAsking, pure_bind, add, add]

/-- **A check that does nothing** has the verdict of the plain check. -/
theorem RuleTree.validateAsking_pure (rules : RuleTree) (query : Document) (bindings : Dict Json)
    (caller : Caller) (default : DefaultPolicy) (check : Check) :
    rules.validateAsking query bindings caller default
        (fun context => (pure (check context) : m (List String))) =
      pure (rules.validate query bindings caller default (some check)) := by
  rw [validateAsking]
  simp only [funext fun tally => funext (Tally.addAsking_pure (m := m) default check tally),
    List.foldlM_pure, pure_bind]
  rfl

end Asking

namespace Visit

/-- The leaf that a visit asks about, if it is one. -/
def leaf? : Visit → Option LeafContext
  | dropped _ => none
  | leaf context => some context

/-- What a visit adds to the failures, where nothing else is there yet. -/
def said (check : Option Check) : Visit → List String
  | dropped messages => messages
  | leaf context => (check.map fun check => check context).getD []

end Visit

namespace Tally

variable (default : DefaultPolicy)

/-- **The record after some visits**: the leaves among them, in their order. -/
theorem run_foldlM_addAsking (check : Check) (visits : List Visit) (tally : Tally)
    (record : List LeafContext) :
    (visits.foldlM (addAsking default check.recorded) tally).run record =
      (visits.foldl (add default (some check)) tally, record ++ visits.filterMap Visit.leaf?) := by
  induction visits generalizing tally record with
  | nil =>
    rw [List.filterMap_nil, List.append_nil]
    rfl
  | cons visit rest ih =>
    rw [List.foldlM_cons, StateT.run_bind]
    cases visit with
    | dropped messages => exact ih _ record
    | leaf context =>
      have hstep := ih (tally.add default (some check) (.leaf context)) (record ++ [context])
      rw [List.append_assoc] at hstep
      exact hstep

/-- A message more leaves something in the list. -/
theorem foldl_addOnce_eq_nil_iff (messages failures : List String) :
    messages.foldl addOnce failures = [] ↔ failures = [] ∧ messages = [] := by
  rw [foldl_addOnce, List.append_eq_nil_iff]
  refine and_congr_right fun hnone => ?_
  rw [hnone, List.eq_nil_iff_forall_not_mem, List.eq_nil_iff_forall_not_mem]
  simp

/-- Nothing fails if nothing has failed before and no visit adds anything. -/
theorem failures_foldl_add_eq_nil_iff (check : Option Check) (visits : List Visit)
    (tally : Tally) :
    (visits.foldl (add default check) tally).failures = [] ↔
      tally.failures = [] ∧ ∀ visit ∈ visits, visit.said check = [] := by
  induction visits generalizing tally with
  | nil => simp
  | cons visit rest ih =>
    have hstep : (tally.add default check visit).failures = [] ↔
        tally.failures = [] ∧ visit.said check = [] := by
      cases visit with
      | dropped messages => exact foldl_addOnce_eq_nil_iff messages tally.failures
      | leaf context =>
        cases check with
        | none => simp [add, Visit.said]
        | some check => exact List.append_eq_nil_iff
    rw [List.foldl_cons, ih, hstep, List.forall_mem_cons, and_assoc]

end Tally

namespace RuleTree

variable (rules : RuleTree) (caller : Caller)

/-! ### The leaves of a query -/

/-- A leaf at a place of a query, as it is judged. -/
def judged (query : Tree) (place : TreePath × Node) : LeafContext :=
  ⟨place.1, query.rulePath place.1, rules.policyAt? (query.rulePath place.1), caller,
    place.2.value⟩

theorem filterMap_leaf?_visits (query : Tree) :
    (rules.visits query caller).filterMap Visit.leaf? = rules.leaves query caller := by
  rw [leaves]
  refine List.filterMap_congr fun visit _ => ?_
  cases visit <;> rfl

/-- **The leaves that are visited** are those of the listing, in its order. -/
theorem leaves_eq {query : Tree} (h : query.Ordered) :
    rules.leaves query caller =
      (query.listing.filter fun place => place.2.isLeaf).map (rules.judged caller query) := by
  have hplace : ∀ place : TreePath × Node,
      (visitsOn rules query caller place.1 (query.rulePath place.1) place.2).filterMap
          Visit.leaf? =
        if place.2.isLeaf then [rules.judged caller query place] else [] := by
    intro place
    rw [visitsOn, List.filterMap_append, leafVisit]
    cases place.1.scope? <;> cases place.2.isLeaf <;> rfl
  rw [← filterMap_leaf?_visits, visits_eq rules caller h, List.filterMap_flatMap]
  simp only [hplace]
  exact flatMap_ite_singleton _ _ _

theorem path_judged (query : Tree) (places : List (TreePath × Node)) :
    (places.map (rules.judged caller query)).map LeafContext.path = places.map Prod.fst := by
  rw [List.map_map]
  rfl

/-- What is said on the visits: nothing, if nothing is said without the check and the check
says nothing of any leaf. -/
theorem said_eq_nil_iff (check : Check) (visits : List Visit) :
    (∀ visit ∈ visits, visit.said (some check) = []) ↔
      (∀ visit ∈ visits, visit.said none = []) ∧
        ∀ context ∈ visits.filterMap Visit.leaf?, check context = [] := by
  constructor
  · intro hsaid
    refine ⟨fun visit hvisit => ?_, fun context hcontext => ?_⟩
    · cases visit with
      | dropped messages => exact hsaid _ hvisit
      | leaf context => rfl
    · obtain ⟨visit, hvisit, hleaf⟩ := List.mem_filterMap.1 hcontext
      cases visit with
      | dropped messages => cases hleaf
      | leaf context =>
        obtain rfl := Option.some.inj hleaf
        exact hsaid _ hvisit
  · rintro ⟨hsaid, hcheck⟩ visit hvisit
    cases visit with
    | dropped messages => exact hsaid _ hvisit
    | leaf context => exact hcheck context (List.mem_filterMap.2 ⟨_, hvisit, rfl⟩)

/-! ### The verdict with a check -/

variable (default : DefaultPolicy) (check : Check)

/-- A request is allowed with a check if it is allowed without, and the check says nothing of
any leaf that is visited. -/
theorem verdict_tally_isAllowed_iff (query : Tree) :
    ((rules.tally query caller default (some check)).verdict caller.roles).isAllowed = true ↔
      ((rules.tally query caller default none).verdict caller.roles).isAllowed = true ∧
        ∀ context ∈ rules.leaves query caller, check context = [] := by
  rw [← filterMap_leaf?_visits, Tally.verdict_isAllowed_iff, Tally.verdict_isAllowed_iff, tally,
    tally, Tally.denied_foldl_add, Tally.denied_foldl_add, Tally.failures_foldl_add_eq_nil_iff,
    Tally.failures_foldl_add_eq_nil_iff, said_eq_nil_iff, and_assoc, and_assoc]

/-- A check that says nothing of any leaf changes nothing. -/
theorem tally_of_silent {query : Tree}
    (h : ∀ context ∈ rules.leaves query caller, check context = []) :
    rules.tally query caller default (some check) = rules.tally query caller default none := by
  rw [← filterMap_leaf?_visits] at h
  rw [tally, tally]
  refine List.foldl_ext _ _ _ fun tally visit hvisit => ?_
  cases visit with
  | dropped messages => rfl
  | leaf context =>
    have hsilent := h context (List.mem_filterMap.2 ⟨_, hvisit, rfl⟩)
    rw [Tally.add, Tally.add, hsilent, List.append_nil]

/-- **A check can only restrict, and it is asked of each leaf once.** The leaves of a query are
the places without anything below them, and the listing has each of them once. A check that does
nothing but answer has the plain verdict, and one that keeps a record of what it is asked about
has the same verdict and afterwards these leaves in its record, in the order of the listing: with
the exact path, the path of the rule, the policy there, the caller and the value. The request is
allowed if it is allowed without the check and the check says nothing of any leaf; and if it says
nothing of any leaf the verdict is the same as without it, with its message. -/
theorem check_only_restricts (document : Document) (bindings : Dict Json) :
    let query := Tree.ofDocument document bindings none
    let leaves := (query.listing.filter fun place => place.2.isLeaf).map
      (rules.judged caller query)
    (∀ path, path ∈ leaves.map LeafContext.path ↔
      ∃ node, query.get? path = some node ∧ node.isLeaf = true) ∧
    (leaves.map LeafContext.path).Nodup ∧
    (∀ (m : Type → Type) [Monad m] [LawfulMonad m],
      rules.validateAsking document bindings caller default
          (fun context => (pure (check context) : m (List String))) =
        pure (rules.validate document bindings caller default (some check))) ∧
    (rules.validateAsking document bindings caller default check.recorded).run [] =
      (rules.validate document bindings caller default (some check), leaves) ∧
    ((rules.validate document bindings caller default (some check)).isAllowed = true ↔
      (rules.validate document bindings caller default none).isAllowed = true ∧
        ∀ context ∈ leaves, check context = []) ∧
    ((∀ context ∈ leaves, check context = []) →
      rules.validate document bindings caller default (some check) =
        rules.validate document bindings caller default none) := by
  intro query leaves
  have hordered : query.Ordered := Tree.ofDocument_ordered document bindings none
  have hleaves : rules.leaves query caller = leaves := leaves_eq rules caller hordered
  have hpaths : leaves.map LeafContext.path =
      (query.listing.filter fun place => place.2.isLeaf).map Prod.fst :=
    path_judged rules caller query _
  refine ⟨fun path => ?_, ?_, fun m _ _ => ?_, ?_, ?_, ?_⟩
  · simp only [hpaths, List.mem_map, List.mem_filter, Prod.exists, Tree.mem_listing hordered]
    constructor
    · rintro ⟨_, node, ⟨hnode, hleaf⟩, rfl⟩
      exact ⟨node, hnode, hleaf⟩
    · rintro ⟨node, hnode, hleaf⟩
      exact ⟨path, node, ⟨hnode, hleaf⟩, rfl⟩
  · rw [hpaths]
    exact (List.filter_sublist.map Prod.fst).nodup (Tree.listing_nodup hordered)
  · exact validateAsking_pure rules document bindings caller default check
  · rw [validateAsking, StateT.run_bind, Tally.run_foldlM_addAsking, filterMap_leaf?_visits,
      hleaves, List.nil_append]
    rfl
  · rw [← hleaves]
    exact verdict_tally_isAllowed_iff rules caller default check query
  · intro hsilent
    rw [← hleaves] at hsilent
    exact congrArg (fun tally => Tally.verdict tally caller.roles)
      (tally_of_silent rules caller default check hsilent)

/-- A query for the title of one book. -/
def firstBook : Document :=
  ⟨[.operation ⟨none, .query, none, [], [],
    [.field none none "books" [.mk none "id" (.int "1")] [] [.field none none "title" [] [] []]]⟩]⟩

/-- A check that has something to say of the number one. -/
def objectsToOne : Check := fun context =>
  match context.value with
  | some (.int 1) => ["Not this one!"]
  | _ => []

/-- The first book, as an instance of `QueryAccess.RuleTree.check_only_restricts`: two leaves are
asked about, one of them is objected to, and without an objection the verdict is the plain one. -/
theorem check_only_restricts_firstBook :
    ((empty.validateAsking firstBook [] (Caller.ofRoles []) .accept
        objectsToOne.recorded).run []).2.map (fun context => context.path.text) =
      ["query.$out.books.$in.id", "query.$out.books.$out.title"] ∧
    (empty.validate firstBook [] (Caller.ofRoles []) .accept none).isAllowed = true ∧
    (empty.validate firstBook [] (Caller.ofRoles []) .accept (some objectsToOne)).isAllowed =
      false ∧
    empty.validate firstBook [] (Caller.ofRoles []) .accept (some fun _ => []) =
      empty.validate firstBook [] (Caller.ofRoles []) .accept none := by
  obtain ⟨-, -, -, hrecord, hallowed, -⟩ :=
    check_only_restricts empty (Caller.ofRoles []) .accept objectsToOne firstBook []
  obtain ⟨-, -, -, -, -, hsilent⟩ :=
    check_only_restricts empty (Caller.ofRoles []) .accept (fun _ => []) firstBook []
  refine ⟨?_, by decide +kernel, ?_, hsilent fun _ _ => rfl⟩
  · rw [hrecord]
    decide +kernel
  · rw [Bool.eq_false_iff, ne_eq, hallowed]
    exact fun h => absurd h.2 (by decide +kernel)

end RuleTree

end QueryAccess
