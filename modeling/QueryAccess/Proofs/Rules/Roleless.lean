import QueryAccess.Proofs.Policy.Inheritance
import QueryAccess.Proofs.Rules.Verdict
import QueryAccess.Proofs.Tree.Inherited
import QueryAccess.Proofs.Tree.Lookup

/-!
# Callers without roles

A caller without roles qualifies nowhere: an opt-out asks for a role that is not dropped, and an
opt-in for one that is accepted. The one exception is a *torn* policy
(`QueryAccess.Policy.isTorn`), which holds the wildcard on both sides: it accepts without looking
at the roles. So which places such a caller may see is a matter of which policies are torn.

**Merging tears nothing.** In a note with the wildcard on both sides accepting comes last, and
wins; so what is merged into a policy that mentions a role never tears it, and mends it as soon
as it holds a wildcard (`QueryAccess.Policy.isTorn_merge`). But a policy that mentions no role
gives way as a whole, torn or not. Of several policies merged one after the other it is then the
first one that mentions any role that has to be torn, and none of the later ones may hold a
wildcard (`QueryAccess.Policy.leavesTorn`, `QueryAccess.Policy.isTorn_foldl_merge`).

**Who is denied.** A rule lets a caller without roles pass exactly if the root policy and the
notes on the way to it leave the policy torn; everywhere else the caller is denied, and the
request with it (`QueryAccess.RuleTree.roleless_denied_iff`). Below a root policy that mentions a
role and is not torn, as both default policies are, no note does.
-/

namespace QueryAccess

namespace Policy

/-- **A torn policy** holds the wildcard on both sides. -/
def isTorn (policy : Policy) : Bool := policy.drop.hasWildcard && policy.accept.hasWildcard

/-- Whether a policy holds the wildcard on any side. -/
def holdsWildcard (policy : Policy) : Bool :=
  policy.drop.hasWildcard || policy.accept.hasWildcard

/-- **A caller without roles is allowed by torn policies**, and by no others. -/
theorem allows_nil (policy : Policy) : policy.allows [] = policy.isTorn := by
  rw [allows, isTorn]
  cases policy.drop.hasWildcard <;> simp

/-- A torn policy mentions a role. -/
theorem isTorn_eq_false_of_isEmpty {policy : Policy} (h : policy.isEmpty = true) :
    policy.isTorn = false := by
  rw [isEmpty, Bool.and_eq_true, RoleSet.isEmpty, List.isEmpty_iff] at h
  rw [isTorn, RoleSet.hasWildcard, RoleSet.contains, h.1]
  rfl

/-! ### Merging into a policy that mentions a role -/

section Absorb

variable {incoming : RoleSet}

/-- Absorbing a set without roles changes nothing. -/
theorem absorb_of_isEmpty (h : incoming.isEmpty = true) (target opposite : RoleSet) :
    absorb target opposite incoming = (target, opposite) := by
  rw [RoleSet.isEmpty, List.isEmpty_iff] at h
  simp [absorb, RoleSet.hasWildcard, RoleSet.contains, h]

/-- Absorbing a set with a role leaves the target set with one. -/
theorem isEmpty_absorb_fst (h : incoming.isEmpty = false) (target opposite : RoleSet) :
    (absorb target opposite incoming).1.isEmpty = false := by
  have hmentions : ∀ {set : RoleSet} (role : String), set.contains role = true →
      set.isEmpty = false := by
    intro set role hrole
    rw [RoleSet.contains, List.contains_iff_mem] at hrole
    simpa [RoleSet.isEmpty] using List.ne_nil_of_mem hrole
  obtain ⟨role, hrole⟩ : ∃ role, incoming.contains role = true := by
    simpa [RoleSet.isEmpty, RoleSet.contains, List.eq_nil_iff_forall_not_mem] using h
  by_cases hincoming : incoming.hasWildcard = true
  · exact hmentions wildcard (by simp [contains_absorb_fst, hincoming])
  · by_cases htarget : target.hasWildcard = true
    · have hthere : target.contains wildcard = true := htarget
      exact hmentions wildcard (by simp [contains_absorb_fst, hincoming, hthere])
    · exact hmentions role (by simp [contains_absorb_fst, hincoming, htarget, hrole])

end Absorb

section Merge

variable {policy : Policy} (h : policy.isEmpty = false) (incoming : Policy)

include h

/-- Merging into a policy that mentions a role absorbs the dropped roles, then the accepted
ones. -/
theorem merge_of_isEmpty_eq_false :
    policy.merge incoming =
      let first := absorb policy.drop policy.accept incoming.drop
      let second := absorb first.2 first.1 incoming.accept
      ⟨second.2, second.1⟩ := by
  rw [merge, if_neg (by simp [h])]

/-- A policy that mentions a role still does after merging. -/
theorem isEmpty_merge : (policy.merge incoming).isEmpty = false := by
  rw [merge_of_isEmpty_eq_false h, isEmpty, Bool.and_eq_false_iff]
  dsimp only
  by_cases haccept : incoming.accept.isEmpty = true
  · rw [absorb_of_isEmpty haccept]
    by_cases hdrop : incoming.drop.isEmpty = true
    · rw [absorb_of_isEmpty hdrop]
      exact Bool.and_eq_false_iff.1 h
    · exact .inl (isEmpty_absorb_fst (Bool.eq_false_iff.2 hdrop) _ _)
  · exact .inr (isEmpty_absorb_fst (Bool.eq_false_iff.2 haccept) _ _)

/-- **Merging tears nothing**, and mends with any wildcard. -/
theorem isTorn_merge :
    (policy.merge incoming).isTorn = (policy.isTorn && !incoming.holdsWildcard) := by
  rw [merge_of_isEmpty_eq_false h]
  simp only [isTorn, holdsWildcard, RoleSet.hasWildcard, contains_absorb_fst,
    contains_absorb_snd]
  cases incoming.drop.contains wildcard <;> cases incoming.accept.contains wildcard <;>
    cases policy.drop.contains wildcard <;> simp

end Merge

/-! ### One policy after the other -/

/-- **Whether policies leave a torn one** when they are merged one after the other: the first
of them that mentions any role has to be torn, and none of the later ones may hold a
wildcard. -/
def leavesTorn (policies : List Policy) : Bool :=
  match policies.dropWhile isEmpty with
  | [] => false
  | first :: later => first.isTorn && later.all fun incoming => !incoming.holdsWildcard

theorem leavesTorn_cons_of_isEmpty {policy : Policy} (h : policy.isEmpty = true)
    (later : List Policy) : leavesTorn (policy :: later) = leavesTorn later := by
  rw [leavesTorn, List.dropWhile_cons_of_pos h]
  rfl

theorem leavesTorn_cons {policy : Policy} (h : policy.isEmpty = false) (later : List Policy) :
    leavesTorn (policy :: later) =
      (policy.isTorn && later.all fun incoming => !incoming.holdsWildcard) := by
  rw [leavesTorn, List.dropWhile_cons_of_neg (by simp [h])]

/-- **Which policies leave a torn one.** -/
theorem isTorn_foldl_merge (policy : Policy) (later : List Policy) :
    (later.foldl merge policy).isTorn = leavesTorn (policy :: later) := by
  induction later generalizing policy with
  | nil =>
    cases h : policy.isEmpty with
    | true =>
      rw [leavesTorn_cons_of_isEmpty h, List.foldl_nil, isTorn_eq_false_of_isEmpty h]
      rfl
    | false => simp [leavesTorn_cons h]
  | cons incoming rest ih =>
    rw [List.foldl_cons, ih]
    cases h : policy.isEmpty with
    | true => rw [merge_of_isEmpty h, leavesTorn_cons_of_isEmpty h]
    | false =>
      rw [leavesTorn_cons (isEmpty_merge h incoming), leavesTorn_cons h, isTorn_merge h,
        List.all_cons, Bool.and_assoc]

end Policy

/-! ### Rules -/

/-- Whether the policy at an occurrence is torn, by the notes on the way. -/
def Occurrence.isTorn (root : Policy) (occurrence : Occurrence) : Bool :=
  Policy.leavesTorn (root :: occurrence.notes.map RuleNote.policy)

theorem Occurrence.isTorn_policy (root : Policy) (occurrence : Occurrence) :
    (occurrence.policy root).isTorn = occurrence.isTorn root :=
  Policy.isTorn_foldl_merge root _

namespace RuleTree

variable (document : Document) (root : Policy)

/-- **Whether a caller without roles may**, place by place. -/
theorem allows_nil_ofDocument (path : TreePath) :
    (((ofDocument document root).tree.get? path).bind Node.policy).map (·.allows []) =
      (document.lastOccurrence? path).map (Occurrence.isTorn root) := by
  rw [ofDocument, Tree.bind_policy_ofDocument, Option.map_map]
  refine Option.map_congr fun occurrence _ => ?_
  rw [Function.comp_apply, Policy.allows_nil, occurrence.isTorn_policy]

/-- **A rule for a caller without roles** is judged by the place where it stands. -/
theorem exists_permits_roleless {caller : Caller} (hroles : caller.roles = []) {path : TreePath}
    {rule : Node} (h : (ofDocument document root).tree.ruleAt? path = some rule)
    (default : DefaultPolicy) :
    ∃ place occurrence, (ofDocument document root).tree.get? place = some rule ∧
      document.lastOccurrence? place = some occurrence ∧
      (ofDocument document root).permits caller default path = occurrence.isTorn root := by
  obtain ⟨place, hplace⟩ := Tree.exists_get?_of_ruleAt? h
  obtain ⟨occurrence, hlast, hpolicy, -⟩ := Tree.exists_occurrence_of_get? root hplace
  refine ⟨place, occurrence, hplace, hlast, ?_⟩
  rw [permits, policyAt?, h, Option.bind_some, hpolicy, hroles]
  exact (Policy.allows_nil _).trans (occurrence.isTorn_policy root)

/-- **Whom rules let pass without roles.** In the rule tree of a document a caller without roles
is allowed at a place exactly if the root policy and the notes on the way to the last occurrence
of the place leave a torn policy: the first of them that mentions any role holds the wildcard on
both sides, and no later one holds it. So below a root policy that mentions a role and is not
torn, such a caller is allowed nowhere.

A leaf of a query that has a rule is judged by the place where the rule stands. If that is not
left torn, the leaf is denied to a caller without roles, and the request with it, whatever the
default policy and the custom check. -/
theorem roleless_denied_iff :
    (∀ path, (((ofDocument document root).tree.get? path).bind Node.policy).map (·.allows []) =
      (document.lastOccurrence? path).map (Occurrence.isTorn root)) ∧
    (root.isEmpty = false → root.isTorn = false → ∀ path node policy,
      (ofDocument document root).tree.get? path = some node → node.policy = some policy →
        policy.allows [] = false) ∧
    ∀ (queried : Document) (bindings : Dict Json) (caller : Caller) (default : DefaultPolicy)
      (path : TreePath) (leaf rule : Node), caller.roles = [] →
      let query := Tree.ofDocument queried bindings none
      query.get? path = some leaf → leaf.isLeaf = true →
      (ofDocument document root).tree.ruleAt? (query.rulePath path) = some rule →
        ∃ place occurrence, (ofDocument document root).tree.get? place = some rule ∧
          document.lastOccurrence? place = some occurrence ∧
          (path ∈ (ofDocument document root).deniedPlaces query caller default ↔
            occurrence.isTorn root = false) ∧
          (occurrence.isTorn root = false → ∀ check,
            ((ofDocument document root).validate queried bindings caller default check).isAllowed =
              false) := by
  refine ⟨allows_nil_ofDocument document root, ?_, ?_⟩
  · intro hempty hwhole path node policy hnode hpolicy
    obtain ⟨occurrence, -, hoccurrence, -⟩ := Tree.exists_occurrence_of_get? root hnode
    obtain rfl := Option.some.inj (hpolicy.symm.trans hoccurrence)
    rw [Policy.allows_nil, occurrence.isTorn_policy, Occurrence.isTorn,
      Policy.leavesTorn_cons hempty, hwhole, Bool.false_and]
  · intro queried bindings caller default path leaf rule hroles query hleaf hisLeaf hrule
    obtain ⟨place, occurrence, hplace, hlast, hpermits⟩ :=
      exists_permits_roleless document root hroles hrule default
    have hdenied : path ∈ (ofDocument document root).deniedPlaces query caller default ↔
        occurrence.isTorn root = false := by
      rw [mem_deniedPlaces_of_isLeaf _ _ _ (Tree.ofDocument_ordered queried bindings none) hleaf
        hisLeaf, hpermits]
    exact ⟨place, occurrence, hplace, hlast, hdenied, fun hmended =>
      isAllowed_eq_false_of_mem_deniedPlaces _ _ _ (hdenied.2 hmended)⟩

/-- A rule source with a note that has the wildcard on both sides. -/
def openDrafts : Document :=
  ⟨[.operation ⟨none, .query, none, [], [],
    [.field (some "\x7b\"DROP\": \"*\", \"ACCEPT\": \"*\"\x7d") none "drafts" [] [] []]⟩]⟩

/-- The place of the note, in the rules and in a query. -/
def draftsPlace : TreePath := ⟨"query", [.named .output "drafts"]⟩

/-- Below a root policy that drops everyone the note tears nothing, and a caller without roles is
denied. -/
theorem roleless_denied_openDrafts :
    (Caller.ofRoles []).roles = [] ∧
    ∃ leaf rule, (Tree.ofDocument openDrafts [] none).get? draftsPlace = some leaf ∧
      leaf.isLeaf = true ∧
      (ofDocument openDrafts .dropAll).tree.ruleAt?
        ((Tree.ofDocument openDrafts [] none).rulePath draftsPlace) = some rule ∧
      draftsPlace ∈ (ofDocument openDrafts .dropAll).deniedPlaces
        (Tree.ofDocument openDrafts [] none) (Caller.ofRoles []) .accept ∧
      ((ofDocument openDrafts .dropAll).validate openDrafts [] (Caller.ofRoles []) .accept
        none).isAllowed = false := by
  have hchecked : ((Tree.ofDocument openDrafts [] none).get? draftsPlace).any Node.isLeaf =
      true := by
    decide +kernel
  obtain ⟨leaf, hleaf, hisLeaf⟩ := (Option.any_eq_true _ _).1 hchecked
  have hruled : ((ofDocument openDrafts .dropAll).tree.ruleAt?
      ((Tree.ofDocument openDrafts [] none).rulePath draftsPlace)).isSome = true := by
    decide +kernel
  obtain ⟨rule, hrule⟩ := Option.isSome_iff_exists.1 hruled
  obtain ⟨-, -, hjudged⟩ := roleless_denied_iff openDrafts .dropAll
  obtain ⟨_, occurrence, -, -, hdenied, hverdict⟩ :=
    hjudged openDrafts [] (Caller.ofRoles []) .accept draftsPlace leaf rule rfl hleaf hisLeaf hrule
  have hmended : occurrence.isTorn .dropAll = false := Policy.leavesTorn_cons (by decide) _
  exact ⟨rfl, leaf, rule, hleaf, hisLeaf, hrule, hdenied.2 hmended, hverdict hmended none⟩

/-- **Below a root policy that mentions no role** the note is taken as it is, and a caller without
roles is allowed. -/
theorem roleless_allowed_openDrafts :
    ¬∀ (document : Document) (root : Policy) (path : TreePath) (node : Node) (policy : Policy),
      (ofDocument document root).tree.get? path = some node → node.policy = some policy →
        policy.allows [] = false := by
  intro hall
  have hallowed : ((((ofDocument openDrafts .empty).tree.get? draftsPlace).bind
      Node.policy).any (·.allows [])) = true := by
    decide +kernel
  obtain ⟨policy, hpolicy, hallows⟩ := (Option.any_eq_true _ _).1 hallowed
  obtain ⟨node, hnode, hpolicy⟩ := Option.bind_eq_some_iff.1 hpolicy
  rw [hall openDrafts .empty draftsPlace node policy hnode hpolicy] at hallows
  cases hallows

end RuleTree

end QueryAccess
