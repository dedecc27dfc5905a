import QueryAccess.Authorization
import QueryAccess.Proofs.Rules.Inheritance
import QueryAccess.Proofs.Rules.Monotone

/-!
# What the default policy does

The default policy of an authorization acts twice: the rules inherit from its root policy,
and a place without a rule is decided by it. The rules are kept in step with it: an
authorization that has come about by its settings always holds the rules of its source,
compiled below the root policy of its default policy
(`QueryAccess.Authorization.Built.compiled`).

**Dropping fails closed.** Below the policy that drops everyone a role is allowed somewhere
only if a note on the way accepts it. So a caller whose roles no note accepts, neither by
name nor by the wildcard, is permitted nothing; and since every query with an operation has
a leaf, however little it selects, all its requests are denied
(`QueryAccess.Authorization.denied_of_not_accepted`).

**Accepting is more lenient.** The two rule trees of one source differ in their policies
alone, and at each place the two policies have the same notes behind them. Where a note
mentions a role both follow it, and where none does the one denies and the other allows.
So a request that is allowed while everyone is dropped by default stays allowed when
everyone is accepted (`QueryAccess.Authorization.setPolicy_accept_allows`).
-/

namespace QueryAccess

/-! ### The rules of a source -/

namespace RuleTree

/-- The rule tree of a rule source, if there is one, below the root policy of a default
policy. -/
def ofSource (source : Option Document) (default : DefaultPolicy) : RuleTree :=
  match source with
  | some document => .ofDocument document default.rootPolicy
  | none => .empty

/-- A rule of a source has the policy of an occurrence in it. -/
theorem exists_occurrence_of_ruleAt? {source : Option Document} {default : DefaultPolicy}
    {path : TreePath} {rule : Node} (h : (ofSource source default).tree.ruleAt? path = some rule) :
    ∃ document ∈ source, ∃ place, ∃ occurrence ∈ document.occurrencesAt place,
      rule.policy = some (occurrence.policy default.rootPolicy) := by
  cases source with
  | none => cases h
  | some document =>
    obtain ⟨place, hplace⟩ := Tree.exists_get?_of_ruleAt? h
    obtain ⟨occurrence, hlast, hpolicy, -⟩ :=
      Tree.exists_occurrence_of_get? default.rootPolicy hplace
    exact ⟨document, rfl, place, occurrence, List.mem_of_getLast? hlast, hpolicy⟩

end RuleTree

/-! ### Authorizations keep their rules in step -/

namespace Authorization

/-- **An authorization is compiled** if its rules are those of its source, below the root
policy of its default policy. -/
def Compiled (gate : Authorization) : Prop := gate.rules = .ofSource gate.source gate.defaultPolicy

section Settings

variable {gate : Authorization}

theorem compiled_initial : initial.Compiled := rfl

theorem Compiled.setRules (h : gate.Compiled) {text : String} {next : Authorization}
    (hset : gate.setRules text = .ok next) : next.Compiled := by
  rw [Authorization.setRules] at hset
  split at hset
  · cases hset
    exact h
  · split at hset
    · cases hset
    · cases hset
      rfl

theorem Compiled.setPolicy (h : gate.Compiled) (policy : DefaultPolicy) :
    (gate.setPolicy policy).Compiled := by
  rw [Compiled] at h ⊢
  rw [Authorization.setPolicy]
  cases hsource : gate.source with
  | none =>
    rw [hsource] at h
    exact h
  | some document => rfl

/-- **The authorizations that there are**: the initial one, and what comes of one by a
setting. -/
inductive Built : Authorization → Prop
  | initial : Built .initial
  | setRules {gate next : Authorization} {text : String} (h : Built gate)
      (hset : gate.setRules text = .ok next) : Built next
  | setPolicy {gate : Authorization} (h : Built gate) (policy : DefaultPolicy) :
      Built (gate.setPolicy policy)
  | setPolicyText {gate next : Authorization} {text : String} (h : Built gate)
      (hset : gate.setPolicyText text = .ok next) : Built next
  | setDebug {gate : Authorization} (h : Built gate) (debug : Bool) : Built (gate.setDebug debug)
  | setCheck {gate : Authorization} (h : Built gate) (check : Check) : Built (gate.setCheck check)

/-- **Whatever the settings, the rules are compiled.** -/
theorem Built.compiled (h : gate.Built) : gate.Compiled := by
  induction h with
  | initial => exact compiled_initial
  | setRules _ hset ih => exact ih.setRules hset
  | setPolicy _ policy ih => exact ih.setPolicy policy
  | setPolicyText _ hset ih =>
    rw [Authorization.setPolicyText] at hset
    split at hset
    · cases hset
      exact ih.setPolicy _
    · cases hset
  | setDebug _ debug ih => exact ih
  | setCheck _ check ih => exact ih

/-- Whether reasons are given changes nothing about who is allowed. -/
theorem validateRequest_isAllowed (gate : Authorization) (request : Request) :
    (gate.validateRequest request).isAllowed =
      (gate.rules.validate request.document request.bindings request.caller gate.defaultPolicy
        gate.check).isAllowed := by
  rw [validateRequest]
  split
  · rfl
  · next h =>
    rw [Bool.or_eq_true, not_or, Bool.not_eq_true] at h
    exact h.1.symm

end Settings

end Authorization

/-! ### Dropping fails closed -/

/-- Where no note on the way accepts a role, the nearest mention does not. -/
theorem Occurrence.ruling?_ne_some_true {occurrence : Occurrence} {role : String}
    (h : ∀ note ∈ occurrence.notes,
      note.policy.accept.hasWildcard = false ∧ note.policy.accept.contains role = false) :
    occurrence.ruling? role ≠ some true := by
  intro hruling
  obtain ⟨note, hmem, hnote⟩ := List.exists_of_findSome?_eq_some hruling
  obtain ⟨hwildcard, hrole⟩ := h note (List.mem_reverse.1 hmem)
  rw [Policy.ruling?, hwildcard, hrole] at hnote
  simp at hnote

namespace RuleTree

/-- **Dropping permits nothing** to a caller whose roles no note accepts. -/
theorem permits_drop_eq_false {source : Option Document} {caller : Caller}
    (h : ∀ document ∈ source, ∀ role ∈ caller.roles, ∀ note ∈ document.notes,
      note.policy.accept.hasWildcard = false ∧ note.policy.accept.contains role = false)
    (path : TreePath) : (ofSource source .drop).permits caller .drop path = false := by
  rw [permits, policyAt?]
  cases hrule : (ofSource source .drop).tree.ruleAt? path with
  | none => rfl
  | some rule =>
    obtain ⟨document, hdocument, place, occurrence, hoccurrence, hpolicy⟩ :=
      exists_occurrence_of_ruleAt? hrule
    have hsettled := DefaultPolicy.settled_rootPolicy .drop
    rw [Option.bind_some, hpolicy]
    show (occurrence.policy DefaultPolicy.drop.rootPolicy).allows caller.roles = false
    rw [(occurrence.settled_policy hsettled).allows_eq_any, List.any_eq_false]
    intro role hrole
    have hruling : occurrence.ruling? role ≠ some true :=
      Occurrence.ruling?_ne_some_true fun note hnote =>
        h document hdocument role hrole note (Document.notes_subset hoccurrence hnote)
    rw [occurrence.allows_policy hsettled, DefaultPolicy.allows_rootPolicy]
    cases hsome : occurrence.ruling? role with
    | none => decide
    | some ruling =>
      cases ruling with
      | false => decide
      | true => exact absurd hsome hruling

/-- Where nothing is permitted every query with an operation is denied, for it has a leaf. -/
theorem denied_of_permits_nothing {rules : RuleTree} {caller : Caller} {default : DefaultPolicy}
    (h : ∀ path, rules.permits caller default path = false) {document : Document}
    (hoperations : document.operations ≠ []) (bindings : Dict Json) (check : Option Check) :
    (rules.validate document bindings caller default check).isAllowed = false := by
  have hordered := Tree.ofDocument_ordered document bindings none
  obtain ⟨path, leaf, hleaf, hisLeaf⟩ := Tree.exists_leaf_ofDocument hoperations bindings none
  have hdenied := (mem_deniedPlaces_iff rules caller default hordered path).2
    ⟨leaf, hleaf, hisLeaf, h _⟩
  exact isAllowed_eq_false_of_mem_deniedPlaces rules caller default hdenied check

end RuleTree

/-- **Dropping fails closed.** An authorization that drops by default denies every request
with an operation – whatever its variables, aliases and fragments, and whatever the custom
check – to a caller none of whose roles is accepted by a note of the rule source, neither
by name nor by the wildcard. A caller without roles is one of them, whatever the notes. -/
theorem Authorization.denied_of_not_accepted {gate : Authorization} (hcompiled : gate.Compiled)
    (hdrop : gate.defaultPolicy = .drop) {request : Request}
    (hoperations : request.document.operations ≠ [])
    (hnotes : ∀ document ∈ gate.source, ∀ role ∈ request.caller.roles, ∀ note ∈ document.notes,
      note.policy.accept.hasWildcard = false ∧ note.policy.accept.contains role = false) :
    (gate.validateRequest request).isAllowed = false := by
  have hrules : gate.rules = .ofSource gate.source .drop := by rw [hcompiled, hdrop]
  rw [validateRequest_isAllowed, hrules, hdrop]
  exact RuleTree.denied_of_permits_nothing (RuleTree.permits_drop_eq_false hnotes) hoperations
    request.bindings gate.check

/-- Rules that show customers the books, and nobody else anything. -/
def customerBooks : Document :=
  ⟨[.operation ⟨none, .query, none, [], [],
    [.field (some "\x7b\"ACCEPT\": \"customer\"\x7d") none "books" [] []
      [.field none none "title" [] [] []]]⟩]⟩

/-- Books for customers, everything else dropped by default, perhaps with a custom check. -/
def customerGate (check : Option Check) : Authorization :=
  ⟨some customerBooks, .ofSource (some customerBooks) .drop, .drop, false, check⟩

/-- A query of which nothing is left: its only fragment spreads itself. -/
def selfSpread : Document :=
  ⟨[.operation ⟨none, .query, none, [], [], [.spread "All" []]⟩,
    .fragment ⟨"All", "Query", [], [.spread "All" []]⟩]⟩

/-- A guest with an empty query and a custom check that finds nothing wrong, as an instance
of `QueryAccess.Authorization.denied_of_not_accepted`. -/
theorem Authorization.denied_guest_selfSpread :
    (customerGate (some fun _ => [])).Compiled ∧
    (customerGate (some fun _ => [])).defaultPolicy = .drop ∧
    selfSpread.operations ≠ [] ∧
    (∀ document ∈ (customerGate (some fun _ => [])).source,
      ∀ role ∈ (Caller.ofRoles ["guest"]).roles, ∀ note ∈ document.notes,
        note.policy.accept.hasWildcard = false ∧ note.policy.accept.contains role = false) ∧
    ((customerGate (some fun _ => [])).validateRequest
      ⟨selfSpread, [], Caller.ofRoles ["guest"]⟩).isAllowed = false := by
  have hoperations : selfSpread.operations ≠ [] := List.cons_ne_nil _ _
  have hnotes : ∀ document ∈ (customerGate (some fun _ => [])).source,
      ∀ role ∈ (Caller.ofRoles ["guest"]).roles, ∀ note ∈ document.notes,
        note.policy.accept.hasWildcard = false ∧ note.policy.accept.contains role = false := by
    show ∀ document ∈ some customerBooks, ∀ role ∈ ["guest"], ∀ note ∈ document.notes,
      note.policy.accept.hasWildcard = false ∧ note.policy.accept.contains role = false
    decide +kernel
  have hcompiled : (customerGate (some fun _ => [])).Compiled := rfl
  exact ⟨hcompiled, rfl, hoperations, hnotes,
    denied_of_not_accepted hcompiled rfl hoperations hnotes⟩

/-! ### Accepting is more lenient -/

/-- **A node is loosened** if its drop rules stay the same, and its policy allows what it
did. -/
structure Node.Loosened (strict loose : Node) : Prop where
  dropRules : strict.dropRules = loose.dropRules
  policy : ∃ p q, strict.policy = some p ∧ loose.policy = some q ∧
    ∀ roles, p.allows roles = true → q.allows roles = true

/-- The same notes allow more below the policy that accepts everyone. -/
theorem Occurrence.allows_policy_mono (occurrence : Occurrence) {roles : List String}
    (h : (occurrence.policy .dropAll).allows roles = true) :
    (occurrence.policy .acceptAll).allows roles = true := by
  rw [(occurrence.settled_policy Policy.settled_dropAll).allows_eq_any, List.any_eq_true] at h
  rw [(occurrence.settled_policy Policy.settled_acceptAll).allows_eq_any, List.any_eq_true]
  obtain ⟨role, hrole, hallows⟩ := h
  refine ⟨role, hrole, ?_⟩
  -- the nearest mention is the same below both roots, so they differ only without one
  rw [occurrence.allows_policy Policy.settled_dropAll, Policy.allows_dropAll] at hallows
  rw [occurrence.allows_policy Policy.settled_acceptAll]
  cases hruling : occurrence.ruling? role with
  | none =>
    rw [hruling] at hallows
    exact absurd hallows Bool.false_ne_true
  | some ruling =>
    rw [hruling] at hallows
    exact hallows

namespace RuleTree

/-- **The two rule trees of a source are alike**: below the policy that accepts everyone
each rule is loosened. -/
theorem alike_ofSource (source : Option Document) :
    (ofSource source .drop).tree.Alike Node.Loosened (ofSource source .accept).tree := by
  intro path
  cases source with
  | none => exact .none
  | some document =>
    show Option.Rel Node.Loosened ((Tree.ofDocument document [] (some .dropAll)).get? path)
      ((Tree.ofDocument document [] (some .acceptAll)).get? path)
    cases hlast : document.lastOccurrence? path with
    | none =>
      rw [Tree.get?_ofDocument_eq_none .dropAll hlast,
        Tree.get?_ofDocument_eq_none .acceptAll hlast]
      exact .none
    | some occurrence =>
      obtain ⟨strict, hstrict, hdrop, hsame⟩ := Tree.exists_get?_ofDocument .dropAll hlast
      obtain ⟨loose, hloose, haccept, hsame'⟩ := Tree.exists_get?_ofDocument .acceptAll hlast
      rw [hstrict, hloose]
      exact .some ⟨hsame.trans hsame'.symm, _, _, hdrop, haccept,
        fun _ => occurrence.allows_policy_mono⟩

variable {source : Option Document} {caller : Caller}

/-- What is permitted while everyone is dropped is permitted when everyone is accepted. -/
theorem permits_drop_accept {path : TreePath}
    (h : (ofSource source .drop).permits caller .drop path = true) :
    (ofSource source .accept).permits caller .accept path = true := by
  have hrel := (alike_ofSource source).ruleAt? path
  rw [permits, policyAt?] at h ⊢
  generalize (ofSource source .drop).tree.ruleAt? path = strict? at h hrel
  generalize (ofSource source .accept).tree.ruleAt? path = loose? at hrel
  cases hrel with
  | none => exact absurd h Bool.false_ne_true
  | some hloosened =>
    obtain ⟨p, q, hp, hq, hallows⟩ := hloosened.policy
    rw [Option.bind_some, hp] at h
    rw [Option.bind_some, hq]
    exact hallows caller.roles h

/-- The drop rules say the same, whatever the default policy. -/
theorem messagesAt_drop_eq_accept (query : Tree) (path : TreePath) :
    (ofSource source .drop).messagesAt query caller path =
      (ofSource source .accept).messagesAt query caller path := by
  have hdropRules : ((ofSource source .drop).tree.ruleAt? (query.rulePath path)).bind
      Node.dropRules = ((ofSource source .accept).tree.ruleAt? (query.rulePath path)).bind
        Node.dropRules :=
    bind_eq_of_rel ((alike_ofSource source).ruleAt? _) fun _ _ hloosened => hloosened.dropRules
  rw [messagesAt, messagesAt, messagesOn, messagesOn]
  cases path.scope? with
  | none => rfl
  | some scope =>
    show dropMessages query caller _ scope.1 scope.2 = dropMessages query caller _ scope.1 scope.2
    rw [dropMessages, dropMessages, hdropRules]

end RuleTree

/-- **Accepting is more lenient.** A request that an authorization without a custom check
allows while it drops by default, it allows as well after the default policy has been set
to accept. -/
theorem Authorization.setPolicy_accept_allows {gate : Authorization} (hcompiled : gate.Compiled)
    (hdrop : gate.defaultPolicy = .drop) (hcheck : gate.check = none) {request : Request}
    (hallowed : (gate.validateRequest request).isAllowed = true) :
    ((gate.setPolicy .accept).validateRequest request).isAllowed = true := by
  have hrules : gate.rules = .ofSource gate.source .drop := by rw [hcompiled, hdrop]
  have hrules' : (gate.setPolicy .accept).rules = .ofSource gate.source .accept :=
    hcompiled.setPolicy .accept
  have hcheck' : (gate.setPolicy .accept).check = none := hcheck
  rw [validateRequest_isAllowed, hrules, hdrop, hcheck] at hallowed
  rw [validateRequest_isAllowed, hrules', hcheck']
  refine RuleTree.isAllowed_mono (fun _ => RuleTree.permits_drop_accept) ?_ hallowed
  intro query path hsilent
  rw [← RuleTree.messagesAt_drop_eq_accept, hsilent]

/-- A query for the titles of the books. -/
def bookTitles : Document :=
  ⟨[.operation ⟨none, .query, none, [], [],
    [.field none none "books" [] [] [.field none none "title" [] [] []]]⟩]⟩

/-- A customer who asks for the titles, as an instance of
`QueryAccess.Authorization.setPolicy_accept_allows`. -/
theorem Authorization.accept_allows_bookTitles :
    (customerGate none).Compiled ∧
    (customerGate none).defaultPolicy = .drop ∧
    (customerGate none).check = none ∧
    ((customerGate none).validateRequest
      ⟨bookTitles, [], Caller.ofRoles ["customer"]⟩).isAllowed = true ∧
    (((customerGate none).setPolicy .accept).validateRequest
      ⟨bookTitles, [], Caller.ofRoles ["customer"]⟩).isAllowed = true := by
  have hallowed : ((customerGate none).validateRequest
      ⟨bookTitles, [], Caller.ofRoles ["customer"]⟩).isAllowed = true := by
    decide +kernel
  have hcompiled : (customerGate none).Compiled := rfl
  exact ⟨hcompiled, rfl, rfl, hallowed, setPolicy_accept_allows hcompiled rfl rfl hallowed⟩

end QueryAccess
