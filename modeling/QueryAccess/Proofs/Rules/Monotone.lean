import QueryAccess.Proofs.Rules.Verdict
import QueryAccess.Proofs.Tree.Lookup

/-!
# More roles never hurt

There is one way to compare two judgements of a query: if each place that the first one
permits is permitted by the second, and each place of which the first one reports nothing
has nothing to report in the second, then what the first allows is allowed by the second
(`QueryAccess.RuleTree.isAllowed_mono`).

Here it compares two callers. A policy asks for *some* role that qualifies, in either
mode, so further roles can only help (`QueryAccess.Policy.allows_mono`). A drop rule asks
that *all* roles belong to it, so further roles take the caller out of its reach and never
into it (`QueryAccess.DropRule.reaches_anti`). What is left are the values that the clauses
compare with; where they are the same for both callers the second one is allowed whatever
the first is (`QueryAccess.RuleTree.isAllowed_of_more_roles`). Nothing is asked of the rule
tree, neither an order of its names nor that its policies be settled.
-/

namespace QueryAccess

/-! ### Policies and drop rules -/

section Roles

variable {roles others : List String}

/-- A policy that allows some roles allows them with others. -/
theorem Policy.allows_mono {policy : Policy} (h : roles ⊆ others)
    (hallows : policy.allows roles = true) : policy.allows others = true := by
  have hany : ∀ p : String → Bool, roles.any p = true → others.any p = true := by
    intro p hp
    obtain ⟨role, hrole, hholds⟩ := List.any_eq_true.1 hp
    exact List.any_eq_true.2 ⟨role, h hrole, hholds⟩
  rw [allows] at hallows ⊢
  split at hallows
  · next hdrop =>
    rw [if_pos hdrop, Bool.or_eq_true]
    rw [Bool.or_eq_true] at hallows
    exact hallows.imp_right (hany _)
  · next hdrop =>
    rw [if_neg hdrop]
    exact hany _ hallows

/-- A drop rule that reaches some roles reaches fewer of them. -/
theorem DropRule.reaches_anti {rule : DropRule} (h : roles ⊆ others)
    (hreaches : rule.reaches others = true) : rule.reaches roles = true := by
  rw [reaches, Bool.or_eq_true] at hreaches ⊢
  refine hreaches.imp_right fun hall => ?_
  rw [List.all_eq_true] at hall ⊢
  exact fun role hrole => hall role (h hrole)

end Roles

/-! ### References -/

/-- The references of a drop rule. -/
def DropRule.references (rule : DropRule) : List String := rule.clauses.map Clause.reference

/-- **The references of a rule tree**: those of all its drop rules. -/
def RuleTree.references (rules : RuleTree) : List String :=
  rules.tree.listing.flatMap fun place =>
    (place.2.dropRules.getD []).flatMap DropRule.references

theorem RuleTree.mem_references {rules : RuleTree} {path : TreePath} {rule : Node}
    (hrule : rules.tree.ruleAt? path = some rule) {dropRules : List DropRule}
    (hdropRules : rule.dropRules = some dropRules) {dropRule : DropRule}
    (hmem : dropRule ∈ dropRules) {reference : String}
    (hreference : reference ∈ dropRule.references) : reference ∈ rules.references := by
  obtain ⟨place, hplace⟩ := Tree.exists_get?_of_ruleAt? hrule
  refine List.mem_flatMap.2 ⟨(place, rule), Tree.mem_listing_of_get? hplace, ?_⟩
  rw [hdropRules, Option.getD_some]
  exact List.mem_flatMap.2 ⟨dropRule, hmem, hreference⟩

section Messages

variable {caller other : Caller} (query : Tree) (scope : TreePath) (facet : Facet)

/-- A clause says the same to callers for whom its reference leads to the same. -/
theorem Clause.messages_congr {clause : Clause}
    (h : caller.lookup? clause.reference = other.lookup? clause.reference) :
    clause.messages query scope facet caller = clause.messages query scope facet other := by
  rw [messages, messages, h]

/-- A drop rule that says nothing to a caller says nothing to one with more roles. -/
theorem DropRule.messages_eq_nil_mono {rule : DropRule} (hroles : caller.roles ⊆ other.roles)
    (hlookup : ∀ reference ∈ rule.references, caller.lookup? reference = other.lookup? reference)
    (hsilent : rule.messages query scope facet caller = []) :
    rule.messages query scope facet other = [] := by
  rw [messages] at hsilent ⊢
  by_cases hreaches : rule.reaches other.roles = true
  · -- then it reaches the first caller too, who is not spared for having other roles
    rw [if_pos (reaches_anti hroles hreaches)] at hsilent
    rw [if_pos hreaches, ← hsilent]
    refine List.flatMap_congr fun clause hclause => ?_
    exact (Clause.messages_congr query scope facet
      (hlookup clause.reference (List.mem_map_of_mem hclause))).symm
  · rw [if_neg hreaches]

end Messages

namespace RuleTree

/-! ### Comparing judgements -/

/-- **A more lenient judgement allows more**: one that permits every place that the other
does, and has nothing to report where the other has nothing. -/
theorem isAllowed_mono {rules lenient : RuleTree} {caller other : Caller}
    {default otherDefault : DefaultPolicy}
    (hpermits : ∀ path, rules.permits caller default path = true →
      lenient.permits other otherDefault path = true)
    (hsilent : ∀ query path, rules.messagesAt query caller path = [] →
      lenient.messagesAt query other path = []) {document : Document} {bindings : Dict Json}
    (h : (rules.validate document bindings caller default none).isAllowed = true) :
    (lenient.validate document bindings other otherDefault none).isAllowed = true := by
  rw [validate_isAllowed_iff] at h ⊢
  obtain ⟨hleaves, hreports⟩ := h
  refine ⟨fun path node hnode hleaf => ?_, fun path node hnode => ?_⟩
  · exact hpermits _ (hleaves path node hnode hleaf)
  · exact hsilent _ path (hreports path node hnode)

variable {caller other : Caller}

/-- What the rule at a path permits a caller it permits one with more roles. -/
theorem permits_mono {rules : RuleTree} {default : DefaultPolicy}
    (hroles : caller.roles ⊆ other.roles) {path : TreePath}
    (h : rules.permits caller default path = true) : rules.permits other default path = true := by
  rw [permits] at h ⊢
  split at h
  · exact Policy.allows_mono hroles h
  · exact h

/-- Where nothing is reported of a caller, nothing is of one with more roles. -/
theorem messagesAt_eq_nil_mono {rules : RuleTree} (hroles : caller.roles ⊆ other.roles)
    (hlookup : ∀ reference ∈ rules.references,
      caller.lookup? reference = other.lookup? reference) {query : Tree} {path : TreePath}
    (h : rules.messagesAt query caller path = []) : rules.messagesAt query other path = [] := by
  rw [messagesAt_eq_nil_iff] at h ⊢
  intro scope facet rule dropRules hscope hrule hdropRules
  have hsilent := h scope facet rule dropRules hscope hrule hdropRules
  rw [DropRule.evaluate, List.flatMap_eq_nil_iff] at hsilent ⊢
  intro dropRule hmem
  refine DropRule.messages_eq_nil_mono query scope facet hroles (fun reference hreference => ?_)
    (hsilent dropRule hmem)
  exact hlookup reference (mem_references hrule hdropRules hmem hreference)

/-- **More roles never hurt.** If every role of a caller is a role of another, and what the
drop rules of the tree look up is the same for both, then every query that is allowed for
the first is allowed for the second. -/
theorem isAllowed_of_more_roles (rules : RuleTree) (document : Document) (bindings : Dict Json)
    (default : DefaultPolicy) (hroles : caller.roles ⊆ other.roles)
    (hlookup : ∀ reference ∈ rules.references,
      caller.lookup? reference = other.lookup? reference)
    (hallowed : (rules.validate document bindings caller default none).isAllowed = true) :
    (rules.validate document bindings other default none).isAllowed = true :=
  isAllowed_mono (fun _ => permits_mono hroles)
    (fun _ _ => messagesAt_eq_nil_mono hroles hlookup) hallowed

/-- Rules that show customers the titles of their own books. -/
def ownTitles : RuleTree :=
  let forCustomers : Node := .ofPolicy (some ⟨.all, .ofList ["customer"]⟩)
  let ofOthers : Clause := ⟨.neq, "books.$in.owner", "userClaims.uid"⟩
  let books : Node := { forCustomers with
    inputs := [("owner", forCustomers)]
    outputs := [("title", forCustomers)]
    dropRules := some [⟨.ofList ["customer"], [ofOthers]⟩] }
  ⟨⟨[("query", { Node.ofPolicy (some .dropAll) with outputs := [("books", books)] })]⟩⟩

/-- A query for the titles of one owner's books. -/
def titlesOfOwner : Document :=
  ⟨[.operation ⟨none, .query, none, [], [],
    [.field none none "books" [.mk none "owner" (.int "7")] []
      [.field none none "title" [] [] []]]⟩]⟩

/-- The owner of some books. -/
def owner (roles : List String) : Caller := (Caller.ofRoles roles).withClaim "uid" (.int 7)

/-- An owner who turns administrator, as an instance of
`QueryAccess.RuleTree.isAllowed_of_more_roles`: the drop rule reaches the customer alone. -/
theorem ownTitles_allowed_to_admin :
    (owner ["customer"]).roles ⊆ (owner ["admin", "customer"]).roles ∧
    (∀ reference ∈ ownTitles.references, (owner ["customer"]).lookup? reference =
      (owner ["admin", "customer"]).lookup? reference) ∧
    (ownTitles.validate titlesOfOwner [] (owner ["customer"]) .drop none).isAllowed = true ∧
    (ownTitles.validate titlesOfOwner [] (owner ["admin", "customer"]) .drop
      none).isAllowed = true := by
  have hroles : (owner ["customer"]).roles ⊆ (owner ["admin", "customer"]).roles :=
    List.subset_cons_self "admin" ["customer"]
  have hreferences : ownTitles.references = ["userClaims.uid"] := by decide +kernel
  have hlookup : ∀ reference ∈ ownTitles.references, (owner ["customer"]).lookup? reference =
      (owner ["admin", "customer"]).lookup? reference := by
    rw [hreferences]
    intro reference hreference
    obtain rfl := List.mem_singleton.1 hreference
    rfl
  have hallowed : (ownTitles.validate titlesOfOwner [] (owner ["customer"]) .drop
      none).isAllowed = true := by
    decide +kernel
  exact ⟨hroles, hlookup, hallowed,
    isAllowed_of_more_roles ownTitles titlesOfOwner [] .drop hroles hlookup hallowed⟩

end RuleTree

end QueryAccess
