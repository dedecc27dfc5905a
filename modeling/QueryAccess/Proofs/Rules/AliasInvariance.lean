import QueryAccess.Proofs.Rules.Monotone
import QueryAccess.Proofs.Rules.Probes
import QueryAccess.Proofs.Tree.Relabelled

/-!
# Aliases do not matter

A client may put a field under any alias, and the rules should not care: they speak of the names
of fields. Where the response keys are distinct they do not. Queries that are the same but for
their aliases are allowed together (`QueryAccess.RuleTree.isAllowed_of_unlabelled_eq`), whatever
drop rules there are and wherever these look.

What a judgement depends on is the same in twin trees. A leaf and its counterpart have the same
rule path, and so they are permitted together. Probes on a place and on its counterpart start
from twin scopes, and there a relative path finds the same values, or it finds nothing in either
(`QueryAccess.Probe.exists_reading_of_twin`). In which order these stand and under which paths
they are reported may differ, and so may the sentence of a denial; whether there is anything to
report does not (`QueryAccess.Probe.silent_of_twin`).

Where keys are not distinct aliases do matter: one field may borrow the rule of another
(`QueryAccess.Node.nameUnder`).
-/

namespace QueryAccess

/-! ### Probes from twin scopes -/

namespace Probe

variable {tree other : Tree} {scope otherScope : TreePath} {base otherBase : Node}
  (clause : Clause) (facet : Facet)

/-- From twin scopes the same values are found. -/
theorem exists_found_of_twin (hbase : tree.get? scope = some base)
    (hother : other.get? otherScope = some otherBase) (h : base.Twin otherBase)
    (hordered : base.Ordered) (hotherOrdered : otherBase.Ordered) :
    ∀ place ∈ Probe.found ⟨clause, scope, facet⟩ tree,
      ∃ otherPlace ∈ Probe.found ⟨clause, otherScope, facet⟩ other,
        otherPlace.2.value = place.2.value := by
  simp only [found, hbase, hother]
  cases Segment.relative? clause.path facet with
  | none => exact fun _ hplace => absurd hplace List.not_mem_nil
  | some relative => exact fun place hplace => h.resolve hordered hotherOrdered hplace

/-- **From twin scopes the same values are read**, missing ones included. -/
theorem exists_reading_of_twin (hbase : tree.get? scope = some base)
    (hother : other.get? otherScope = some otherBase) (h : base.Twin otherBase)
    (hordered : base.Ordered) (hotherOrdered : otherBase.Ordered) :
    ∀ reading ∈ Probe.readings ⟨clause, scope, facet⟩ tree,
      ∃ otherReading ∈ Probe.readings ⟨clause, otherScope, facet⟩ other,
        otherReading.2 = reading.2 := by
  have hforth := exists_found_of_twin clause facet hbase hother h hordered hotherOrdered
  have hback := exists_found_of_twin clause facet hother hbase h.symm hotherOrdered hordered
  intro reading hreading
  cases hfound : Probe.found ⟨clause, scope, facet⟩ tree with
  | nil =>
    -- what is looked for in vain in one tree is so in the other
    have hnone : Probe.found ⟨clause, otherScope, facet⟩ other = [] := by
      rw [List.eq_nil_iff_forall_not_mem]
      intro otherPlace hotherPlace
      obtain ⟨place, hplace, -⟩ := hback otherPlace hotherPlace
      rw [hfound] at hplace
      exact absurd hplace List.not_mem_nil
    rw [readings_of_not_found hfound] at hreading
    rw [readings_of_not_found hnone]
    dsimp only at hreading ⊢
    cases hrelative : Segment.relative? clause.path facet with
    | none =>
      rw [hrelative] at hreading
      exact absurd hreading List.not_mem_nil
    | some relative =>
      rw [hrelative] at hreading
      obtain rfl := List.mem_singleton.1 hreading
      exact ⟨_, List.mem_singleton.2 rfl, rfl⟩
  | cons first rest =>
    have hsome : Probe.found ⟨clause, scope, facet⟩ tree ≠ [] := by
      rw [hfound]
      exact List.cons_ne_nil first rest
    rw [readings_of_found hsome] at hreading
    obtain ⟨place, hplace, rfl⟩ := List.mem_map.1 hreading
    obtain ⟨otherPlace, hotherPlace, hvalue⟩ := hforth place hplace
    rw [readings_of_found (List.ne_nil_of_mem hotherPlace)]
    exact ⟨_, List.mem_map.2 ⟨otherPlace, hotherPlace, rfl⟩, by rw [hvalue]⟩

/-- A probe is silent if the comparison holds for none of its readings. -/
theorem messages_eq_nil_iff (probe : Probe) (query : Tree) (caller : Caller) :
    probe.messages query caller = [] ↔
      ∀ reading ∈ probe.readings query, probe.clause.operator.holds reading.2
        ((caller.lookup? probe.clause.reference).getD .null) = false := by
  rw [messages_eq, List.filterMap_eq_nil_iff]
  refine forall₂_congr fun reading _ => ?_
  dsimp only
  cases probe.clause.operator.holds reading.2
      ((caller.lookup? probe.clause.reference).getD .null) <;> simp

/-- **A probe that is silent is so from twin scopes.** -/
theorem silent_of_twin (hbase : tree.get? scope = some base)
    (hother : other.get? otherScope = some otherBase) (h : base.Twin otherBase)
    (hordered : base.Ordered) (hotherOrdered : otherBase.Ordered) {caller : Caller}
    (hsilent : Probe.messages ⟨clause, scope, facet⟩ tree caller = []) :
    Probe.messages ⟨clause, otherScope, facet⟩ other caller = [] := by
  rw [messages_eq_nil_iff] at hsilent ⊢
  intro otherReading hotherReading
  obtain ⟨reading, hreading, hvalue⟩ := exists_reading_of_twin clause facet hother hbase h.symm
    hotherOrdered hordered otherReading hotherReading
  rw [← hvalue]
  exact hsilent reading hreading

end Probe

namespace RuleTree

/-! ### Judging twins -/

/-- A rule has the same clauses for probes, from whatever scope they start. -/
theorem mem_probesOf_iff {caller : Caller} {rule : Option Node} {scope : TreePath} {facet : Facet}
    {probe : Probe} :
    probe ∈ probesOf caller rule scope facet ↔
      probe.scope = scope ∧ probe.facet = facet ∧
        ∃ dropRule ∈ (rule.bind fun node => node.dropRules).getD [],
          dropRule.reaches caller.roles = true ∧ probe.clause ∈ dropRule.clauses := by
  simp only [probesOf, List.mem_flatMap, List.mem_filter, List.mem_map]
  constructor
  · rintro ⟨dropRule, ⟨hmem, hreaches⟩, clause, hclause, rfl⟩
    exact ⟨rfl, rfl, dropRule, hmem, hreaches, hclause⟩
  · rintro ⟨rfl, rfl, dropRule, hmem, hreaches, hclause⟩
    exact ⟨dropRule, ⟨hmem, hreaches⟩, probe.clause, hclause, rfl⟩

variable {tree other : Tree} (rules : RuleTree) (caller : Caller)

/-- **Where nothing is reported of its counterpart, nothing is of a place.** -/
theorem messagesAt_eq_nil_of_twin (hordered : tree.Ordered) (hotherOrdered : other.Ordered)
    {path otherPath : TreePath} (hrule : other.rulePath otherPath = tree.rulePath path)
    (hscope : Option.Rel (Tree.TwinScopes tree other) path.scope? otherPath.scope?)
    (hsilent : rules.messagesAt other caller otherPath = []) :
    rules.messagesAt tree caller path = [] := by
  rw [messagesAt_eq_nil_iff_probes, probesAt] at hsilent ⊢
  rw [hrule] at hsilent
  generalize path.scope? = found at hscope ⊢
  generalize otherPath.scope? = otherFound at hscope hsilent
  cases hscope with
  | none => exact fun _ hprobe => absurd hprobe List.not_mem_nil
  | @some pair otherPair h =>
    obtain ⟨scope, facet⟩ := pair
    obtain ⟨otherScope, otherFacet⟩ := otherPair
    obtain ⟨hfacet, base, otherBase, hbase, hother, htwin⟩ := h
    obtain rfl : facet = otherFacet := hfacet
    intro probe hprobe
    obtain ⟨rfl, rfl, hclause⟩ := mem_probesOf_iff.1 hprobe
    -- the same clause is evaluated from the other scope
    have hothers := hsilent ⟨probe.clause, otherScope, probe.facet⟩
      (mem_probesOf_iff.2 ⟨rfl, rfl, hclause⟩)
    exact Probe.silent_of_twin probe.clause probe.facet hother hbase htwin.symm
      (hotherOrdered.get? hother) (hordered.get? hbase) hothers

/-- **What is allowed is allowed for a query with a twin tree.** -/
theorem isAllowed_of_twin {document otherDocument : Document} {bindings : Dict Json}
    {default : DefaultPolicy}
    (htwin : (Tree.ofDocument document bindings none).Twin
      (Tree.ofDocument otherDocument bindings none))
    (hallowed : (rules.validate document bindings caller default none).isAllowed = true) :
    (rules.validate otherDocument bindings caller default none).isAllowed = true := by
  have hordered := Tree.ofDocument_ordered document bindings none
  have hotherOrdered := Tree.ofDocument_ordered otherDocument bindings none
  rw [validate_isAllowed_iff] at hallowed ⊢
  obtain ⟨hpermits, hsilent⟩ := hallowed
  constructor
  · intro otherPath otherNode hotherNode hotherLeaf
    obtain ⟨path, node, hnode, hrule, -, hnodes⟩ := htwin.symm.counterpart hotherNode
    have hleaf := hnodes.isLeaf_of (hotherOrdered.get? hotherNode) (hordered.get? hnode) hotherLeaf
    rw [← hrule]
    exact hpermits path node hnode hleaf
  · intro otherPath otherNode hotherNode
    obtain ⟨path, node, hnode, hrule, hscope, -⟩ := htwin.symm.counterpart hotherNode
    exact messagesAt_eq_nil_of_twin rules caller hotherOrdered hordered hrule hscope
      (hsilent path node hnode)

/-! ### Relabelled queries -/

/-- **Aliases do not matter where the response keys are distinct.** Two documents that are the
same without labels, with one operation of each kind and with distinct response keys in all
their expanded selection sets, are allowed together. -/
theorem isAllowed_of_unlabelled_eq {document otherDocument : Document}
    (h : document.unlabelled = otherDocument.unlabelled)
    (hkinds : (document.operations.map Operation.kind).Nodup)
    (hdistinct : ∀ operation ∈ document.operations,
      (operation.tracked (maxDepth + 1)).Distinct document.fragments)
    (hother : ∀ operation ∈ otherDocument.operations,
      (operation.tracked (maxDepth + 1)).Distinct otherDocument.fragments)
    (rules : RuleTree) (bindings : Dict Json) (caller : Caller) (default : DefaultPolicy) :
    (rules.validate document bindings caller default none).isAllowed =
      (rules.validate otherDocument bindings caller default none).isAllowed := by
  have htwin := Tree.twin_of_unlabelled_eq h hkinds hdistinct hother bindings
  rw [Bool.eq_iff_iff]
  exact ⟨isAllowed_of_twin rules caller htwin, isAllowed_of_twin rules caller htwin.symm⟩

/-- A query for the titles of one owner's books, with the books and the titles under labels. -/
def titlesUnder (books title : Option String) : Document :=
  ⟨[.operation ⟨none, .query, none, [], [],
    [.field none books "books" [.mk none "owner" (.int "7")] []
      [.field none title "title" [] [] []]]⟩]⟩

/-- A query under aliases, as an instance of `QueryAccess.RuleTree.isAllowed_of_unlabelled_eq`:
the drop rule on the books reads their owner, whatever they are called. -/
theorem isAllowed_of_unlabelled_eq_titles :
    (titlesUnder none none).unlabelled = (titlesUnder (some "mine") (some "name")).unlabelled ∧
    ((titlesUnder none none).operations.map Operation.kind).Nodup ∧
    (∀ books title, ∀ operation ∈ (titlesUnder books title).operations,
      (operation.tracked (maxDepth + 1)).Distinct (titlesUnder books title).fragments) ∧
    (ownTitles.validate (titlesUnder none none) [] (owner ["customer"]) .drop none).isAllowed =
      (ownTitles.validate (titlesUnder (some "mine") (some "name")) [] (owner ["customer"]) .drop
        none).isAllowed := by
  have hsame : (titlesUnder none none).unlabelled =
      (titlesUnder (some "mine") (some "name")).unlabelled := rfl
  have hkinds : ((titlesUnder none none).operations.map Operation.kind).Nodup := by decide
  have hdistinct : ∀ books title, ∀ operation ∈ (titlesUnder books title).operations,
      (operation.tracked (maxDepth + 1)).Distinct (titlesUnder books title).fragments := by
    intro books title operation hoperation
    obtain rfl := List.mem_singleton.1 hoperation
    refine .mk (List.nodup_singleton _) fun selected hbooks => ?_
    obtain rfl := List.mem_singleton.1 hbooks
    refine .mk (List.nodup_singleton _) fun selected htitle => ?_
    obtain rfl := List.mem_singleton.1 htitle
    exact .mk List.nodup_nil fun _ hnext => absurd hnext List.not_mem_nil
  exact ⟨hsame, hkinds, hdistinct, isAllowed_of_unlabelled_eq hsame hkinds (hdistinct none none)
    (hdistinct (some "mine") (some "name")) ownTitles [] (owner ["customer"]) .drop⟩

end RuleTree

end QueryAccess
