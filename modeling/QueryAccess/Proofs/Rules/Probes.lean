import QueryAccess.Proofs.Rules.Evaluation
import QueryAccess.Proofs.Rules.Verdict

/-!
# What drop rules look at

A clause that is evaluated on a query, from a scope and beginning on a side, is a *probe*
(`QueryAccess.Probe`). It reads values at some places of the query
(`QueryAccess.Probe.readings`) and compares each of them with what the caller has. Which
probes are met at a place depends on the place and its rule path alone
(`QueryAccess.RuleTree.probesAt`); what they report depends on the readings alone
(`QueryAccess.Probe.messages_eq`). The messages at a place are those of the probes met there
(`QueryAccess.RuleTree.messagesAt_eq`).
-/

namespace QueryAccess

/-- A clause as it is evaluated on a query: from a scope, and beginning on a side. -/
structure Probe where
  clause : Clause
  scope : TreePath
  facet : Facet
deriving DecidableEq

namespace Probe

variable (probe : Probe) (query : Tree) (caller : Caller)

/-- The nodes that a probe finds, with the segments from its scope. -/
def found : List (List Segment × Node) :=
  match Segment.relative? probe.clause.path probe.facet, query.get? probe.scope with
  | some relative, some base => base.resolve relative
  | _, _ => []

/-- **The readings of a probe**: the places it looks at, with their values. A place that is
not there reads as null, and a clause whose path cannot be read looks at nothing. -/
def readings : List (TreePath × Json) :=
  match Segment.relative? probe.clause.path probe.facet with
  | none => []
  | some relative => Clause.places query probe.scope relative

/-- What a probe finds it reads. -/
theorem readings_of_found {probe : Probe} {query : Tree} (h : probe.found query ≠ []) :
    probe.readings query = (probe.found query).map fun place =>
      (probe.scope.join place.1, place.2.value.getD .null) := by
  revert h
  rw [readings, found]
  cases Segment.relative? probe.clause.path probe.facet with
  | none => simp
  | some relative =>
    simp only [Clause.places]
    cases query.get? probe.scope with
    | none => simp
    | some base =>
      intro hfound
      rw [if_neg (by simpa using hfound)]

/-- What a probe looks for in vain it reads as null. -/
theorem readings_of_not_found {probe : Probe} {query : Tree} (h : probe.found query = []) :
    probe.readings query =
      ((Segment.relative? probe.clause.path probe.facet).map fun relative =>
        (probe.scope.join relative, Json.null)).toList := by
  revert h
  rw [readings, found]
  cases Segment.relative? probe.clause.path probe.facet with
  | none => simp
  | some relative =>
    simp only [Clause.places]
    cases query.get? probe.scope with
    | none => simp
    | some base =>
      intro hfound
      simp [hfound]

/-- The messages of a probe. -/
def messages : List String :=
  probe.clause.messages query probe.scope probe.facet caller

/-- A probe has a message for each of its readings for which the comparison holds. -/
theorem messages_eq :
    probe.messages query caller =
      (probe.readings query).filterMap fun (path, value) =>
        let operand := (caller.lookup? probe.clause.reference).getD .null
        if probe.clause.operator.holds value operand then some (probe.clause.report path operand)
        else none := by
  rw [messages, readings, Clause.messages]
  cases Segment.relative? probe.clause.path probe.facet <;> rfl

/-- Of two queries the one in which a probe reads more has more messages. -/
theorem messages_subset {query other : Tree}
    (h : probe.readings query ⊆ probe.readings other) :
    probe.messages query caller ⊆ probe.messages other caller := by
  rw [messages_eq, messages_eq]
  exact List.filterMap_subset _ h

end Probe

namespace RuleTree

variable (rules : RuleTree) (query : Tree) (caller : Caller)

/-- The probes of a rule from a scope: the clauses of all its drop rules that reach the
caller. -/
def probesOf (rule : Option Node) (scope : TreePath) (facet : Facet) : List Probe :=
  (((rule.bind fun node => node.dropRules).getD []).filter (·.reaches caller.roles)).flatMap
    fun dropRule => dropRule.clauses.map fun clause => ⟨clause, scope, facet⟩

/-- **The probes that are met** at the place at an exact path. -/
def probesAt (path : TreePath) : List Probe :=
  match path.scope? with
  | none => []
  | some (scope, facet) => probesOf caller (rules.tree.ruleAt? (query.rulePath path)) scope facet

theorem dropMessages_eq (rule : Option Node) (scope : TreePath) (facet : Facet) :
    dropMessages query caller rule scope facet =
      (probesOf caller rule scope facet).flatMap fun probe => probe.messages query caller := by
  rw [dropMessages.eq_def, probesOf]
  cases rule.bind fun node => node.dropRules with
  | none => rfl
  | some dropRules =>
    show DropRule.evaluate dropRules query scope facet caller = _
    rw [Option.getD_some, DropRule.evaluate_eq_filter, List.flatMap_assoc]
    refine List.flatMap_congr fun dropRule _ => ?_
    rw [List.flatMap_map]
    rfl

/-- **The messages at a place** are those of the probes met there. -/
theorem messagesAt_eq (path : TreePath) :
    rules.messagesAt query caller path =
      (rules.probesAt query caller path).flatMap fun probe => probe.messages query caller := by
  rw [messagesAt, messagesOn, probesAt]
  cases path.scope? with
  | none => rfl
  | some found =>
    obtain ⟨scope, facet⟩ := found
    exact dropMessages_eq query caller _ scope facet

/-- A place has no message if all the probes met there are silent. -/
theorem messagesAt_eq_nil_iff_probes (path : TreePath) :
    rules.messagesAt query caller path = [] ↔
      ∀ probe ∈ rules.probesAt query caller path, probe.messages query caller = [] := by
  rw [messagesAt_eq, List.flatMap_eq_nil_iff]

end RuleTree

end QueryAccess
