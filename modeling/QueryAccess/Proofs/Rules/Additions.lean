import QueryAccess.Proofs.Rules.Siblings
import QueryAccess.Proofs.Tree.Inherited
import QueryAccess.Proofs.Tree.Union
import QueryAccess.Rules

/-!
# One operation more

A rule source may repeat what it has said: a further operation meets places that the ones
before it have rules for. What it has at a place itself overlays what is there
(`QueryAccess.Document.get?_appended`), so two things come of it. Its drop rules
replace the earlier ones only if there are any, and otherwise the earlier ones stay. But it
always has a policy, for where nothing is noted a node takes over the one above it; and this
policy replaces the earlier one (`QueryAccess.RuleTree.appended_rules`).

So an operation that says nothing about access (`QueryAccess.Operation.Silent`) – there are
no notes in it, and none in the fragments that it leads to – leaves all drop rules as they
are, and the policies of all places that it does not have itself. At the others everything
noted before is forgotten, and the root policy rules
(`QueryAccess.RuleTree.rules_after_addition`). A repetition in silence can take a denial
back that way (`QueryAccess.RuleTree.repetition_resets_policy`).
-/

namespace QueryAccess

/-! ### Silence -/

/-- **An operation that says nothing about access**: no notes are in it, or in the fragments
that it leads to. -/
structure Operation.Silent (fragments : List Fragment) (operation : Operation) : Prop where
  own : operation.notes = []
  spread : SpreadOnly fragments [] (spreadsIn operation.selections)

namespace Occurrence

/-- An occurrence without notes, on the way to it or its own. -/
structure Silent (occurrence : Occurrence) : Prop where
  notes : occurrence.notes = []
  own : occurrence.own = none

theorem silent_self {note : Option RuleNote} (h : note = none) : (self note).Silent :=
  h ▸ ⟨rfl, rfl⟩

/-- Silence is what no notes bring about. -/
theorem brought_silent : Brought [] Silent where
  self h := silent_self (Option.toList_eq_nil_iff.1 (List.subset_nil.1 h))
  after h hbelow := by
    refine ⟨?_, hbelow.own⟩
    rw [after, hbelow.notes, List.subset_nil.1 h]
    rfl
  under _ hbelow := ⟨hbelow.notes, hbelow.own⟩

/-- Where nothing is noted the policy is the one at the top. -/
theorem Silent.policy_eq {occurrence : Occurrence} (h : occurrence.Silent) (root : Policy) :
    occurrence.policy root = root := by
  rw [Occurrence.policy, h.notes]
  rfl

end Occurrence

/-! ### Appending -/

namespace Document

/-- A document with one operation more at its end. -/
def appended (document : Document) (operation : Operation) : Document :=
  ⟨document.definitions ++ [.operation operation]⟩

variable (document : Document) (operation : Operation)

theorem operations_appended :
    (document.appended operation).operations = document.operations ++ [operation] := by
  simp [appended, operations]

theorem fragments_appended : (document.appended operation).fragments = document.fragments := by
  simp [appended, fragments]

/-- **A further operation overlays** what is there at a place. -/
theorem get?_appended (root : Policy) (path : TreePath) :
    (RuleTree.ofDocument (document.appended operation) root).tree.get? path =
      Option.merge Node.merge ((RuleTree.ofDocument document root).tree.get? path)
        ((RuleTree.ofDocument (document.alone operation) root).tree.get? path) := by
  have hboth : Tree.ofDocument (document.appended operation) [] (some root) =
      (Tree.ofDocument document [] (some root)).merge
        (Tree.ofDocument (document.alone operation) [] (some root)) := by
    refine Tree.ofDocument_both ?_ ?_ ?_ [] (some root)
    · rw [operations_appended, operations_alone]
    · exact .of_eq (document.fragments_appended operation)
    · rw [fragments_appended, fragments_alone]
      exact .of_eq rfl
  exact (congrArg (Tree.get? · path) hboth).trans
    (Tree.get?_merge (Tree.ofDocument_ordered ..) (Tree.ofDocument_ordered ..) path)

variable {document operation} {path : TreePath}

/-- All occurrences in a silent operation are silent. -/
theorem silent_of_mem_occurrencesAt (h : operation.Silent document.fragments)
    {occurrence : Occurrence} (hmem : occurrence ∈ (document.alone operation).occurrencesAt path) :
    occurrence.Silent := by
  obtain ⟨other, hother, hoccurrence⟩ := List.mem_flatMap.1 hmem
  rw [operations_alone] at hother
  have hsame : other = operation := List.mem_singleton.1 (List.mem_filter.1 hother).1
  rw [hsame, fragments_alone] at hoccurrence
  exact Occurrence.brought_silent.ofOperation (List.subset_nil.2 h.own) h.spread occurrence
    (List.mem_filter.1 hoccurrence).1

end Document

namespace RuleTree

variable {document : Document} {operation : Operation} {root : Policy} {path : TreePath}

/-- **What a silent operation has by itself**: at all its places the root policy, and no drop
rules. -/
theorem own_of_silent (h : operation.Silent document.fragments) {own : Node}
    (hown : (ofDocument (document.alone operation) root).tree.get? path = some own) :
    own.policy = some root ∧ own.dropRules = none := by
  have hpolicy := Tree.bind_policy_ofDocument (document.alone operation) root path
  have hdropRules := Tree.bind_dropRules_ofDocument (document.alone operation) root path
  have hsilent : ∀ occurrence ∈ (document.alone operation).occurrencesAt path,
      occurrence.Silent := fun _ => Document.silent_of_mem_occurrencesAt h
  rw [ofDocument] at hown
  rw [hown, Option.bind_some] at hpolicy hdropRules
  constructor
  · have hsome := Tree.get?_isSome_ofDocument (document.alone operation) root path
    rw [hown, Option.isSome_some, eq_comm, Option.isSome_iff_exists] at hsome
    obtain ⟨occurrence, hlast⟩ := hsome
    rw [hpolicy, hlast, Option.map_some,
      (hsilent occurrence (List.mem_of_getLast? hlast)).policy_eq]
  · have hnone : ((document.alone operation).occurrencesAt path).filterMap
        (fun occurrence => occurrence.own.bind RuleNote.dropRules) = [] := by
      refine List.filterMap_eq_nil_iff.2 fun occurrence hmem => ?_
      rw [(hsilent occurrence hmem).own, Option.bind_none]
    rw [hdropRules, hnone, List.getLast?_nil]

/-- **The rules of a document with one operation more**, at a place that it had before: the
further operation's own policy where it has the place, and its own drop rules where it has
some there. -/
theorem appended_rules (operation : Operation) {node : Node}
    (hnode : (ofDocument document root).tree.get? path = some node) :
    ∃ later, (ofDocument (document.appended operation) root).tree.get? path = some later ∧
      later.policy =
        ((ofDocument (document.alone operation) root).tree.get? path).elim node.policy
          Node.policy ∧
      later.dropRules =
        (((ofDocument (document.alone operation) root).tree.get? path).bind
          Node.dropRules).or node.dropRules := by
  have htree := document.get?_appended operation root path
  rw [hnode] at htree
  rcases hown : (ofDocument (document.alone operation) root).tree.get? path with _ | own
  · rw [hown, Option.merge_none_right] at htree
    exact ⟨node, htree, rfl, rfl⟩
  · rw [hown, Option.merge_some_some] at htree
    -- the further operation has a policy at all its places
    obtain ⟨_, -, hpolicy, -⟩ := Tree.exists_occurrence_of_get? root hown
    refine ⟨node.merge own, htree, ?_, node.merge_dropRules own⟩
    rw [node.merge_policy own, hpolicy]
    exact hpolicy.symm

/-- **What an addition does to a rule.** A place of the rules keeps its policy and its drop
rules if the further operation does not have it. If it does, its own policy takes the place
of the earlier one, and its own drop rules do if there are any. So if it says nothing about
access, all drop rules stay, and the root policy rules wherever it repeats a place. -/
theorem rules_after_addition (operation : Operation) {node : Node}
    (hnode : (ofDocument document root).tree.get? path = some node) :
    ∃ later, (ofDocument (document.appended operation) root).tree.get? path = some later ∧
      ((ofDocument (document.alone operation) root).tree.get? path = none →
        later.policy = node.policy ∧ later.dropRules = node.dropRules) ∧
      (∀ own, (ofDocument (document.alone operation) root).tree.get? path = some own →
        later.policy = own.policy ∧ later.dropRules = own.dropRules.or node.dropRules) ∧
      (operation.Silent document.fragments →
        later.dropRules = node.dropRules ∧
          ((ofDocument (document.alone operation) root).tree.get? path ≠ none →
            later.policy = some root)) := by
  obtain ⟨later, hlater, hpolicy, hdropRules⟩ := appended_rules operation hnode
  refine ⟨later, hlater, fun hnone => ?_, fun own hown => ?_, fun hsilent => ?_⟩
  · rw [hpolicy, hdropRules, hnone]
    exact ⟨rfl, rfl⟩
  · rw [hpolicy, hdropRules, hown]
    exact ⟨rfl, rfl⟩
  · rcases hown : (ofDocument (document.alone operation) root).tree.get? path with _ | own
    · rw [hdropRules, hown]
      exact ⟨rfl, fun hne => absurd rfl hne⟩
    · obtain ⟨hownPolicy, hownDropRules⟩ := own_of_silent hsilent hown
      rw [hdropRules, hpolicy, hown, Option.bind_some, hownDropRules, Option.none_or]
      exact ⟨rfl, fun _ => hownPolicy⟩

/-! ### A denial repeated in silence -/

/-- Rules that deny a field: `{ secret }`, with a note before it. -/
def secretNoted : Document :=
  ⟨[.operation ⟨none, .query, none, [], [],
    [.field (some "\x7b\"DROP\": \"*\"\x7d") none "secret" [] [] []]⟩]⟩

/-- A repetition of that field without a note. -/
def secretAgain : Operation :=
  ⟨none, .query, none, [], [], [.field none none "secret" [] [] []]⟩

/-- Where the field stands. -/
def secretPlace : TreePath := ⟨"query", [.named .output "secret"]⟩

theorem silent_secretAgain : secretAgain.Silent secretNoted.fragments := ⟨rfl, .nil⟩

/-- The denial is what rules the field before. -/
theorem exists_secretNoted :
    ∃ node, (ofDocument secretNoted .acceptAll).tree.get? secretPlace = some node ∧
      node.policy.map (fun policy => policy.drop.roles) = some ["*"] := by
  have hdenial : ((ofDocument secretNoted .acceptAll).tree.get? secretPlace).map
      (fun node => node.policy.map fun policy => policy.drop.roles) = some (some ["*"]) := by
    decide +kernel
  exact Option.map_eq_some_iff.1 hdenial

/-- The denial after its repetition, as an instance of
`QueryAccess.RuleTree.rules_after_addition`: it is gone. -/
theorem rules_after_secretAgain :
    secretAgain.Silent secretNoted.fragments ∧
    ∃ node later,
      (ofDocument secretNoted .acceptAll).tree.get? secretPlace = some node ∧
      node.policy.map (fun policy => policy.drop.roles) = some ["*"] ∧
      (ofDocument (secretNoted.appended secretAgain) .acceptAll).tree.get? secretPlace =
        some later ∧
      later.dropRules = node.dropRules ∧ later.policy = some .acceptAll := by
  obtain ⟨node, hnode, hdenial⟩ := exists_secretNoted
  obtain ⟨later, hlater, -, -, hsilent⟩ := rules_after_addition secretAgain hnode
  have hown : (ofDocument (secretNoted.alone secretAgain) .acceptAll).tree.get? secretPlace ≠
      none := by
    rw [← Option.isSome_iff_ne_none]
    decide +kernel
  obtain ⟨hdropRules, hpolicy⟩ := hsilent silent_secretAgain
  exact ⟨silent_secretAgain, node, later, hnode, hdenial, hlater, hdropRules, hpolicy hown⟩

/-- **A repetition without a word on access may weaken a rule.** -/
theorem repetition_resets_policy :
    ¬∀ (document : Document) (root : Policy) (path : TreePath) (node : Node),
      (∃ operation ∈ document.operations, operation.kind = secretAgain.kind) →
      (ofDocument document root).tree.get? path = some node →
      ∃ later, (ofDocument (document.appended secretAgain) root).tree.get? path = some later ∧
        later.policy = node.policy ∧ later.dropRules = node.dropRules := by
  intro hall
  obtain ⟨node, hnode, hdenial⟩ := exists_secretNoted
  obtain ⟨later, hlater, hpolicy, -⟩ :=
    hall secretNoted .acceptAll secretPlace node ⟨_, .head _, rfl⟩ hnode
  have hreset : ((ofDocument (secretNoted.appended secretAgain) .acceptAll).tree.get?
      secretPlace).map (fun node => node.policy.map fun policy => policy.drop.roles) =
        some (some []) := by
    decide +kernel
  rw [hlater, Option.map_some, hpolicy, hdenial] at hreset
  cases hreset

end RuleTree

end QueryAccess
