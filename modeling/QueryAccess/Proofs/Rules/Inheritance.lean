import QueryAccess.Proofs.Policy.Inheritance
import QueryAccess.Proofs.Tree.Inherited
import QueryAccess.Rules

/-!
# Who inherits what

In the rule tree of a document each place has the policy of its last occurrence
(`QueryAccess.Occurrence.policy`): the root policy with the notes on the way to the
occurrence merged in. Root policies are settled, so access under such a policy is decided
by the nearest mention. `QueryAccess.RuleTree.policy_inheritance` says both of the tree as
it is compiled.
-/

namespace QueryAccess

/-- Root policies are settled. -/
theorem DefaultPolicy.settled_rootPolicy (default : DefaultPolicy) :
    default.rootPolicy.Settled := by
  cases default with
  | drop => exact Policy.settled_dropAll
  | accept => exact Policy.settled_acceptAll

/-- A root policy allows a role if it accepts. -/
theorem DefaultPolicy.allows_rootPolicy (default : DefaultPolicy) (role : String) :
    default.rootPolicy.allows [role] = (default == .accept) := by
  cases default with
  | drop => exact Policy.allows_dropAll [role]
  | accept => exact Policy.allows_acceptAll [role]

namespace Occurrence

variable {root : Policy} (occurrence : Occurrence)

/-- The policy at an occurrence is settled. -/
theorem settled_policy (h : root.Settled) : (occurrence.policy root).Settled :=
  h.foldl_merge (occurrence.notes.map RuleNote.policy)

/-- **What an occurrence says of a role**, if anything: what its nearest note says that
mentions the role or the wildcard. -/
def ruling? (role : String) : Option Bool :=
  occurrence.notes.reverse.findSome? fun note => note.policy.ruling? role

/-- **The nearest mention decides** at an occurrence, and where there is none the root
policy does. -/
theorem allows_policy (h : root.Settled) (role : String) :
    (occurrence.policy root).allows [role] =
      (occurrence.ruling? role).getD (root.allows [role]) := by
  rw [policy, Policy.allows_foldl_merge h, ← List.map_reverse, List.findSome?_map]
  rfl

end Occurrence

namespace RuleTree

/-- **Policies are inherited.** In the rule tree of a document there is a node where the
document says anything, and its policy is the root policy with the notes on the way to the
last occurrence merged in, one after the other. So a role is allowed there if the nearest
of these notes that mentions the role or the wildcard accepts one of them – and if none
mentions them, if the default policy accepts; and a list of roles is allowed if one of
them is. -/
theorem policy_inheritance (document : Document) (default : DefaultPolicy) (path : TreePath) :
    let node? := (ofDocument document default.rootPolicy).tree.get? path
    let occurrence? := document.lastOccurrence? path
    node?.map Node.policy = occurrence?.map (fun occurrence =>
      some ((occurrence.notes.map RuleNote.policy).foldl Policy.merge default.rootPolicy)) ∧
    (∀ role, (node?.bind Node.policy).map (fun policy => policy.allows [role]) =
      occurrence?.map fun occurrence =>
        (occurrence.notes.reverse.findSome? fun note => note.policy.ruling? role).getD
          (default == .accept)) ∧
    ∀ roles, (node?.bind Node.policy).map (fun policy => policy.allows roles) =
      (node?.bind Node.policy).map fun policy => roles.any fun role => policy.allows [role] := by
  intro node? occurrence?
  have hmap : node?.map Node.policy =
      occurrence?.map fun occurrence => some (occurrence.policy default.rootPolicy) :=
    Tree.map_policy_ofDocument document default.rootPolicy path
  have hbind : node?.bind Node.policy =
      occurrence?.map fun occurrence => occurrence.policy default.rootPolicy :=
    Tree.bind_policy_ofDocument document default.rootPolicy path
  refine ⟨hmap, fun role => ?_, fun roles => ?_⟩
  · rw [hbind, Option.map_map]
    refine Option.map_congr fun occurrence _ => ?_
    rw [Function.comp_apply, occurrence.allows_policy default.settled_rootPolicy,
      default.allows_rootPolicy]
    rfl
  · rw [hbind, Option.map_map, Option.map_map]
    refine Option.map_congr fun occurrence _ => ?_
    exact (occurrence.settled_policy default.settled_rootPolicy).allows_eq_any roles

end RuleTree

end QueryAccess
