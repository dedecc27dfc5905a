import QueryAccess.RoleSet

/-!
# Policies

A policy says who may see a thing, by two sets of roles: those that are *dropped* and
those that are *accepted*. Without the wildcard among the dropped roles the policy is an
opt-out – everyone may, but for the dropped roles; with it, an opt-in – no one may, but
for the accepted roles, which the wildcard makes all.

Policies are inherited along a tree, and a note further down may change what comes from
above (`QueryAccess.Policy.merge`). The later mention of a role wins: what the lower note
drops leaves the accepted set and enters the dropped one, and the other way round for
what it accepts, with accepting done last. The wildcard speaks for all roles, so it
wipes out what was said of single ones.
-/

namespace QueryAccess

/-- A policy: the dropped and the accepted roles. -/
structure Policy where
  drop : RoleSet
  accept : RoleSet
deriving DecidableEq, Repr

namespace Policy

/-- The policy that mentions no role. -/
def empty : Policy := ⟨.empty, .empty⟩

/-- The policy that drops everyone. -/
def dropAll : Policy := ⟨.all, .empty⟩

/-- The policy that accepts everyone. -/
def acceptAll : Policy := ⟨.empty, .all⟩

/-- Whether the policy mentions no role. -/
def isEmpty (policy : Policy) : Bool := policy.drop.isEmpty && policy.accept.isEmpty

/-! ### Merging -/

/-- One role enters the target set and leaves the opposite one; a target that holds the
wildcard has it already. -/
def absorbRole (sets : RoleSet × RoleSet) (role : String) : RoleSet × RoleSet :=
  (if sets.1.hasWildcard then sets.1 else sets.1.insert role, sets.2.erase role)

/-- All roles of a set enter the target set and leave the opposite one; the wildcard
first empties both. -/
def absorb (target opposite incoming : RoleSet) : RoleSet × RoleSet :=
  let start := if incoming.hasWildcard then (.all, .empty) else (target, opposite)
  incoming.roles.foldl absorbRole start

/-- The policy changed by a further one: its dropped roles are absorbed, then its
accepted ones. A policy that mentions no role gives way as a whole. -/
def merge (policy incoming : Policy) : Policy :=
  if policy.isEmpty then incoming
  else
    let (drop, accept) := absorb policy.drop policy.accept incoming.drop
    let (accept, drop) := absorb accept drop incoming.accept
    ⟨drop, accept⟩

/-! ### Access -/

/-- Whether a caller with these roles may: some role has to qualify. -/
def allows (policy : Policy) (roles : List String) : Bool :=
  if policy.drop.hasWildcard then
    policy.accept.hasWildcard || roles.any policy.accept.contains
  else roles.any fun role => !policy.drop.contains role

@[simp] theorem merge_of_isEmpty {policy : Policy} (h : policy.isEmpty = true)
    (incoming : Policy) : policy.merge incoming = incoming := by
  simp [merge, h]

/-- Dropping everyone allows no one. -/
theorem allows_dropAll (roles : List String) : dropAll.allows roles = false := by
  have h : dropAll.drop.hasWildcard = true := by decide
  have h' : dropAll.accept.hasWildcard = false := by decide
  rw [allows, if_pos h, h', Bool.false_or, List.any_eq_false]
  intro role _
  simp [dropAll]

/-- Accepting everyone allows every caller that has a role at all. -/
theorem allows_acceptAll (roles : List String) :
    acceptAll.allows roles = !roles.isEmpty := by
  have h : ¬acceptAll.drop.hasWildcard = true := by decide
  rw [allows, if_neg h]
  cases roles <;> simp [acceptAll]

end Policy

end QueryAccess
