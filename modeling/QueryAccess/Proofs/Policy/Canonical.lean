import QueryAccess.Proofs.Policy.Inheritance
import QueryAccess.Verdict

/-!
# The form of merged policies

A policy that has come about by merging – from one of the two root policies, with whatever
further ones – is written in one way only. Each of its two sets holds a role once; a set that
holds the wildcard holds nothing else, since the wildcard speaks for all; no role is on both
sides; and some side holds something (`QueryAccess.Policy.merged_form`).

None of this is kept by a merge on its own. That a set stays without single roles beside the
wildcard needs to know where the wildcard is, and that the sides stay apart needs to know that
the other one does not hold it. The invariant that carries all of them is
`QueryAccess.Policy.Canonical`: the wildcard is on exactly one side, as it is in every settled
policy, and it is *alone* there. A single role on the other side is then never the wildcard,
and on the side of the wildcard there are no single roles.
-/

namespace QueryAccess

namespace RoleSet

/-- **The wildcard is alone** in a set, if it is in it. -/
def Reduced (set : RoleSet) : Prop := set.hasWildcard = true → set = all

theorem hasWildcard_iff {set : RoleSet} : set.hasWildcard = true ↔ wildcard ∈ set.roles := by
  simp [hasWildcard, contains]

theorem reduced_empty : empty.Reduced := fun h => by cases h

theorem reduced_all : all.Reduced := fun _ => rfl

/-- Erasing a role leaves the wildcard alone. -/
theorem Reduced.erase {set : RoleSet} (h : set.Reduced) (role : String) :
    (set.erase role).Reduced := by
  intro hwildcard
  rw [hasWildcard, contains_erase, Bool.and_eq_true, decide_eq_true_eq] at hwildcard
  obtain ⟨hset, hrole⟩ := hwildcard
  rw [h hset]
  ext1
  simp [RoleSet.erase, all, hrole]

/-- The roles of a set that holds the wildcard. -/
theorem Reduced.roles_eq {set : RoleSet} (h : set.Reduced) (hmem : wildcard ∈ set.roles) :
    set.roles = [wildcard] := by
  rw [h (hasWildcard_iff.2 hmem)]
  rfl

end RoleSet

namespace Policy

/-! ### Absorbing -/

/-- What roles leave behind on the opposite side has the wildcard alone. -/
theorem reduced_foldl_absorbRole_snd (roles : List String) {sets : RoleSet × RoleSet}
    (h : sets.2.Reduced) : (roles.foldl absorbRole sets).2.Reduced := by
  induction roles generalizing sets with
  | nil => exact h
  | cons first rest ih => exact ih (h.erase first)

section Absorb

variable {target opposite : RoleSet} (incoming : RoleSet)

/-- **The target has the wildcard alone**: either it has been there from the start, and then
nothing has entered, or it is not there at all. -/
theorem reduced_absorb_fst (h : target.Reduced) :
    (absorb target opposite incoming).1.Reduced := by
  cases hincoming : incoming.hasWildcard with
  | true =>
    have hall : (absorb target opposite incoming).1 = .all := by
      rw [absorb, hincoming, if_pos rfl]
      exact foldl_absorbRole_fst_of_hasWildcard _ rfl
    exact hall ▸ RoleSet.reduced_all
  | false =>
    have hstart : absorb target opposite incoming =
        incoming.roles.foldl absorbRole (target, opposite) := by
      rw [absorb, hincoming, if_neg Bool.false_ne_true]
    cases htarget : target.hasWildcard with
    | true =>
      rw [hstart, foldl_absorbRole_fst_of_hasWildcard _ htarget]
      exact h
    | false =>
      intro hwildcard
      -- the wildcard was not in the target, and it does not enter
      rw [RoleSet.hasWildcard] at hincoming htarget hwildcard
      simp [contains_absorb_fst, RoleSet.hasWildcard, hincoming, htarget] at hwildcard

/-- The opposite side has the wildcard alone as well. -/
theorem reduced_absorb_snd (h : opposite.Reduced) :
    (absorb target opposite incoming).2.Reduced := by
  rw [absorb]
  refine reduced_foldl_absorbRole_snd incoming.roles ?_
  cases incoming.hasWildcard with
  | true => exact RoleSet.reduced_empty
  | false => exact h

end Absorb

/-! ### Canonical policies -/

/-- On which side a settled policy has the wildcard. -/
theorem Settled.sides {policy : Policy} (h : policy.Settled) :
    (wildcard ∈ policy.drop.roles ∧ wildcard ∉ policy.accept.roles) ∨
      (wildcard ∈ policy.accept.roles ∧ wildcard ∉ policy.drop.roles) := by
  have hsides : policy.accept.hasWildcard = !policy.drop.hasWildcard := h
  rw [← RoleSet.hasWildcard_iff, ← RoleSet.hasWildcard_iff, hsides]
  cases policy.drop.hasWildcard <;> simp

/-- **A canonical policy** holds the wildcard on exactly one side, and nothing else there. -/
structure Canonical (policy : Policy) : Prop where
  settled : policy.Settled
  drop : policy.drop.Reduced
  accept : policy.accept.Reduced

namespace Canonical

theorem dropAll : dropAll.Canonical :=
  ⟨settled_dropAll, RoleSet.reduced_all, RoleSet.reduced_empty⟩

theorem acceptAll : acceptAll.Canonical :=
  ⟨settled_acceptAll, RoleSet.reduced_empty, RoleSet.reduced_all⟩

theorem rootPolicy (default : DefaultPolicy) : default.rootPolicy.Canonical := by
  cases default with
  | drop => exact dropAll
  | accept => exact acceptAll

variable {policy : Policy}

/-- **Merging keeps a policy canonical**, whatever is merged into it. -/
theorem merge (h : policy.Canonical) (incoming : Policy) :
    (policy.merge incoming).Canonical := by
  have hmentions : ¬policy.isEmpty = true := by simp [h.settled.isEmpty_eq_false]
  refine ⟨h.settled.merge incoming, ?_, ?_⟩
  · rw [Policy.merge, if_neg hmentions]
    exact reduced_absorb_snd incoming.accept (reduced_absorb_fst incoming.drop h.drop)
  · rw [Policy.merge, if_neg hmentions]
    exact reduced_absorb_fst incoming.accept (reduced_absorb_snd incoming.drop h.accept)

/-- **So does merging one policy after the other.** -/
theorem foldl_merge (h : policy.Canonical) (incoming : List Policy) :
    (incoming.foldl Policy.merge policy).Canonical := by
  induction incoming generalizing policy with
  | nil => exact h
  | cons first rest ih => exact ih (h.merge first)

/-- **No role is on both sides**: on one side there is only the wildcard, and on the other
there is not. -/
theorem disjoint (h : policy.Canonical) :
    policy.drop.roles.Disjoint policy.accept.roles := by
  intro role hdrop haccept
  rcases h.settled.sides with ⟨hin, hout⟩ | ⟨hin, hout⟩
  · rw [h.drop.roles_eq hin, List.mem_singleton] at hdrop
    exact hout (hdrop ▸ haccept)
  · rw [h.accept.roles_eq hin, List.mem_singleton] at haccept
    exact hout (haccept ▸ hdrop)

end Canonical

/-- **The form of merged policies.** What comes of one of the two root policies by merging
further policies into it, one after the other – any policies, with the same role on both
sides or the wildcard on both – lists no role twice, lists nothing beside the wildcard where
it lists that, has no role on both sides, and is not without roles on both. And so short a
form loses nothing: each role is decided by the last policy that rules on it. -/
theorem merged_form (default : DefaultPolicy) (incoming : List Policy) :
    let policy := incoming.foldl merge default.rootPolicy
    policy.drop.roles.Nodup ∧ policy.accept.roles.Nodup ∧
    (wildcard ∈ policy.drop.roles → policy.drop.roles = [wildcard]) ∧
    (wildcard ∈ policy.accept.roles → policy.accept.roles = [wildcard]) ∧
    policy.drop.roles.Disjoint policy.accept.roles ∧
    ¬(policy.drop.roles = [] ∧ policy.accept.roles = []) ∧
    ∀ role, policy.allows [role] =
      (incoming.reverse.findSome? (·.ruling? role)).getD (default.rootPolicy.allows [role]) := by
  intro policy
  have hroot : default.rootPolicy.Canonical := Canonical.rootPolicy default
  have hcanonical : policy.Canonical := hroot.foldl_merge incoming
  refine ⟨policy.drop.nodup, policy.accept.nodup, hcanonical.drop.roles_eq,
    hcanonical.accept.roles_eq, hcanonical.disjoint, ?_, allows_foldl_merge hroot.settled incoming⟩
  rintro ⟨hdrop, haccept⟩
  rcases hcanonical.settled.sides with ⟨hin, -⟩ | ⟨hin, -⟩
  · exact absurd (hdrop ▸ hin) List.not_mem_nil
  · exact absurd (haccept ▸ hin) List.not_mem_nil

end Policy

end QueryAccess
