import Mathlib.Data.List.Induction
import QueryAccess.Policy

/-!
# Inheriting policies

What a policy comes to for one role after some notes have changed it is said here without
the sets of roles that the merging goes through. A further policy *rules* on a role
(`QueryAccess.Policy.ruling?`) if it mentions the role or the wildcard, and accepting wins
where it does both. `QueryAccess.Policy.allows_foldl_merge` is the **rule of the nearest
mention**: of several policies merged one after the other the last one that rules on the
role decides, and if none does it is decided as in the beginning.

It holds of *settled* policies (`QueryAccess.Policy.Settled`), which hold the wildcard on
exactly one of their two sides. Dropping everyone and accepting everyone are settled, and
merging keeps a policy settled whatever is merged into it, so all that a rule tree inherits
from a default policy is. For settled policies a list of roles is a matter of its roles one
at a time (`QueryAccess.Policy.Settled.allows_eq_any`); that is false of a policy with the
wildcard on both sides, which allows a caller without roles.
-/

namespace QueryAccess

namespace Policy

/-- **What a policy says of a role**, if anything: it is accepted if it or the wildcard is
among the accepted roles, and otherwise dropped if it or the wildcard is among the dropped
ones. -/
def ruling? (policy : Policy) (role : String) : Option Bool :=
  if policy.accept.hasWildcard || policy.accept.contains role then some true
  else if policy.drop.hasWildcard || policy.drop.contains role then some false
  else none

/-- **A settled policy** holds the wildcard on exactly one side. -/
def Settled (policy : Policy) : Prop := policy.accept.hasWildcard = !policy.drop.hasWildcard

instance : DecidablePred Settled := fun policy =>
  inferInstanceAs (Decidable (policy.accept.hasWildcard = !policy.drop.hasWildcard))

theorem settled_dropAll : dropAll.Settled := by decide

theorem settled_acceptAll : acceptAll.Settled := by decide

/-! ### Absorbing -/

/-- What is absorbed leaves the opposite set. -/
theorem contains_foldl_absorbRole_snd (roles : List String) (sets : RoleSet × RoleSet)
    (role : String) :
    (roles.foldl absorbRole sets).2.contains role =
      (sets.2.contains role && !roles.contains role) := by
  induction roles generalizing sets with
  | nil => simp
  | cons first rest ih =>
    rw [List.foldl_cons, ih, absorbRole, RoleSet.contains_erase, List.contains_cons]
    by_cases hrole : role = first
    · simp [hrole]
    · have hbeq : (role == first) = false := by simpa using hrole
      simp [hrole, hbeq]

/-- What is absorbed enters the target set, unless the wildcard is there already. -/
theorem contains_foldl_absorbRole_fst {roles : List String} (h : wildcard ∉ roles)
    (sets : RoleSet × RoleSet) (role : String) :
    (roles.foldl absorbRole sets).1.contains role =
      (sets.1.contains role || (!sets.1.hasWildcard && roles.contains role)) := by
  induction roles generalizing sets with
  | nil => simp
  | cons first rest ih =>
    obtain ⟨hfirst, hrest⟩ := not_or.1 (mt List.mem_cons.2 h)
    rw [List.foldl_cons, ih hrest, absorbRole, List.contains_cons]
    cases hwildcard : sets.1.hasWildcard with
    | true => simp [hwildcard]
    | false =>
      -- what enters is not the wildcard, so the rest may enter as well
      have hstill : (sets.1.insert first).hasWildcard = false := by
        rw [RoleSet.hasWildcard] at hwildcard ⊢
        simp [RoleSet.contains_insert, hwildcard, hfirst]
      rw [if_neg Bool.false_ne_true, hstill, RoleSet.contains_insert, Bool.or_assoc]
      by_cases hrole : role = first
      · simp [hrole]
      · have hbeq : (role == first) = false := by simpa using hrole
        simp [hrole, hbeq]

/-- A target that holds the wildcard stays as it is. -/
theorem foldl_absorbRole_fst_of_hasWildcard (roles : List String) {sets : RoleSet × RoleSet}
    (h : sets.1.hasWildcard = true) : (roles.foldl absorbRole sets).1 = sets.1 := by
  induction roles generalizing sets with
  | nil => rfl
  | cons first rest ih =>
    have hkeep : (absorbRole sets first).1 = sets.1 := by rw [absorbRole, if_pos h]
    rw [List.foldl_cons, ih (hkeep ▸ h), hkeep]

section Absorb

variable (target opposite incoming : RoleSet) (role : String)

/-- **The target set after absorbing.** -/
theorem contains_absorb_fst :
    (absorb target opposite incoming).1.contains role =
      if incoming.hasWildcard then decide (role = wildcard)
      else target.contains role || (!target.hasWildcard && incoming.contains role) := by
  rw [absorb]
  cases h : incoming.hasWildcard with
  | true =>
    rw [if_pos rfl, if_pos rfl, foldl_absorbRole_fst_of_hasWildcard _ (by decide),
      RoleSet.contains_all]
  | false =>
    have hmem : wildcard ∉ incoming.roles := by
      simpa [RoleSet.hasWildcard, RoleSet.contains] using h
    exact contains_foldl_absorbRole_fst hmem (target, opposite) role

/-- **The opposite set after absorbing.** -/
theorem contains_absorb_snd :
    (absorb target opposite incoming).2.contains role =
      (!incoming.hasWildcard && opposite.contains role && !incoming.contains role) := by
  rw [absorb]
  cases incoming.hasWildcard with
  | true =>
    rw [if_pos rfl, contains_foldl_absorbRole_snd]
    rfl
  | false => exact contains_foldl_absorbRole_snd incoming.roles (target, opposite) role

end Absorb

/-! ### Merging into a settled policy -/

namespace Settled

variable {policy : Policy}

/-- A settled policy mentions some role. -/
theorem isEmpty_eq_false (h : policy.Settled) : policy.isEmpty = false := by
  obtain ⟨⟨drop, hdrop⟩, ⟨accept, haccept⟩⟩ := policy
  cases drop <;> cases accept <;>
    simp_all [Settled, isEmpty, RoleSet.isEmpty, RoleSet.hasWildcard, RoleSet.contains]

/-- Who is accepted after merging into a settled policy. -/
theorem contains_accept_merge (h : policy.Settled) (incoming : Policy) (role : String) :
    (policy.merge incoming).accept.contains role =
      if incoming.accept.hasWildcard then decide (role = wildcard)
      else if incoming.drop.hasWildcard then incoming.accept.contains role
      else (policy.accept.contains role && !incoming.drop.contains role) ||
        (policy.drop.hasWildcard && incoming.accept.contains role) := by
  have hsides : policy.accept.hasWildcard = !policy.drop.hasWildcard := h
  rw [merge, if_neg (by simp [h.isEmpty_eq_false])]
  simp only [contains_absorb_fst, contains_absorb_snd, RoleSet.hasWildcard] at hsides ⊢
  by_cases hdrop : incoming.drop.contains wildcard = true <;> simp [hsides, hdrop]

/-- Who is dropped after merging into a settled policy. -/
theorem contains_drop_merge (h : policy.Settled) (incoming : Policy) (role : String) :
    (policy.merge incoming).drop.contains role =
      if incoming.accept.hasWildcard then false
      else if incoming.drop.hasWildcard then
        decide (role = wildcard) && !incoming.accept.contains role
      else (policy.drop.contains role ||
          (!policy.drop.hasWildcard && incoming.drop.contains role)) &&
        !incoming.accept.contains role := by
  rw [merge, if_neg (by simp [h.isEmpty_eq_false])]
  simp only [contains_absorb_fst, contains_absorb_snd]
  cases incoming.accept.hasWildcard <;> cases incoming.drop.hasWildcard <;> simp

/-- **A settled policy stays settled**, whatever is merged into it. -/
theorem merge (h : policy.Settled) (incoming : Policy) : (policy.merge incoming).Settled := by
  have hsides : policy.accept.hasWildcard = !policy.drop.hasWildcard := h
  rw [Settled, RoleSet.hasWildcard, RoleSet.hasWildcard, h.contains_accept_merge,
    h.contains_drop_merge]
  simp only [RoleSet.hasWildcard] at hsides ⊢
  by_cases haccept : incoming.accept.contains wildcard = true <;>
    by_cases hdrop : incoming.drop.contains wildcard = true <;> simp [hsides, haccept, hdrop]

/-! ### Access under a settled policy -/

/-- A settled policy asks one of its two sets only. -/
theorem allows_singleton (h : policy.Settled) (role : String) :
    policy.allows [role] =
      if policy.drop.hasWildcard then policy.accept.contains role
      else !policy.drop.contains role := by
  have hsides : policy.accept.hasWildcard = !policy.drop.hasWildcard := h
  by_cases hdrop : policy.drop.hasWildcard = true <;> simp [allows, hsides, hdrop]

/-- **A settled policy allows a list of roles if it allows one of them.** -/
theorem allows_eq_any (h : policy.Settled) (roles : List String) :
    policy.allows roles = roles.any fun role => policy.allows [role] := by
  have hsides : policy.accept.hasWildcard = !policy.drop.hasWildcard := h
  by_cases hdrop : policy.drop.hasWildcard = true <;> simp [allows, hsides, hdrop]

/-- On which side the wildcard is after merging. -/
theorem hasWildcard_drop_merge (h : policy.Settled) (incoming : Policy) :
    (policy.merge incoming).drop.hasWildcard =
      (!incoming.accept.hasWildcard &&
        (incoming.drop.hasWildcard || policy.drop.hasWildcard)) := by
  rw [RoleSet.hasWildcard, h.contains_drop_merge]
  simp only [RoleSet.hasWildcard]
  by_cases haccept : incoming.accept.contains wildcard = true <;>
    by_cases hdrop : incoming.drop.contains wildcard = true <;> simp [haccept, hdrop]

/-- **What is merged in decides** on the roles that it rules on, and changes nothing for
the others. -/
theorem allows_merge (h : policy.Settled) (incoming : Policy) (role : String) :
    (policy.merge incoming).allows [role] =
      (incoming.ruling? role).getD (policy.allows [role]) := by
  rw [(h.merge incoming).allows_singleton, h.allows_singleton, h.hasWildcard_drop_merge,
    h.contains_accept_merge, h.contains_drop_merge, ruling?]
  by_cases hacceptAll : incoming.accept.hasWildcard = true
  · simp [hacceptAll]
  · by_cases haccept : incoming.accept.contains role = true
    · by_cases hdropAll : incoming.drop.hasWildcard = true <;>
        by_cases hmode : policy.drop.hasWildcard = true <;>
        simp [hacceptAll, haccept, hdropAll, hmode]
    · by_cases hdropAll : incoming.drop.hasWildcard = true
      · simp [hacceptAll, haccept, hdropAll]
      · by_cases hmode : policy.drop.hasWildcard = true <;>
          by_cases hdrop : incoming.drop.contains role = true <;>
          simp [hacceptAll, haccept, hdropAll, hmode, hdrop]

end Settled

/-! ### One policy after the other -/

/-- Merging one policy after the other keeps a policy settled. -/
theorem Settled.foldl_merge {policy : Policy} (h : policy.Settled) (incoming : List Policy) :
    (incoming.foldl Policy.merge policy).Settled := by
  induction incoming generalizing policy with
  | nil => exact h
  | cons first rest ih => exact ih (h.merge first)

/-- **The nearest mention decides**: of several policies merged one after the other the
last one that rules on a role. -/
theorem allows_foldl_merge {policy : Policy} (h : policy.Settled) (incoming : List Policy)
    (role : String) :
    (incoming.foldl merge policy).allows [role] =
      (incoming.reverse.findSome? (·.ruling? role)).getD (policy.allows [role]) := by
  induction incoming using List.reverseRecOn with
  | nil => rfl
  | append_singleton init last ih =>
    rw [List.foldl_append, List.foldl_cons, List.foldl_nil,
      (h.foldl_merge init).allows_merge, ih, List.reverse_append, List.reverse_singleton,
      List.singleton_append, List.findSome?_cons]
    cases last.ruling? role <;> rfl

end Policy

end QueryAccess
