/-!
# Sets of roles

A set of roles remembers the order in which its roles came in, and holds each once; both
show in what is reported about it. That no role is held twice is part of the type.

The role `*` stands for all roles (`QueryAccess.wildcard`). As far as the set is concerned
it is a role like any other; what it means is up to the policies.
-/

namespace QueryAccess

/-- The role that stands for all roles. -/
def wildcard : String := "*"

/-- A set of roles, in the order in which they came in. -/
@[ext] structure RoleSet where
  roles : List String
  nodup : roles.Nodup
deriving DecidableEq, Repr

namespace RoleSet

/-- The set without roles. -/
def empty : RoleSet := ⟨[], List.nodup_nil⟩

/-- The set of the wildcard alone. -/
def all : RoleSet := ⟨[wildcard], by simp⟩

/-- Whether a role is in the set. -/
def contains (set : RoleSet) (role : String) : Bool := set.roles.contains role

/-- Whether the wildcard is in the set. -/
def hasWildcard (set : RoleSet) : Bool := set.contains wildcard

/-- Whether the set has no roles. -/
def isEmpty (set : RoleSet) : Bool := set.roles.isEmpty

/-- How many roles the set has. -/
def size (set : RoleSet) : Nat := set.roles.length

/-- A new role at the end keeps each role once. -/
theorem nodup_concat {roles : List String} {role : String} (h : roles.Nodup)
    (hnew : role ∉ roles) : (roles ++ [role]).Nodup := by
  rw [List.nodup_append]
  refine ⟨h, by simp, ?_⟩
  intro a ha b hb hab
  rw [List.mem_singleton] at hb
  exact hnew (hb ▸ hab ▸ ha)

/-- The set with a role; a new one comes last. -/
def insert (set : RoleSet) (role : String) : RoleSet :=
  if h : role ∈ set.roles then set else ⟨set.roles ++ [role], nodup_concat set.nodup h⟩

/-- The set without a role. -/
def erase (set : RoleSet) (role : String) : RoleSet :=
  ⟨set.roles.filter (· != role), set.nodup.filter _⟩

/-- The set of the roles of a list. -/
def ofList (roles : List String) : RoleSet := roles.foldl insert empty

/-! ### Membership after an operation -/

@[simp] theorem contains_empty (role : String) : empty.contains role = false := rfl

@[simp] theorem contains_all (role : String) :
    all.contains role = decide (role = wildcard) := by
  by_cases h : role = wildcard <;> simp [all, contains, h]

theorem contains_insert (set : RoleSet) (role r : String) :
    (set.insert role).contains r = (set.contains r || decide (r = role)) := by
  unfold insert
  split
  · next h =>
    by_cases hr : r = role
    · subst hr; simp [contains, h]
    · simp [hr]
  · by_cases hr : r = role <;> simp [contains, hr]

theorem contains_erase (set : RoleSet) (role r : String) :
    (set.erase role).contains r = (set.contains r && decide (r ≠ role)) := by
  simp [erase, contains]

end RoleSet

end QueryAccess
