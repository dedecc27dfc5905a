import QueryAccess.DropRule.Evaluation
import QueryAccess.Proofs.Tree.Scopes

/-!
# What drop rules report

The messages of drop rules, written down as a list without a search: for each rule that reaches
the caller, each of its clauses, and each place that the path of the clause means from the scope
(`QueryAccess.Tree.meant`), one message if the comparison holds there. The path as a whole is
compared as null if it means no place at all, however far it gets
(`QueryAccess.Tree.compared`).

`QueryAccess.DropRule.evaluate_exact` says that these are the messages of an evaluation, all of
them, each as often as it comes up, and in this order.
-/

namespace QueryAccess

/-- **The comparisons of a relative path** from a scope: the places it means with their values, or
the path itself as null. -/
def Tree.compared (query : Tree) (scope : TreePath) (relative : List Segment) :
    List (TreePath × Json) :=
  let places := query.meant scope relative
  if places.isEmpty then [(scope.join relative, .null)]
  else places.map fun place => (place.1, place.2.value.getD .null)

/-- What a clause compares with: the value that the caller has under its reference. -/
def Clause.operand (clause : Clause) (caller : Caller) : Json :=
  (caller.lookup? clause.reference).getD .null

section Evaluation

variable {query : Tree} {scope : TreePath} {base : Node}

/-- A clause looks at the places that its path means. -/
theorem Clause.places_eq (h : query.Ordered) (hbase : query.get? scope = some base)
    (relative : List Segment) :
    Clause.places query scope relative = query.compared scope relative := by
  rw [places, Tree.compared, Tree.meant_eq h hbase, hbase]
  dsimp only
  rw [List.isEmpty_map, List.map_map]
  rfl

/-- The messages of a clause are those of its comparisons that hold. -/
theorem Clause.messages_eq (h : query.Ordered) (hbase : query.get? scope = some base)
    (clause : Clause) (facet : Facet) (caller : Caller) :
    clause.messages query scope facet caller =
      (((Segment.relative? clause.path facet).toList.flatMap (query.compared scope)).filter
        fun reading => clause.operator.holds reading.2 (clause.operand caller)).map
          fun reading => clause.report reading.1 (clause.operand caller) := by
  rw [messages]
  cases Segment.relative? clause.path facet with
  | none => rfl
  | some relative =>
    rw [Option.toList_some, List.flatMap_singleton, ← places_eq h hbase, ← List.filterMap_eq_map,
      List.filterMap_filter]
    rfl

end Evaluation

namespace DropRule

/-- A rule reaches a caller if it names the wildcard or all that the caller is. -/
theorem reaches_iff {rule : DropRule} {roles : List String} :
    rule.reaches roles = true ↔
      wildcard ∈ rule.roles.roles ∨ ∀ role ∈ roles, role ∈ rule.roles.roles := by
  simp [reaches, RoleSet.hasWildcard, RoleSet.contains]

/-- The messages of rules, without those that do not reach the caller. -/
theorem evaluate_eq_filter (rules : List DropRule) (query : Tree) (scope : TreePath) (facet : Facet)
    (caller : Caller) :
    evaluate rules query scope facet caller =
      (rules.filter (·.reaches caller.roles)).flatMap fun rule =>
        rule.clauses.flatMap fun clause => clause.messages query scope facet caller :=
  (flatMap_filter_eq rules _ _).symm

/-- **An evaluation is exact.** Its messages are those of the rules that reach the caller, of
their clauses, and of the places that each path means, one for each comparison that holds, in
this order; and a path means the places below the scope that read as it does, each once. -/
theorem evaluate_exact {query : Tree} (h : query.Ordered) {scope : TreePath} {base : Node}
    (hbase : query.get? scope = some base) (rules : List DropRule) (facet : Facet)
    (caller : Caller) :
    evaluate rules query scope facet caller =
        ((rules.filter fun rule => wildcard ∈ rule.roles.roles ∨
          ∀ role ∈ caller.roles, role ∈ rule.roles.roles).flatMap fun rule =>
            rule.clauses.flatMap fun clause =>
              (((Segment.relative? clause.path facet).toList.flatMap
                (query.compared scope)).filter fun reading =>
                  clause.operator.holds reading.2 (clause.operand caller)).map fun reading =>
                    clause.report reading.1 (clause.operand caller)) ∧
      (∀ relative path node, (path, node) ∈ query.meant scope relative ↔
        query.get? path = some node ∧
          ∃ segments, path = scope.join segments ∧ base.fieldSegments segments = relative) ∧
      ∀ relative, ((query.meant scope relative).map Prod.fst).Nodup := by
  refine ⟨?_, fun relative path node => Tree.mem_meant_iff h hbase,
    Tree.meant_nodup h scope⟩
  rw [evaluate_eq_filter]
  have hreaches : (rules.filter fun rule => rule.reaches caller.roles) =
      rules.filter fun rule => wildcard ∈ rule.roles.roles ∨
        ∀ role ∈ caller.roles, role ∈ rule.roles.roles :=
    List.filter_congr fun rule _ => Bool.eq_iff_iff.2 (reaches_iff.trans decide_eq_true_iff.symm)
  rw [hreaches]
  exact List.flatMap_congr fun rule _ => List.flatMap_congr fun clause _ =>
    Clause.messages_eq h hbase clause facet caller

/-- A query for books by their ids, once under an alias and once under their own name. -/
def booksById : Tree :=
  .ofDocument ⟨[.operation ⟨none, .query, none, [], [],
    [.field none (some "a") "books" [.mk none "ids" (.list [.int "7", .int "5"])] [] [],
      .field none none "books" [.mk none "ids" (.list [.int "9"])] [] []]⟩]⟩ [] none

/-- The first ids of both selections are compared, and pens, which the query has none of, once. -/
theorem evaluate_booksById :
    ∃ base, booksById.get? ⟨"query", []⟩ = some base ∧
      evaluate [⟨.ofList ["customer"], [⟨.gt, "books.$in.ids.0", "userClaims.uid"⟩,
          ⟨.eq, "pens.$in.id", "userClaims.pen"⟩]⟩] booksById ⟨"query", []⟩ .output
          ((Caller.ofRoles ["customer"]).withClaim "uid" (.int 6)) =
        ["Input type \"query.$out.a.$in.ids.0\" value can't be > \"6\"",
          "Input type \"query.$out.books.$in.ids.0\" value can't be > \"6\"",
          "Input type \"query.$out.pens.$in.id\" value can't match value \"null\""] := by
  have hordered : booksById.Ordered := Tree.ofDocument_ordered _ _ _
  have hexists : (booksById.get? ⟨"query", []⟩).isSome = true := by decide +kernel
  obtain ⟨base, hbase⟩ := Option.isSome_iff_exists.1 hexists
  refine ⟨base, hbase, ?_⟩
  rw [(evaluate_exact hordered hbase _ _ _).1]
  decide +kernel

end DropRule

end QueryAccess
