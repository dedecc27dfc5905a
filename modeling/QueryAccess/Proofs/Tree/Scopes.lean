import QueryAccess.Proofs.Tree.Resolve

/-!
# What a relative path means from a scope

A relative path goes down from a scope, and may find several places on the way.
`QueryAccess.Tree.meant` says without a search what it should find: of all the places that the
tree lists, those below the scope that read as the path, in the order in which they are listed.

`QueryAccess.Tree.meant_eq` says that the search from the scope finds just that. It goes through
the listing of the scope alone; but the segments on the way to the scope pick one child each, so
this is the one stretch of the whole listing in which anything below the scope stands
(`QueryAccess.Node.filter_listing`).
-/

namespace QueryAccess

namespace Node

/-! ### The stretch of the listing below a place -/

/-- What is listed from a start stands below it. -/
theorem prefix_of_mem_listing {node : Node} {taken : List Segment} {place : List Segment × Node}
    (h : place ∈ node.listing taken) : taken <+: place.1 := by
  rw [← List.append_nil taken, listing_append] at h
  obtain ⟨below, -, rfl⟩ := List.mem_map.1 h
  exact List.prefix_append taken below.1

/-- **Below one place** the node there has all there is: whoever asks for places on the way
through it passes by all the others. -/
theorem filter_listing {node base : Node} (h : node.Ordered) {way : List Segment}
    (hbase : node.get? way = some base) {p : List Segment × Node → Bool} (taken : List Segment)
    (hp : ∀ place, p place = true → taken ++ way <+: place.1) :
    (node.listing taken).filter p = (base.listing (taken ++ way)).filter p := by
  induction way generalizing node taken with
  | nil => rw [List.append_nil, Option.some.inj hbase]
  | cons segment rest ih =>
    obtain ⟨child, hchild, hrest⟩ := Option.bind_eq_some_iff.1 hbase
    have hself : ¬p (taken, node) = true := by
      intro htaken
      have hlength : (taken ++ segment :: rest).length ≤ taken.length := (hp _ htaken).length_le
      rw [List.length_append, List.length_cons] at hlength
      omega
    have hstart : taken ++ segment :: rest = taken ++ [segment] ++ rest := by simp
    rw [listing_eq, List.filter_cons_of_neg hself, List.filter_flatMap, flatMap_children h hchild]
    · rw [hstart] at hp ⊢
      exact ih (h.child hchild) hrest _ hp
    · intro pair _ hne
      refine List.filter_eq_nil_iff.2 fun place hplace hthrough => hne ?_
      -- the way to such a place begins with both segments
      have hone := prefix_of_mem_listing hplace
      have htwo := ((List.prefix_append (taken ++ [segment]) rest).trans
        (hstart ▸ List.prefix_refl _)).trans (hp _ hthrough)
      have hboth := List.prefix_of_prefix_length_le hone htwo (by simp)
      simpa using hboth.eq_of_length (by simp)

end Node

/-! ### Below a scope -/

/-- The segments from a scope to a path below it. -/
def TreePath.below? (scope path : TreePath) : Option (List Segment) :=
  let segments := path.segments.drop scope.segments.length
  if path = scope.join segments then some segments else none

theorem TreePath.below?_eq_some_iff {scope path : TreePath} {segments : List Segment} :
    scope.below? path = some segments ↔ path = scope.join segments := by
  rw [below?, Option.ite_none_right_eq_some, Option.some.injEq]
  constructor
  · rintro ⟨hpath, rfl⟩
    exact hpath
  · rintro rfl
    simp [join]

namespace Tree

/-- **How a path reads from a scope**: as the segments from the scope to it, each output by the
name of the field that stands there. -/
def reading? (query : Tree) (scope path : TreePath) : Option (List Segment) :=
  (query.get? scope).bind fun base => (scope.below? path).map base.fieldSegments

/-- **The places that a relative path means** from a scope: those that read as it does, as the
tree lists them. -/
def meant (query : Tree) (scope : TreePath) (relative : List Segment) : List (TreePath × Node) :=
  query.listing.filter fun place => query.reading? scope place.1 = some relative

section Meant

variable {query : Tree} {scope : TreePath} {base : Node}

theorem reading?_eq_some_iff (hbase : query.get? scope = some base) {path : TreePath}
    {relative : List Segment} :
    query.reading? scope path = some relative ↔
      ∃ segments, path = scope.join segments ∧ base.fieldSegments segments = relative := by
  rw [reading?, hbase, Option.bind_some, Option.map_eq_some_iff]
  exact exists_congr fun segments => and_congr_left' TreePath.below?_eq_some_iff

theorem reading?_join (hbase : query.get? scope = some base) (segments : List Segment) :
    query.reading? scope (scope.join segments) = some (base.fieldSegments segments) :=
  (reading?_eq_some_iff hbase).2 ⟨segments, rfl, rfl⟩

/-- What a relative path means: the places below the scope that read as the path. -/
theorem mem_meant_iff (h : query.Ordered) (hbase : query.get? scope = some base)
    {relative : List Segment} {path : TreePath} {node : Node} :
    (path, node) ∈ query.meant scope relative ↔
      query.get? path = some node ∧
        ∃ segments, path = scope.join segments ∧ base.fieldSegments segments = relative := by
  rw [meant, List.mem_filter, mem_listing h, decide_eq_true_eq, reading?_eq_some_iff hbase]

/-- No place is meant twice. -/
theorem meant_nodup (h : query.Ordered) (scope : TreePath) (relative : List Segment) :
    ((query.meant scope relative).map Prod.fst).Nodup :=
  (listing_nodup h).sublist (List.filter_sublist.map _)

/-- **The search finds what is meant**, in the order in which the tree lists it. -/
theorem meant_eq (h : query.Ordered) (hbase : query.get? scope = some base)
    (relative : List Segment) :
    query.meant scope relative =
      (base.resolve relative).map fun place => (scope.join place.1, place.2) := by
  obtain ⟨root, hroot, hget⟩ := Option.bind_eq_some_iff.1 hbase
  have hordered := h.root _ root hroot
  rw [meant, listing, List.filter_flatMap,
    flatMap_of_key h.roots.nodup_keys (Dict.mem_of_lookup hroot)]
  · -- of the scope's own root, the stretch of the listing below the scope
    dsimp only
    rw [List.filter_map, Node.filter_listing hordered hget, List.nil_append,
      ← List.append_nil scope.segments, Node.listing_append, List.filter_map, List.map_map,
      Node.resolve_eq_filter (hordered.get? hget)]
    · refine congrArg _ (List.filter_congr fun place _ => decide_eq_decide.2 ?_)
      exact (reading?_join hbase place.1).symm ▸ Option.some_inj
    · intro place hplace
      rw [Function.comp_apply, decide_eq_true_eq, reading?_eq_some_iff hbase] at hplace
      obtain ⟨segments, hsegments, -⟩ := hplace
      exact ⟨segments, (congrArg TreePath.segments hsegments).symm⟩
  · intro pair _ hne
    refine List.filter_eq_nil_iff.2 fun place hplace hreads => hne ?_
    obtain ⟨below, -, rfl⟩ := List.mem_map.1 hplace
    rw [decide_eq_true_eq, reading?_eq_some_iff hbase] at hreads
    obtain ⟨segments, hsegments, -⟩ := hreads
    exact congrArg TreePath.root hsegments

end Meant

end Tree

end QueryAccess
