import QueryAccess.Proofs.Tree.Listing
import QueryAccess.Rules

/-!
# Visits, place by place

On its way through a query `QueryAccess.RuleTree.visits` carries two paths along, the
exact one and the path of the rule. Here both are said of a place alone, without the way
to it: the rule path of an exact path (`QueryAccess.Tree.rulePath`) is found by walking
the query along it, and the drop rules of a place start from a scope that shows in the
path itself (`QueryAccess.TreePath.scope?`).

`QueryAccess.RuleTree.visits_eq` says that the two accounts agree: the visits of a query
are those of its places, in the order of the listing. What the checks do on a query is
then a fact about its places, one at a time.
-/

namespace QueryAccess

/-! ### The rule path and the scope of a place -/

/-- **The segments of the rule** for the place at the end of some segments: each key gives
way to the field's own name, and indices are left out. Where the node has no such place,
the segments stay as they are. -/
def Node.ruleSegments (node : Node) : List Segment → List Segment
  | [] => []
  | segment :: rest =>
    match node.child? segment with
    | none => segment :: rest
    | some child =>
      match segment with
      | .named facet key => .named facet (child.nameUnder key) :: child.ruleSegments rest
      | .index _ => child.ruleSegments rest

/-- **The rule path of an exact path** of a query. -/
def Tree.rulePath (query : Tree) (path : TreePath) : TreePath :=
  match query.root? path.root with
  | none => path
  | some root => ⟨path.root, root.ruleSegments path.segments⟩

/-- **The scope of a place**, with the side on which its drop rules begin: the parent for
what stands under a name, the root for a root, and none for an element of a list. -/
def TreePath.scope? (path : TreePath) : Option (TreePath × Facet) :=
  match path.last? with
  | none => some (path, .output)
  | some (.named facet _) => path.parent?.map fun parent => (parent, facet)
  | some (.index _) => none

/-- The rule segments of a child, seen from its parent. -/
def Segment.forRule (segment : Segment) (child : Node) : List Segment :=
  match segment with
  | .named facet key => [.named facet (child.nameUnder key)]
  | .index _ => []

theorem Node.ruleSegments_cons {node child : Node} {segment : Segment}
    (h : node.child? segment = some child) (rest : List Segment) :
    node.ruleSegments (segment :: rest) = segment.forRule child ++ child.ruleSegments rest := by
  rw [ruleSegments, h]
  cases segment <;> rfl

@[simp] theorem TreePath.scope?_ofRoot (keyword : String) :
    (TreePath.ofRoot keyword).scope? = some (.ofRoot keyword, .output) := rfl

@[simp] theorem TreePath.scope?_child_named (path : TreePath) (facet : Facet) (key : String) :
    (path.child (.named facet key)).scope? = some (path, facet) := by
  simp [scope?, last?, parent?, child]

@[simp] theorem TreePath.scope?_child_index (path : TreePath) (i : Nat) :
    (path.child (.index i)).scope? = none := by
  simp [scope?, last?, child]

/-- A root is ruled by the root under its keyword. -/
@[simp] theorem Tree.ruleAt?_ofRoot (tree : Tree) (keyword : String) :
    tree.ruleAt? (.ofRoot keyword) = tree.root? keyword := by
  show (tree.root? keyword).bind some = tree.root? keyword
  cases tree.root? keyword <;> rfl

namespace RuleTree

variable (rules : RuleTree) (query : Tree) (caller : Caller)

/-! ### What is visited at a place -/

/-- The messages of the drop rules on a place, given its exact path and its rule path. -/
def messagesOn (exact normalized : TreePath) : List String :=
  match exact.scope? with
  | none => []
  | some (scope, facet) =>
    dropMessages query caller (rules.tree.ruleAt? normalized) scope facet

/-- The visits of one place: its drop rules, if it can have any, and the place itself, if
it is a leaf. -/
def visitsOn (exact normalized : TreePath) (node : Node) : List Visit :=
  (exact.scope?.map fun _ => Visit.dropped (messagesOn rules query caller exact normalized)).toList
    ++ leafVisit rules caller node exact normalized

/-- The visits of a place and of everything below it. -/
def visitsFrom (exact normalized : TreePath) (node : Node) : List Visit :=
  visitsOn rules query caller exact normalized node ++
    visitsBelow rules query caller exact normalized node

theorem visitsOfNamed_eq (exact normalized : TreePath) (facet : Facet)
    (children : List (String × Node)) :
    visitsOfNamed rules query caller exact normalized facet children =
      (children.map fun pair => (Segment.named facet pair.1, pair.2)).flatMap fun pair =>
        visitsFrom rules query caller (exact.child pair.1)
          (normalized.join (pair.1.forRule pair.2)) pair.2 := by
  induction children with
  | nil => rfl
  | cons pair rest ih =>
    obtain ⟨name, child⟩ := pair
    rw [visitsOfNamed, ih, List.map_cons, List.flatMap_cons, visitsFrom, visitsOn, messagesOn,
      TreePath.scope?_child_named]
    simp only [Option.map_some, Option.toList_some, List.cons_append]
    rfl

theorem visitsOfItems_eq (exact normalized : TreePath) (i : Nat) (items : List Node) :
    visitsOfItems rules query caller exact normalized i items =
      ((items.zipIdx i).map fun pair => (Segment.index pair.2, pair.1)).flatMap fun pair =>
        visitsFrom rules query caller (exact.child pair.1)
          (normalized.join (pair.1.forRule pair.2)) pair.2 := by
  induction items generalizing i with
  | nil => rfl
  | cons item rest ih =>
    rw [visitsOfItems, ih, List.zipIdx_cons, List.map_cons, List.flatMap_cons, visitsFrom, visitsOn,
      TreePath.scope?_child_index, Segment.forRule, TreePath.join_nil]
    rfl

/-- **Below a node the children are visited**, one after the other. -/
theorem visitsBelow_eq (exact normalized : TreePath) (node : Node) :
    visitsBelow rules query caller exact normalized node =
      node.children.flatMap fun pair =>
        visitsFrom rules query caller (exact.child pair.1)
          (normalized.join (pair.1.forRule pair.2)) pair.2 := by
  obtain ⟨inputs, outputs, items, value, fieldName, policy, dropRules⟩ := node
  rw [visitsBelow, visitsOfNamed_eq, visitsOfNamed_eq, visitsOfItems_eq, Node.children,
    List.flatMap_append, List.flatMap_append]

/-- **The visits from a node on are those of its places**, in the order of the listing.
The invariant is that both paths have been carried along rightly so far. -/
theorem visitsFrom_eq {node : Node} (h : node.Ordered) (exact normalized : TreePath) :
    visitsFrom rules query caller exact normalized node =
      (node.listing []).flatMap fun place =>
        visitsOn rules query caller (exact.join place.1)
          (normalized.join (node.ruleSegments place.1)) place.2 := by
  induction node using Node.induction_children generalizing exact normalized with
  | step node ih =>
    rw [visitsFrom, visitsBelow_eq, Node.listing_eq, List.flatMap_cons, List.flatMap_assoc]
    congr 1
    · rw [TreePath.join_nil, Node.ruleSegments, TreePath.join_nil]
    · refine List.flatMap_congr fun pair hpair => ?_
      have hchild := (Node.mem_children_iff h).1 hpair
      rw [ih pair.1 pair.2 hpair (h.child hchild), List.nil_append, Node.listing_child,
        List.flatMap_map]
      refine List.flatMap_congr fun place _ => ?_
      rw [Node.ruleSegments_cons hchild, TreePath.child_eq_join, TreePath.join_join,
        TreePath.join_join, List.singleton_append]

/-! ### What is visited in a query -/

/-- The messages of the drop rules on the place at an exact path of a query. -/
def messagesAt (path : TreePath) : List String :=
  messagesOn rules query caller path (query.rulePath path)

/-- **The visits of a query are those of its places**, in the order of the listing. -/
theorem visits_eq {query : Tree} (h : query.Ordered) :
    rules.visits query caller =
      query.listing.flatMap fun place =>
        visitsOn rules query caller place.1 (query.rulePath place.1) place.2 := by
  rw [visits, Tree.listing, List.flatMap_assoc]
  refine List.flatMap_congr fun pair hpair => ?_
  have hroot : query.root? pair.1 = some pair.2 := (Dict.lookup_eq_some_iff h.roots).2 hpair
  have hfrom : visitsOfRoot rules query caller pair.1 pair.2 =
      visitsFrom rules query caller (.ofRoot pair.1) (.ofRoot pair.1) pair.2 := by
    rw [visitsOfRoot, visitsFrom, visitsOn, messagesOn, TreePath.scope?_ofRoot]
    simp only [Tree.ruleAt?_ofRoot, Option.map_some, Option.toList_some, List.cons_append,
      List.nil_append]
  show visitsOfRoot rules query caller pair.1 pair.2 = _
  rw [hfrom, visitsFrom_eq rules query caller (h.root _ _ hroot), List.flatMap_map]
  refine List.flatMap_congr fun place _ => ?_
  have hpath : query.rulePath ⟨pair.1, place.1⟩ = ⟨pair.1, pair.2.ruleSegments place.1⟩ := by
    rw [Tree.rulePath, hroot]
  show visitsOn rules query caller _ _ _ = visitsOn rules query caller ⟨pair.1, place.1⟩ _ _
  rw [hpath]
  rfl

end RuleTree

end QueryAccess
