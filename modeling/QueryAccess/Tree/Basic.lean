import QueryAccess.Tree.Node

/-!
# Trees

A tree has a root node for each kind of operation, under the kind's keyword. The places
in a tree are the exact paths: `QueryAccess.Tree.listing` lists them with their nodes,
each root first and then its children one after the other.

A path leads to a node in two ways. `QueryAccess.Tree.get?` takes every segment as it
stands; `QueryAccess.Tree.ruleAt?` looks past list elements, and is how the rule for a
place is found.
-/

namespace QueryAccess

/-- The root nodes, by keyword. -/
structure Tree where
  roots : List (String × Node)

mutual

/-- A node and everything below it, with the segments from a start. -/
def Node.listing (taken : List Segment) : Node → List (List Segment × Node)
  | ⟨inputs, outputs, items, value, fieldName, policy, dropRules⟩ =>
    (taken, ⟨inputs, outputs, items, value, fieldName, policy, dropRules⟩) ::
      (Node.listingOfNamed taken .input inputs ++ Node.listingOfNamed taken .output outputs ++
        Node.listingOfItems taken 0 items)

/-- Named children and everything below them. -/
def Node.listingOfNamed (taken : List Segment) (facet : Facet) :
    List (String × Node) → List (List Segment × Node)
  | [] => []
  | (name, child) :: rest =>
    child.listing (taken ++ [.named facet name]) ++ Node.listingOfNamed taken facet rest

/-- Items from a position on, and everything below them. -/
def Node.listingOfItems (taken : List Segment) (i : Nat) :
    List Node → List (List Segment × Node)
  | [] => []
  | item :: rest =>
    item.listing (taken ++ [.index i]) ++ Node.listingOfItems taken (i + 1) rest

end

namespace Tree

/-- The tree without roots. -/
def empty : Tree := ⟨[]⟩

/-- Whether the tree has no roots. -/
def isEmpty (tree : Tree) : Bool := tree.roots.isEmpty

/-- The root under a keyword. -/
def root? (tree : Tree) (keyword : String) : Option Node := tree.roots.lookup keyword

/-- The tree of root nodes in which keywords may repeat: later ones overlay earlier
ones. -/
def ofRoots (roots : List (String × Node)) : Tree := ⟨Node.gather roots⟩

/-- The node at an exact path. -/
def get? (tree : Tree) (path : TreePath) : Option Node :=
  (tree.root? path.root).bind fun node => node.get? path.segments

/-- What stands below a root stands in the tree. -/
theorem get?_of_root {tree : Tree} {keyword : String} {root : Node}
    (hroot : tree.root? keyword = some root) (segments : List Segment) :
    tree.get? ⟨keyword, segments⟩ = root.get? segments := by
  rw [get?, hroot, Option.bind_some]

/-- The value at an exact path. -/
def valueAt? (tree : Tree) (path : TreePath) : Option Json :=
  (tree.get? path).bind fun node => node.value

/-- The node that rules the places of a path. -/
def ruleAt? (tree : Tree) (path : TreePath) : Option Node :=
  (tree.root? path.root).bind fun node => node.ruleGet? path.segments

/-- All exact paths with their nodes. -/
def listing (tree : Tree) : List (TreePath × Node) :=
  tree.roots.flatMap fun (keyword, node) =>
    (node.listing []).map fun (segments, node) => (⟨keyword, segments⟩, node)

end Tree

end QueryAccess
