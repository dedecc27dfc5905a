import Mathlib.Data.List.Nodup
import QueryAccess.Proofs.Tree.Ordered

/-!
# The places of a tree

`QueryAccess.Tree.listing` goes through a tree, each node before its children
(`QueryAccess.Node.listing_eq`), and `QueryAccess.Tree.get?` looks one place up. In an
ordered tree they are two views of the same thing: what the listing has under a path is
what the look-up finds there (`QueryAccess.Tree.mem_listing`), and no path is listed twice
(`QueryAccess.Tree.listing_nodup`).

Proofs about what is below a node go by `QueryAccess.Node.induction_children`, which asks
for one step over all the children, whatever side they are on.
-/

namespace QueryAccess

/-- A pass over a part of a list is one over the list that passes by the others. -/
theorem flatMap_filter_eq {α β : Type} (l : List α) (p : α → Bool) (f : α → List β) :
    (l.filter p).flatMap f = l.flatMap fun a => if p a then f a else [] := by
  induction l with
  | nil => rfl
  | cons a rest ih =>
    rw [List.filter_cons, List.flatMap_cons, ← ih]
    cases p a <;> rfl

/-- A pass over pairs with different keys that ignores all keys but one sees what stands under
that key. -/
theorem flatMap_of_key {κ α β : Type} {l : List (κ × α)} (hnodup : (l.map Prod.fst).Nodup)
    {key : κ} {a : α} (hmem : (key, a) ∈ l) {f : κ × α → List β}
    (hf : ∀ pair ∈ l, pair.1 ≠ key → f pair = []) : l.flatMap f = f (key, a) := by
  induction l with
  | nil => exact absurd hmem List.not_mem_nil
  | cons pair rest ih =>
    rw [List.map_cons, List.nodup_cons] at hnodup
    rw [List.flatMap_cons]
    rcases List.mem_cons.1 hmem with rfl | hmem
    · have hrest : rest.flatMap f = [] := List.flatMap_eq_nil_iff.2 fun other hother =>
        hf other (.tail _ hother) fun heq => hnodup.1 (List.mem_map.2 ⟨other, hother, heq⟩)
      rw [hrest, List.append_nil]
    · have hfirst : pair.1 ≠ key := fun heq => hnodup.1 (List.mem_map.2 ⟨_, hmem, heq.symm⟩)
      rw [hf pair (.head _) hfirst, List.nil_append]
      exact ih hnodup.2 hmem fun other hother => hf other (.tail _ hother)

namespace Node

/-! ### Induction over the children -/

theorem sizeOf_child_lt {node child : Node} {segment : Segment}
    (h : (segment, child) ∈ node.children) : sizeOf child < sizeOf node := by
  obtain ⟨inputs, outputs, items, value, fieldName, policy, dropRules⟩ := node
  simp only [children, List.mem_append, List.mem_map, Prod.exists, Prod.mk.injEq] at h
  simp only [Node.mk.sizeOf_spec]
  obtain (⟨name, input, hmem, -, rfl⟩ | ⟨name, output, hmem, -, rfl⟩) | ⟨item, i, hmem, -, rfl⟩ :=
    h
  · have hlt := List.sizeOf_lt_of_mem hmem
    simp only [Prod.mk.sizeOf_spec] at hlt
    omega
  · have hlt := List.sizeOf_lt_of_mem hmem
    simp only [Prod.mk.sizeOf_spec] at hlt
    omega
  · have hitem : item ∈ items := List.mem_of_getElem? (List.mem_zipIdx_iff_getElem?.1 hmem)
    have hlt := List.sizeOf_lt_of_mem hitem
    omega

/-- **Induction over the children**: what holds of a node if it holds of its children
holds of every node. -/
theorem induction_children {motive : Node → Prop}
    (step : ∀ node : Node, (∀ segment child, (segment, child) ∈ node.children → motive child) →
      motive node) (node : Node) : motive node :=
  step node fun _ child _ => induction_children step child
termination_by sizeOf node
decreasing_by exact sizeOf_child_lt ‹_›

/-- What a node has at a segment is among its children. -/
theorem mem_children_of_child? {node child : Node} {segment : Segment}
    (h : node.child? segment = some child) : (segment, child) ∈ node.children := by
  rw [children, List.mem_append, List.mem_append]
  rcases segment with ⟨_ | _, name⟩ | i
  · exact Or.inl (Or.inl (List.mem_map.2 ⟨(name, child), Dict.mem_of_lookup h, rfl⟩))
  · exact Or.inl (Or.inr (List.mem_map.2 ⟨(name, child), Dict.mem_of_lookup h, rfl⟩))
  · exact Or.inr (List.mem_map.2 ⟨(child, i), List.mem_zipIdx_iff_getElem?.2 h, rfl⟩)

/-! ### The listing of a node -/

theorem listingOfNamed_eq (taken : List Segment) (facet : Facet)
    (children : List (String × Node)) :
    listingOfNamed taken facet children =
      (children.map fun pair => (Segment.named facet pair.1, pair.2)).flatMap
        fun pair => pair.2.listing (taken ++ [pair.1]) := by
  induction children with
  | nil => rfl
  | cons pair rest ih =>
    rw [listingOfNamed, ih]
    rfl

theorem listingOfItems_eq (taken : List Segment) (i : Nat) (items : List Node) :
    listingOfItems taken i items =
      ((items.zipIdx i).map fun pair => (Segment.index pair.2, pair.1)).flatMap
        fun pair => pair.2.listing (taken ++ [pair.1]) := by
  induction items generalizing i with
  | nil => rfl
  | cons item rest ih =>
    rw [listingOfItems, ih]
    rfl

/-- **A node is listed first**, and then its children with all below them, in their
order. -/
theorem listing_eq (taken : List Segment) (node : Node) :
    node.listing taken =
      (taken, node) :: node.children.flatMap fun pair => pair.2.listing (taken ++ [pair.1]) := by
  obtain ⟨inputs, outputs, items, value, fieldName, policy, dropRules⟩ := node
  rw [listing, listingOfNamed_eq, listingOfNamed_eq, listingOfItems_eq, children,
    List.flatMap_append, List.flatMap_append]

/-- Where a listing starts only shows in front of the segments. -/
theorem listing_append (node : Node) (taken more : List Segment) :
    node.listing (taken ++ more) =
      (node.listing more).map fun place => (taken ++ place.1, place.2) := by
  induction node using induction_children generalizing more with
  | step node ih =>
    rw [listing_eq, listing_eq more, List.map_cons, List.map_flatMap]
    congr 1
    refine List.flatMap_congr fun pair hpair => ?_
    rw [List.append_assoc]
    exact ih pair.1 pair.2 hpair (more ++ [pair.1])

/-- The listing below a child, from the node itself. -/
theorem listing_child (segment : Segment) (child : Node) :
    child.listing [segment] =
      (child.listing []).map fun place => (segment :: place.1, place.2) :=
  listing_append child [segment] []

theorem map_fst_listing_child (segment : Segment) (child : Node) :
    (child.listing [segment]).map Prod.fst =
      ((child.listing []).map Prod.fst).map (segment :: ·) := by
  rw [listing_child, List.map_map, List.map_map]
  rfl

/-- What is found at some segments is listed under them, ordered or not. -/
theorem mem_listing_of_get? {node target : Node} {segments : List Segment}
    (h : node.get? segments = some target) : (segments, target) ∈ node.listing [] := by
  induction segments generalizing node with
  | nil =>
    rw [listing_eq, Option.some.inj h]
    exact .head _
  | cons segment rest ih =>
    obtain ⟨child, hchild, hrest⟩ := Option.bind_eq_some_iff.1 h
    rw [listing_eq]
    refine .tail _ (List.mem_flatMap.2 ⟨(segment, child), mem_children_of_child? hchild, ?_⟩)
    rw [List.nil_append, listing_child]
    exact List.mem_map.2 ⟨(rest, target), ih hrest, rfl⟩

/-- **A listing is a look-up**: under each list of segments stands the node that is found
there. -/
theorem mem_listing {node target : Node} (h : node.Ordered) {segments : List Segment} :
    (segments, target) ∈ node.listing [] ↔ node.get? segments = some target := by
  refine ⟨fun hmem => ?_, mem_listing_of_get?⟩
  induction segments generalizing node with
  | nil =>
    rw [listing_eq, List.mem_cons] at hmem
    rcases hmem with hself | hbelow
    · rw [get?_nil, (Prod.mk.inj hself).2]
    · obtain ⟨⟨segment, child⟩, -, hmem⟩ := List.mem_flatMap.1 hbelow
      simp [listing_child] at hmem
  | cons segment rest ih =>
    rw [listing_eq, List.mem_cons] at hmem
    rcases hmem with hself | hbelow
    · cases (Prod.mk.inj hself).1
    · obtain ⟨⟨first, child⟩, hchild, hmem⟩ := List.mem_flatMap.1 hbelow
      rw [List.nil_append, listing_child] at hmem
      obtain ⟨⟨segments, node'⟩, hplace, heq⟩ := List.mem_map.1 hmem
      obtain ⟨hsegments, rfl⟩ := Prod.mk.inj heq
      obtain ⟨rfl, rfl⟩ := List.cons.inj hsegments
      rw [mem_children_iff h] at hchild
      rw [get?_of_child? hchild]
      exact ih (h.child hchild) hplace

/-- **There is a leaf** below every node, if not the node itself. -/
theorem exists_leaf {node : Node} (h : node.Ordered) :
    ∃ segments leaf, node.get? segments = some leaf ∧ leaf.isLeaf = true := by
  induction node using induction_children with
  | step node ih =>
    by_cases hleaf : node.isLeaf = true
    · exact ⟨[], node, rfl, hleaf⟩
    · rw [isLeaf_iff] at hleaf
      obtain ⟨⟨segment, child⟩, hmem⟩ := List.exists_mem_of_ne_nil _ hleaf
      have hchild : node.child? segment = some child := (mem_children_iff h).1 hmem
      obtain ⟨segments, leaf, hget, hbelow⟩ := ih segment child hmem (h.child hchild)
      exact ⟨segment :: segments, leaf, (get?_of_child? hchild segments).trans hget, hbelow⟩

/-! ### No place twice -/

/-- The segments of the children: the names in their order, and the positions. -/
theorem map_fst_children (node : Node) :
    node.children.map Prod.fst =
      (Dict.keys node.inputs).map (Segment.named .input) ++
        (Dict.keys node.outputs).map (Segment.named .output) ++
        (List.range' 0 node.items.length).map Segment.index := by
  have hitems : node.items.zipIdx.map (fun pair => Segment.index pair.2) =
      (List.range' 0 node.items.length).map Segment.index := by
    rw [← List.zipIdx_map_snd 0 node.items, List.map_map]
    rfl
  rw [children, Dict.keys, Dict.keys, ← hitems]
  simp [Function.comp_def]

/-- No two children of an ordered node stand at one segment. -/
theorem children_nodup {node : Node} (h : node.Ordered) :
    (node.children.map Prod.fst).Nodup := by
  have hnamed : ∀ facet {names : List String}, names.Nodup →
      (names.map (Segment.named facet)).Nodup :=
    fun facet names hnames => hnames.map fun a b hab => (Segment.named.inj hab).2
  have hitems : ((List.range' 0 node.items.length).map Segment.index).Nodup :=
    (List.nodup_range' ..).map fun a b hab => Segment.index.inj hab
  rw [map_fst_children, List.nodup_append', List.nodup_append']
  refine ⟨⟨hnamed _ h.inputs.nodup_keys, hnamed _ h.outputs.nodup_keys, ?_⟩, hitems, ?_⟩
  · rw [List.disjoint_left]
    intro segment hinput houtput
    obtain ⟨name, -, rfl⟩ := List.mem_map.1 hinput
    obtain ⟨name', -, heq⟩ := List.mem_map.1 houtput
    cases heq
  · rw [List.disjoint_left]
    intro segment hnamed hitem
    obtain ⟨i, -, rfl⟩ := List.mem_map.1 hitem
    simp at hnamed

/-- A pass over the children that goes by one segment sees the child there. -/
theorem flatMap_children {α : Type} {node child : Node} (h : node.Ordered) {segment : Segment}
    (hchild : node.child? segment = some child) {f : Segment × Node → List α}
    (hf : ∀ pair ∈ node.children, pair.1 ≠ segment → f pair = []) :
    node.children.flatMap f = f (segment, child) :=
  flatMap_of_key (children_nodup h) (mem_children_of_child? hchild) hf

/-- No place below an ordered node is listed twice. -/
theorem listing_nodup {node : Node} (h : node.Ordered) :
    ((node.listing []).map Prod.fst).Nodup := by
  induction node using induction_children with
  | step node ih =>
    rw [listing_eq, List.map_cons, List.nodup_cons, List.map_flatMap]
    refine ⟨by simp [listing_child], List.nodup_flatMap.2 ⟨fun pair hpair => ?_, ?_⟩⟩
    · rw [List.nil_append, map_fst_listing_child]
      have hchild := (mem_children_iff h).1 hpair
      exact (ih pair.1 pair.2 hpair (h.child hchild)).map List.cons_injective
    · -- children stand at different segments, and each path below one begins with its own
      refine (List.pairwise_map.1 (children_nodup h)).imp fun {a b} hab => ?_
      intro segments hfirst hsecond
      beta_reduce at hfirst hsecond
      rw [List.nil_append, map_fst_listing_child] at hfirst hsecond
      obtain ⟨first, -, rfl⟩ := List.mem_map.1 hfirst
      obtain ⟨second, -, heq⟩ := List.mem_map.1 hsecond
      exact hab (List.cons.inj heq).1.symm

end Node

namespace Tree

variable {tree : Tree}

/-- What is found at a path is listed under it, ordered or not. -/
theorem mem_listing_of_get? {path : TreePath} {node : Node} (h : tree.get? path = some node) :
    (path, node) ∈ tree.listing := by
  obtain ⟨root, hroot, hget⟩ := Option.bind_eq_some_iff.1 h
  refine List.mem_flatMap.2 ⟨(path.root, root), Dict.mem_of_lookup hroot, ?_⟩
  exact List.mem_map.2 ⟨(path.segments, node), Node.mem_listing_of_get? hget, rfl⟩

/-- **A listing is a look-up**: under each path stands the node that is found there. -/
theorem mem_listing (h : tree.Ordered) {path : TreePath} {node : Node} :
    (path, node) ∈ tree.listing ↔ tree.get? path = some node := by
  refine ⟨fun hmem => ?_, mem_listing_of_get?⟩
  obtain ⟨⟨key, root⟩, hroot, hroots⟩ := List.mem_flatMap.1 hmem
  obtain ⟨⟨taken, target⟩, hplace, heq⟩ := List.mem_map.1 hroots
  obtain ⟨rfl, rfl⟩ := Prod.mk.inj heq
  have hlookup : tree.root? key = some root := (Dict.lookup_eq_some_iff h.roots).2 hroot
  rw [get?_of_root hlookup]
  exact (Node.mem_listing (h.root key root hlookup)).1 hplace

/-- **No place is listed twice.** -/
theorem listing_nodup (h : tree.Ordered) : (tree.listing.map Prod.fst).Nodup := by
  have hpaths : ∀ pair : String × Node,
      ((pair.2.listing []).map fun place => ((⟨pair.1, place.1⟩ : TreePath), place.2)).map
        Prod.fst = ((pair.2.listing []).map Prod.fst).map (TreePath.mk pair.1) := by
    intro pair
    rw [List.map_map, List.map_map]
    rfl
  have hroots : ∀ (pair : String × Node) (path : TreePath),
      path ∈ ((pair.2.listing []).map fun place =>
        ((⟨pair.1, place.1⟩ : TreePath), place.2)).map Prod.fst → path.root = pair.1 := by
    intro pair path hpath
    rw [hpaths] at hpath
    obtain ⟨segments, -, rfl⟩ := List.mem_map.1 hpath
    rfl
  rw [listing, List.map_flatMap]
  refine List.nodup_flatMap.2 ⟨fun pair hpair => ?_, ?_⟩
  · have hroot : tree.root? pair.1 = some pair.2 := (Dict.lookup_eq_some_iff h.roots).2 hpair
    rw [hpaths pair]
    exact (Node.listing_nodup (h.root _ _ hroot)).map fun a b hab => (TreePath.mk.inj hab).2
  · refine (List.pairwise_map.1 h.roots.nodup_keys).imp fun {a b} hab => ?_
    exact fun path hfirst hsecond =>
      hab ((hroots a path hfirst).symm.trans (hroots b path hsecond))

/-- The tree of a document with an operation has a leaf, however little is selected. -/
theorem exists_leaf_ofDocument {document : Document} (h : document.operations ≠ [])
    (bindings : Dict Json) (policy : Option Policy) :
    ∃ path leaf, (ofDocument document bindings policy).get? path = some leaf ∧
      leaf.isLeaf = true := by
  obtain ⟨operation, hoperation⟩ := List.exists_mem_of_ne_nil _ h
  have hroot : (ofDocument document bindings policy).root? operation.kind.keyword ≠ none := by
    rw [root?_ofDocument, ne_eq, Node.overlay_eq_none_iff, List.map_eq_nil_iff]
    exact List.ne_nil_of_mem (List.mem_filter.2 ⟨hoperation, beq_self_eq_true _⟩)
  obtain ⟨root, hroot⟩ := Option.ne_none_iff_exists'.1 hroot
  have hordered := (ofDocument_ordered document bindings policy).root _ root hroot
  obtain ⟨segments, leaf, hget, hleaf⟩ := Node.exists_leaf hordered
  exact ⟨⟨operation.kind.keyword, segments⟩, leaf, (get?_of_root hroot segments).trans hget,
    hleaf⟩

end Tree

end QueryAccess
