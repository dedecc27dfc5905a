import Mathlib.Data.List.Induction
import QueryAccess.Tree.Node

/-!
# Overlaying, place by place

What `QueryAccess.Node.merge` does to a node is said once here, for each segment and then
for each list of segments: where only one of the two nodes has something the merged node
has the same, and where both have it the merged node has the one overlaid by the other
(`QueryAccess.Node.child?_merge`, `QueryAccess.Node.get?_merge`). Nobody has to look
into the recursion of `QueryAccess.Node.merge` after that.

All of it rests on the order of the names. Children are plain lists, and a look-up in a
list where a name comes twice would see the first only, whereas merging would go through
both. `QueryAccess.Node.Ordered` says that the names ascend, at a node and everywhere
below it; merging and gathering keep it so.
-/

namespace QueryAccess

namespace Node

/-! ### Ordered nodes -/

/-- **The names ascend** among the inputs and among the outputs of a node, and so they do
everywhere below it. -/
inductive Ordered : Node → Prop where
  | mk {node : Node} (inputs : Dict.Sorted node.inputs) (outputs : Dict.Sorted node.outputs)
      (below : ∀ segment child, node.child? segment = some child → Ordered child) :
      Ordered node

namespace Ordered

variable {node : Node}

theorem inputs (h : node.Ordered) : Dict.Sorted node.inputs := by
  cases h
  assumption

theorem outputs (h : node.Ordered) : Dict.Sorted node.outputs := by
  cases h
  assumption

theorem child {segment : Segment} {child : Node} (h : node.Ordered)
    (hchild : node.child? segment = some child) : child.Ordered := by
  cases h with
  | mk _ _ below => exact below segment child hchild

theorem get? {node target : Node} (h : node.Ordered) {segments : List Segment}
    (htarget : node.get? segments = some target) : target.Ordered := by
  induction segments generalizing node with
  | nil =>
    rw [get?_nil, Option.some.injEq] at htarget
    exact htarget ▸ h
  | cons segment rest ih =>
    obtain ⟨child, hchild, hrest⟩ := Option.bind_eq_some_iff.1 htarget
    exact ih (h.child hchild) hrest

/-- A node without children is ordered, whatever it holds itself. -/
theorem of_isLeaf (h : node.isLeaf = true) : node.Ordered := by
  obtain ⟨inputs, outputs, items, _, _, _, _⟩ := node
  obtain ⟨rfl, rfl, rfl⟩ := isLeaf_iff_parts.1 h
  refine ⟨List.Pairwise.nil, List.Pairwise.nil, ?_⟩
  rintro (⟨_ | _, name⟩ | i) child hchild <;> simp [child?] at hchild

end Ordered

/-- In an ordered node the children are found where they stand. -/
theorem mem_children_iff {node child : Node} (h : node.Ordered) {segment : Segment} :
    (segment, child) ∈ node.children ↔ node.child? segment = some child := by
  rw [children, List.mem_append, List.mem_append]
  rcases segment with ⟨_ | _, name⟩ | i
  · rw [child?, Dict.lookup_eq_some_iff h.inputs]
    simp
  · rw [child?, Dict.lookup_eq_some_iff h.outputs]
    simp
  · simp only [child?, List.mem_map, List.mem_zipIdx_iff_getElem?, Prod.exists, Prod.mk.injEq,
      Segment.index.injEq, reduceCtorEq, false_and, and_false, exists_false, false_or]
    constructor
    · rintro ⟨item, j, hitem, rfl, rfl⟩
      exact hitem
    · exact fun hitem => ⟨child, i, hitem, rfl, rfl⟩

/-- A leaf is a node without a child at any segment. -/
theorem isLeaf_iff_child? {node : Node} (h : node.Ordered) :
    node.isLeaf = true ↔ ∀ segment, node.child? segment = none := by
  rw [isLeaf_iff, List.eq_nil_iff_forall_not_mem]
  constructor
  · intro hnone segment
    rw [Option.eq_none_iff_forall_not_mem]
    exact fun child hchild => hnone (segment, child) ((mem_children_iff h).2 hchild)
  · rintro hnone ⟨segment, child⟩ hmem
    rw [mem_children_iff h, hnone segment] at hmem
    cases hmem

/-! ### Overlaying named children and items -/

theorem putChild_sorted {children : List (String × Node)} (h : Dict.Sorted children)
    (name : String) (child : Node) : Dict.Sorted (putChild children name child) :=
  Dict.alter_sorted name _ h

/-- One more child: it overlays what was there under its name, and nothing else changes. -/
theorem lookup_putChild {children : List (String × Node)} (h : Dict.Sorted children)
    (name key : String) (child : Node) :
    (putChild children name child).lookup key =
      if key = name then Option.merge merge (children.lookup name) (some child)
      else children.lookup key := by
  rw [putChild, Dict.lookup_alter name key _ h]
  split
  · cases children.lookup name <;> rfl
  · rfl

/-- Children one after the other are overlaid one after the other. -/
theorem mergeChildren_append (children first rest : List (String × Node)) :
    mergeChildren children (first ++ rest) =
      mergeChildren (mergeChildren children first) rest := by
  induction first generalizing children with
  | nil => rw [List.nil_append, mergeChildren]
  | cons pair first ih =>
    obtain ⟨name, child⟩ := pair
    rw [List.cons_append, mergeChildren_cons, mergeChildren_cons, ih]

theorem mergeChildren_sorted {children later : List (String × Node)}
    (h : Dict.Sorted children) : Dict.Sorted (mergeChildren children later) := by
  induction later generalizing children with
  | nil => rwa [mergeChildren]
  | cons pair rest ih =>
    obtain ⟨name, child⟩ := pair
    rw [mergeChildren_cons]
    exact ih (putChild_sorted h name child)

theorem lookup_mergeChildren {children later : List (String × Node)}
    (h : Dict.Sorted children) (hlater : Dict.Sorted later) (key : String) :
    (mergeChildren children later).lookup key =
      Option.merge merge (children.lookup key) (later.lookup key) := by
  induction later generalizing children with
  | nil => simp [mergeChildren]
  | cons pair rest ih =>
    obtain ⟨name, child⟩ := pair
    have hrest : Dict.Sorted rest := (List.pairwise_cons.1 hlater).2
    rw [mergeChildren_cons, ih (putChild_sorted h name child) hrest, lookup_putChild h,
      List.lookup_cons]
    by_cases hkey : key = name
    · subst hkey
      -- the names ascend, so the rest has nothing more under this one
      have hnone : rest.lookup key = none :=
        Dict.lookup_eq_none (List.pairwise_cons.1 hlater).1
      simp [hnone]
    · have hbeq : (key == name) = false := by simpa using hkey
      rw [if_neg hkey, hbeq]

theorem getElem?_mergeItems (items later : List Node) (i : Nat) :
    (mergeItems items later)[i]? = Option.merge merge items[i]? later[i]? := by
  induction later generalizing items i with
  | nil => simp [mergeItems]
  | cons item rest ih =>
    cases items with
    | nil => simp [mergeItems]
    | cons earlier more =>
      rw [mergeItems]
      cases i with
      | zero => rfl
      | succ i => simpa using ih more i

/-! ### Overlaying nodes -/

section Merge

variable (a b : Node)

theorem merge_inputs : (a.merge b).inputs = mergeChildren a.inputs b.inputs := by
  cases b
  rw [merge]

theorem merge_outputs : (a.merge b).outputs = mergeChildren a.outputs b.outputs := by
  cases b
  rw [merge]

theorem merge_items : (a.merge b).items = mergeItems a.items b.items := by
  cases b
  rw [merge]

theorem merge_value : (a.merge b).value = b.value.or a.value := by
  cases b
  rw [merge]

theorem merge_fieldName : (a.merge b).fieldName = b.fieldName.or a.fieldName := by
  cases b
  rw [merge]

end Merge

/-- **A merged node has at each segment** what the two nodes have there, the one overlaid
by the other. -/
theorem child?_merge {a b : Node} (ha : a.Ordered) (hb : b.Ordered) (segment : Segment) :
    (a.merge b).child? segment =
      Option.merge merge (a.child? segment) (b.child? segment) := by
  rcases segment with ⟨_ | _, name⟩ | i
  · rw [child?, merge_inputs]
    exact lookup_mergeChildren ha.inputs hb.inputs name
  · rw [child?, merge_outputs]
    exact lookup_mergeChildren ha.outputs hb.outputs name
  · rw [child?, merge_items]
    exact getElem?_mergeItems a.items b.items i

/-- Merging keeps nodes ordered. -/
theorem Ordered.merge {a b : Node} (ha : a.Ordered) (hb : b.Ordered) :
    (a.merge b).Ordered := by
  induction hb generalizing a with
  | @mk b inputs outputs below ih =>
    refine ⟨?_, ?_, fun segment child hchild => ?_⟩
    · rw [merge_inputs]
      exact mergeChildren_sorted ha.inputs
    · rw [merge_outputs]
      exact mergeChildren_sorted ha.outputs
    · rw [child?_merge ha ⟨inputs, outputs, below⟩] at hchild
      cases hfirst : a.child? segment with
      | none =>
        rw [hfirst, Option.merge_none_left] at hchild
        exact below segment child hchild
      | some earlier =>
        cases hsecond : b.child? segment with
        | none =>
          rw [hfirst, hsecond, Option.merge_none_right] at hchild
          exact ha.child (hfirst.trans hchild)
        | some later =>
          rw [hfirst, hsecond, Option.merge_some_some, Option.some.injEq] at hchild
          rw [← hchild]
          exact ih segment later hsecond (ha.child hfirst)

/-- **A merged node has at each place** what the two nodes have there, the one overlaid by
the other. -/
theorem get?_merge {a b : Node} (ha : a.Ordered) (hb : b.Ordered) (segments : List Segment) :
    (a.merge b).get? segments = Option.merge merge (a.get? segments) (b.get? segments) := by
  induction segments generalizing a b with
  | nil => rfl
  | cons segment rest ih =>
    rw [get?, get?, get?, child?_merge ha hb]
    cases hfirst : a.child? segment with
    | none => simp
    | some earlier =>
      cases hsecond : b.child? segment with
      | none => simp
      | some later =>
        rw [Option.merge_some_some]
        exact ih (ha.child hfirst) (hb.child hsecond)

/-- The merged node is a leaf if both nodes are. -/
theorem isLeaf_merge {a b : Node} (ha : a.Ordered) (hb : b.Ordered) :
    (a.merge b).isLeaf = (a.isLeaf && b.isLeaf) := by
  rw [Bool.eq_iff_iff, Bool.and_eq_true, isLeaf_iff_child? (ha.merge hb), isLeaf_iff_child? ha,
    isLeaf_iff_child? hb]
  simp only [child?_merge ha hb, Option.merge_eq_none_iff, forall_and]

/-! ### Overlaying one node after the other -/

/-- The nodes of a list as one: each is overlaid by the ones after it. -/
def overlay (nodes : List Node) : Option Node :=
  nodes.foldl (fun earlier later => Option.merge merge earlier (some later)) none

@[simp] theorem overlay_nil : overlay [] = none := rfl

@[simp] theorem overlay_singleton (node : Node) : overlay [node] = some node := rfl

theorem overlay_concat (nodes : List Node) (node : Node) :
    overlay (nodes ++ [node]) = Option.merge merge (overlay nodes) (some node) := by
  rw [overlay, List.foldl_append]
  rfl

theorem overlay_eq_none_iff {nodes : List Node} : overlay nodes = none ↔ nodes = [] := by
  rcases List.eq_nil_or_concat nodes with rfl | ⟨init, last, rfl⟩
  · simp
  · simp [List.concat_eq_append, overlay_concat, Option.merge_eq_none_iff]

/-- What is overlaid is some nodes. -/
theorem exists_mem_of_overlay {nodes : List Node} {node : Node} (h : overlay nodes = some node) :
    ∃ part, part ∈ nodes := by
  refine List.exists_mem_of_ne_nil nodes fun hnil => ?_
  rw [hnil, overlay_nil] at h
  cases h

theorem overlay_ordered {nodes : List Node} (h : ∀ node ∈ nodes, node.Ordered) {node : Node}
    (hnode : overlay nodes = some node) : node.Ordered := by
  induction nodes using List.reverseRecOn generalizing node with
  | nil => simp at hnode
  | append_singleton init last ih =>
    have hlast : last.Ordered := h last (by simp)
    have hinit : ∀ node ∈ init, node.Ordered := fun node hmem => h node (by simp [hmem])
    rw [overlay_concat] at hnode
    cases hearlier : overlay init with
    | none =>
      rw [hearlier, Option.merge_none_left, Option.some.injEq] at hnode
      exact hnode ▸ hlast
    | some earlier =>
      rw [hearlier, Option.merge_some_some, Option.some.injEq] at hnode
      exact hnode ▸ (ih hinit hearlier).merge hlast

/-- **At each place of nodes overlaid one after the other** stand their nodes there,
overlaid one after the other. -/
theorem overlay_bind_get? {nodes : List Node} (h : ∀ node ∈ nodes, node.Ordered)
    (segments : List Segment) :
    (overlay nodes).bind (fun node => node.get? segments) =
      overlay (nodes.filterMap fun node => node.get? segments) := by
  induction nodes using List.reverseRecOn with
  | nil => rfl
  | append_singleton init last ih =>
    have hlast : last.Ordered := h last (by simp)
    have hinit : ∀ node ∈ init, node.Ordered := fun node hmem => h node (by simp [hmem])
    rw [overlay_concat, List.filterMap_append]
    have hstep : (Option.merge merge (overlay init) (some last)).bind
        (fun node => node.get? segments) =
        Option.merge merge ((overlay init).bind fun node => node.get? segments)
          (last.get? segments) := by
      cases hearlier : overlay init with
      | none => simp
      | some earlier => exact get?_merge (overlay_ordered hinit hearlier) hlast segments
    rw [hstep, ih hinit]
    cases htarget : last.get? segments with
    | none => simp [htarget]
    | some target => simp [htarget, overlay_concat]

/-- What a node holds itself, if the overlaying node's wins: of several nodes it is the
last one's that has any. -/
theorem overlay_bind_slot {α : Type} {slot : Node → Option α}
    (hslot : ∀ a b : Node, slot (a.merge b) = (slot b).or (slot a)) (nodes : List Node) :
    (overlay nodes).bind slot = (nodes.filterMap slot).getLast? := by
  induction nodes using List.reverseRecOn with
  | nil => rfl
  | append_singleton init last ih =>
    rw [overlay_concat, List.filterMap_append]
    have hstep : (Option.merge merge (overlay init) (some last)).bind slot =
        (slot last).or ((overlay init).bind slot) := by
      cases overlay init with
      | none => simp
      | some earlier => exact hslot earlier last
    rw [hstep, ih]
    cases hlast : slot last with
    | none => simp [hlast]
    | some held => simp [hlast]

/-- Nodes overlaid one after the other are a leaf if they all are. -/
theorem overlay_isLeaf {nodes : List Node} (h : ∀ node ∈ nodes, node.Ordered) {node : Node}
    (hnode : overlay nodes = some node) :
    node.isLeaf = true ↔ ∀ part ∈ nodes, part.isLeaf = true := by
  induction nodes using List.reverseRecOn generalizing node with
  | nil => simp at hnode
  | append_singleton init last ih =>
    have hlast : last.Ordered := h last (by simp)
    have hinit : ∀ node ∈ init, node.Ordered := fun node hmem => h node (by simp [hmem])
    rw [overlay_concat] at hnode
    simp only [List.mem_append, List.mem_singleton, or_imp, forall_and, forall_eq]
    cases hearlier : overlay init with
    | none =>
      rw [hearlier, Option.merge_none_left, Option.some.injEq] at hnode
      rw [overlay_eq_none_iff] at hearlier
      simp [hearlier, hnode]
    | some earlier =>
      rw [hearlier, Option.merge_some_some, Option.some.injEq] at hnode
      rw [← hnode, isLeaf_merge (overlay_ordered hinit hearlier) hlast, Bool.and_eq_true,
        ih hinit hearlier]

/-! ### Gathering -/

theorem gather_concat (children : List (String × Node)) (name : String) (child : Node) :
    gather (children ++ [(name, child)]) = putChild (gather children) name child := by
  rw [gather, List.foldl_append]
  rfl

/-- Gathering is overlaying nothing. -/
theorem mergeChildren_nil_left (children : List (String × Node)) :
    mergeChildren [] children = gather children := by
  induction children using List.reverseRecOn with
  | nil =>
    rw [mergeChildren]
    rfl
  | append_singleton init last ih =>
    obtain ⟨name, child⟩ := last
    rw [mergeChildren_append, ih, gather_concat, mergeChildren_cons, mergeChildren]

theorem gather_sorted (children : List (String × Node)) : Dict.Sorted (gather children) := by
  induction children using List.reverseRecOn with
  | nil => exact List.Pairwise.nil
  | append_singleton init last ih =>
    rw [gather_concat]
    exact putChild_sorted ih last.1 last.2

/-- **What is gathered under a name**: all the children of that name, overlaid one after
the other. -/
theorem lookup_gather (children : List (String × Node)) (key : String) :
    (gather children).lookup key =
      overlay ((children.filter fun pair => pair.1 == key).map Prod.snd) := by
  induction children using List.reverseRecOn with
  | nil => rfl
  | append_singleton init last ih =>
    obtain ⟨name, child⟩ := last
    rw [gather_concat, lookup_putChild (gather_sorted init), List.filter_append,
      List.map_append]
    by_cases hkey : key = name
    · subst hkey
      simp [ih, overlay_concat]
    · have hbeq : (name == key) = false := by simpa using Ne.symm hkey
      simp [hkey, hbeq, ih]

theorem gather_ordered {children : List (String × Node)}
    (h : ∀ pair ∈ children, pair.2.Ordered) {key : String} {child : Node}
    (hchild : (gather children).lookup key = some child) : child.Ordered := by
  rw [lookup_gather] at hchild
  refine overlay_ordered (fun node hnode => ?_) hchild
  obtain ⟨pair, hpair, rfl⟩ := List.mem_map.1 hnode
  exact h pair (List.mem_filter.1 hpair).1

/-- Something is gathered if there is anything to gather. -/
theorem gather_eq_nil_iff (children : List (String × Node)) :
    gather children = [] ↔ children = [] := by
  refine ⟨fun h => ?_, fun h => by rw [h]; rfl⟩
  rcases List.eq_nil_or_concat children with hnil | ⟨init, ⟨name, child⟩, rfl⟩
  · exact hnil
  · have hlookup := lookup_gather (init.concat (name, child)) name
    rw [h, List.concat_eq_append] at hlookup
    have hempty := overlay_eq_none_iff.1 hlookup.symm
    simp at hempty

end Node

end QueryAccess
