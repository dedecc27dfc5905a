import QueryAccess.Proofs.Rules.Visits
import QueryAccess.Proofs.Tree.Resolve

/-!
# Twin nodes

Two nodes are *twins* (`QueryAccess.Node.Twin`) if they hold the same value and their children
correspond, forth and back: a child of one and its counterpart read the same, as rules read them
and as relative paths do, and are twins again. The keys of the outputs may differ, and with them
the order of the children; what the keys stand for may not.

**Places.** Every place of a node has its counterpart in a twin
(`QueryAccess.Node.Twin.get?`), where the way down reads the same. A relative path looks for
what reads as the path, and so it finds counterparts (`QueryAccess.Node.Twin.resolve`).

**Trees.** Twin trees have twin roots (`QueryAccess.Tree.Twin`). A place of one and its
counterpart have the same rule, and drop rules on them start from twin scopes
(`QueryAccess.Tree.Twin.counterpart`).
-/

namespace QueryAccess

/-! ### Nodes -/

/-- Two children read the same: as rules do, and as relative paths do. -/
structure Segment.ReadsAs (segment : Segment) (child : Node) (other : Segment)
    (otherChild : Node) : Prop where
  field : segment.forField child = other.forField otherChild
  rule : segment.forRule child = other.forRule otherChild

/-- **Two nodes are twins**: they hold the same value, and their children correspond, in such a
way that a child and its counterpart read the same and are twins. -/
inductive Node.Twin : Node → Node → Prop where
  | mk {a b : Node} (pairs : Segment → Node → Segment → Node → Prop) (value : a.value = b.value)
      (forth : ∀ segment child, a.child? segment = some child →
        ∃ other otherChild, b.child? other = some otherChild ∧
          pairs segment child other otherChild)
      (back : ∀ other otherChild, b.child? other = some otherChild →
        ∃ segment child, a.child? segment = some child ∧ pairs segment child other otherChild)
      (reads : ∀ segment child other otherChild, pairs segment child other otherChild →
        segment.ReadsAs child other otherChild)
      (below : ∀ segment child other otherChild, pairs segment child other otherChild →
        Twin child otherChild) : Twin a b

namespace Node.Twin

variable {a b : Node}

theorem value_eq (h : Twin a b) : a.value = b.value := by
  cases h
  assumption

/-- The counterpart of a child. -/
theorem child (h : Twin a b) {segment : Segment} {child : Node}
    (hchild : a.child? segment = some child) :
    ∃ other otherChild, b.child? other = some otherChild ∧
      segment.ReadsAs child other otherChild ∧ Twin child otherChild := by
  cases h with
  | mk pairs _ forth _ reads below =>
    obtain ⟨other, otherChild, hother, hpair⟩ := forth segment child hchild
    exact ⟨other, otherChild, hother, reads _ _ _ _ hpair, below _ _ _ _ hpair⟩

theorem symm (h : Twin a b) : Twin b a := by
  induction h with
  | mk pairs value forth back reads _ ih =>
    refine ⟨fun segment child other otherChild => pairs other otherChild segment child,
      value.symm, back, forth, fun _ _ _ _ hpair => ?_, fun _ _ _ _ hpair => ih _ _ _ _ hpair⟩
    have hreads := reads _ _ _ _ hpair
    exact ⟨hreads.field.symm, hreads.rule.symm⟩

/-- A node is its own twin. -/
theorem refl (node : Node) : Twin node node := by
  induction node using induction_children with
  | step node ih =>
    refine ⟨fun segment child other otherChild =>
      (segment, child) = (other, otherChild) ∧ node.child? segment = some child, rfl,
      fun segment child hchild => ⟨segment, child, hchild, rfl, hchild⟩,
      fun segment child hchild => ⟨segment, child, hchild, rfl, hchild⟩, ?_, ?_⟩
    · rintro segment child _ _ ⟨⟨rfl, rfl⟩, -⟩
      exact ⟨rfl, rfl⟩
    · rintro segment child _ _ ⟨⟨rfl, rfl⟩, hchild⟩
      exact ih segment child (mem_children_of_child? hchild)

/-- Twins are leaves together. -/
theorem isLeaf_of (h : Twin a b) (ha : a.Ordered) (hb : b.Ordered) (hleaf : a.isLeaf = true) :
    b.isLeaf = true := by
  rw [isLeaf_iff_child? ha] at hleaf
  rw [isLeaf_iff_child? hb]
  intro segment
  rw [Option.eq_none_iff_forall_not_mem]
  intro child hchild
  obtain ⟨other, otherChild, hother, -⟩ := h.symm.child hchild
  rw [hleaf other] at hother
  cases hother

/-- **The counterpart of a place**: the way to it reads the same, and a twin stands there. -/
theorem get? (h : Twin a b) {segments : List Segment} {target : Node}
    (htarget : a.get? segments = some target) :
    ∃ others other, b.get? others = some other ∧
      b.fieldSegments others = a.fieldSegments segments ∧
      b.ruleSegments others = a.ruleSegments segments ∧ Twin target other := by
  induction segments generalizing a b with
  | nil =>
    obtain rfl := Option.some.inj htarget
    exact ⟨[], b, rfl, rfl, rfl, h⟩
  | cons segment rest ih =>
    obtain ⟨child, hchild, hrest⟩ := Option.bind_eq_some_iff.1 htarget
    obtain ⟨taken, otherChild, hother, hreads, htwin⟩ := h.child hchild
    obtain ⟨others, other, hget, hfield, hrule, hbelow⟩ := ih htwin hrest
    refine ⟨taken :: others, other, ?_, ?_, ?_, hbelow⟩
    · rw [Node.get?_of_child? hother, hget]
    · rw [fieldSegments_cons hother, fieldSegments_cons hchild, hfield, hreads.field]
    · rw [ruleSegments_cons hother, ruleSegments_cons hchild, hrule, hreads.rule]

/-- **A relative path finds counterparts** in twins. -/
theorem resolve (h : Twin a b) (ha : a.Ordered) (hb : b.Ordered) {relative : List Segment}
    {place : List Segment × Node} (hplace : place ∈ a.resolve relative) :
    ∃ other ∈ b.resolve relative, other.2.value = place.2.value := by
  obtain ⟨segments, target⟩ := place
  obtain ⟨htarget, hfield⟩ := (mem_resolve_iff ha).1 hplace
  obtain ⟨others, other, hother, hreads, -, htwin⟩ := h.get? htarget
  exact ⟨(others, other), (mem_resolve_iff hb).2 ⟨hother, hreads.trans hfield⟩,
    htwin.value_eq.symm⟩

end Node.Twin

/-! ### Trees -/

/-- **Two trees are twins** if their roots are. -/
structure Tree.Twin (tree other : Tree) : Prop where
  forth : ∀ keyword root, tree.root? keyword = some root →
    ∃ otherRoot, other.root? keyword = some otherRoot ∧ root.Twin otherRoot
  back : ∀ keyword otherRoot, other.root? keyword = some otherRoot →
    ∃ root, tree.root? keyword = some root ∧ root.Twin otherRoot

/-- Two scopes, each with a side: the side is the same, and twins stand there. -/
def Tree.TwinScopes (tree other : Tree) (scope otherScope : TreePath × Facet) : Prop :=
  scope.2 = otherScope.2 ∧ ∃ base otherBase, tree.get? scope.1 = some base ∧
    other.get? otherScope.1 = some otherBase ∧ base.Twin otherBase

/-- The rule segments of a child, from further up. -/
theorem Node.ruleSegments_concat {node base child : Node} {segments : List Segment}
    {segment : Segment} (hbase : node.get? segments = some base)
    (hchild : base.child? segment = some child) :
    node.ruleSegments (segments ++ [segment]) =
      node.ruleSegments segments ++ segment.forRule child := by
  induction segments generalizing node with
  | nil =>
    obtain rfl := Option.some.inj hbase
    rw [List.nil_append, ruleSegments_cons hchild, ruleSegments, ruleSegments, List.append_nil,
      List.nil_append]
  | cons first rest ih =>
    obtain ⟨next, hnext, hrest⟩ := Option.bind_eq_some_iff.1 hbase
    rw [List.cons_append, ruleSegments_cons hnext, ruleSegments_cons hnext, ih hrest,
      List.append_assoc]

/-- What stands under a name has its parent for a scope, and an element of a list has none. -/
theorem TreePath.scope?_child (path : TreePath) (segment : Segment) :
    (path.child segment).scope? = segment.facet?.map fun facet => (path, facet) := by
  cases segment with
  | named facet key => exact scope?_child_named path facet key
  | index i => exact scope?_child_index path i

/-- Segments that read the same are on the same side. -/
theorem Segment.ReadsAs.facet?_eq {segment other : Segment} {child otherChild : Node}
    (h : segment.ReadsAs child other otherChild) : segment.facet? = other.facet? := by
  have hfacet : ∀ (segment : Segment) (child : Node),
      (segment.forField child).facet? = segment.facet? := by
    rintro (⟨_ | _, key⟩ | i) child <;> rfl
  rw [← hfacet segment child, h.field, hfacet]

theorem Tree.rulePath_of_root {tree : Tree} {keyword : String} {root : Node}
    (hroot : tree.root? keyword = some root) (segments : List Segment) :
    tree.rulePath ⟨keyword, segments⟩ = ⟨keyword, root.ruleSegments segments⟩ := by
  rw [rulePath, hroot]

namespace Tree.Twin

variable {tree other : Tree}

theorem symm (h : Twin tree other) : Twin other tree where
  forth keyword root hroot := by
    obtain ⟨otherRoot, hother, htwin⟩ := h.back keyword root hroot
    exact ⟨otherRoot, hother, htwin.symm⟩
  back keyword root hroot := by
    obtain ⟨otherRoot, hother, htwin⟩ := h.forth keyword root hroot
    exact ⟨otherRoot, hother, htwin.symm⟩

/-- **The counterpart of a place** in a twin tree: it has the same rule path, drop rules on it
start from a twin scope, and a twin stands there. -/
theorem counterpart (h : Twin tree other) {path : TreePath} {node : Node}
    (hnode : tree.get? path = some node) :
    ∃ otherPath otherNode, other.get? otherPath = some otherNode ∧
      other.rulePath otherPath = tree.rulePath path ∧
      Option.Rel (TwinScopes tree other) path.scope? otherPath.scope? ∧ node.Twin otherNode := by
  obtain ⟨keyword, segments⟩ := path
  obtain ⟨root, hroot, hget⟩ := Option.bind_eq_some_iff.1 hnode
  obtain ⟨otherRoot, hother, htwin⟩ := h.forth keyword root hroot
  rcases List.eq_nil_or_concat segments with rfl | ⟨init, last, rfl⟩
  · obtain rfl := Option.some.inj hget
    refine ⟨.ofRoot keyword, otherRoot, get?_of_root hother [], ?_, ?_, htwin⟩
    · rw [TreePath.ofRoot, rulePath_of_root hother, rulePath_of_root hroot, Node.ruleSegments,
        Node.ruleSegments]
    · exact .some ⟨rfl, root, otherRoot, hnode, get?_of_root hother [], htwin⟩
  · rw [List.concat_eq_append] at hget hnode ⊢
    rw [Node.get?_append, Option.bind_eq_some_iff] at hget
    obtain ⟨base, hbase, hlast⟩ := hget
    rw [Node.get?_singleton] at hlast
    obtain ⟨others, otherBase, hotherBase, -, hrule, hbelow⟩ := htwin.get? hbase
    obtain ⟨taken, otherNode, htaken, hreads, hchild⟩ := hbelow.child hlast
    refine ⟨TreePath.child ⟨keyword, others⟩ taken, otherNode, ?_, ?_, ?_, hchild⟩
    · rw [TreePath.child, get?_of_root hother, Node.get?_append, hotherBase, Option.bind_some,
        Node.get?_singleton, htaken]
    · rw [TreePath.child, rulePath_of_root hother, rulePath_of_root hroot,
        Node.ruleSegments_concat hotherBase htaken, Node.ruleSegments_concat hbase hlast, hrule,
        hreads.rule]
    · have hscopes (facet : Facet) :
          TwinScopes tree other (⟨keyword, init⟩, facet) (⟨keyword, others⟩, facet) :=
        ⟨rfl, base, otherBase, (get?_of_root hroot init).trans hbase,
          (get?_of_root hother others).trans hotherBase, hbelow⟩
      rw [TreePath.scope?_child, ← hreads.facet?_eq]
      show Option.Rel _ (TreePath.child ⟨keyword, init⟩ last).scope? _
      rw [TreePath.scope?_child]
      cases last.facet? with
      | none => exact .none
      | some facet => exact .some (hscopes facet)

end Tree.Twin

end QueryAccess
