import Mathlib.Data.List.Infix
import QueryAccess.Proofs.Tree.Listing

/-!
# What a relative path finds

A relative path goes for outputs by the name of the field, whatever key they stand under,
and for everything else by its place. `QueryAccess.Node.fieldSegments` reads the keys of
a place as names in this way, and `QueryAccess.Node.resolve_eq_filter` says that this is all
there is to it: of all the places that a node lists, a relative path finds those that read
as the path, in the order of the listing. The search branches at each alias, but it takes its
branches in the order of the children, which is that of the listing.

A way down one node is *kept* in another (`QueryAccess.Node.KeptIn`) if each place on it is
a place of the other as well, and stands for the same field there. The two nodes then read
the way alike (`QueryAccess.Node.KeptIn.fieldSegments_eq`), so what a relative path finds in
the one at the end of such a way it finds in the other
(`QueryAccess.Node.KeptIn.mem_resolve`). This says something of one way at a time: what the
two nodes have elsewhere does not matter.
-/

namespace QueryAccess

/-- The segment at which a relative path looks for a child: an output is looked for by
the name of its field. -/
def Segment.forField (segment : Segment) (child : Node) : Segment :=
  match segment with
  | .named .output key => .named .output (child.nameUnder key)
  | other => other

namespace Node

/-- **The segments that look for a place**: each key of an output gives way to the name of
the field. Where the node has no such place, the segments stay as they are. -/
def fieldSegments (node : Node) : List Segment → List Segment
  | [] => []
  | segment :: rest =>
    match node.child? segment with
    | none => segment :: rest
    | some child => segment.forField child :: child.fieldSegments rest

theorem fieldSegments_cons {node child : Node} {segment : Segment}
    (h : node.child? segment = some child) (rest : List Segment) :
    node.fieldSegments (segment :: rest) = segment.forField child :: child.fieldSegments rest := by
  rw [fieldSegments, h]

/-! ### Finding -/

/-- Among the children one stands at a segment, if any. -/
theorem filter_children {node : Node} (h : node.Ordered) (segment : Segment) :
    (node.children.filter fun pair => pair.1 = segment) =
      ((node.child? segment).map fun child => (segment, child)).toList := by
  cases hchild : node.child? segment with
  | none =>
    refine List.filter_eq_nil_iff.2 fun pair hpair heq => ?_
    rw [decide_eq_true_eq] at heq
    rw [← heq, (mem_children_iff h).1 hpair] at hchild
    cases hchild
  | some child =>
    rw [← List.flatMap_singleton' (node.children.filter _), flatMap_filter_eq,
      flatMap_children h hchild]
    · simp
    · intro pair _ hne
      simp [hne]

/-- **The children that a segment means** are those that are looked for at it, in the order of
the children. -/
theorem matching_eq_filter {node : Node} (h : node.Ordered) (segment : Segment) :
    node.matching segment =
      node.children.filter fun pair => pair.1.forField pair.2 = segment := by
  -- only outputs are looked for elsewhere than at their own segments
  have hplace : ∀ segment : Segment, (∀ name, segment ≠ .named .output name) →
      ((node.child? segment).map fun child => (segment, child)).toList =
        node.children.filter fun pair => pair.1.forField pair.2 = segment := by
    intro segment hsegment
    rw [← filter_children h]
    refine List.filter_congr fun pair _ => decide_eq_decide.2 ?_
    rcases pair with ⟨⟨_ | _, name⟩ | i, child⟩
    · rfl
    · exact iff_of_false (hsegment name ∘ Eq.symm) (hsegment _ ∘ Eq.symm)
    · rfl
  rcases segment with ⟨_ | _, name⟩ | i
  · exact hplace _ (by simp)
  · -- neither inputs nor items are looked for as outputs
    have hinputs : ((node.inputs.map fun pair => (Segment.named .input pair.1, pair.2)).filter
        fun pair => pair.1.forField pair.2 = .named .output name) = [] := by
      refine List.filter_eq_nil_iff.2 fun pair hpair heq => ?_
      obtain ⟨input, -, rfl⟩ := List.mem_map.1 hpair
      simp [Segment.forField] at heq
    have hitems : ((node.items.zipIdx.map fun pair => (Segment.index pair.2, pair.1)).filter
        fun pair => pair.1.forField pair.2 = .named .output name) = [] := by
      refine List.filter_eq_nil_iff.2 fun pair hpair heq => ?_
      obtain ⟨item, -, rfl⟩ := List.mem_map.1 hpair
      simp [Segment.forField] at heq
    rw [children, List.filter_append, List.filter_append, hinputs, hitems, List.nil_append,
      List.append_nil, List.filter_map, matching]
    congr 1
    refine List.filter_congr fun pair _ => ?_
    simp [Segment.forField, beq_eq_decide]
  · exact hplace _ (by simp)

/-- **The search finds the places that read as the path**, in the order of the listing. -/
theorem resolve_eq_filter {node : Node} (h : node.Ordered) (relative : List Segment) :
    node.resolve relative =
      (node.listing []).filter fun place => node.fieldSegments place.1 = relative := by
  induction relative generalizing node with
  | nil =>
    have hbelow : ((node.children.flatMap fun pair => pair.2.listing [pair.1]).filter
        fun place => node.fieldSegments place.1 = []) = [] := by
      refine List.filter_eq_nil_iff.2 fun place hplace hnil => ?_
      obtain ⟨pair, hpair, hplace⟩ := List.mem_flatMap.1 hplace
      rw [listing_child] at hplace
      obtain ⟨below, -, rfl⟩ := List.mem_map.1 hplace
      rw [decide_eq_true_eq, fieldSegments_cons ((mem_children_iff h).1 hpair)] at hnil
      cases hnil
    rw [resolve, listing_eq, List.filter_cons_of_pos (by simp [fieldSegments])]
    exact congrArg _ hbelow.symm
  | cons segment rest ih =>
    rw [resolve, matching_eq_filter h, flatMap_filter_eq, listing_eq,
      List.filter_cons_of_neg (by simp [fieldSegments]), List.filter_flatMap]
    refine List.flatMap_congr fun pair hpair => ?_
    obtain ⟨taken, child⟩ := pair
    have hchild : node.child? taken = some child := (mem_children_iff h).1 hpair
    dsimp only
    rw [List.nil_append, listing_child, List.filter_map, ih (h.child hchild)]
    by_cases hsegment : taken.forField child = segment
    · rw [if_pos (decide_eq_true hsegment)]
      congr 1
      refine List.filter_congr fun place _ => decide_eq_decide.2 ?_
      rw [fieldSegments_cons hchild, List.cons.injEq, and_iff_right hsegment]
    · rw [if_neg (by simpa using hsegment)]
      refine (List.map_eq_nil_iff.2 (List.filter_eq_nil_iff.2 fun place _ heq => ?_)).symm
      rw [Function.comp_apply, decide_eq_true_eq, fieldSegments_cons hchild, List.cons.injEq] at heq
      exact hsegment heq.1

/-- **A relative path finds the places that read as the path.** -/
theorem mem_resolve_iff {node target : Node} (h : node.Ordered)
    {segments relative : List Segment} :
    (segments, target) ∈ node.resolve relative ↔
      node.get? segments = some target ∧ node.fieldSegments segments = relative := by
  rw [resolve_eq_filter h, List.mem_filter, mem_listing h, decide_eq_true_eq]

/-! ### Ways that are kept -/

/-- The name of the field that a node stands for at the end of some segments. -/
def nameAt (node : Node) (segments : List Segment) : Option String :=
  (segments.getLast?.bind Segment.name?).map fun key => node.nameUnder key

/-- **A way is kept** in another node if each place on it, the end included, is a place there
too and stands for the same field. -/
def KeptIn (part whole : Node) (segments : List Segment) : Prop :=
  ∀ init ∈ segments.inits, ∀ target ∈ part.get? init,
    ∃ merged ∈ whole.get? init, merged.nameAt init = target.nameAt init

namespace KeptIn

variable {part whole : Node} {segment : Segment} {segments : List Segment}

/-- One step down a way that is kept, and what is left of it is kept. -/
theorem child {child : Node} (h : part.KeptIn whole (segment :: segments))
    (hchild : part.child? segment = some child) :
    ∃ merged, whole.child? segment = some merged ∧
      merged.nameAt [segment] = child.nameAt [segment] ∧ child.KeptIn merged segments := by
  obtain ⟨merged, hmerged, hname⟩ := h [segment] (by simp) child
    ((get?_singleton part segment).trans hchild)
  have hmergedChild : whole.child? segment = some merged :=
    (get?_singleton whole segment).symm.trans hmerged
  refine ⟨merged, hmergedChild, hname, fun init hinit target htarget => ?_⟩
  have hlonger : segment :: init ∈ (segment :: segments).inits := by
    rw [List.mem_inits] at hinit ⊢
    exact List.cons_prefix_cons.2 ⟨rfl, hinit⟩
  obtain ⟨other, hother, hname⟩ := h (segment :: init) hlonger target
    ((get?_of_child? hchild init).trans htarget)
  refine ⟨other, (get?_of_child? hmergedChild init).symm.trans hother, ?_⟩
  cases init with
  | nil => rfl
  | cons first rest => exact hname

/-- What is left below a place of a way that is kept is kept. -/
theorem below {first rest : List Segment} {target : Node} (h : part.KeptIn whole (first ++ rest))
    (htarget : part.get? first = some target) :
    ∃ merged, whole.get? first = some merged ∧ target.KeptIn merged rest := by
  induction first generalizing part whole with
  | nil =>
    obtain rfl := Option.some.inj htarget
    exact ⟨whole, rfl, h⟩
  | cons segment first ih =>
    obtain ⟨child, hchild, hrest⟩ := Option.bind_eq_some_iff.1 htarget
    obtain ⟨mergedChild, hmergedChild, -, hkept⟩ := h.child hchild
    obtain ⟨merged, hmerged, hbelow⟩ := ih hkept hrest
    exact ⟨merged, (get?_of_child? hmergedChild first).trans hmerged, hbelow⟩

theorem forField_eq {child merged : Node}
    (h : merged.nameAt [segment] = child.nameAt [segment]) :
    segment.forField merged = segment.forField child := by
  rcases segment with ⟨_ | _, key⟩ | i
  · rfl
  · have hname : merged.nameUnder key = child.nameUnder key := Option.some.inj h
    rw [Segment.forField, Segment.forField, hname]
  · rfl

/-- A way that is kept reads in the other node as it reads in the node. -/
theorem fieldSegments_eq {target : Node} (h : part.KeptIn whole segments)
    (htarget : part.get? segments = some target) :
    whole.fieldSegments segments = part.fieldSegments segments := by
  induction segments generalizing part whole with
  | nil => rfl
  | cons segment rest ih =>
    obtain ⟨child, hchild, hrest⟩ := Option.bind_eq_some_iff.1 htarget
    obtain ⟨merged, hmerged, hname, hbelow⟩ := h.child hchild
    rw [fieldSegments_cons hchild, fieldSegments_cons hmerged, forField_eq hname, ih hbelow hrest]

/-- **What a relative path finds in a node it finds in the other**, if the way there is kept. -/
theorem mem_resolve {relative : List Segment} {target : Node} (h : part.KeptIn whole segments)
    (hpart : part.Ordered) (hwhole : whole.Ordered)
    (hfound : (segments, target) ∈ part.resolve relative) :
    ∃ merged, (segments, merged) ∈ whole.resolve relative := by
  obtain ⟨htarget, hfield⟩ := (mem_resolve_iff hpart).1 hfound
  obtain ⟨merged, hmerged, -⟩ := h segments (by simp) target htarget
  exact ⟨merged, (mem_resolve_iff hwhole).2 ⟨hmerged, (h.fieldSegments_eq htarget).trans hfield⟩⟩

end KeptIn

end Node

end QueryAccess
