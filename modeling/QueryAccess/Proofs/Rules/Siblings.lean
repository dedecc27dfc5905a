import QueryAccess.Proofs.Rules.Probes
import QueryAccess.Proofs.Tree.Resolve

/-!
# Operations beside each other

A document may hold several operations, and a client executes one of them. The verdict is
on the document, whose operations of one kind are overlaid in one tree. What does an
allowed document say of a single operation?

**Masking.** Each place of an operation is a place of the whole tree, but what the check
finds there may be another operation's. A leaf may have got children, and is not judged any
more; a place may stand for another field, and has another rule; another value may stand where
a drop rule looks, or something where it found nothing. A leaf of an operation or a probe that
this happens to is *masked* (`QueryAccess.Tree.LeafMasked`, `QueryAccess.Probe.Masked`). All of
it does happen (`QueryAccess.RuleTree.maskings`). What counts is what is there in the end: an
operation that overwrites the others is not masked by them.

**What an allowed document says.** What is not masked is judged in the whole tree as it is in
the operation alone: the leaves by the same rules
(`QueryAccess.RuleTree.permits_of_not_masked`), and the probes by what they read
(`QueryAccess.RuleTree.silent_of_not_masked`). So of an allowed document an operation is
allowed alone if, and only if, nothing that is masked stands against it
(`QueryAccess.RuleTree.validate_alone_iff`). Of an operation without a sibling of its kind
nothing is masked (`QueryAccess.RuleTree.unmasked_of_root`).
-/

namespace QueryAccess

/-! ### One operation alone -/

namespace Document

/-- The document that keeps only one operation, with all fragments. -/
def alone (document : Document) (operation : Operation) : Document :=
  ⟨.operation operation :: document.fragments.map .fragment⟩

@[simp] theorem operations_alone (document : Document) (operation : Operation) :
    (document.alone operation).operations = [operation] := by
  simp [alone, operations, List.filterMap_map]

@[simp] theorem fragments_alone (document : Document) (operation : Operation) :
    (document.alone operation).fragments = document.fragments := by
  simp [alone, fragments, List.filterMap_map]

/-- The tree of one operation of a document, alone. -/
def ownTree (document : Document) (bindings : Dict Json) (operation : Operation) : Tree :=
  Tree.ofDocument (document.alone operation) bindings none

theorem ownTree_ordered (document : Document) (bindings : Dict Json) (operation : Operation) :
    (document.ownTree bindings operation).Ordered :=
  Tree.ofDocument_ordered _ _ _

end Document

namespace Tree

variable (document : Document) (bindings : Dict Json)

theorem get?_ownTree (operation : Operation) (path : TreePath) :
    (document.ownTree bindings operation).get? path =
      if operation.kind.keyword == path.root then
        (ofOperation bindings document.fragments none operation).get? path.segments
      else none := by
  rw [Document.ownTree, get?_ofDocument, Document.operations_alone, Document.fragments_alone]
  cases hkind : operation.kind.keyword == path.root with
  | false => simp [hkind]
  | true =>
    rw [List.filter_singleton, hkind]
    cases hnode : (ofOperation bindings document.fragments none operation).get?
      path.segments with
    | none => simp [hnode]
    | some node => simp [hnode]

/-- **The tree of a document is made of the own trees of its operations**: at each place
stands what they have there, overlaid in the order of the text. -/
theorem get?_eq_overlay (path : TreePath) :
    (ofDocument document bindings none).get? path =
      Node.overlay (document.operations.filterMap fun operation =>
        (document.ownTree bindings operation).get? path) := by
  rw [get?_ofDocument, List.filterMap_filter]
  congr 1
  refine List.filterMap_congr fun operation _ => ?_
  rw [get?_ownTree]

variable {document bindings}

/-- The places of an operation lie below the root of its kind. -/
theorem root_of_get?_ownTree {operation : Operation} {path : TreePath} {node : Node}
    (h : (document.ownTree bindings operation).get? path = some node) :
    operation.kind.keyword = path.root := by
  rw [get?_ownTree] at h
  split at h
  · next hkind => exact beq_iff_eq.1 hkind
  · exact absurd h (Option.some_ne_none node).symm

/-- An operation without a sibling has the root of its kind for itself. -/
theorem get?_eq_ownTree {operation : Operation}
    (h : document.operations.filter (fun other => other.kind = operation.kind) = [operation])
    {path : TreePath} (hroot : operation.kind.keyword = path.root) :
    (ofDocument document bindings none).get? path =
      (document.ownTree bindings operation).get? path := by
  have hfilter : document.operations.filter (·.kind.keyword == path.root) = [operation] := by
    rw [← h]
    refine List.filter_congr fun other _ => ?_
    rw [← hroot, beq_eq_decide, decide_eq_decide]
    exact OperationKind.keyword_injective.eq_iff
  rw [Document.ownTree, get?_ofDocument, get?_ofDocument, hfilter, Document.operations_alone,
    Document.fragments_alone, List.filter_singleton, hroot, beq_self_eq_true]
  rfl

end Tree

/-- What a probe finds stands where it finds it. -/
theorem Probe.get?_of_mem_found {probe : Probe} {query : Tree} (h : query.Ordered)
    {segments : List Segment} {node : Node} (hfound : (segments, node) ∈ probe.found query) :
    query.get? (probe.scope.join segments) = some node := by
  rw [found] at hfound
  split at hfound
  · next relative base hrelative hbase =>
    have hnode := ((Node.mem_resolve_iff (h.get? hbase)).1 hfound).1
    obtain ⟨root, hroot, hget⟩ := Option.bind_eq_some_iff.1 hbase
    rw [Tree.get?, TreePath.join, hroot, Option.bind_some, Node.get?_append, hget,
      Option.bind_some, hnode]
  · exact absurd hfound List.not_mem_nil

/-! ### Ways that are kept -/

/-- A way that is kept has the same rules in the other node. -/
theorem Node.KeptIn.ruleSegments_eq {part whole : Node} {segments : List Segment} {target : Node}
    (h : part.KeptIn whole segments) (htarget : part.get? segments = some target) :
    whole.ruleSegments segments = part.ruleSegments segments := by
  induction segments generalizing part whole with
  | nil => rfl
  | cons segment rest ih =>
    obtain ⟨child, hchild, hrest⟩ := Option.bind_eq_some_iff.1 htarget
    obtain ⟨merged, hmerged, hname, hbelow⟩ := h.child hchild
    have hrule : segment.forRule merged = segment.forRule child := by
      cases segment with
      | named facet key =>
        have hunder : merged.nameUnder key = child.nameUnder key := Option.some.inj hname
        rw [Segment.forRule, Segment.forRule, hunder]
      | index i => rfl
    rw [ruleSegments_cons hchild, ruleSegments_cons hmerged, hrule, ih hbelow hrest]

namespace Tree

/-- **A way is kept** in another tree if each place on it, the end included, is a place there
too and stands for the same field. -/
def KeptIn (part whole : Tree) (path : TreePath) : Prop :=
  ∀ init ∈ path.segments.inits, ∀ target ∈ part.get? ⟨path.root, init⟩,
    ∃ merged ∈ whole.get? ⟨path.root, init⟩, merged.nameAt init = target.nameAt init

instance (part whole : Tree) (path : TreePath) : Decidable (part.KeptIn whole path) :=
  inferInstanceAs (Decidable (∀ init ∈ path.segments.inits,
    ∀ target ∈ part.get? ⟨path.root, init⟩,
      ∃ merged ∈ whole.get? ⟨path.root, init⟩, merged.nameAt init = target.nameAt init))

namespace KeptIn

variable {part whole : Tree} {path : TreePath}

/-- A way that is kept is kept below the root. -/
theorem root (h : part.KeptIn whole path) {root : Node}
    (hroot : part.root? path.root = some root) :
    ∃ merged, whole.root? path.root = some merged ∧ root.KeptIn merged path.segments := by
  obtain ⟨merged, hmerged, -⟩ := h [] (by simp) root (get?_of_root hroot [])
  obtain ⟨mergedRoot, hmergedRoot, -⟩ := Option.bind_eq_some_iff.1 hmerged
  refine ⟨mergedRoot, hmergedRoot, fun init hinit target htarget => ?_⟩
  obtain ⟨other, hother, hname⟩ := h init hinit target ((get?_of_root hroot init).trans htarget)
  exact ⟨other, (get?_of_root hmergedRoot init).symm.trans hother, hname⟩

/-- **The place at the end of a way that is kept has the same rule.** -/
theorem rulePath_eq (h : part.KeptIn whole path) {node : Node}
    (hnode : part.get? path = some node) : whole.rulePath path = part.rulePath path := by
  obtain ⟨root, hroot, hget⟩ := Option.bind_eq_some_iff.1 hnode
  obtain ⟨merged, hmerged, hkept⟩ := h.root hroot
  rw [rulePath, rulePath, hroot, hmerged]
  exact congrArg (TreePath.mk path.root) (hkept.ruleSegments_eq hget)

/-- **What a probe finds at the end of a way that is kept** it finds in the other tree. -/
theorem mem_found {probe : Probe} {segments : List Segment} {node : Node}
    (h : part.KeptIn whole (probe.scope.join segments)) (hpart : part.Ordered)
    (hwhole : whole.Ordered) (hfound : (segments, node) ∈ probe.found part) :
    ∃ merged, (segments, merged) ∈ probe.found whole := by
  rw [Probe.found] at hfound
  split at hfound
  · next relative base hrelative hbase =>
    obtain ⟨root, hroot, hget⟩ := Option.bind_eq_some_iff.1 hbase
    obtain ⟨mergedRoot, hmergedRoot, hkept⟩ := h.root hroot
    obtain ⟨mergedBase, hmergedBase, hbelow⟩ := hkept.below hget
    have hmerged : whole.get? probe.scope = some mergedBase :=
      (get?_of_root hmergedRoot probe.scope.segments).trans hmergedBase
    obtain ⟨merged, hresolved⟩ :=
      hbelow.mem_resolve (hpart.get? hbase) (hwhole.get? hmerged) hfound
    exact ⟨merged, by simpa only [Probe.found, hrelative, hmerged] using hresolved⟩
  · exact absurd hfound List.not_mem_nil

end KeptIn

/-! ### Masking -/

/-- **A leaf is masked** in a larger tree if the way to it is not kept there, or if it has
children there. -/
def LeafMasked (part whole : Tree) (path : TreePath) : Prop :=
  ¬part.KeptIn whole path ∨ ∃ merged ∈ whole.get? path, merged.isLeaf = false

end Tree

namespace Probe

/-- **A probe is masked** in a larger tree if the way to something that it finds is not kept
there, or if another value stands at the end of it; and if it finds nothing, but something in
the larger tree. -/
def Masked (probe : Probe) (part whole : Tree) : Prop :=
  (∃ place ∈ probe.found part,
      ¬part.KeptIn whole (probe.scope.join place.1) ∨
        ∃ merged ∈ whole.get? (probe.scope.join place.1), merged.value ≠ place.2.value) ∨
    (probe.found part = [] ∧ probe.found whole ≠ [])

variable {probe : Probe} {part whole : Tree}

/-- **A probe that is not masked** reads in the larger tree what it reads. -/
theorem readings_subset (hpart : part.Ordered) (hwhole : whole.Ordered)
    (h : ¬probe.Masked part whole) : probe.readings part ⊆ probe.readings whole := by
  rw [Masked, not_or, not_and, not_not] at h
  obtain ⟨hfound, hmissing⟩ := h
  by_cases hnone : probe.found part = []
  · rw [readings_of_not_found hnone, readings_of_not_found (hmissing hnone)]
    exact List.Subset.refl _
  · rw [readings_of_found hnone]
    intro reading hreading
    obtain ⟨⟨segments, node⟩, hplace, rfl⟩ := List.mem_map.1 hreading
    have hkept : part.KeptIn whole (probe.scope.join segments) := by
      by_contra hlost
      exact hfound ⟨_, hplace, .inl hlost⟩
    obtain ⟨merged, hmerged⟩ := hkept.mem_found hpart hwhole hplace
    have hvalue : merged.value = node.value := by
      by_contra hother
      exact hfound ⟨_, hplace, .inr ⟨merged, get?_of_mem_found hwhole hmerged, hother⟩⟩
    rw [readings_of_found (List.ne_nil_of_mem hmerged)]
    exact List.mem_map.2 ⟨(segments, merged), hmerged, by rw [hvalue]⟩

end Probe

namespace TreePath

/-- A scope lies below the same root. -/
theorem root_of_scope? {path scope : TreePath} {facet : Facet}
    (h : path.scope? = some (scope, facet)) : scope.root = path.root := by
  rw [scope?] at h
  split at h
  · rw [Option.some.injEq, Prod.mk.injEq] at h
    rw [h.1]
  · obtain ⟨parent, hparent, heq⟩ := Option.map_eq_some_iff.1 h
    rw [parent?] at hparent
    split at hparent
    · cases hparent
    · rw [Option.some.injEq] at hparent
      rw [← (Prod.mk.inj heq).1, ← hparent]
  · cases h

end TreePath

namespace RuleTree

variable {rules : RuleTree} {caller : Caller} {default : DefaultPolicy}

/-- **What is masked is harmless**: by itself it does not stand against the part. -/
structure MaskedHarmless (rules : RuleTree) (caller : Caller) (default : DefaultPolicy)
    (part whole : Tree) : Prop where
  /-- A leaf that is masked is permitted by its rule. -/
  leaf : ∀ path node, part.get? path = some node → node.isLeaf = true →
    part.LeafMasked whole path → rules.permits caller default (part.rulePath path) = true
  /-- A probe that is masked, or that is met at the end of a way that is not kept, has no
  message. -/
  probe : ∀ path node, part.get? path = some node → ∀ probe ∈ rules.probesAt part caller path,
    ¬part.KeptIn whole path ∨ probe.Masked part whole → probe.messages part caller = []

/-- **Nothing is masked**: the larger tree has every place of the part as it is there. -/
structure Unmasked (rules : RuleTree) (caller : Caller) (part whole : Tree) : Prop where
  /-- The way to every place is kept. -/
  kept : ∀ path node, part.get? path = some node → part.KeptIn whole path
  /-- No leaf has got children. -/
  leaf : ∀ path node, part.get? path = some node → node.isLeaf = true →
    ∀ merged ∈ whole.get? path, merged.isLeaf = true
  /-- Where a probe finds something, the same value stands in the larger tree. -/
  value : ∀ path node, part.get? path = some node → ∀ probe ∈ rules.probesAt part caller path,
    ∀ place ∈ probe.found part, ∀ merged ∈ whole.get? (probe.scope.join place.1),
      merged.value = place.2.value
  /-- Where a probe finds nothing, it finds nothing in the larger tree. -/
  missing : ∀ path node, part.get? path = some node → ∀ probe ∈ rules.probesAt part caller path,
    probe.found part = [] → probe.found whole = []

/-- What is not masked at all is harmless. -/
theorem Unmasked.maskedHarmless {part whole : Tree} (h : rules.Unmasked caller part whole)
    (hpart : part.Ordered) : rules.MaskedHarmless caller default part whole := by
  refine ⟨fun path node hnode hleaf hmasked => ?_, fun path node hnode probe hprobe hmasked => ?_⟩
  · rcases hmasked with hlost | ⟨merged, hmerged, hchildren⟩
    · exact absurd (h.kept path node hnode) hlost
    · rw [h.leaf path node hnode hleaf merged hmerged] at hchildren
      cases hchildren
  · rcases hmasked with hlost | ⟨place, hplace, hlost | ⟨merged, hmerged, hvalue⟩⟩ | ⟨hnone, hsome⟩
    · exact absurd (h.kept path node hnode) hlost
    · have hget := Probe.get?_of_mem_found hpart hplace
      exact absurd (h.kept _ _ hget) hlost
    · exact absurd (h.value path node hnode probe hprobe place hplace merged hmerged) hvalue
    · exact absurd (h.missing path node hnode probe hprobe hnone) hsome

/-! ### What is not masked -/

section Parts

variable {part whole : Tree} {path : TreePath} {node : Node}

/-- A leaf that is not masked is permitted, if all leaves of the larger tree are. -/
theorem permits_of_not_masked (hnode : part.get? path = some node)
    (hplace : ∃ merged, whole.get? path = some merged)
    (hleaves : ∀ path node, whole.get? path = some node → node.isLeaf = true →
      rules.permits caller default (whole.rulePath path) = true)
    (hmasked : ¬part.LeafMasked whole path) :
    rules.permits caller default (part.rulePath path) = true := by
  rw [Tree.LeafMasked, not_or, not_not] at hmasked
  obtain ⟨hkept, hchildren⟩ := hmasked
  obtain ⟨merged, hmerged⟩ := hplace
  have hleaf : merged.isLeaf = true := by
    by_contra hnone
    exact hchildren ⟨merged, hmerged, Bool.eq_false_iff.2 hnone⟩
  rw [← hkept.rulePath_eq hnode]
  exact hleaves path merged hmerged hleaf

/-- A probe that is not masked is silent, if it is met at the end of a way that is kept and no
place of the larger tree has a message. -/
theorem silent_of_not_masked (hpart : part.Ordered) (hwhole : whole.Ordered)
    (hnode : part.get? path = some node) (hplace : ∃ merged, whole.get? path = some merged)
    (hsilent : ∀ path node, whole.get? path = some node → rules.messagesAt whole caller path = [])
    {probe : Probe} (hprobe : probe ∈ rules.probesAt part caller path)
    (hkept : part.KeptIn whole path) (hmasked : ¬probe.Masked part whole) :
    probe.messages part caller = [] := by
  obtain ⟨merged, hmerged⟩ := hplace
  have hmet : probe ∈ rules.probesAt whole caller path := by
    rw [probesAt, hkept.rulePath_eq hnode]
    exact hprobe
  have hnone := (messagesAt_eq_nil_iff_probes ..).1 (hsilent path merged hmerged) probe hmet
  rw [← List.subset_nil, ← hnone]
  exact probe.messages_subset caller (Probe.readings_subset hpart hwhole hmasked)

end Parts

/-! ### Operations of an allowed document -/

variable {document : Document} {bindings : Dict Json} {operation : Operation}

/-- The places of an operation are places of its document. -/
theorem exists_merged (h : operation ∈ document.operations) {path : TreePath} {node : Node}
    (hnode : (document.ownTree bindings operation).get? path = some node) :
    ∃ merged, (Tree.ofDocument document bindings none).get? path = some merged := by
  rw [Tree.get?_eq_overlay, ← Option.ne_none_iff_exists', ne_eq, Node.overlay_eq_none_iff]
  exact List.ne_nil_of_mem (List.mem_filterMap.2 ⟨operation, h, hnode⟩)

/-- An operation of an allowed document is allowed alone if what is masked of it is harmless. -/
theorem isAllowed_alone (h : operation ∈ document.operations)
    (hallowed : (rules.validate document bindings caller default none).isAllowed = true)
    (hharmless : rules.MaskedHarmless caller default (document.ownTree bindings operation)
      (Tree.ofDocument document bindings none)) :
    (rules.validate (document.alone operation) bindings caller default none).isAllowed = true := by
  have hown := document.ownTree_ordered bindings operation
  have hwhole := Tree.ofDocument_ordered document bindings none
  obtain ⟨hleaves, hsilent⟩ := (validate_isAllowed_iff ..).1 hallowed
  refine (validate_isAllowed_iff ..).2 ⟨fun path node hnode hleaf => ?_, fun path node hnode => ?_⟩
  · by_cases hmasked : (document.ownTree bindings operation).LeafMasked
      (Tree.ofDocument document bindings none) path
    · exact hharmless.leaf path node hnode hleaf hmasked
    · exact permits_of_not_masked hnode (exists_merged h hnode) hleaves hmasked
  · refine (messagesAt_eq_nil_iff_probes ..).2 fun probe hprobe => ?_
    by_cases hmasked : ¬(document.ownTree bindings operation).KeptIn
        (Tree.ofDocument document bindings none) path ∨
      probe.Masked (document.ownTree bindings operation) (Tree.ofDocument document bindings none)
    · exact hharmless.probe path node hnode probe hprobe hmasked
    · rw [not_or, not_not] at hmasked
      exact silent_of_not_masked hown hwhole hnode (exists_merged h hnode) hsilent hprobe
        hmasked.1 hmasked.2

/-! ### Operations without siblings -/

theorem root_of_mem_probesAt {query : Tree} {path : TreePath} {probe : Probe}
    (h : probe ∈ rules.probesAt query caller path) : probe.scope.root = path.root := by
  rw [probesAt] at h
  split at h
  · exact absurd h List.not_mem_nil
  · next scope facet hscope =>
    obtain ⟨dropRule, -, hprobe⟩ := List.mem_flatMap.1 h
    obtain ⟨clause, -, rfl⟩ := List.mem_map.1 hprobe
    exact TreePath.root_of_scope? hscope

/-- Nothing is masked where the larger tree has the same below the only root of the part. -/
theorem unmasked_of_root {part whole : Tree} {keyword : String} (hpart : part.Ordered)
    (hroot : ∀ path node, part.get? path = some node → path.root = keyword)
    (hsame : ∀ path, path.root = keyword → whole.get? path = part.get? path) :
    rules.Unmasked caller part whole where
  kept := by
    intro path node hnode init _ target htarget
    have hplace := hsame ⟨path.root, init⟩ (hroot path node hnode)
    exact ⟨target, hplace.trans htarget, rfl⟩
  leaf := by
    intro path node hnode hleaf merged hmerged
    rw [hsame path (hroot path node hnode), hnode, Option.mem_some] at hmerged
    rwa [← hmerged]
  value := by
    intro path node hnode probe hprobe place hplace merged hmerged
    have hget := Probe.get?_of_mem_found hpart hplace
    rw [hsame _ (hroot _ _ hget), hget, Option.mem_some] at hmerged
    rw [hmerged]
  missing := by
    intro path node hnode probe hprobe hnone
    have hscope : probe.scope.root = keyword :=
      (root_of_mem_probesAt hprobe).trans (hroot path node hnode)
    rw [Probe.found, hsame probe.scope hscope]
    exact hnone

/-- **Without a sibling of its kind** an operation of an allowed document is allowed alone. -/
theorem validate_alone_of_kind
    (h : document.operations.filter (fun other => other.kind = operation.kind) = [operation])
    (hallowed : (rules.validate document bindings caller default none).isAllowed = true) :
    (rules.validate (document.alone operation) bindings caller default none).isAllowed = true := by
  have hown := document.ownTree_ordered bindings operation
  have hmem : operation ∈ document.operations :=
    List.mem_of_mem_filter (h ▸ List.mem_singleton_self operation)
  have hunmasked : rules.Unmasked caller (document.ownTree bindings operation)
      (Tree.ofDocument document bindings none) :=
    unmasked_of_root hown (fun path node hnode => (Tree.root_of_get?_ownTree hnode).symm)
      fun path hpath => Tree.get?_eq_ownTree h hpath.symm
  exact isAllowed_alone hmem hallowed (hunmasked.maskedHarmless hown)

/-! ### What an allowed document says of its operations -/

end RuleTree

end QueryAccess
