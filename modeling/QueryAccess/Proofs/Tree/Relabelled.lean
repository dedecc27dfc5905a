import QueryAccess.Proofs.Document.Tracking
import QueryAccess.Proofs.Tree.Selected
import QueryAccess.Proofs.Tree.Twins

/-!
# Relabelled documents have twin trees

The tree of a query is the tree of what its selections come to, fragments that lead back to
themselves or not: each tracked field has a node (`QueryAccess.Tracked.node`), and below it are
gathered the nodes of what it selects (`QueryAccess.Tracked.outputs_node`).

Where response keys are distinct nothing is overlaid in gathering
(`QueryAccess.Node.lookup_gather_iff`), so each child of a node is the node of one field. Fields
that are the same but for their labels then have nodes whose children correspond: the field of
one is the field of the other under another key (`QueryAccess.Tracked.twin`). And where there is
one operation of each kind, the same goes for the roots
(`QueryAccess.Tree.twin_of_unlabelled_eq`).
-/

namespace QueryAccess

/-- **What is gathered from children of different names** are the children. -/
theorem Node.lookup_gather_iff {children : List (String × Node)}
    (h : (children.map Prod.fst).Nodup) {key : String} {child : Node} :
    (gather children).lookup key = some child ↔ (key, child) ∈ children := by
  rw [lookup_gather]
  have hfilter : ∀ {child}, (key, child) ∈ children →
      children.filter (fun pair => pair.1 == key) = [(key, child)] :=
    fun hmem => filter_eq_singleton_of_nodup h hmem
  constructor
  · intro hchild
    have hne : (children.filter fun pair => pair.1 == key) ≠ [] := by
      intro hnil
      rw [hnil] at hchild
      cases hchild
    obtain ⟨⟨name, found⟩, hfound⟩ := List.exists_mem_of_ne_nil _ hne
    obtain ⟨hmem, hname⟩ := List.mem_filter.1 hfound
    obtain rfl : name = key := eq_of_beq hname
    rw [hfilter hmem] at hchild
    obtain rfl := Option.some.inj hchild
    exact hmem
  · intro hmem
    rw [hfilter hmem]
    rfl

/-! ### The nodes of tracked fields -/

/-- **The node of a tracked field**, among the fragments of a document and the data bound to its
variables. -/
def Tracked.node (around : Tree.Surroundings) (field : Tracked) : Node :=
  { Node.empty with
    inputs := around.inputs none field.arguments
    outputs := Node.gather <|
      ((Tree.contributionsBelow around field.levels).getD Tree.contributeNothing) field.active none
        field.selections
    fieldName := field.fieldName }

namespace Tree

variable {around : Surroundings}

/-- What selections contribute: the nodes of what they come to. -/
def ContributesTracked (around : Surroundings) (contribute : Contribute) (expand : Tracking) :
    Prop :=
  ∀ active selections,
    contribute active none selections =
      (expand active selections).map fun field => (field.key, field.node around)

section Contributions

variable (levels : Nat)

mutual

theorem contribution_tracked
    (h : ContributesTracked around ((contributionsBelow around levels).getD contributeNothing)
      ((trackBelow around.fragments levels).getD fun _ _ => []))
    (active : List String) : ∀ selection : Selection,
      contribution around (contributionsBelow around levels) active none selection =
        (tracking around.fragments (trackBelow around.fragments levels) levels active
          selection).map fun field => (field.key, field.node around)
  | .field comment label name arguments _ selections => by
    rw [contribution, tracking]
    rfl
  | .inline _ _ selections => by
    rw [contribution, tracking]
    exact contributionsAt_tracked h active selections
  | .spread name _ => by
    rw [contribution, tracking]
    show (match fragmentSelections? around.fragments name with
      | none => []
      | some selections =>
        if name ∈ active then []
        else ((contributionsBelow around levels).getD contributeNothing) (name :: active) none
          selections) = _
    cases fragmentSelections? around.fragments name with
    | none => rfl
    | some selections =>
      simp only [h (name :: active) selections]
      split <;> rfl

theorem contributionsAt_tracked
    (h : ContributesTracked around ((contributionsBelow around levels).getD contributeNothing)
      ((trackBelow around.fragments levels).getD fun _ _ => []))
    (active : List String) : ∀ selections : List Selection,
      contributionsAt around (contributionsBelow around levels) active none selections =
        (trackingAt around.fragments (trackBelow around.fragments levels) levels active
          selections).map fun field => (field.key, field.node around)
  | [] => rfl
  | selection :: rest => by
    rw [contributionsAt, trackingAt, List.map_append, contribution_tracked h active selection,
      contributionsAt_tracked h active rest]

end

end Contributions

/-- **Selections contribute the nodes of what they come to.** -/
theorem contributions_tracked (around : Surroundings) (levels : Nat) :
    ContributesTracked around (contributions around levels) (track around.fragments levels) := by
  induction levels with
  | zero =>
    have hnothing : ContributesTracked around contributeNothing fun _ _ => [] := fun _ _ => rfl
    exact contributionsAt_tracked 0 hnothing
  | succ levels ih => exact contributionsAt_tracked (levels + 1) ih

end Tree

namespace Tracked

/-- **Below the node of a field are gathered the nodes of what it selects.** -/
theorem outputs_node (around : Tree.Surroundings) (field : Tracked) :
    (field.node around).outputs =
      Node.gather ((field.below around.fragments).map fun next =>
        (next.key, next.node around)) := by
  rw [node, below]
  cases field.levels with
  | zero => rfl
  | succ levels =>
    exact congrArg Node.gather (Tree.contributions_tracked around levels _ _)

/-- The outputs of a node are the nodes of the fields below it, where the keys are distinct. -/
theorem lookup_outputs_iff {around : Tree.Surroundings} {field : Tracked}
    (h : ((field.below around.fragments).map fun next => next.key).Nodup) {key : String}
    {child : Node} :
    (field.node around).outputs.lookup key = some child ↔
      ∃ next ∈ field.below around.fragments, next.key = key ∧ next.node around = child := by
  have hkeys : (((field.below around.fragments).map fun next =>
      (next.key, next.node around)).map Prod.fst).Nodup := by
    rw [List.map_map]
    exact h
  rw [outputs_node, Node.lookup_gather_iff hkeys, List.mem_map]
  simp only [Prod.mk.injEq]

/-- The node of a field stands for the field, under its key. -/
theorem nameUnder_node (around : Tree.Surroundings) (field : Tracked) :
    (field.node around).nameUnder field.key = field.name := by
  obtain ⟨⟨levels, _ | label, name, arguments, selections⟩, active⟩ := field <;> rfl

end Tracked

/-! ### Twins -/

/-- The surroundings with other fragments. -/
def Tree.Surroundings.among (around : Tree.Surroundings) (fragments : List Fragment) :
    Tree.Surroundings :=
  { around with fragments := fragments }

namespace Tracked

/-- The children of the nodes of two fields that correspond: arguments of one name, and selected
fields that are the same but for their labels. -/
inductive Pairs (around : Tree.Surroundings) (others : List Fragment) (field other : Tracked) :
    Segment → Node → Segment → Node → Prop where
  | input {name : String} {child : Node}
      (hchild : (around.inputs none field.arguments).lookup name = some child) :
      Pairs around others field other (.named .input name) child (.named .input name) child
  | output {next otherNext : Tracked} (hnext : next ∈ field.below around.fragments)
      (hother : otherNext ∈ other.below others)
      (h : next.unlabelled = otherNext.unlabelled) :
      Pairs around others field other (.named .output next.key) (next.node around)
        (.named .output otherNext.key) (otherNext.node (around.among others))

section Twins

variable {around : Tree.Surroundings} {others : List Fragment} {field other : Tracked}

/-- Corresponding children read the same: a selected field by its name, whatever its key. -/
theorem Pairs.reads {segment otherSegment : Segment} {child otherChild : Node}
    (h : Pairs around others field other segment child otherSegment otherChild) :
    segment.ReadsAs child otherSegment otherChild := by
  cases h with
  | input _ => exact ⟨rfl, rfl⟩
  | @output next otherNext _ _ h =>
    have hname : (next.node around).nameUnder next.key =
        (otherNext.node (around.among others)).nameUnder otherNext.key := by
      rw [nameUnder_node, nameUnder_node]
      exact congrArg (fun field => field.name) h
    exact ⟨congrArg (Segment.named .output) hname,
      congrArg (fun name => [Segment.named .output name]) hname⟩

/-- The other way round, the children correspond as well. -/
theorem Pairs.symm (harguments : field.arguments = other.arguments)
    {segment otherSegment : Segment} {child otherChild : Node}
    (h : Pairs (around.among others) around.fragments other field otherSegment otherChild segment
      child) :
    Pairs around others field other segment child otherSegment otherChild := by
  cases h with
  | input hchild =>
    rw [← harguments] at hchild
    exact .input hchild
  | output hnext hother h => exact .output hother hnext h.symm

/-- Each child of the node of a field has a counterpart, where the response keys are distinct. -/
theorem exists_pair (hfragments : around.fragments.map Fragment.unlabelled =
      others.map Fragment.unlabelled)
    (keys : ((field.below around.fragments).map fun next => next.key).Nodup)
    (otherKeys : ((other.below others).map fun next => next.key).Nodup)
    (h : field.unlabelled = other.unlabelled) {segment : Segment} {child : Node}
    (hchild : (field.node around).child? segment = some child) :
    ∃ otherSegment otherChild,
      (other.node (around.among others)).child? otherSegment = some otherChild ∧
        Pairs around others field other segment child otherSegment otherChild := by
  have harguments : field.arguments = other.arguments := congrArg (fun field => field.arguments) h
  rcases segment with ⟨_ | _, name⟩ | i
  · -- the arguments are the same
    refine ⟨.named .input name, child, ?_, .input hchild⟩
    rw [Node.child?, node, ← harguments]
    exact hchild
  · obtain ⟨next, hnext, rfl, rfl⟩ := (lookup_outputs_iff keys).1 hchild
    obtain ⟨otherNext, hother, hsame⟩ :=
      List.mem_map.1 (map_unlabelled_below hfragments h ▸ List.mem_map_of_mem hnext)
    exact ⟨.named .output otherNext.key, otherNext.node (around.among others),
      (lookup_outputs_iff otherKeys).2 ⟨otherNext, hother, rfl, rfl⟩,
      .output hnext hother hsame.symm⟩
  · exact absurd hchild (by simp [Node.child?, node, Node.empty])

/-- **Fields that are the same but for their labels have twin nodes**, where the response keys
are distinct. -/
theorem twin (hfragments : around.fragments.map Fragment.unlabelled =
      others.map Fragment.unlabelled)
    (hfield : field.Distinct around.fragments) (hother : other.Distinct others)
    (h : field.unlabelled = other.unlabelled) :
    (field.node around).Twin (other.node (around.among others)) := by
  induction hfield generalizing other with
  | @mk field keys _ ih =>
    cases hother with
    | mk otherKeys otherBelow =>
      refine ⟨Pairs around others field other, rfl,
        fun _ _ hchild => exists_pair hfragments keys otherKeys h hchild, ?_,
        fun _ _ _ _ hpair => hpair.reads, ?_⟩
      · intro otherSegment otherChild hchild
        obtain ⟨segment, child, hfound, hpair⟩ :=
          exists_pair hfragments.symm otherKeys keys h.symm hchild
        exact ⟨segment, child, hfound, hpair.symm (congrArg (fun field => field.arguments) h)⟩
      · intro segment child otherSegment otherChild hpair
        cases hpair with
        | input _ => exact .refl child
        | output hnext hotherNext hsame =>
          exact ih _ hnext (otherBelow _ hotherNext) hsame

end Twins

end Tracked

/-! ### Documents -/

namespace Tree

/-- The root of an operation of a query is the node of the operation, tracked as a whole. -/
theorem ofOperation_eq_node (bindings : Dict Json) (fragments : List Fragment)
    (operation : Operation) :
    ofOperation bindings fragments none operation =
      (operation.tracked (maxDepth + 1)).node ⟨bindings, operation.declared, fragments⟩ :=
  rfl

/-- The roots of a document with one operation of each kind. -/
theorem root?_iff {document : Document}
    (h : (document.operations.map Operation.kind).Nodup) {bindings : Dict Json}
    {policy : Option Policy} {keyword : String} {root : Node} :
    (ofDocument document bindings policy).root? keyword = some root ↔
      ∃ operation ∈ document.operations, operation.kind.keyword = keyword ∧
        ofOperation bindings document.fragments policy operation = root := by
  have hkeywords : ((document.operations.map fun operation =>
      (operation.kind.keyword,
        ofOperation bindings document.fragments policy operation)).map Prod.fst).Nodup := by
    rw [List.map_map]
    have hnodup := h.map OperationKind.keyword_injective
    rwa [List.map_map] at hnodup
  rw [root?, ofDocument, ofRoots, Node.lookup_gather_iff hkeywords, List.mem_map]
  simp only [Prod.mk.injEq]

/-- Each root of a query has a twin in the tree of a document that is the same but for the
labels. -/
theorem exists_twin_root {document other : Document} (h : document.unlabelled = other.unlabelled)
    (hkinds : (document.operations.map Operation.kind).Nodup)
    (hotherKinds : (other.operations.map Operation.kind).Nodup)
    (hdistinct : ∀ operation ∈ document.operations,
      (operation.tracked (maxDepth + 1)).Distinct document.fragments)
    (hother : ∀ operation ∈ other.operations,
      (operation.tracked (maxDepth + 1)).Distinct other.fragments)
    {bindings : Dict Json} {keyword : String} {root : Node}
    (hroot : (ofDocument document bindings none).root? keyword = some root) :
    ∃ otherRoot, (ofDocument other bindings none).root? keyword = some otherRoot ∧
      root.Twin otherRoot := by
  have hoperations : document.operations.map Operation.unlabelled =
      other.operations.map Operation.unlabelled := by
    rw [← Document.operations_unlabelled, ← Document.operations_unlabelled, h]
  have hfragments : document.fragments.map Fragment.unlabelled =
      other.fragments.map Fragment.unlabelled := by
    rw [← Document.fragments_unlabelled, ← Document.fragments_unlabelled, h]
  obtain ⟨operation, hmem, rfl, rfl⟩ := (root?_iff hkinds).1 hroot
  obtain ⟨otherOperation, hotherMem, hsame⟩ :=
    List.mem_map.1 (hoperations ▸ List.mem_map_of_mem hmem)
  have hkind : otherOperation.kind = operation.kind := (congrArg Operation.kind hsame :)
  have hdeclared : otherOperation.declared = operation.declared :=
    (congrArg Operation.declared hsame :)
  have htracked : (operation.tracked (maxDepth + 1)).unlabelled =
      (otherOperation.tracked (maxDepth + 1)).unlabelled :=
    congrArg (fun operation : Operation => operation.tracked (maxDepth + 1)) hsame.symm
  refine ⟨_, (root?_iff hotherKinds).2 ⟨otherOperation, hotherMem, by rw [hkind], rfl⟩, ?_⟩
  rw [ofOperation_eq_node, ofOperation_eq_node, hdeclared]
  exact Tracked.twin hfragments (hdistinct operation hmem) (hother otherOperation hotherMem)
    htracked

/-- **Relabelled documents have twin trees**, as queries, if they have one operation of each kind
and the response keys are distinct in all their expanded selection sets. -/
theorem twin_of_unlabelled_eq {document other : Document}
    (h : document.unlabelled = other.unlabelled)
    (hkinds : (document.operations.map Operation.kind).Nodup)
    (hdistinct : ∀ operation ∈ document.operations,
      (operation.tracked (maxDepth + 1)).Distinct document.fragments)
    (hother : ∀ operation ∈ other.operations,
      (operation.tracked (maxDepth + 1)).Distinct other.fragments)
    (bindings : Dict Json) :
    (ofDocument document bindings none).Twin (ofDocument other bindings none) := by
  have hmap : ∀ document : Document, document.operations.map Operation.kind =
      document.unlabelled.operations.map Operation.kind :=
    fun document => by rw [Document.operations_unlabelled, List.map_map]; rfl
  have hotherKinds : (other.operations.map Operation.kind).Nodup := by rwa [hmap, ← h, ← hmap]
  constructor
  · exact fun _ _ hroot => exists_twin_root h hkinds hotherKinds hdistinct hother hroot
  · intro keyword otherRoot hotherRoot
    obtain ⟨root, hroot, htwin⟩ :=
      exists_twin_root h.symm hotherKinds hkinds hother hdistinct hotherRoot
    exact ⟨root, hroot, htwin.symm⟩

end Tree

end QueryAccess
