import QueryAccess.Proofs.Document.Expansion
import QueryAccess.Proofs.Rules.Visits
import QueryAccess.Proofs.Tree.Associativity

/-!
# The tree of what is selected

The tree of an operation is made while its fragments are expanded, with a list of the
fragments that are being expanded to keep out of cycles. Where there are no cycles that
list never matters, and the tree is the tree of the expansion: each selected field has a
node (`QueryAccess.Selected.node`), and below it are gathered the nodes of what it selects
(`QueryAccess.Tree.contributions_eq`).

So what stands at the end of some keys is known from the fields there. They are overlaid
one after the other (`QueryAccess.Selected.overlay_get?`), and of the result one can say
when it is a leaf (`QueryAccess.Selected.isLeaf_iff`) and which rule it has
(`QueryAccess.Selected.ruleSegments_eq`).
-/

namespace QueryAccess

/-- A response key as a segment. -/
def Segment.output (key : String) : Segment := .named .output key

/-- **The node of a selected field**, among the fragments of a document and the data bound
to its variables. -/
def Selected.node (around : Tree.Surroundings) (field : Selected) : Node :=
  { Node.empty with
    inputs := around.inputs none field.arguments
    outputs := Node.gather <|
      match field.levels with
      | 0 => []
      | levels + 1 => Tree.contributions around levels [] none field.selections
    fieldName := field.fieldName }

namespace Tree

open Relation

variable {around : Surroundings}

/-! ### Contributions -/

/-- What a level further down contributes, if there is one. -/
def contributionsBelow (around : Surroundings) : Nat → Option Contribute
  | 0 => none
  | levels + 1 => some (contributions around levels)

/-- The fragments being expanded lead to all that are still to be expanded. -/
def LeadTo (fragments : List Fragment) (active names : List String) : Prop :=
  ∀ first ∈ active, ∀ name ∈ names, TransGen (Mentions fragments) first name

theorem LeadTo.nil {fragments : List Fragment} {names : List String} :
    LeadTo fragments [] names :=
  fun _ hfirst => absurd hfirst List.not_mem_nil

theorem LeadTo.subset {fragments : List Fragment} {active names fewer : List String}
    (h : LeadTo fragments active names) (hfewer : fewer ⊆ names) :
    LeadTo fragments active fewer :=
  fun first hfirst name hname => h first hfirst name (hfewer hname)

/-- One more fragment is being expanded. -/
theorem LeadTo.fragment {fragments : List Fragment} {active names : List String}
    (h : LeadTo fragments active names) {name : String} (hname : name ∈ names)
    {selections : List Selection} (hfind : fragmentSelections? fragments name = some selections) :
    LeadTo fragments (name :: active) (spreadsIn selections) := by
  intro first hfirst other hother
  have hmentions : Mentions fragments name other := ⟨selections, hfind, hother⟩
  rcases List.mem_cons.1 hfirst with rfl | hactive
  · exact .single hmentions
  · exact .tail (h first hactive name hname) hmentions

/-- What selections contribute below uncycled fragments: the nodes of what they come to. -/
def ContributesExpanded (around : Surroundings) (contribute : Contribute)
    (expand : List Selection → List Selected) : Prop :=
  ∀ active selections, Uncycled around.fragments (spreadsIn selections) →
    LeadTo around.fragments active (spreadsIn selections) →
    contribute active none selections =
      (expand selections).map fun field => (field.key, field.node around)

section Contributions

variable (levels : Nat)

mutual

theorem contribution_eq
    (h : ContributesExpanded around ((contributionsBelow around levels).getD contributeNothing)
      ((expandBelow around.fragments levels).getD fun _ => []))
    (active : List String) :
    ∀ selection, Uncycled around.fragments (Selection.spreads selection) →
      LeadTo around.fragments active (Selection.spreads selection) →
      contribution around (contributionsBelow around levels) active none selection =
        (expansion around.fragments (expandBelow around.fragments levels) levels selection).map
          fun field => (field.key, field.node around)
  | .field comment label name arguments _ selections, hfree, hlead => by
    rw [Selection.spreads] at hfree hlead
    have hbelow := (h active selections hfree hlead).trans (h [] selections hfree .nil).symm
    rw [contribution, expansion, List.map_singleton]
    refine congrArg (fun below => [(label.getD name,
      { Node.empty with
        inputs := around.inputs none arguments
        outputs := Node.gather below
        fieldName := label.map fun _ => name })]) ?_
    refine hbelow.trans ?_
    cases levels <;> rfl
  | .inline _ _ selections, hfree, hlead => by
    rw [Selection.spreads] at hfree hlead
    rw [contribution, expansion]
    exact contributionsAt_eq h active selections hfree hlead
  | .spread name _, hfree, hlead => by
    rw [Selection.spreads] at hfree hlead
    have hname : name ∈ [name] := List.mem_singleton.2 rfl
    rw [contribution, expansion]
    show (match fragmentSelections? around.fragments name with
      | none => []
      | some selections =>
        if name ∈ active then []
        else ((contributionsBelow around levels).getD contributeNothing) (name :: active) none
          selections) = _
    cases hfind : fragmentSelections? around.fragments name with
    | none => rfl
    | some selections =>
      -- an active fragment would lead back to itself
      have hactive : name ∉ active := fun hmem =>
        hfree name hname name .refl (hlead name hmem name hname)
      simp only [if_neg hactive]
      exact h (name :: active) selections (hfree.fragment hname hfind)
        (hlead.fragment hname hfind)

theorem contributionsAt_eq
    (h : ContributesExpanded around ((contributionsBelow around levels).getD contributeNothing)
      ((expandBelow around.fragments levels).getD fun _ => []))
    (active : List String) :
    ∀ selections, Uncycled around.fragments (spreadsIn selections) →
      LeadTo around.fragments active (spreadsIn selections) →
      contributionsAt around (contributionsBelow around levels) active none selections =
        (expansionAt around.fragments (expandBelow around.fragments levels) levels selections).map
          fun field => (field.key, field.node around)
  | [], _, _ => rfl
  | selection :: rest, hfree, hlead => by
    rw [spreadsIn] at hfree hlead
    have hfirst := List.subset_append_left selection.spreads (spreadsIn rest)
    have hrest := List.subset_append_right selection.spreads (spreadsIn rest)
    rw [contributionsAt, expansionAt, List.map_append,
      contribution_eq h active selection (hfree.subset hfirst) (hlead.subset hfirst),
      contributionsAt_eq h active rest (hfree.subset hrest) (hlead.subset hrest)]

end

end Contributions

/-- **Uncycled selections contribute the nodes of what they come to**, whatever fragments
are being expanded that lead to them. -/
theorem contributions_eq (around : Surroundings) (levels : Nat) :
    ContributesExpanded around (contributions around levels)
      (expand around.fragments levels) := by
  induction levels with
  | zero =>
    have hnothing : ContributesExpanded around contributeNothing fun _ => [] :=
      fun _ _ _ _ => rfl
    exact contributionsAt_eq 0 hnothing
  | succ levels ih => exact contributionsAt_eq (levels + 1) ih

end Tree

namespace Selected

variable {around : Tree.Surroundings}

/-! ### The node of a field -/

theorem node_ordered (around : Tree.Surroundings) (field : Selected) :
    (field.node around).Ordered := by
  refine .of_parts (Node.gather_sorted _) (Node.gather_sorted _) (fun _ _ => ?_) (fun _ _ => ?_) ?_
  · exact Node.gather_ordered
      (Tree.fillInputs_ordered (Tree.fillVariable_ordered around.bindings around.declared) _ _)
  · refine Node.gather_ordered fun pair hpair => ?_
    split at hpair
    · exact absurd hpair List.not_mem_nil
    · exact Tree.contributions_ordered around _ [] none field.selections pair hpair
  · intro item hitem
    exact absurd hitem List.not_mem_nil

theorem mem_map_node_ordered (around : Tree.Surroundings) (fields : List Selected) :
    ∀ node ∈ fields.map (Selected.node around), node.Ordered := by
  intro node hnode
  obtain ⟨field, -, rfl⟩ := List.mem_map.1 hnode
  exact node_ordered around field

/-- **Below the node of a field are gathered the nodes of what it selects.** -/
theorem outputs_node {field : Selected}
    (hfree : Uncycled around.fragments (spreadsIn field.selections)) :
    (field.node around).outputs =
      Node.gather ((field.below around.fragments).map fun next =>
        (next.key, next.node around)) := by
  rw [node, below]
  cases field.levels with
  | zero => rfl
  | succ levels =>
    exact congrArg Node.gather
      (Tree.contributions_eq around levels [] field.selections hfree .nil)

/-- Under a key stand the nodes of the fields that have it, overlaid in the order of the
text. -/
theorem child?_node {field : Selected}
    (hfree : Uncycled around.fragments (spreadsIn field.selections)) (key : String) :
    (field.node around).child? (.output key) =
      Node.overlay (((field.below around.fragments).filter (·.key == key)).map
        (Selected.node around)) := by
  rw [Segment.output, Node.child?, outputs_node hfree, Node.lookup_gather, List.filter_map,
    List.map_map]
  rfl

/-- The node of a field is a leaf if the field has no arguments and selects nothing. -/
theorem isLeaf_node {field : Selected}
    (hfree : Uncycled around.fragments (spreadsIn field.selections)) :
    (field.node around).isLeaf = field.isEnd around.fragments := by
  have hinputs : (field.node around).inputs.isEmpty = field.arguments.isEmpty := by
    rw [Bool.eq_iff_iff, List.isEmpty_iff, List.isEmpty_iff]
    show Node.gather _ = [] ↔ _
    rw [Node.gather_eq_nil_iff]
    cases field.arguments with
    | nil => exact ⟨fun _ => rfl, fun _ => rfl⟩
    | cons argument rest =>
      cases argument
      exact iff_of_false (List.cons_ne_nil _ _) (List.cons_ne_nil _ _)
  have houtputs : (field.node around).outputs.isEmpty =
      (field.below around.fragments).isEmpty := by
    rw [outputs_node hfree, Bool.eq_iff_iff, List.isEmpty_iff, List.isEmpty_iff,
      Node.gather_eq_nil_iff, List.map_eq_nil_iff]
  rw [Node.isLeaf, isEnd, hinputs, houtputs]
  exact Bool.and_true _

/-! ### The node of several fields -/

/-- No field of a list is on a cycle. -/
def AllUncycled (fragments : List Fragment) (fields : List Selected) : Prop :=
  ∀ field ∈ fields, Uncycled fragments (spreadsIn field.selections)

theorem AllUncycled.under {fragments : List Fragment} {fields : List Selected}
    (h : AllUncycled fragments fields) (key : String) :
    AllUncycled fragments (under fragments fields key) := by
  intro next hnext
  obtain ⟨field, hfield, hbelow⟩ := List.mem_flatMap.1 (List.mem_filter.1 hnext).1
  exact uncycled_of_mem_below (h field hfield) hbelow

theorem AllUncycled.atKeys {fragments : List Fragment} {fields : List Selected}
    (h : AllUncycled fragments fields) (keys : List String) :
    AllUncycled fragments (atKeys fragments fields keys) := by
  induction keys generalizing fields with
  | nil => exact h
  | cons key rest ih => exact ih (h.under key)

variable {fields : List Selected}

theorem overlay_child? (hfree : AllUncycled around.fragments fields) (key : String) :
    (Node.overlay (fields.map (Selected.node around))).bind
        (fun node => node.child? (.output key)) =
      Node.overlay ((under around.fragments fields key).map (Selected.node around)) := by
  have hbind := Node.overlay_bind_get? (mem_map_node_ordered around fields) [.output key]
  simp only [Node.get?_singleton] at hbind
  have hchild : (fields.map (Selected.node around)).filterMap
      (fun node => node.child? (.output key)) = fields.filterMap fun field => Node.overlay
        (((field.below around.fragments).filter (·.key == key)).map (Selected.node around)) := by
    rw [List.filterMap_map]
    exact List.filterMap_congr fun field hfield => child?_node (hfree field hfield) key
  have hgroups := Node.overlay_flatMap (l := fields) (fun field _ =>
    mem_map_node_ordered around ((field.below around.fragments).filter (·.key == key)))
  rw [hbind, hchild, ← hgroups, under, List.filter_flatMap, List.map_flatMap]

/-- **At the end of some keys** stand the nodes of the fields there, overlaid in the order
of the text. -/
theorem overlay_get? (hfree : AllUncycled around.fragments fields) (keys : List String) :
    (Node.overlay (fields.map (Selected.node around))).bind
        (fun node => node.get? (keys.map Segment.output)) =
      Node.overlay ((atKeys around.fragments fields keys).map (Selected.node around)) := by
  induction keys generalizing fields with
  | nil =>
    rw [atKeys_nil]
    cases Node.overlay (fields.map (Selected.node around)) <;> rfl
  | cons key rest ih =>
    rw [atKeys_cons, ← ih (hfree.under key), ← overlay_child? hfree key, Option.bind_assoc]
    rfl

variable {node : Node}

/-- The nodes of fields stand together for the name that their key is taken for. -/
theorem nameUnder_eq (hnode : Node.overlay (fields.map (Selected.node around)) = some node)
    (key : String) : node.nameUnder key = shownName key fields := by
  have hlast := Node.overlay_bind_slot Node.merge_fieldName (fields.map (Selected.node around))
  rw [hnode, Option.bind_some, List.filterMap_map] at hlast
  rw [Node.nameUnder, hlast]
  rfl

/-- The nodes of fields are together a leaf if each of the fields ends there. -/
theorem isLeaf_iff (hfree : AllUncycled around.fragments fields)
    (hnode : Node.overlay (fields.map (Selected.node around)) = some node) :
    node.isLeaf = true ↔ ∀ field ∈ fields, field.isEnd around.fragments = true := by
  rw [Node.overlay_isLeaf (mem_map_node_ordered around fields) hnode, List.forall_mem_map]
  refine forall₂_congr fun field hfield => ?_
  rw [isLeaf_node (hfree field hfield)]

/-- The nodes of fields have no items. -/
theorem child?_index (hnode : Node.overlay (fields.map (Selected.node around)) = some node)
    (i : Nat) : node.child? (.index i) = none := by
  have hbind := Node.overlay_bind_get? (mem_map_node_ordered around fields) [.index i]
  simp only [Node.get?_singleton] at hbind
  rw [hnode, Option.bind_some, List.filterMap_map] at hbind
  rw [hbind, Node.overlay_eq_none_iff, List.filterMap_eq_nil_iff]
  exact fun field _ => rfl

/-- **The rule at the end of some keys** is the one for the names that they are taken
for. -/
theorem ruleSegments_eq (hfree : AllUncycled around.fragments fields)
    (hnode : Node.overlay (fields.map (Selected.node around)) = some node) {keys : List String}
    (hkeys : atKeys around.fragments fields keys ≠ []) :
    node.ruleSegments (keys.map Segment.output) =
      (shownNames around.fragments fields keys).map Segment.output := by
  induction keys generalizing fields node with
  | nil => rfl
  | cons key rest ih =>
    have hchild := overlay_child? hfree key
    rw [hnode, Option.bind_some] at hchild
    have hunder : under around.fragments fields key ≠ [] := by
      intro hnil
      rw [atKeys_cons, hnil] at hkeys
      exact hkeys (atKeys_of_nil rest)
    obtain ⟨child, hnext⟩ := Option.ne_none_iff_exists'.1 <|
      mt Node.overlay_eq_none_iff.1 (mt List.map_eq_nil_iff.1 hunder)
    rw [List.map_cons, Node.ruleSegments_cons (hchild.trans hnext), shownNames_cons, List.map_cons,
      ih (hfree.under key) hnext hkeys, ← nameUnder_eq hnext key]
    rfl

/-- A place whose rule is reached by outputs alone is at the end of some keys. -/
theorem exists_keys (hfree : AllUncycled around.fragments fields)
    (hnode : Node.overlay (fields.map (Selected.node around)) = some node)
    {segments : List Segment} {target : Node} (htarget : node.get? segments = some target)
    {names : List String} (hrule : node.ruleSegments segments = names.map Segment.output) :
    ∃ keys, segments = keys.map Segment.output ∧
      shownNames around.fragments fields keys = names := by
  induction segments generalizing fields node names with
  | nil => exact ⟨[], rfl, (List.map_eq_nil_iff.1 hrule.symm).symm⟩
  | cons segment rest ih =>
    obtain ⟨child, hchild, hrest⟩ := Option.bind_eq_some_iff.1 htarget
    rw [Node.ruleSegments_cons hchild] at hrule
    rcases segment with ⟨_ | _, key⟩ | i
    · obtain ⟨name, tail, -, hname, -⟩ := List.map_eq_cons_iff.1 hrule.symm
      cases hname
    · obtain ⟨name, tail, rfl, hname, htail⟩ := List.map_eq_cons_iff.1 hrule.symm
      have hunder := overlay_child? hfree key
      rw [hnode, Option.bind_some, Segment.output, hchild] at hunder
      obtain ⟨keys, rfl, hshown⟩ := ih (hfree.under key) hunder.symm hrest htail.symm
      refine ⟨key :: keys, rfl, ?_⟩
      rw [shownNames_cons, hshown, ← nameUnder_eq hunder.symm key]
      exact congrArg (· :: tail) (Segment.named.inj hname).2.symm
    · rw [child?_index hnode i] at hchild
      cases hchild

end Selected

/-! ### Documents with one operation -/

namespace Tree

/-- The fields at the end of some keys in the tree of an operation. -/
def selectedAt (document : Document) (operation : Operation) (keys : List String) :
    List Selected :=
  Selected.atKeys document.fragments [operation.whole (maxDepth + 1)] keys

/-- The names that some keys are taken for in the tree of an operation. -/
def shownAt (document : Document) (operation : Operation) (keys : List String) : List String :=
  Selected.shownNames document.fragments [operation.whole (maxDepth + 1)] keys

/-- The path of an operation's kind that goes down by outputs. -/
def outputPath (operation : Operation) (names : List String) : TreePath :=
  ⟨operation.kind.keyword, names.map Segment.output⟩

variable {document : Document} {operation : Operation} {bindings : Dict Json}

/-- The root is the node of the operation, seen as a field. -/
theorem root?_of_single (h : document.operations = [operation]) :
    (ofDocument document bindings none).root? operation.kind.keyword =
      Node.overlay ([operation.whole (maxDepth + 1)].map
        (Selected.node ⟨bindings, operation.declared, document.fragments⟩)) := by
  rw [root?_ofDocument, h, List.filter_singleton, beq_self_eq_true]
  rfl

theorem allUncycled_whole (hfree : Uncycled document.fragments (spreadsIn operation.selections))
    (levels : Nat) : Selected.AllUncycled document.fragments [operation.whole levels] := by
  intro field hfield
  rw [List.mem_singleton.1 hfield]
  exact hfree

variable (h : document.operations = [operation])
  (hfree : Uncycled document.fragments (spreadsIn operation.selections))
include h hfree

/-- **In the tree of one operation** there stand at the end of some keys the nodes of the
fields there, overlaid in the order of the text. -/
theorem get?_outputPath (keys : List String) :
    (ofDocument document bindings none).get? (outputPath operation keys) =
      Node.overlay ((selectedAt document operation keys).map
        (Selected.node ⟨bindings, operation.declared, document.fragments⟩)) := by
  rw [outputPath, Tree.get?, root?_of_single h, selectedAt]
  exact Selected.overlay_get? (allUncycled_whole hfree _) keys

/-- There is a node at the end of some keys if there are fields. -/
theorem exists_get?_outputPath (keys : List String) :
    (∃ node, (ofDocument document bindings none).get? (outputPath operation keys) = some node) ↔
      selectedAt document operation keys ≠ [] := by
  rw [get?_outputPath h hfree, ← Option.ne_none_iff_exists', ne_eq, Node.overlay_eq_none_iff,
    List.map_eq_nil_iff]

/-- The node at the end of some keys is a leaf if each of the fields ends there. -/
theorem isLeaf_outputPath {keys : List String} {node : Node}
    (hnode : (ofDocument document bindings none).get? (outputPath operation keys) = some node) :
    node.isLeaf = true ↔
      ∀ field ∈ selectedAt document operation keys, field.isEnd document.fragments = true := by
  rw [get?_outputPath h hfree] at hnode
  exact Selected.isLeaf_iff ((allUncycled_whole hfree _).atKeys keys) hnode

/-- **The rule at the end of some keys** is the one for the names that they are taken
for. -/
theorem rulePath_outputPath {keys : List String}
    (hkeys : selectedAt document operation keys ≠ []) :
    (ofDocument document bindings none).rulePath (outputPath operation keys) =
      outputPath operation (shownAt document operation keys) := by
  have hroot : (ofDocument document bindings none).root? operation.kind.keyword = _ :=
    root?_of_single h
  obtain ⟨root, hsome⟩ : ∃ root, Node.overlay ([operation.whole (maxDepth + 1)].map
      (Selected.node ⟨bindings, operation.declared, document.fragments⟩)) = some root :=
    ⟨_, Node.overlay_singleton _⟩
  rw [rulePath, outputPath, hroot, hsome]
  exact congrArg (TreePath.mk operation.kind.keyword)
    (Selected.ruleSegments_eq (allUncycled_whole hfree _) hsome hkeys)

/-- A place whose rule is reached by outputs alone is at the end of some keys. -/
theorem exists_keys_of_rulePath {path : TreePath} {node : Node}
    (hnode : (ofDocument document bindings none).get? path = some node) {names : List String}
    (hrule : (ofDocument document bindings none).rulePath path = outputPath operation names) :
    ∃ keys, path = outputPath operation keys ∧ shownAt document operation keys = names := by
  obtain ⟨keyword, segments⟩ := path
  obtain ⟨root, hroot, hget⟩ := Option.bind_eq_some_iff.1 hnode
  rw [rulePath, hroot, outputPath, TreePath.mk.injEq] at hrule
  obtain ⟨rfl, hsegments⟩ := hrule
  rw [root?_of_single h] at hroot
  obtain ⟨keys, rfl, hshown⟩ :=
    Selected.exists_keys (allUncycled_whole hfree _) hroot hget hsegments
  exact ⟨keys, rfl, hshown⟩

end Tree

end QueryAccess
