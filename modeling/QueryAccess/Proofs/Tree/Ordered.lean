import QueryAccess.Proofs.Tree.Overlay
import QueryAccess.Tree.OfDocument

/-!
# Trees of documents are ordered

Whatever the document, the data bound to its variables and the root policy, the names in
its tree ascend everywhere (`QueryAccess.Tree.ofDocument_ordered`): every list of named
children is gathered, and gathering sorts. In such a tree looking a place up and going
through the tree find the same nodes.
-/

namespace QueryAccess

/-- **The names ascend** among the roots of a tree and everywhere below them. -/
structure Tree.Ordered (tree : Tree) : Prop where
  roots : Dict.Sorted tree.roots
  root : ∀ keyword root, tree.root? keyword = some root → root.Ordered

theorem Tree.Ordered.get? {tree : Tree} (h : tree.Ordered) {path : TreePath} {node : Node}
    (hnode : tree.get? path = some node) : node.Ordered := by
  obtain ⟨root, hroot, hget⟩ := Option.bind_eq_some_iff.1 hnode
  exact (h.root _ root hroot).get? hget

namespace Node.Ordered

/-- A node is ordered if its parts are. -/
theorem of_parts {node : Node} (inputs : Dict.Sorted node.inputs)
    (outputs : Dict.Sorted node.outputs)
    (hinputs : ∀ name child, node.inputs.lookup name = some child → child.Ordered)
    (houtputs : ∀ name child, node.outputs.lookup name = some child → child.Ordered)
    (hitems : ∀ item ∈ node.items, item.Ordered) : node.Ordered := by
  refine ⟨inputs, outputs, ?_⟩
  rintro (⟨_ | _, name⟩ | i) child hchild
  · exact hinputs name child hchild
  · exact houtputs name child hchild
  · exact hitems child (List.mem_of_getElem? hchild)

variable {node : Node}

/-- A leaf that gets inputs. -/
theorem with_inputs (h : node.isLeaf = true) {children : List (String × Node)}
    (hchildren : ∀ pair ∈ children, pair.2.Ordered) :
    ({ node with inputs := gather children } : Node).Ordered := by
  rw [isLeaf_iff_parts] at h
  refine of_parts (gather_sorted children) ?_ (fun _ _ => gather_ordered hchildren) ?_ ?_
  · simp [h, Dict.Sorted, Dict.keys]
  · simp [h]
  · simp [h]

/-- A leaf that gets items. -/
theorem with_items (h : node.isLeaf = true) {items : List Node}
    (hitems : ∀ item ∈ items, item.Ordered) :
    ({ node with items := items } : Node).Ordered := by
  rw [isLeaf_iff_parts] at h
  refine of_parts ?_ ?_ ?_ ?_ hitems <;> simp [h, Dict.Sorted, Dict.keys]

end Node.Ordered

namespace Tree

/-! ### Fresh nodes -/

@[simp] theorem isLeaf_ofPolicy (policy : Option Policy) : (Node.ofPolicy policy).isLeaf = true :=
  rfl

@[simp] theorem isLeaf_start (comment : Option String) (inherited : Option Policy) :
    (start comment inherited).isLeaf = true := by
  cases inherited with
  | none => rfl
  | some inherited =>
    rw [start]
    split <;> rfl

/-! ### Values -/

mutual

theorem fillData_ordered {node : Node} (h : node.isLeaf = true) :
    ∀ json : Json, (fillData node json).Ordered
  | .object fields => .with_inputs h (dataInputs_ordered node.policy fields)
  | .array items => .with_items h (dataItems_ordered node.policy items)
  | .null | .bool _ | .int _ | .float _ | .string _ => .of_isLeaf h

theorem dataInputs_ordered (policy : Option Policy) :
    ∀ fields : List (String × Json), ∀ pair ∈ dataInputs policy fields, pair.2.Ordered
  | [], pair, hpair => absurd hpair List.not_mem_nil
  | (name, json) :: rest, pair, hpair => by
    rcases List.mem_cons.1 hpair with rfl | hrest
    · exact fillData_ordered (isLeaf_ofPolicy policy) json
    · exact dataInputs_ordered policy rest pair hrest

theorem dataItems_ordered (policy : Option Policy) :
    ∀ items : List Json, ∀ item ∈ dataItems policy items, item.Ordered
  | [], item, hitem => absurd hitem List.not_mem_nil
  | json :: rest, item, hitem => by
    rcases List.mem_cons.1 hitem with rfl | hrest
    · exact fillData_ordered (isLeaf_ofPolicy policy) json
    · exact dataItems_ordered policy rest item hrest

end

section Fill

variable {ofVariable : String → Node → Node}

mutual

theorem fill_ordered
    (hvar : ∀ name node, Node.isLeaf node = true → (ofVariable name node).Ordered)
    {node : Node} (h : node.isLeaf = true) :
    ∀ value : Value, (fill ofVariable node value).Ordered
  | .variable name => hvar name node h
  | .list items => .with_items h (fillItems_ordered hvar node.policy items)
  | .object fields => .with_inputs h (fillInputs_ordered hvar node.policy fields)
  | .int _ | .float _ | .string _ | .boolean _ | .null | .enum _ => .of_isLeaf h

theorem fillItems_ordered
    (hvar : ∀ name node, Node.isLeaf node = true → (ofVariable name node).Ordered)
    (policy : Option Policy) :
    ∀ items : List Value, ∀ item ∈ fillItems ofVariable policy items, item.Ordered
  | [], item, hitem => absurd hitem List.not_mem_nil
  | value :: rest, item, hitem => by
    rcases List.mem_cons.1 hitem with rfl | hrest
    · exact fill_ordered hvar (isLeaf_ofPolicy policy) value
    · exact fillItems_ordered hvar policy rest item hrest

theorem fillInputs_ordered
    (hvar : ∀ name node, Node.isLeaf node = true → (ofVariable name node).Ordered)
    (policy : Option Policy) :
    ∀ fields : List Argument, ∀ pair ∈ fillInputs ofVariable policy fields, pair.2.Ordered
  | [], pair, hpair => absurd hpair List.not_mem_nil
  | .mk comment name value :: rest, pair, hpair => by
    rcases List.mem_cons.1 hpair with rfl | hrest
    · exact fill_ordered hvar (isLeaf_start comment policy) value
    · exact fillInputs_ordered hvar policy rest pair hrest

end

end Fill

theorem fillBound_ordered (bindings : Dict Json) (name : String) (node : Node)
    (h : node.isLeaf = true) : (fillBound bindings name node).Ordered := by
  rw [fillBound]
  split
  · exact fillData_ordered h _
  · exact .of_isLeaf h

theorem fillVariable_ordered (bindings : Dict Json) (declared : List VariableDefinition)
    (name : String) (node : Node) (h : node.isLeaf = true) :
    (fillVariable bindings declared name node).Ordered := by
  rw [fillVariable]
  split
  · exact fillData_ordered h _
  · split
    · exact fill_ordered (fillBound_ordered bindings) h _
    · exact .of_isLeaf h

/-! ### Selections -/

/-- What selections contribute is ordered. -/
def ContributesOrdered (contribute : Contribute) : Prop :=
  ∀ active policy selections, ∀ pair ∈ contribute active policy selections, pair.2.Ordered

theorem contributesOrdered_getD {deeper : Option Contribute}
    (h : ∀ contribute ∈ deeper, ContributesOrdered contribute) :
    ContributesOrdered (deeper.getD contributeNothing) := by
  cases deeper with
  | none =>
    intro active policy selections pair hpair
    exact absurd hpair List.not_mem_nil
  | some contribute => exact h contribute rfl

section Contributions

variable {around : Surroundings} {deeper : Option Contribute}

mutual

theorem contribution_ordered (h : ∀ contribute ∈ deeper, ContributesOrdered contribute)
    (active : List String) (policy : Option Policy) :
    ∀ selection, ∀ pair ∈ contribution around deeper active policy selection, pair.2.Ordered
  | .field comment label name arguments directives selections, pair, hpair => by
    rw [contribution, List.mem_singleton] at hpair
    rw [hpair]
    have hleaf := Node.isLeaf_iff_parts.1 (isLeaf_start comment policy)
    refine .of_parts (Node.gather_sorted _) (Node.gather_sorted _) (fun _ _ => ?_)
      (fun _ _ => ?_) ?_
    · exact Node.gather_ordered
        (fillInputs_ordered (fillVariable_ordered around.bindings around.declared) _ arguments)
    · exact Node.gather_ordered (contributesOrdered_getD h active _ selections)
    · simp [hleaf]
  | .inline on directives selections, pair, hpair => by
    rw [contribution] at hpair
    exact contributionsAt_ordered h active policy selections pair hpair
  | .spread name directives, pair, hpair => by
    rw [contribution] at hpair
    split at hpair
    · exact absurd hpair List.not_mem_nil
    · split at hpair
      · exact absurd hpair List.not_mem_nil
      · exact contributesOrdered_getD h (name :: active) policy _ pair hpair

theorem contributionsAt_ordered (h : ∀ contribute ∈ deeper, ContributesOrdered contribute)
    (active : List String) (policy : Option Policy) :
    ∀ selections, ∀ pair ∈ contributionsAt around deeper active policy selections,
      pair.2.Ordered
  | [], pair, hpair => absurd hpair List.not_mem_nil
  | selection :: rest, pair, hpair => by
    rw [contributionsAt, List.mem_append] at hpair
    rcases hpair with hfirst | hrest
    · exact contribution_ordered h active policy selection pair hfirst
    · exact contributionsAt_ordered h active policy rest pair hrest

end

end Contributions

theorem contributions_ordered (around : Surroundings) (levels : Nat) :
    ContributesOrdered (contributions around levels) := by
  induction levels with
  | zero => exact contributionsAt_ordered (by simp)
  | succ levels ih => exact contributionsAt_ordered (by simpa using ih)

/-! ### Documents -/

theorem ofOperation_ordered (bindings : Dict Json) (fragments : List Fragment)
    (policy : Option Policy) (operation : Operation) :
    (ofOperation bindings fragments policy operation).Ordered := by
  have hleaf := Node.isLeaf_iff_parts.1 (isLeaf_start operation.comment policy)
  refine .of_parts ?_ (Node.gather_sorted _) ?_ (fun _ _ => ?_) ?_
  · simp [ofOperation, hleaf, Dict.Sorted, Dict.keys]
  · simp [ofOperation, hleaf]
  · exact Node.gather_ordered (contributions_ordered _ maxDepth [] _ operation.selections)
  · simp [ofOperation, hleaf]

/-- **The tree of a document is ordered.** -/
theorem ofDocument_ordered (document : Document) (bindings : Dict Json)
    (policy : Option Policy) : (ofDocument document bindings policy).Ordered := by
  refine ⟨Node.gather_sorted _, fun keyword root hroot => Node.gather_ordered ?_ hroot⟩
  intro pair hpair
  obtain ⟨operation, -, rfl⟩ := List.mem_map.1 hpair
  exact ofOperation_ordered bindings document.fragments policy operation

section Operations

variable (document : Document) (bindings : Dict Json) (policy : Option Policy)

/-- The root of a kind: its operations, overlaid in the order of the text. -/
theorem root?_ofDocument (keyword : String) :
    (ofDocument document bindings policy).root? keyword =
      Node.overlay ((document.operations.filter (·.kind.keyword == keyword)).map
        (ofOperation bindings document.fragments policy)) := by
  rw [root?, ofDocument, ofRoots, Node.lookup_gather, List.filter_map, List.map_map]
  rfl

/-- The node at a place: what the operations of the kind have there, overlaid in the order
of the text. -/
theorem get?_ofDocument (path : TreePath) :
    (ofDocument document bindings policy).get? path =
      Node.overlay ((document.operations.filter (·.kind.keyword == path.root)).filterMap
        fun operation =>
          (ofOperation bindings document.fragments policy operation).get? path.segments) := by
  rw [get?, root?_ofDocument, Node.overlay_bind_get?, List.filterMap_map]
  · rfl
  · intro node hnode
    obtain ⟨operation, -, rfl⟩ := List.mem_map.1 hnode
    exact ofOperation_ordered bindings document.fragments policy operation

end Operations

end Tree

end QueryAccess
