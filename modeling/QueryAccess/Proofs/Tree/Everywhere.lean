import QueryAccess.Proofs.Document.Keys
import QueryAccess.Proofs.Tree.Associativity
import QueryAccess.Proofs.Tree.Listing

/-!
# What is so at every node

The tree of a document gets its nodes in five ways – the roots, the fields, the arguments and
object fields, the elements of lists, and the parts of bound data – and overlays them where
names repeat. A property of what a node holds of notes, its policy and its drop rules, is
*heritable* if each of these keeps it (`QueryAccess.Heritable`): a node that takes over the
policy above has it, with its own note or with none, and two nodes that have it have it when
one overlays the other.

**The names along a path** come from two places. A document brings its keys
(`QueryAccess.Document.keys`), and the data bound to its variables brings the keys of the objects
in it (`QueryAccess.keysOfBindings`); nothing that is made of these on the way – by overlaying, by
expanding a fragment, by filling in a default – makes a name.

**The induction.** A heritable property that the roots start with is had by every node of the
tree, and the way to it goes along such names only (`QueryAccess.Heritable.ofDocument`). It goes
down the document as the tree is made, and the places of a merged node are those of the two
nodes (`QueryAccess.Node.get?_merge`), so that merging adds no place at which anything new could
stand, and no way to one.

Two properties are of this kind, one for each way of reading a document. Holding no notes is
heritable, and so is having a policy; the first is what the tree of a query has everywhere
(`QueryAccess.Tree.query_holds_no_notes`), the second what a rule tree has
(`QueryAccess.Tree.rules_have_policies`).
-/

namespace QueryAccess

/-- A property of the policy and the drop rules of a node. -/
abbrev OfNotes : Type := Option Policy → Option (List DropRule) → Prop

/-- A node has a property of its notes. -/
def Node.Has (holds : OfNotes) (node : Node) : Prop := holds node.policy node.dropRules

/-- **A node and all nodes below it have a property** of their notes, and the ways down to them
go along allowed names. -/
def Node.Everywhere (holds : OfNotes) (allows : String → Prop) (node : Node) : Prop :=
  ∀ segments target, node.get? segments = some target →
    target.Has holds ∧ ∀ facet name, .named facet name ∈ segments → allows name

/-- A child under an allowed name that has a property everywhere. -/
structure Node.Stands (holds : OfNotes) (allows : String → Prop) (child : String × Node) :
    Prop where
  name : allows child.1
  everywhere : child.2.Everywhere holds allows

/-- **A property that is handed down** with the policy: a fresh node that takes over the
policy of one that has it has it too, and so has one node overlaid by another if both do. -/
structure Heritable (holds : OfNotes) : Prop where
  noted {p : Option Policy} {d : Option (List DropRule)} (h : holds p d)
    (comment : Option String) : (Tree.start comment p).Has holds
  bare {p : Option Policy} {d : Option (List DropRule)} (h : holds p d) :
    (Node.ofPolicy p).Has holds
  overlaid {p p' : Option Policy} {d d' : Option (List DropRule)} (h : holds p d)
    (h' : holds p' d') : holds (p'.or p) (d'.or d)

namespace Node.Everywhere

variable {holds : OfNotes} {allows : String → Prop} {node : Node}

/-! ### Nodes and their children -/

/-- A property is everywhere if it is at the node and in all its parts. -/
theorem of_parts (self : node.Has holds)
    (hinputs : ∀ name child, node.inputs.lookup name = some child →
      Stands holds allows (name, child))
    (houtputs : ∀ name child, node.outputs.lookup name = some child →
      Stands holds allows (name, child))
    (hitems : ∀ item ∈ node.items, item.Everywhere holds allows) :
    node.Everywhere holds allows := by
  intro segments target htarget
  cases segments with
  | nil =>
    rw [get?_nil, Option.some.injEq] at htarget
    exact ⟨htarget ▸ self, fun _ _ hmem => absurd hmem List.not_mem_nil⟩
  | cons segment rest =>
    obtain ⟨child, hchild, hrest⟩ := Option.bind_eq_some_iff.1 htarget
    have hnamed : ∀ side key, Stands holds allows (key, child) → target.Has holds ∧
        ∀ facet name, .named facet name ∈ Segment.named side key :: rest → allows name := by
      intro side key hstands
      obtain ⟨hholds, hnames⟩ := hstands.everywhere rest target hrest
      refine ⟨hholds, fun facet name hmem => ?_⟩
      rcases List.mem_cons.1 hmem with heq | hmem
      · exact (Segment.named.inj heq).2 ▸ hstands.name
      · exact hnames facet name hmem
    rcases segment with ⟨_ | _, key⟩ | i
    · exact hnamed .input key (hinputs key child hchild)
    · exact hnamed .output key (houtputs key child hchild)
    · obtain ⟨hholds, hnames⟩ := hitems child (List.mem_of_getElem? hchild) rest target hrest
      refine ⟨hholds, fun facet name hmem => ?_⟩
      rcases List.mem_cons.1 hmem with heq | hmem
      · cases heq
      · exact hnames facet name hmem

/-- A leaf has below it nothing but itself. -/
theorem of_isLeaf (hleaf : node.isLeaf = true) (self : node.Has holds) :
    node.Everywhere holds allows := by
  rw [isLeaf_iff_parts] at hleaf
  exact of_parts self (by simp [hleaf]) (by simp [hleaf]) (by simp [hleaf])

/-- A leaf that gets items. -/
theorem with_items (hleaf : node.isLeaf = true) (self : node.Has holds) {items : List Node}
    (hitems : ∀ item ∈ items, item.Everywhere holds allows) :
    ({ node with items := items } : Node).Everywhere holds allows := by
  rw [isLeaf_iff_parts] at hleaf
  exact of_parts self (by simp [hleaf]) (by simp [hleaf]) hitems

end Node.Everywhere

open Node (Stands)

/-! ### The keys of what is bound -/

/-- What is bound to a variable is among the data of the bindings. -/
theorem keys_subset_of_lookup {bindings : Dict Json} {name : String} {json : Json}
    (h : bindings.lookup name = some json) : json.keys ⊆ keysOfBindings bindings :=
  fun _ hkey => List.mem_flatMap.2 ⟨(name, json), Dict.mem_of_lookup h, hkey⟩

theorem keys_subset_of_default? {declared : List VariableDefinition} {name : String} {value : Value}
    (h : Tree.default? declared name = some value) :
    value.keys ⊆ declared.flatMap VariableDefinition.keys := by
  obtain ⟨definition, hdefinition, hfound⟩ := List.exists_of_findSome?_eq_some h
  split at hfound
  · refine fun key hkey => List.mem_flatMap.2 ⟨definition, List.mem_reverse.1 hdefinition, ?_⟩
    rw [VariableDefinition.keys, hfound]
    simpa using hkey
  · cases hfound

/-- All keys that selections may take from around them are allowed. -/
structure Tree.Surroundings.AllowedIn (allows : String → Prop) (around : Tree.Surroundings) :
    Prop where
  bindings : ∀ key ∈ keysOfBindings around.bindings, allows key
  declared : ∀ key ∈ around.declared.flatMap VariableDefinition.keys, allows key
  fragments : ∀ fragment ∈ around.fragments, ∀ key ∈ keysOfSelections fragment.selections,
    allows key

theorem Tree.Surroundings.AllowedIn.fragment? {allows : String → Prop} {around : Tree.Surroundings}
    (A : around.AllowedIn allows) {name : String} {selections : List Selection}
    (h : around.fragment? name = some selections) :
    ∀ key ∈ keysOfSelections selections, allows key := by
  obtain ⟨fragment, hfragment, rfl⟩ := Option.map_eq_some_iff.1 h
  exact A.fragments fragment (List.mem_reverse.1 (List.mem_of_find?_eq_some hfragment))

namespace Heritable

variable {holds : OfNotes} {allows : String → Prop}

/-! ### Overlaying and gathering -/

/-- **Merging keeps what is so everywhere.** -/
theorem merge (H : Heritable holds) {a b : Node} (ha : a.Ordered) (hb : b.Ordered)
    (hfirst : a.Everywhere holds allows) (hsecond : b.Everywhere holds allows) :
    (a.merge b).Everywhere holds allows := by
  intro segments target htarget
  rw [Node.get?_merge ha hb, Option.merge_eq_some_iff] at htarget
  obtain ⟨hone, -⟩ | ⟨-, hone⟩ | ⟨earlier, later, hearlier, hlater, rfl⟩ := htarget
  · exact hfirst segments target hone
  · exact hsecond segments target hone
  · obtain ⟨hholds, hnames⟩ := hfirst segments earlier hearlier
    rw [Node.Has, Node.merge_policy, Node.merge_dropRules]
    exact ⟨H.overlaid hholds (hsecond segments later hlater).1, hnames⟩

theorem overlay (H : Heritable holds) {nodes : List Node}
    (hordered : ∀ node ∈ nodes, node.Ordered) (h : ∀ node ∈ nodes, node.Everywhere holds allows)
    {node : Node} (hnode : Node.overlay nodes = some node) : node.Everywhere holds allows := by
  induction nodes using List.reverseRecOn generalizing node with
  | nil => simp at hnode
  | append_singleton init last ih =>
    have hinit : ∀ node ∈ init, node.Ordered := fun node hmem => hordered node (by simp [hmem])
    have hlast : last.Everywhere holds allows := h last (by simp)
    rw [Node.overlay_concat] at hnode
    cases hearlier : Node.overlay init with
    | none =>
      rw [hearlier, Option.merge_none_left, Option.some.injEq] at hnode
      exact hnode ▸ hlast
    | some earlier =>
      rw [hearlier, Option.merge_some_some, Option.some.injEq] at hnode
      have hbefore := ih hinit (fun node hmem => h node (by simp [hmem])) hearlier
      exact hnode ▸ H.merge (Node.overlay_ordered hinit hearlier) (hordered last (by simp))
        hbefore hlast

/-- Gathering keeps what is so everywhere. -/
theorem gather (H : Heritable holds) {children : List (String × Node)}
    (hordered : ∀ pair ∈ children, pair.2.Ordered)
    (h : ∀ pair ∈ children, Stands holds allows pair) (name : String) (child : Node)
    (hchild : (Node.gather children).lookup name = some child) :
    Stands holds allows (name, child) := by
  rw [Node.lookup_gather] at hchild
  have hpart : ∀ node ∈ (children.filter fun pair => pair.1 == name).map Prod.snd,
      ∃ pair ∈ children, pair.1 = name ∧ pair.2 = node := by
    intro node hnode
    obtain ⟨pair, hpair, rfl⟩ := List.mem_map.1 hnode
    rw [List.mem_filter, beq_iff_eq] at hpair
    exact ⟨pair, hpair.1, hpair.2, rfl⟩
  refine ⟨?_, H.overlay (fun node hnode => ?_) (fun node hnode => ?_) hchild⟩
  · obtain ⟨node, hnode⟩ := Node.exists_mem_of_overlay hchild
    obtain ⟨pair, hpair, rfl, -⟩ := hpart node hnode
    exact (h pair hpair).name
  · obtain ⟨pair, hpair, -, rfl⟩ := hpart node hnode
    exact hordered pair hpair
  · obtain ⟨pair, hpair, -, rfl⟩ := hpart node hnode
    exact (h pair hpair).everywhere

/-- A leaf that gets inputs. -/
theorem with_inputs (H : Heritable holds) {node : Node} (hleaf : node.isLeaf = true)
    (self : node.Has holds) {children : List (String × Node)}
    (hordered : ∀ pair ∈ children, pair.2.Ordered)
    (h : ∀ pair ∈ children, Stands holds allows pair) :
    ({ node with inputs := Node.gather children } : Node).Everywhere holds allows := by
  rw [Node.isLeaf_iff_parts] at hleaf
  exact .of_parts self (H.gather hordered h) (by simp [hleaf]) (by simp [hleaf])

/-! ### Values -/

mutual

theorem fillData (H : Heritable holds) {node : Node} (hleaf : node.isLeaf = true)
    (self : node.Has holds) : ∀ json : Json, (∀ key ∈ json.keys, allows key) →
      (Tree.fillData node json).Everywhere holds allows
  | .object fields, hkeys =>
    H.with_inputs hleaf self (Tree.dataInputs_ordered node.policy fields)
      (dataInputs H self fields hkeys)
  | .array items, hkeys => .with_items hleaf self (dataItems H self items hkeys)
  | .null, _ | .bool _, _ | .int _, _ | .float _, _ | .string _, _ => .of_isLeaf hleaf self

theorem dataInputs (H : Heritable holds) {p : Option Policy} {d : Option (List DropRule)}
    (h : holds p d) : ∀ fields : List (String × Json), (∀ key ∈ keysOfFields fields, allows key) →
      ∀ pair ∈ Tree.dataInputs p fields, Stands holds allows pair
  | [], _, pair, hpair => absurd hpair List.not_mem_nil
  | (name, json) :: rest, hkeys, pair, hpair => by
    rw [keysOfFields, List.forall_mem_cons, List.forall_mem_append] at hkeys
    rcases List.mem_cons.1 hpair with rfl | hrest
    · exact ⟨hkeys.1, fillData H (Tree.isLeaf_ofPolicy p) (H.bare h) json hkeys.2.1⟩
    · exact dataInputs H h rest hkeys.2.2 pair hrest

theorem dataItems (H : Heritable holds) {p : Option Policy} {d : Option (List DropRule)}
    (h : holds p d) : ∀ items : List Json, (∀ key ∈ keysOfElements items, allows key) →
      ∀ item ∈ Tree.dataItems p items, item.Everywhere holds allows
  | [], _, item, hitem => absurd hitem List.not_mem_nil
  | json :: rest, hkeys, item, hitem => by
    rw [keysOfElements, List.forall_mem_append] at hkeys
    rcases List.mem_cons.1 hitem with rfl | hrest
    · exact fillData H (Tree.isLeaf_ofPolicy p) (H.bare h) json hkeys.1
    · exact dataItems H h rest hkeys.2 item hrest

end

/-- A way to fill nodes with variables that keeps them ordered, and has a property
everywhere in what it fills. -/
structure Fills (holds : OfNotes) (allows : String → Prop) (ofVariable : String → Node → Node) :
    Prop where
  ordered : ∀ name node, Node.isLeaf node = true → (ofVariable name node).Ordered
  everywhere : ∀ name node, Node.isLeaf node = true → node.Has holds →
    (ofVariable name node).Everywhere holds allows

section Fill

variable {ofVariable : String → Node → Node}

mutual

theorem fill (H : Heritable holds) (V : Fills holds allows ofVariable) {node : Node}
    (hleaf : node.isLeaf = true) (self : node.Has holds) :
    ∀ value : Value, (∀ key ∈ value.keys, allows key) →
      (Tree.fill ofVariable node value).Everywhere holds allows
  | .variable name, _ => V.everywhere name node hleaf self
  | .list items, hkeys => .with_items hleaf self (fillItems H V self items hkeys)
  | .object fields, hkeys =>
    H.with_inputs hleaf self (Tree.fillInputs_ordered V.ordered node.policy fields)
      (fillInputs H V self fields hkeys)
  | .int _, _ | .float _, _ | .string _, _ | .boolean _, _ | .null, _ | .enum _, _ =>
    .of_isLeaf hleaf self

theorem fillItems (H : Heritable holds) (V : Fills holds allows ofVariable) {p : Option Policy}
    {d : Option (List DropRule)} (h : holds p d) :
    ∀ items : List Value, (∀ key ∈ keysOfItems items, allows key) →
      ∀ item ∈ Tree.fillItems ofVariable p items, item.Everywhere holds allows
  | [], _, item, hitem => absurd hitem List.not_mem_nil
  | value :: rest, hkeys, item, hitem => by
    rw [keysOfItems, List.forall_mem_append] at hkeys
    rcases List.mem_cons.1 hitem with rfl | hrest
    · exact fill H V (Tree.isLeaf_ofPolicy p) (H.bare h) value hkeys.1
    · exact fillItems H V h rest hkeys.2 item hrest

theorem fillInputs (H : Heritable holds) (V : Fills holds allows ofVariable) {p : Option Policy}
    {d : Option (List DropRule)} (h : holds p d) :
    ∀ arguments : List Argument, (∀ key ∈ keysOfArguments arguments, allows key) →
      ∀ pair ∈ Tree.fillInputs ofVariable p arguments, Stands holds allows pair
  | [], _, pair, hpair => absurd hpair List.not_mem_nil
  | .mk comment name value :: rest, hkeys, pair, hpair => by
    rw [keysOfArguments, List.forall_mem_cons, List.forall_mem_append] at hkeys
    rcases List.mem_cons.1 hpair with rfl | hrest
    · exact ⟨hkeys.1, fill H V (Tree.isLeaf_start comment p) (H.noted h comment) value hkeys.2.1⟩
    · exact fillInputs H V h rest hkeys.2.2 pair hrest

end

end Fill

theorem fillBound (H : Heritable holds) {bindings : Dict Json}
    (hkeys : ∀ key ∈ keysOfBindings bindings, allows key) :
    Fills holds allows (Tree.fillBound bindings) := by
  refine ⟨Tree.fillBound_ordered bindings, fun name node hleaf self => ?_⟩
  rw [Tree.fillBound]
  split
  · next json hbound =>
    exact H.fillData hleaf self json fun key hkey => hkeys key (keys_subset_of_lookup hbound hkey)
  · exact .of_isLeaf hleaf self

theorem fillVariable (H : Heritable holds) {around : Tree.Surroundings}
    (A : around.AllowedIn allows) :
    Fills holds allows (Tree.fillVariable around.bindings around.declared) := by
  refine ⟨Tree.fillVariable_ordered around.bindings around.declared,
    fun name node hleaf self => ?_⟩
  rw [Tree.fillVariable]
  split
  · next json hbound =>
    exact H.fillData hleaf self json
      fun key hkey => A.bindings key (keys_subset_of_lookup hbound hkey)
  · split
    · next value hdefault =>
      exact H.fill (H.fillBound A.bindings) hleaf self value
        fun key hkey => A.declared key (keys_subset_of_default? hdefault hkey)
    · exact .of_isLeaf hleaf self

/-! ### Selections -/

/-- What selections contribute has a property everywhere, if it is handed down to it and their
keys are allowed. -/
def Contributes (holds : OfNotes) (allows : String → Prop) (contribute : Tree.Contribute) : Prop :=
  ∀ active p d selections, holds p d → (∀ key ∈ keysOfSelections selections, allows key) →
    ∀ pair ∈ contribute active p selections, Stands holds allows pair

/-- The level further down, if there is one, contributes ordered nodes that have a property
everywhere. -/
structure Deeper (holds : OfNotes) (allows : String → Prop) (deeper : Option Tree.Contribute) :
    Prop where
  ordered : ∀ contribute ∈ deeper, Tree.ContributesOrdered contribute
  everywhere : ∀ contribute ∈ deeper, Contributes holds allows contribute

theorem contributes_getD {deeper : Option Tree.Contribute}
    (h : ∀ contribute ∈ deeper, Contributes holds allows contribute) :
    Contributes holds allows (deeper.getD Tree.contributeNothing) := by
  cases deeper with
  | none =>
    intro active p d selections _ _ pair hpair
    exact absurd hpair List.not_mem_nil
  | some contribute => exact h contribute rfl

section Contributions

variable {p : Option Policy} {d : Option (List DropRule)} {around : Tree.Surroundings}
  {deeper : Option Tree.Contribute}

mutual

theorem contribution (H : Heritable holds) (A : around.AllowedIn allows)
    (D : Deeper holds allows deeper) (active : List String) (h : holds p d) :
    ∀ selection : Selection, (∀ key ∈ selection.keys, allows key) →
      ∀ pair ∈ Tree.contribution around deeper active p selection, Stands holds allows pair
  | .field comment label name arguments directives selections, hkeys, pair, hpair => by
    rw [Selection.keys, List.forall_mem_cons, List.forall_mem_append] at hkeys
    obtain ⟨hkey, harguments, hselections⟩ := hkeys
    rw [Tree.contribution, List.mem_singleton] at hpair
    have hleaf := Node.isLeaf_iff_parts.1 (Tree.isLeaf_start comment p)
    have self : (Tree.start comment p).Has holds := H.noted h comment
    have V := H.fillVariable A
    rw [hpair]
    refine ⟨hkey, .of_parts self ?_ ?_ (by simp [hleaf])⟩
    · exact H.gather (Tree.fillInputs_ordered V.ordered _ arguments)
        (H.fillInputs V self arguments harguments)
    · exact H.gather (Tree.contributesOrdered_getD D.ordered active _ selections)
        (contributes_getD D.everywhere active _ _ selections self hselections)
  | .inline on directives selections, hkeys, pair, hpair => by
    rw [Tree.contribution] at hpair
    exact contributionsAt H A D active h selections hkeys pair hpair
  | .spread name directives, _, pair, hpair => by
    rw [Tree.contribution] at hpair
    split at hpair
    · exact absurd hpair List.not_mem_nil
    · next selections hfragment =>
      split at hpair
      · exact absurd hpair List.not_mem_nil
      · exact contributes_getD D.everywhere (name :: active) p d selections h
          (A.fragment? hfragment) pair hpair

theorem contributionsAt (H : Heritable holds) (A : around.AllowedIn allows)
    (D : Deeper holds allows deeper) (active : List String) (h : holds p d) :
    ∀ selections : List Selection, (∀ key ∈ keysOfSelections selections, allows key) →
      ∀ pair ∈ Tree.contributionsAt around deeper active p selections, Stands holds allows pair
  | [], _, pair, hpair => absurd hpair List.not_mem_nil
  | selection :: rest, hkeys, pair, hpair => by
    rw [keysOfSelections, List.forall_mem_append] at hkeys
    rw [Tree.contributionsAt, List.mem_append] at hpair
    rcases hpair with hfirst | hrest
    · exact contribution H A D active h selection hkeys.1 pair hfirst
    · exact contributionsAt H A D active h rest hkeys.2 pair hrest

end

end Contributions

theorem contributions (H : Heritable holds) {around : Tree.Surroundings}
    (A : around.AllowedIn allows) (levels : Nat) :
    Contributes holds allows (Tree.contributions around levels) := by
  induction levels with
  | zero =>
    intro active p d selections h
    exact H.contributionsAt A ⟨by simp, by simp⟩ active h selections
  | succ levels ih =>
    have D : Deeper holds allows (some (Tree.contributions around levels)) :=
      ⟨by simpa using Tree.contributions_ordered around levels, by simpa using ih⟩
    intro active p d selections h
    exact H.contributionsAt A D active h selections

/-! ### Documents -/

variable {p : Option Policy} {d : Option (List DropRule)}

theorem ofOperation (H : Heritable holds) {bindings : Dict Json} {fragments : List Fragment}
    {operation : Operation}
    (A : Tree.Surroundings.AllowedIn allows ⟨bindings, operation.declared, fragments⟩)
    (hkeys : ∀ key ∈ keysOfSelections operation.selections, allows key) (h : holds p d) :
    (Tree.ofOperation bindings fragments p operation).Everywhere holds allows := by
  have hleaf := Node.isLeaf_iff_parts.1 (Tree.isLeaf_start operation.comment p)
  have self : (Tree.start operation.comment p).Has holds := H.noted h operation.comment
  refine .of_parts self ?_ ?_ ?_
  · simp [Tree.ofOperation, hleaf]
  · exact H.gather
      (Tree.contributions_ordered _ maxDepth [] _ operation.selections)
      (H.contributions A maxDepth [] _ _ operation.selections self hkeys)
  · simp [Tree.ofOperation, hleaf]

/-- **What is handed down from the root policy is so at every node** of the tree of a
document, and the names on the way to it are keys of the document or of the data bound to its
variables. -/
theorem ofDocument (H : Heritable holds) (document : Document) (bindings : Dict Json)
    (h : holds p d) {path : TreePath} {node : Node}
    (hnode : (Tree.ofDocument document bindings p).get? path = some node) :
    node.Has holds ∧ ∀ facet name, .named facet name ∈ path.segments →
      name ∈ document.keys ∨ name ∈ keysOfBindings bindings := by
  obtain ⟨root, hroot, hget⟩ := Option.bind_eq_some_iff.1 hnode
  rw [Tree.root?_ofDocument] at hroot
  refine H.overlay (fun part hpart => ?_) (fun part hpart => ?_) hroot path.segments node hget
  · obtain ⟨operation, -, rfl⟩ := List.mem_map.1 hpart
    exact Tree.ofOperation_ordered bindings document.fragments p operation
  · obtain ⟨operation, hoperation, rfl⟩ := List.mem_map.1 hpart
    obtain ⟨hdeclared, hselections⟩ :=
      Document.keys_subset_of_operation (List.mem_filter.1 hoperation).1
    refine H.ofOperation ⟨fun key hkey => .inr hkey, fun key hkey => .inl (hdeclared hkey),
      fun fragment hfragment key hkey => .inl ?_⟩ (fun key hkey => .inl (hselections hkey)) h
    exact Document.keysOfSelections_subset_of_fragment hfragment hkey

end Heritable

/-! ### Queries and rule trees -/

/-- Holding no notes is handed down. -/
theorem Heritable.holdingNone : Heritable fun p d => p = none ∧ d = none where
  noted h comment := by
    rw [h.1]
    exact ⟨rfl, rfl⟩
  bare h := ⟨h.1, rfl⟩
  overlaid h h' := by
    rw [h.1, h.2, h'.1, h'.2]
    exact ⟨rfl, rfl⟩

/-- What is so of all notes is handed down. -/
theorem Heritable.holdingAnything : Heritable fun _ _ => True where
  noted _ _ := trivial
  bare _ := trivial
  overlaid _ _ := trivial

/-- Having a policy is handed down. -/
theorem Heritable.havingPolicy : Heritable fun p _ => p.isSome = true where
  noted {p d} h comment := by
    obtain ⟨policy, rfl⟩ := Option.isSome_iff_exists.1 h
    rw [Node.Has, Tree.start]
    split <;> rfl
  bare h := h
  overlaid h h' := by
    rw [Option.isSome_or, h, h']
    rfl

namespace Tree

variable (document : Document) (bindings : Dict Json)

/-- **The tree of a query holds no notes**: no node has a policy or drop rules. -/
theorem query_holds_no_notes :
    ∀ place ∈ (ofDocument document bindings none).listing,
      place.2.policy = none ∧ place.2.dropRules = none := by
  intro place hplace
  rw [mem_listing (ofDocument_ordered document bindings none)] at hplace
  exact (Heritable.holdingNone.ofDocument document bindings ⟨rfl, rfl⟩ hplace).1

/-- **Every node of a rule tree has a policy.** -/
theorem rules_have_policies (root : Policy) :
    ∀ place ∈ (ofDocument document bindings (some root)).listing, place.2.policy.isSome = true := by
  intro place hplace
  rw [mem_listing (ofDocument_ordered document bindings (some root))] at hplace
  exact (Heritable.havingPolicy.ofDocument document bindings (d := none) rfl hplace).1

end Tree

end QueryAccess
