import QueryAccess.Proofs.Tree.Lookup
import QueryAccess.Rules

/-!
# Which list rules are found

Below a list a name may stand more than once: each element has its own. A rule is looked up
without indices, and of all that stand at the next name (`QueryAccess.Node.entries`) the
first one is taken (`QueryAccess.Node.ruleChild?_eq_head?`). The look-up does not come back
to the others, so what only they have further down is not found, and no rule is in effect
there (`QueryAccess.RuleTree.later_element_unruled`).

What is needed is that the first one has whatever the others have below them, and the same
again below the first one. Such trees are *exemplary* (`QueryAccess.Node.Exemplary`): in
each list one element is an example for all of them. In exemplary trees, and in no others,
a rule is found for every node (`QueryAccess.Tree.ruleAt?_withoutIndices_iff`), and what is
found always stands at a place that reads the same without indices. A tree whose lists
have one element each is exemplary (`QueryAccess.Node.exemplary_of_sole`).
-/

namespace QueryAccess

/-- Whether a segment is a name, and not a list index. -/
def Segment.isNamed : Segment → Bool
  | .named _ _ => true
  | .index _ => false

/-- Where some indices are left out, and where all of them are, the same is left in the end. -/
theorem Segment.Thinned.filter_isNamed {place path : List Segment} (h : Thinned place path) :
    place.filter Segment.isNamed = path.filter Segment.isNamed := by
  induction h with
  | nil => rfl
  | keep segment _ ih => rw [List.filter_cons, List.filter_cons, ih]
  | skip i _ ih => exact ih

/-- **A path with its list indices left out.** -/
def TreePath.withoutIndices (path : TreePath) : TreePath :=
  { path with segments := path.segments.filter Segment.isNamed }

namespace Node

/-! ### What stands at a name -/

mutual

/-- All that stands at a segment of a node or of its items, however deep in lists of
lists. -/
def entries (segment : Segment) : Node → List Node
  | ⟨inputs, outputs, items, value, fieldName, policy, dropRules⟩ =>
    (child? ⟨inputs, outputs, items, value, fieldName, policy, dropRules⟩ segment).toList ++
      entriesOfItems segment items

/-- All that stands at a segment of the items. -/
def entriesOfItems (segment : Segment) : List Node → List Node
  | [] => []
  | item :: rest => entries segment item ++ entriesOfItems segment rest

end

theorem entriesOfItems_eq (segment : Segment) (items : List Node) :
    entriesOfItems segment items = items.flatMap (entries segment) := by
  induction items with
  | nil => rfl
  | cons item rest ih => rw [entriesOfItems, ih, List.flatMap_cons]

theorem entries_eq (segment : Segment) (node : Node) :
    node.entries segment =
      (node.child? segment).toList ++ node.items.flatMap (entries segment) := by
  obtain ⟨inputs, outputs, items, value, fieldName, policy, dropRules⟩ := node
  rw [entries, entriesOfItems_eq]

/-- What stands at a segment is a child, or stands there below an item. -/
theorem mem_entries_iff {node entry : Node} {segment : Segment} :
    entry ∈ node.entries segment ↔
      node.child? segment = some entry ∨
        ∃ i item, node.child? (.index i) = some item ∧ entry ∈ item.entries segment := by
  rw [entries_eq, List.mem_append, Option.mem_toList, List.mem_flatMap]
  refine or_congr Iff.rfl ⟨?_, ?_⟩
  · rintro ⟨item, hitem, hentry⟩
    obtain ⟨i, hi⟩ := List.mem_iff_getElem?.1 hitem
    exact ⟨i, item, hi, hentry⟩
  · rintro ⟨i, item, hi, hentry⟩
    exact ⟨item, List.mem_of_getElem? hi, hentry⟩

mutual

/-- **The look-up takes the first** of all that stands at a segment. -/
theorem ruleChild?_eq_head? (segment : Segment) :
    ∀ node : Node, node.ruleChild? segment = (node.entries segment).head?
  | ⟨inputs, outputs, items, value, fieldName, policy, dropRules⟩ => by
    rw [ruleChild?, entries, List.head?_append, Option.head?_toList,
      ruleChildOfItems?_eq_head? segment items]

theorem ruleChildOfItems?_eq_head? (segment : Segment) :
    ∀ items : List Node, ruleChildOfItems? segment items = (entriesOfItems segment items).head?
  | [] => rfl
  | item :: rest => by
    rw [ruleChildOfItems?, entriesOfItems, List.head?_append,
      ruleChild?_eq_head? segment item, ruleChildOfItems?_eq_head? segment rest]

end

theorem sizeOf_entry_lt {node entry : Node} {segment : Segment}
    (h : entry ∈ node.entries segment) : sizeOf entry < sizeOf node := by
  induction node using induction_children with
  | step node ih =>
    rcases mem_entries_iff.1 h with hchild | ⟨i, item, hitem, hentry⟩
    · exact sizeOf_child_lt (mem_children_of_child? hchild)
    · have hmem := mem_children_of_child? hitem
      exact Nat.lt_trans (ih (.index i) item hmem hentry) (sizeOf_child_lt hmem)

/-! ### Names without indices -/

/-- **Some names lead from a node to another one**: they are what is left of the segments
of a place without the indices. -/
def Leads (node : Node) (names : List Segment) (target : Node) : Prop :=
  ∃ place, node.get? place = some target ∧ place.filter Segment.isNamed = names

/-- Names that lead on from an item lead on from the node. -/
theorem Leads.of_item {node item target : Node} {i : Nat} {names : List Segment}
    (hitem : node.child? (.index i) = some item) (h : item.Leads names target) :
    node.Leads names target := by
  obtain ⟨place, hget, rfl⟩ := h
  exact ⟨.index i :: place, (get?_of_child? hitem place).trans hget, rfl⟩

/-- **The way on from a node**: by the first name to something that stands there, and from
it by the other names. -/
theorem leads_cons_iff {node target : Node} {segment : Segment} {rest : List Segment}
    (hsegment : segment.isNamed = true) :
    node.Leads (segment :: rest) target ↔
      ∃ entry ∈ node.entries segment, entry.Leads rest target := by
  constructor
  · rintro ⟨place, hget, hnames⟩
    -- indices before the name lead into items, and what stands below an item is an entry
    induction place generalizing node with
    | nil => cases hnames
    | cons first place ih =>
      obtain ⟨child, hchild, hrest⟩ := Option.bind_eq_some_iff.1 hget
      cases first with
      | named facet name =>
        obtain ⟨rfl, hrestNames⟩ := List.cons.inj hnames
        exact ⟨child, mem_entries_iff.2 (.inl hchild), place, hrest, hrestNames⟩
      | index i =>
        obtain ⟨entry, hentry, hleads⟩ := ih hrest hnames
        exact ⟨entry, mem_entries_iff.2 (.inr ⟨i, child, hchild, hentry⟩), hleads⟩
  · rintro ⟨entry, hentry, place, hget, rfl⟩
    induction node using induction_children with
    | step node ih =>
      rcases mem_entries_iff.1 hentry with hchild | ⟨i, item, hitem, hbelow⟩
      · refine ⟨segment :: place, (get?_of_child? hchild place).trans hget, ?_⟩
        rw [List.filter_cons, if_pos hsegment]
      · exact (ih (.index i) item (mem_children_of_child? hitem) hbelow).of_item hitem

/-- **What is found stands at the names** that it is looked up by. -/
theorem leads_of_ruleGet? {node rule : Node} {names : List Segment}
    (hnames : ∀ segment ∈ names, segment.isNamed = true)
    (h : node.ruleGet? names = some rule) : node.Leads names rule := by
  obtain ⟨place, hplace, hthinned⟩ := exists_thinned_of_ruleGet? h
  exact ⟨place, hplace, by rw [hthinned.filter_isNamed, List.filter_eq_self.2 hnames]⟩

/-! ### Exemplary nodes -/

/-- A node has some names if they lead anywhere from it. -/
def HasNames (node : Node) (names : List Segment) : Prop := ∃ target, node.Leads names target

/-- A node *covers* another one if it has all the names that the other has. -/
def Covers (node other : Node) : Prop := ∀ names, other.HasNames names → node.HasNames names

/-- **An exemplary node**: of all that stands at one name, the first covers the others, and
is exemplary again. -/
inductive Exemplary : Node → Prop
  | intro (node : Node)
    (covers : ∀ segment first rest, segment.isNamed = true →
      node.entries segment = first :: rest → ∀ other ∈ rest, first.Covers other)
    (first : ∀ segment first rest, segment.isNamed = true →
      node.entries segment = first :: rest → Exemplary first) : Exemplary node

theorem hasNames_cons_iff {node : Node} {segment : Segment} {rest : List Segment}
    (hsegment : segment.isNamed = true) :
    node.HasNames (segment :: rest) ↔ ∃ entry ∈ node.entries segment, entry.HasNames rest := by
  constructor
  · rintro ⟨target, htarget⟩
    obtain ⟨entry, hentry, hleads⟩ := (leads_cons_iff hsegment).1 htarget
    exact ⟨entry, hentry, target, hleads⟩
  · rintro ⟨entry, hentry, target, hleads⟩
    exact ⟨target, (leads_cons_iff hsegment).2 ⟨entry, hentry, hleads⟩⟩

/-- All the names that a node has are names. -/
theorem HasNames.isNamed {node : Node} {names : List Segment} (h : node.HasNames names) :
    ∀ segment ∈ names, segment.isNamed = true := by
  obtain ⟨target, place, hget, rfl⟩ := h
  exact fun segment hsegment => (List.mem_filter.1 hsegment).2

/-- One step of a look-up goes to the first of all that stands at the name. -/
theorem ruleGet?_cons {node first : Node} {segment : Segment} {others : List Node}
    (h : node.entries segment = first :: others) (rest : List Segment) :
    node.ruleGet? (segment :: rest) = first.ruleGet? rest := by
  rw [ruleGet?, ruleChild?_eq_head?, h, List.head?_cons, Option.bind_some]

/-- Below an exemplary node everything is found. -/
theorem Exemplary.isSome_ruleGet? {node : Node} (h : node.Exemplary) {names : List Segment}
    (hnames : node.HasNames names) : (node.ruleGet? names).isSome = true := by
  induction names generalizing node with
  | nil => rfl
  | cons segment rest ih =>
    have hsegment := hnames.isNamed segment List.mem_cons_self
    obtain ⟨entry, hentry, hrest⟩ := (hasNames_cons_iff hsegment).1 hnames
    obtain ⟨first, others, hentries⟩ := List.exists_cons_of_ne_nil (List.ne_nil_of_mem hentry)
    obtain ⟨_, hcovers, hfirst⟩ := h
    -- the names lead on from some entry, and so they do from the first one
    have hcovered : first.HasNames rest := by
      rw [hentries, List.mem_cons] at hentry
      rcases hentry with rfl | hother
      · exact hrest
      · exact hcovers segment first others hsegment hentries entry hother rest hrest
    rw [ruleGet?_cons hentries]
    exact ih (hfirst segment first others hsegment hentries) hcovered

/-- If everything is found below a node, then it is exemplary. -/
theorem exemplary_of_found {node : Node}
    (h : ∀ names, node.HasNames names → (node.ruleGet? names).isSome = true) : node.Exemplary := by
  -- whatever has names among the entries, their first one is asked for them
  have hasked : ∀ segment first rest, segment.isNamed = true →
      node.entries segment = first :: rest → ∀ entry ∈ first :: rest, ∀ names,
        entry.HasNames names → (first.ruleGet? names).isSome = true := by
    intro segment first rest hsegment hentries entry hentry names hnames
    rw [← ruleGet?_cons hentries]
    exact h _ ((hasNames_cons_iff hsegment).2 ⟨entry, hentries ▸ hentry, hnames⟩)
  refine ⟨node, fun segment first rest hsegment hentries other hother names hnames => ?_,
    fun segment first rest hsegment hentries => ?_⟩
  · have hfound := hasked segment first rest hsegment hentries other (.tail _ hother) names hnames
    obtain ⟨rule, hrule⟩ := Option.isSome_iff_exists.1 hfound
    exact ⟨rule, leads_of_ruleGet? hnames.isNamed hrule⟩
  · have hlt : sizeOf first < sizeOf node := sizeOf_entry_lt (hentries ▸ List.mem_cons_self)
    exact exemplary_of_found (hasked segment first rest hsegment hentries first (.head _))
termination_by sizeOf node

/-- **Exemplary nodes are those below which everything is found.** -/
theorem exemplary_iff {node : Node} :
    node.Exemplary ↔ ∀ names, node.HasNames names → (node.ruleGet? names).isSome = true :=
  ⟨fun h _ hnames => h.isSome_ruleGet? hnames, exemplary_of_found⟩

/-! ### Lists of one element -/

/-- Below a node each list has at most one element, and nothing is a list and has names of
its own as well. -/
def Sole (node : Node) : Prop :=
  ∀ place target, node.get? place = some target →
    target.items.length ≤ 1 ∧ (target.items ≠ [] → target.inputs = [] ∧ target.outputs = [])

theorem Sole.child {node child : Node} (h : node.Sole) {segment : Segment}
    (hchild : node.child? segment = some child) : child.Sole :=
  fun place target htarget =>
    h (segment :: place) target ((get?_of_child? hchild place).trans htarget)

/-- One thing at most stands at a name. -/
theorem Sole.length_entries_le {node : Node} (h : node.Sole) {segment : Segment}
    (hsegment : segment.isNamed = true) : (node.entries segment).length ≤ 1 := by
  induction node using induction_children with
  | step node ih =>
    obtain ⟨hlength, hlist⟩ := h [] node rfl
    rw [entries_eq]
    cases hitems : node.items with
    | nil => cases node.child? segment <;> simp
    | cons item rest =>
      rw [hitems, List.length_cons] at hlength
      obtain ⟨hinputs, houtputs⟩ := hlist (hitems ▸ List.cons_ne_nil item rest)
      have hnone : node.child? segment = none := by
        cases segment with
        | named facet name => cases facet <;> simp [child?, hinputs, houtputs]
        | index i => cases hsegment
      have hrest : rest = [] := List.eq_nil_of_length_eq_zero (by omega)
      have hitem : node.child? (.index 0) = some item := by rw [child?, hitems]; rfl
      have hle := ih (.index 0) item (mem_children_of_child? hitem) (h.child hitem)
      simpa [hnone, hrest] using hle

/-- What stands at a name is below the node. -/
theorem Sole.entry {node entry : Node} (h : node.Sole) {segment : Segment}
    (hentry : entry ∈ node.entries segment) : entry.Sole := by
  induction node using induction_children with
  | step node ih =>
    rcases mem_entries_iff.1 hentry with hchild | ⟨i, item, hitem, hbelow⟩
    · exact h.child hchild
    · exact ih (.index i) item (mem_children_of_child? hitem) (h.child hitem) hbelow

/-- **Lists of one element are examples of themselves.** -/
theorem exemplary_of_sole {node : Node} (h : node.Sole) : node.Exemplary := by
  refine ⟨node, fun segment first rest hsegment hentries other hother => ?_,
    fun segment first rest hsegment hentries => ?_⟩
  · have hle := h.length_entries_le hsegment
    rw [hentries, List.length_cons] at hle
    have hrest : rest = [] := List.eq_nil_of_length_eq_zero (by omega)
    exact absurd (hrest ▸ hother) List.not_mem_nil
  · have hfirst : first ∈ node.entries segment := hentries ▸ List.mem_cons_self
    have hlt : sizeOf first < sizeOf node := sizeOf_entry_lt hfirst
    exact exemplary_of_sole (h.entry hfirst)
termination_by sizeOf node

end Node

/-! ### Rule trees -/

namespace Tree

/-- What is looked up without indices stands at a place that reads the same without them. -/
theorem exists_place_of_ruleAt? {tree : Tree} {path : TreePath} {rule : Node}
    (h : tree.ruleAt? path.withoutIndices = some rule) :
    ∃ place : TreePath, tree.get? place = some rule ∧
      place.withoutIndices = path.withoutIndices := by
  have hnamed : ∀ segment ∈ path.withoutIndices.segments, segment.isNamed = true :=
    fun segment hsegment => (List.mem_filter.1 hsegment).2
  obtain ⟨segments, hplace, hthinned⟩ := exists_thinned_of_ruleAt? h
  refine ⟨⟨path.root, segments⟩, hplace, ?_⟩
  rw [TreePath.withoutIndices, hthinned.filter_isNamed, List.filter_eq_self.2 hnamed]
  rfl

/-- **Which list rules are found.** What is looked up as a rule stands at a place that reads
the same without indices. And that the look-up without indices finds a rule for every node
of a tree is to say that all its roots are exemplary. -/
theorem ruleAt?_withoutIndices_iff (tree : Tree) :
    (∀ (path : TreePath) (rule : Node), tree.ruleAt? path.withoutIndices = some rule →
      ∃ place : TreePath, tree.get? place = some rule ∧
        place.withoutIndices = path.withoutIndices) ∧
    ((∀ (path : TreePath) (node : Node), tree.get? path = some node →
        (tree.ruleAt? path.withoutIndices).isSome = true) ↔
      ∀ keyword root, tree.root? keyword = some root → root.Exemplary) := by
  refine ⟨fun path rule hrule => exists_place_of_ruleAt? hrule,
    fun hfound keyword root hroot => Node.exemplary_iff.2 ?_,
    fun hexemplary path node hnode => ?_⟩
  · rintro names ⟨target, place, hplace, rfl⟩
    have hisSome := hfound ⟨keyword, place⟩ target (by rw [get?, hroot, Option.bind_some, hplace])
    rwa [ruleAt?, TreePath.withoutIndices, hroot, Option.bind_some] at hisSome
  · obtain ⟨root, hroot, hget⟩ := Option.bind_eq_some_iff.1 hnode
    have hnames : root.HasNames (path.segments.filter Segment.isNamed) :=
      ⟨node, path.segments, hget, rfl⟩
    have hisSome := (hexemplary path.root root hroot).isSome_ruleGet? hnames
    rwa [ruleAt?, TreePath.withoutIndices, hroot, Option.bind_some]

end Tree

/-! ### A rule that is not found -/

/-- A rule source with a filter for books, and in its second element a denial under a name
that the first element has as well:
`{ books(filters: [{ a: { x: 1 } }, { a: { y: 1 } }]) }`, with a note before `y`. -/
def secondFilter : Document :=
  ⟨[.operation ⟨none, .query, none, [], [], [.field none none "books"
    [.mk none "filters" (.list
      [.object [.mk none "a" (.object [.mk none "x" (.int "1")])],
        .object [.mk none "a" (.object
          [.mk (some "\x7b\"DROP\": \"*\"\x7d") "y" (.int "1")])]])] [] []]⟩]⟩

/-- Where that denial stands. -/
def secondFilterPlace : TreePath :=
  ⟨"query", [.named .output "books", .named .input "filters", .index 1, .named .input "a",
    .named .input "y"]⟩

/-- **A rule of a later element may not be found**: the first element has the name before
it, but not the one after. -/
theorem RuleTree.later_element_unruled :
    ¬∀ (document : Document) (root : Policy) (path : TreePath) (node : Node),
      (ofDocument document root).tree.get? path = some node →
        ((ofDocument document root).tree.ruleAt? path.withoutIndices).isSome = true := by
  intro hall
  have hdenial : (((ofDocument secondFilter .acceptAll).tree.get? secondFilterPlace).bind
      fun node => node.policy.map fun policy => policy.drop.roles) = some ["*"] := by
    decide +kernel
  have hunruled : ((ofDocument secondFilter .acceptAll).tree.ruleAt?
      secondFilterPlace.withoutIndices).isSome = false := by
    decide +kernel
  obtain ⟨node, hnode, -⟩ := Option.bind_eq_some_iff.1 hdenial
  rw [hall secondFilter .acceptAll secondFilterPlace node hnode] at hunruled
  cases hunruled

end QueryAccess
