import QueryAccess.Proofs.Tree.Listing

/-!
# Looking past list elements

The rule of a place is looked up past the elements of lists (`QueryAccess.Node.ruleGet?`):
at each segment a node is asked for its child, and if it has none its items are, from the
first to the last and however deep (`QueryAccess.Node.ruleChild?_eq`). Whatever is found
that way also stands at an exact path (`QueryAccess.Tree.exists_get?_of_ruleAt?`), so what
holds of every place of a rule tree holds of every rule that is looked up.

**Which place.** The look-up goes down by the segments of its path and by indices, and by
nothing else. So the place that it comes to reads as the path once some of its indices are left
out (`QueryAccess.Segment.Thinned`), also where the path has indices of its own. A node that
stands at the path as it is comes before anything inside a list, at each segment
(`QueryAccess.Node.ruleGet?_of_get?`), and without lists there is nothing else to find
(`QueryAccess.Node.Listless.ruleGet?_eq`).

**Two trees.** Which place that is depends on nothing but which places there are. So if the
nodes of two trees are related place by place (`QueryAccess.Tree.Alike`), then so are the rules
that they have for a place, whatever the relation is (`QueryAccess.Tree.Alike.ruleAt?`).
-/

namespace QueryAccess

/-! ### Related results -/

section Related

variable {α β γ δ : Type} {related : γ → δ → Prop}

/-- Related results of related things. -/
theorem rel_bind {between : α → β → Prop} {x : Option α} {y : Option β} {f : α → Option γ}
    {g : β → Option δ} (h : Option.Rel between x y)
    (hbind : ∀ a b, x = some a → between a b → Option.Rel related (f a) (g b)) :
    Option.Rel related (x.bind f) (y.bind g) := by
  cases h with
  | none => exact .none
  | some hab => exact hbind _ _ rfl hab

theorem bind_eq_of_rel {between : α → β → Prop} {x : Option α} {y : Option β} {f : α → Option γ}
    {g : β → Option γ} (h : Option.Rel between x y) (hbind : ∀ a b, between a b → f a = g b) :
    x.bind f = y.bind g := by
  cases h with
  | none => rfl
  | some hab => exact hbind _ _ hab

theorem rel_imp {between : γ → δ → Prop} {x : Option γ} {y : Option δ}
    (h : Option.Rel between x y) (himp : ∀ c d, x = some c → between c d → related c d) :
    Option.Rel related x y := by
  cases h with
  | none => exact .none
  | some hcd => exact .some (himp _ _ rfl hcd)

/-- First results are related if the first ones are and the others are. -/
theorem rel_or {x x' : Option γ} {y y' : Option δ} (h : Option.Rel related x y)
    (h' : Option.Rel related x' y') : Option.Rel related (x.or x') (y.or y') := by
  cases h with
  | none => exact h'
  | some hcd => exact .some hcd

theorem findSome?_cons_eq_or (f : α → Option γ) (a : α) (as : List α) :
    (a :: as).findSome? f = (f a).or (as.findSome? f) := by
  rw [List.findSome?_cons]
  cases f a <;> rfl

/-- The first results of two lists are related if the results are, position by position. -/
theorem rel_findSome? {f : α → Option γ} {g : β → Option δ} {as : List α} {bs : List β}
    (h : ∀ i : Nat, Option.Rel (fun a b => Option.Rel related (f a) (g b)) as[i]? bs[i]?) :
    Option.Rel related (as.findSome? f) (bs.findSome? g) := by
  induction as generalizing bs with
  | nil =>
    cases bs with
    | nil => exact .none
    | cons b bs => cases h 0
  | cons a as ih =>
    cases bs with
    | nil => cases h 0
    | cons b bs =>
      obtain ⟨hfirst⟩ := h 0
      rw [findSome?_cons_eq_or, findSome?_cons_eq_or]
      exact rel_or hfirst (ih fun i => h (i + 1))

end Related

/-! ### Indices left out -/

/-- **Some indices left out**: `Thinned place path` says that the segments of `path` are those of
`place`, in their order, but for some of its list indices. -/
inductive Segment.Thinned : List Segment → List Segment → Prop where
  | nil : Thinned [] []
  | keep (segment : Segment) {place path : List Segment} (h : Thinned place path) :
      Thinned (segment :: place) (segment :: path)
  | skip (i : Nat) {place path : List Segment} (h : Thinned place path) :
      Thinned (.index i :: place) path

/-- Two places one after the other may be thinned one after the other. -/
theorem Segment.Thinned.append {first rest path more : List Segment} (h : Thinned first path)
    (hrest : Thinned rest more) : Thinned (first ++ rest) (path ++ more) := by
  induction h with
  | nil => exact hrest
  | keep segment _ ih => exact .keep segment ih
  | skip i _ ih => exact .skip i ih

namespace Node

/-! ### One look-up -/

theorem ruleChildOfItems?_eq (segment : Segment) (items : List Node) :
    ruleChildOfItems? segment items = items.findSome? (ruleChild? segment) := by
  induction items with
  | nil => rfl
  | cons item rest ih => rw [ruleChildOfItems?, ih, findSome?_cons_eq_or]

/-- **A node is asked first**, and then its items. -/
theorem ruleChild?_eq (segment : Segment) (node : Node) :
    node.ruleChild? segment =
      (node.child? segment).or (node.items.findSome? (ruleChild? segment)) := by
  obtain ⟨inputs, outputs, items, value, fieldName, policy, dropRules⟩ := node
  rw [ruleChild?, ruleChildOfItems?_eq]

/-- Without items a rule is looked for among the children alone. -/
theorem ruleChild?_of_items {node : Node} (h : node.items = []) (segment : Segment) :
    node.ruleChild? segment = node.child? segment := by
  rw [ruleChild?_eq, h, List.findSome?_nil, Option.or_none]

/-- The child that a look-up past the items finds stands below the node, behind indices alone. -/
theorem exists_thinned_of_ruleChild? {node target : Node} {segment : Segment}
    (h : node.ruleChild? segment = some target) :
    ∃ place, node.get? place = some target ∧ Segment.Thinned place [segment] := by
  induction node using induction_children with
  | step node ih =>
    rw [ruleChild?_eq, Option.or_eq_some_iff] at h
    rcases h with hchild | ⟨-, hitems⟩
    · exact ⟨[segment], by rw [get?_singleton, hchild], .keep segment .nil⟩
    · obtain ⟨item, hitem, hfound⟩ := List.exists_of_findSome?_eq_some hitems
      obtain ⟨i, hi⟩ := List.mem_iff_getElem?.1 hitem
      have hchild : node.child? (.index i) = some item := hi
      obtain ⟨place, hplace, hthinned⟩ :=
        ih (.index i) item (mem_children_of_child? hchild) hfound
      exact ⟨.index i :: place, (get?_of_child? hchild place).trans hplace, .skip i hthinned⟩

/-- **Where a look-up past the items ends**: at a place below the node that has the segments of
the look-up, and indices between them. -/
theorem exists_thinned_of_ruleGet? {node target : Node} {segments : List Segment}
    (h : node.ruleGet? segments = some target) :
    ∃ place, node.get? place = some target ∧ Segment.Thinned place segments := by
  induction segments generalizing node with
  | nil => exact ⟨[], h, .nil⟩
  | cons segment rest ih =>
    obtain ⟨child, hchild, hrest⟩ := Option.bind_eq_some_iff.1 h
    obtain ⟨first, hfirst, hthinnedFirst⟩ := exists_thinned_of_ruleChild? hchild
    obtain ⟨place, hplace, hthinned⟩ := ih hrest
    exact ⟨first ++ place, by rw [get?_append, hfirst, Option.bind_some, hplace],
      hthinnedFirst.append hthinned⟩

/-- **What stands at the segments themselves is found**, whatever the lists on the way hold. -/
theorem ruleGet?_of_get? {node target : Node} {segments : List Segment}
    (h : node.get? segments = some target) : node.ruleGet? segments = some target := by
  induction segments generalizing node with
  | nil => exact h
  | cons segment rest ih =>
    obtain ⟨child, hchild, hrest⟩ := Option.bind_eq_some_iff.1 h
    rw [ruleGet?, ruleChild?_eq, hchild, Option.some_or, Option.bind_some]
    exact ih hrest

/-- Neither a node nor anything below it is a list with elements. -/
def Listless (node : Node) : Prop :=
  ∀ place target, node.get? place = some target → target.items = []

theorem Listless.child {node child : Node} (h : node.Listless) {segment : Segment}
    (hchild : node.child? segment = some child) : child.Listless :=
  fun place target htarget =>
    h (segment :: place) target ((get?_of_child? hchild place).trans htarget)

/-- **Without lists there is nothing to look past.** -/
theorem Listless.ruleGet?_eq {node : Node} (h : node.Listless) (segments : List Segment) :
    node.ruleGet? segments = node.get? segments := by
  induction segments generalizing node with
  | nil => rfl
  | cons segment rest ih =>
    have hitems : node.items = [] := h [] node rfl
    rw [ruleGet?, get?, ruleChild?_of_items hitems]
    cases hchild : node.child? segment with
    | none => rfl
    | some child => exact ih (h.child hchild)

/-! ### Two look-ups -/

/-- **Two nodes are alike** if what they have at each place is related, and neither has
anything where the other has not. -/
def Alike (related : Node → Node → Prop) (a b : Node) : Prop :=
  ∀ segments, Option.Rel related (a.get? segments) (b.get? segments)

namespace Alike

variable {related : Node → Node → Prop} {a b : Node}

theorem self (h : Alike related a b) : related a b := by
  obtain ⟨hrelated⟩ := h []
  exact hrelated

/-- What is alike everywhere below is alike. -/
theorem of_bind {x y : Option Node}
    (h : ∀ rest, Option.Rel related (x.bind fun child => child.get? rest)
      (y.bind fun child => child.get? rest)) : Option.Rel (Alike related) x y := by
  cases x <;> cases y
  · exact .none
  · cases h []
  · cases h []
  · exact .some h

/-- Alike nodes have alike children. -/
theorem child? (h : Alike related a b) (segment : Segment) :
    Option.Rel (Alike related) (a.child? segment) (b.child? segment) :=
  of_bind fun rest => h (segment :: rest)

/-- Alike nodes have alike children also where these are looked for past the items. -/
theorem ruleChild? (h : Alike related a b) (segment : Segment) :
    Option.Rel (Alike related) (a.ruleChild? segment) (b.ruleChild? segment) := by
  induction a using induction_children generalizing b with
  | step a ih =>
    rw [ruleChild?_eq, ruleChild?_eq]
    -- the items are alike position by position, so both look-ups end at the same one
    refine rel_or (h.child? segment) (rel_findSome? fun i => ?_)
    refine rel_imp (h.child? (.index i)) fun item other hitem halike => ?_
    exact ih (.index i) item (mem_children_of_child? hitem) halike

theorem ruleGet? (h : Alike related a b) (segments : List Segment) :
    Option.Rel (Alike related) (a.ruleGet? segments) (b.ruleGet? segments) := by
  induction segments generalizing a b with
  | nil => exact .some h
  | cons segment rest ih =>
    exact rel_bind (h.ruleChild? segment) fun child other _ halike => ih halike

end Alike

end Node

namespace Tree

/-- What is looked up as a rule stands at an exact path, which reads as the one that it is looked
up by if some indices are left out. -/
theorem exists_thinned_of_ruleAt? {tree : Tree} {path : TreePath} {rule : Node}
    (h : tree.ruleAt? path = some rule) :
    ∃ place, tree.get? ⟨path.root, place⟩ = some rule ∧
      Segment.Thinned place path.segments := by
  obtain ⟨root, hroot, hrule⟩ := Option.bind_eq_some_iff.1 h
  obtain ⟨place, hplace, hthinned⟩ := Node.exists_thinned_of_ruleGet? hrule
  exact ⟨place, (get?_of_root hroot place).trans hplace, hthinned⟩

/-- What is looked up as a rule stands at an exact path. -/
theorem exists_get?_of_ruleAt? {tree : Tree} {path : TreePath} {rule : Node}
    (h : tree.ruleAt? path = some rule) : ∃ place, tree.get? place = some rule := by
  obtain ⟨place, hplace, -⟩ := exists_thinned_of_ruleAt? h
  exact ⟨⟨path.root, place⟩, hplace⟩

/-- **Two trees are alike** if what they have at each path is related, and neither has
anything where the other has not. -/
def Alike (related : Node → Node → Prop) (a b : Tree) : Prop :=
  ∀ path, Option.Rel related (a.get? path) (b.get? path)

/-- **Alike trees have related rules.** -/
theorem Alike.ruleAt? {related : Node → Node → Prop} {a b : Tree} (h : Alike related a b)
    (path : TreePath) : Option.Rel related (a.ruleAt? path) (b.ruleAt? path) := by
  have hroot : Option.Rel (Node.Alike related) (a.root? path.root) (b.root? path.root) :=
    Node.Alike.of_bind fun rest => h ⟨path.root, rest⟩
  refine rel_bind hroot fun root other _ halike => ?_
  refine rel_imp (halike.ruleGet? path.segments) fun rule otherRule _ hrules => ?_
  exact hrules.self

/-! ### Rules and the places they are found at -/

/-- **A rule is found where it stands.** A node that is looked up as a rule stands at an exact
path of the tree, and the path of the look-up is that path with some list indices, and nothing
else, left out. What stands at the path of the look-up as it is, is what is found, before
anything that stands inside a list. And in a tree without list elements nothing else is ever
found. -/
theorem ruleAt?_finds (tree : Tree) (path : TreePath) :
    (∀ rule, tree.ruleAt? path = some rule →
      ∃ place : TreePath, tree.get? place = some rule ∧ place.root = path.root ∧
        Segment.Thinned place.segments path.segments) ∧
    (∀ node, tree.get? path = some node → tree.ruleAt? path = some node) ∧
    ((∀ place node, tree.get? place = some node → node.items = []) →
      tree.ruleAt? path = tree.get? path) := by
  refine ⟨fun rule hrule => ?_, fun node hnode => ?_, fun hitems => ?_⟩
  · obtain ⟨place, hplace, hthinned⟩ := exists_thinned_of_ruleAt? hrule
    exact ⟨⟨path.root, place⟩, hplace, rfl, hthinned⟩
  · obtain ⟨root, hroot, hget⟩ := Option.bind_eq_some_iff.1 hnode
    rw [ruleAt?, hroot, Option.bind_some]
    exact Node.ruleGet?_of_get? hget
  · rw [ruleAt?, get?]
    cases hroot : tree.root? path.root with
    | none => rfl
    | some root =>
      have hlistless : root.Listless := fun segments target htarget =>
        hitems ⟨path.root, segments⟩ target ((get?_of_root hroot segments).trans htarget)
      exact hlistless.ruleGet?_eq path.segments

/-- The tree of `{ books(grid: [[{ x: 1 }], [{ x: 2, y: 3 }]]) { title } }`. -/
def gridTree : Tree :=
  ofDocument ⟨[.operation ⟨none, .query, none, [], [], [.field none none "books"
    [.mk none "grid" (.list
      [.list [.object [.mk none "x" (.int "1")]],
        .list [.object [.mk none "x" (.int "2"), .mk none "y" (.int "3")]]])] []
    [.field none none "title" [] [] []]]⟩]⟩ [] none

/-- A path to that grid, and on from there. -/
def gridPath (further : List Segment) : TreePath :=
  ⟨"query", .named .output "books" :: .named .input "grid" :: further⟩

/-- The tree of `{ books { title } }`. -/
def gridlessTree : Tree :=
  ofDocument ⟨[.operation ⟨none, .query, none, [], [], [.field none none "books" [] []
    [.field none none "title" [] [] []]]⟩]⟩ [] none

/-- Look-ups in a list of lists: past both lists, past the inner one alone, and of an element that
is not the first one to have the name; and one where there are no lists. -/
theorem ruleAt?_finds_grid :
    (∃ rule place, gridTree.ruleAt? (gridPath [.named .input "y"]) = some rule ∧
      rule.value = some (.int 3) ∧ gridTree.get? place = some rule ∧
      Segment.Thinned place.segments (gridPath [.named .input "y"]).segments) ∧
    (∃ rule place, gridTree.ruleAt? (gridPath [.index 1, .named .input "x"]) = some rule ∧
      rule.value = some (.int 2) ∧ gridTree.get? place = some rule ∧
      Segment.Thinned place.segments (gridPath [.index 1, .named .input "x"]).segments) ∧
    (∃ node, gridTree.get? (gridPath [.index 1, .index 0, .named .input "x"]) = some node ∧
      node.value = some (.int 2) ∧
      gridTree.ruleAt? (gridPath [.index 1, .index 0, .named .input "x"]) = some node) ∧
    (∀ place node, gridlessTree.get? place = some node → node.items = []) ∧
      gridlessTree.ruleAt? ⟨"query", [.named .output "books", .named .output "title"]⟩ =
        gridlessTree.get? ⟨"query", [.named .output "books", .named .output "title"]⟩ := by
  have hfound : ∀ path value, (gridTree.ruleAt? path).bind Node.value = some value →
      ∃ rule place, gridTree.ruleAt? path = some rule ∧ rule.value = some value ∧
        gridTree.get? place = some rule ∧ Segment.Thinned place.segments path.segments := by
    intro path value hvalue
    obtain ⟨rule, hrule, hvalue⟩ := Option.bind_eq_some_iff.1 hvalue
    obtain ⟨place, hplace, -, hthinned⟩ := (ruleAt?_finds gridTree path).1 rule hrule
    exact ⟨rule, place, hrule, hvalue, hplace, hthinned⟩
  refine ⟨hfound _ _ rfl, hfound _ _ rfl, ?_, ?_⟩
  · have hvalue : (gridTree.get?
        (gridPath [.index 1, .index 0, .named .input "x"])).bind Node.value =
        some (.int 2) := rfl
    obtain ⟨node, hnode, hvalue⟩ := Option.bind_eq_some_iff.1 hvalue
    exact ⟨node, hnode, hvalue, (ruleAt?_finds gridTree _).2.1 node hnode⟩
  · have hchecked : (gridlessTree.listing.all fun pair => pair.2.items.isEmpty) = true := rfl
    have hitems : ∀ place node, gridlessTree.get? place = some node → node.items = [] :=
      fun place node hnode =>
        List.isEmpty_iff.1 (List.all_eq_true.1 hchecked _ (mem_listing_of_get? hnode))
    exact ⟨hitems, (ruleAt?_finds gridlessTree _).2.2 hitems⟩

end Tree

end QueryAccess
