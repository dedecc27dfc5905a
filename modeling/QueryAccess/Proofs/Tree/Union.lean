import QueryAccess.Proofs.Tree.Associativity
import QueryAccess.Proofs.Tree.Ordered

/-!
# Merging is a union

A merged node has exactly the places of the two nodes, and at each of them it holds what the
overlaying node holds there, or else what the other one does
(`QueryAccess.Node.isSome_get?_merge`, `QueryAccess.Node.bind_get?_merge`). Together with
associativity (`QueryAccess.Node.merge_assoc`) the other laws of a union follow as that one does:
an ordered node is known by its children and by what it holds itself, and merging acts on each of
these alone.

**Documents.** The tree of a document overlays the roots of its operations, one after the other.
What an operation comes to depends on the fragments by their names only
(`QueryAccess.Tree.ofOperation_congr`), so the operations of two documents that have the same
fragments can be put together before or after the trees are built
(`QueryAccess.Tree.ofDocument_both`). That the fragments are the same cannot be left out, not even
if the documents have no name in common: an operation that spreads a fragment of the other document
comes to more once the two are put together.
-/

namespace QueryAccess

namespace Node

/-! ### Places -/

section Places

variable {a b : Node} (ha : a.Ordered) (hb : b.Ordered) (segments : List Segment)

include ha hb

/-- **The places of a merged node** are those of the two nodes. -/
theorem isSome_get?_merge :
    ((a.merge b).get? segments).isSome =
      ((a.get? segments).isSome || (b.get? segments).isSome) := by
  rw [get?_merge ha hb]
  cases a.get? segments <;> cases b.get? segments <;> rfl

/-- **What a merged node holds at a place**, if overlaying is by the node that has it. -/
theorem bind_get?_merge {α : Type} {slot : Node → Option α}
    (hslot : ∀ a b : Node, slot (a.merge b) = (slot b).or (slot a)) :
    ((a.merge b).get? segments).bind slot =
      ((b.get? segments).bind slot).or ((a.get? segments).bind slot) := by
  rw [get?_merge ha hb]
  cases hfirst : a.get? segments with
  | none => simp
  | some earlier =>
    cases b.get? segments with
    | none => simp
    | some later => exact hslot earlier later

end Places

/-! ### The laws of a union -/

theorem empty_ordered : empty.Ordered := .of_isLeaf rfl

theorem child?_empty (segment : Segment) : empty.child? segment = none := by
  rcases segment with ⟨_ | _, name⟩ | i <;> rfl

/-- **Merging is idempotent.** -/
theorem merge_self {a : Node} (ha : a.Ordered) : a.merge a = a := by
  induction ha with
  | @mk a inputs outputs below ih =>
    have ha : a.Ordered := ⟨inputs, outputs, below⟩
    refine (ha.merge ha).ext ha (fun segment => ?_) ?_ ?_ ?_ ?_
    · rw [child?_merge ha ha]
      cases hchild : a.child? segment with
      | none => rfl
      | some child => exact congrArg some (ih segment child hchild)
    · rw [merge_value, Option.or_self]
    · rw [merge_fieldName, Option.or_self]
    · rw [merge_policy, Option.or_self]
    · rw [merge_dropRules, Option.or_self]

/-- What overlays nothing stays what it is. -/
theorem empty_merge {a : Node} (ha : a.Ordered) : empty.merge a = a := by
  refine (empty_ordered.merge ha).ext ha (fun segment => ?_) ?_ ?_ ?_ ?_
  · rw [child?_merge empty_ordered ha, child?_empty, Option.merge_none_left]
  · rw [merge_value]
    exact Option.or_none
  · rw [merge_fieldName]
    exact Option.or_none
  · rw [merge_policy]
    exact Option.or_none
  · rw [merge_dropRules]
    exact Option.or_none

/-- What is overlaid by nothing stays what it is. -/
theorem merge_empty (a : Node) : a.merge empty = a := by
  cases a
  simp only [empty, merge, mergeChildren, mergeItems, Option.none_or]

end Node

/-! ### Trees -/

/-- **The same fragments by name**: every name stands for one definition in both lists, that is,
for the last of its definitions. -/
def Fragment.SameNamed (fragments others : List Fragment) : Prop :=
  ∀ name, fragments.reverse.find? (·.name == name) = others.reverse.find? (·.name == name)

theorem Fragment.SameNamed.of_eq {fragments others : List Fragment} (h : fragments = others) :
    SameNamed fragments others :=
  fun _ => by rw [h]

namespace Tree

/-- The tree overlaid by another. -/
def merge (tree later : Tree) : Tree := ⟨Node.mergeChildren tree.roots later.roots⟩

theorem root?_merge {tree later : Tree} (htree : tree.Ordered) (hlater : later.Ordered)
    (keyword : String) :
    (tree.merge later).root? keyword =
      Option.merge Node.merge (tree.root? keyword) (later.root? keyword) :=
  Node.lookup_mergeChildren htree.roots hlater.roots keyword

/-- **A merged tree has at each place** what the two trees have there, the one overlaid by the
other. -/
theorem get?_merge {tree later : Tree} (htree : tree.Ordered) (hlater : later.Ordered)
    (path : TreePath) :
    (tree.merge later).get? path =
      Option.merge Node.merge (tree.get? path) (later.get? path) := by
  rw [get?, get?, get?, root?_merge htree hlater]
  cases hfirst : tree.root? path.root with
  | none => simp
  | some earlier =>
    cases hsecond : later.root? path.root with
    | none => simp
    | some further =>
      exact Node.get?_merge (htree.root _ _ hfirst) (hlater.root _ _ hsecond) path.segments

/-! ### Fragments by name -/

section Fragments

variable {bindings : Dict Json} {declared : List VariableDefinition}
variable {fragments others : List Fragment}

theorem fragment?_congr (h : Fragment.SameNamed fragments others) (name : String) :
    Surroundings.fragment? ⟨bindings, declared, fragments⟩ name =
      Surroundings.fragment? ⟨bindings, declared, others⟩ name :=
  congrArg (Option.map Fragment.selections) (h name)

mutual

theorem contribution_congr (h : Fragment.SameNamed fragments others)
    (deeper : Option Contribute) (active : List String) (policy : Option Policy) :
    ∀ selection, contribution ⟨bindings, declared, fragments⟩ deeper active policy selection =
      contribution ⟨bindings, declared, others⟩ deeper active policy selection
  | .field .. => rfl
  | .inline _ _ selections => contributionsAt_congr h deeper active policy selections
  | .spread name _ => by rw [contribution, contribution, fragment?_congr h]

theorem contributionsAt_congr (h : Fragment.SameNamed fragments others)
    (deeper : Option Contribute) (active : List String) (policy : Option Policy) :
    ∀ selections,
      contributionsAt ⟨bindings, declared, fragments⟩ deeper active policy selections =
        contributionsAt ⟨bindings, declared, others⟩ deeper active policy selections
  | [] => rfl
  | selection :: rest => by
    rw [contributionsAt, contributionsAt, contribution_congr h, contributionsAt_congr h]

end

theorem contributions_congr (h : Fragment.SameNamed fragments others) (levels : Nat) :
    contributions ⟨bindings, declared, fragments⟩ levels =
      contributions ⟨bindings, declared, others⟩ levels := by
  induction levels with
  | zero =>
    funext active policy selections
    exact contributionsAt_congr h none active policy selections
  | succ levels ih =>
    funext active policy selections
    rw [contributions, contributions, ih]
    exact contributionsAt_congr h _ active policy selections

/-- **An operation knows fragments by their names.** -/
theorem ofOperation_congr (h : Fragment.SameNamed fragments others) (policy : Option Policy) :
    ofOperation bindings fragments policy = ofOperation bindings others policy := by
  funext operation
  rw [ofOperation, ofOperation, contributions_congr h]

end Fragments

/-! ### Documents put together -/

/-- **The operations of two documents** with the same fragments can be put together before or
after their trees are built. -/
theorem ofDocument_both {first second both : Document}
    (hoperations : both.operations = first.operations ++ second.operations)
    (hfirst : Fragment.SameNamed both.fragments first.fragments)
    (hsecond : Fragment.SameNamed both.fragments second.fragments) (bindings : Dict Json)
    (policy : Option Policy) :
    ofDocument both bindings policy =
      (ofDocument first bindings policy).merge (ofDocument second bindings policy) := by
  have hone := ofDocument_ordered first bindings policy
  have hother := ofDocument_ordered second bindings policy
  have hroots : (ofDocument both bindings policy).roots =
      ((ofDocument first bindings policy).merge (ofDocument second bindings policy)).roots := by
    refine (ofDocument_ordered both bindings policy).roots.ext
      (Node.mergeChildren_sorted hone.roots) fun keyword => ?_
    have hordered (operations : List Operation) (node : Node)
        (hnode : node ∈ operations.map (ofOperation bindings both.fragments policy)) :
        node.Ordered := by
      obtain ⟨operation, -, rfl⟩ := List.mem_map.1 hnode
      exact ofOperation_ordered bindings both.fragments policy operation
    -- a root overlays the operations of its kind, those of the first document before the others
    refine (root?_ofDocument both bindings policy keyword).trans
      (Eq.trans ?_ (root?_merge hone hother keyword).symm)
    rw [root?_ofDocument, root?_ofDocument, ← ofOperation_congr hfirst,
      ← ofOperation_congr hsecond, hoperations, List.filter_append, List.map_append]
    exact Node.overlay_append (hordered _) (hordered _)
  exact congrArg Tree.mk hroots

/-- **Merging unites.** A merged node has a node at a place exactly if one of the two nodes has,
and each slot of it is the overlaying node's there if that has it set, and otherwise the other
one's; nothing is lost, and nothing comes to it. So merging is associative and idempotent, and the
empty node changes nothing on either side.

The tree of a document with the operations of two documents, all of them with the same fragments
by name, is the tree of the one overlaid by the tree of the other, whatever is bound to variables
and whatever the root policy. -/
theorem merging_unites :
    (∀ a b : Node, a.Ordered → b.Ordered → (a.merge b).Ordered ∧ ∀ segments,
      (((a.merge b).get? segments).isSome ↔
        (a.get? segments).isSome ∨ (b.get? segments).isSome) ∧
      ((a.merge b).get? segments).bind Node.value =
        ((b.get? segments).bind Node.value).or ((a.get? segments).bind Node.value) ∧
      ((a.merge b).get? segments).bind Node.fieldName =
        ((b.get? segments).bind Node.fieldName).or ((a.get? segments).bind Node.fieldName) ∧
      ((a.merge b).get? segments).bind Node.policy =
        ((b.get? segments).bind Node.policy).or ((a.get? segments).bind Node.policy) ∧
      ((a.merge b).get? segments).bind Node.dropRules =
        ((b.get? segments).bind Node.dropRules).or ((a.get? segments).bind Node.dropRules)) ∧
    (∀ a b c : Node, a.Ordered → b.Ordered → c.Ordered →
      (a.merge b).merge c = a.merge (b.merge c)) ∧
    (∀ a : Node, a.Ordered →
      a.merge a = a ∧ Node.empty.merge a = a ∧ a.merge .empty = a) ∧
    ∀ first second both : Document,
      both.operations = first.operations ++ second.operations →
      Fragment.SameNamed both.fragments first.fragments →
      Fragment.SameNamed both.fragments second.fragments →
      ∀ (bindings : Dict Json) (policy : Option Policy),
        ofDocument both bindings policy =
          (ofDocument first bindings policy).merge (ofDocument second bindings policy) := by
  refine ⟨fun a b ha hb => ⟨ha.merge hb, fun segments => ⟨?_, ?_, ?_, ?_, ?_⟩⟩,
    fun a b c ha hb hc => Node.merge_assoc ha hb hc,
    fun a ha => ⟨Node.merge_self ha, Node.empty_merge ha, Node.merge_empty a⟩,
    fun first second both => ofDocument_both⟩
  · rw [Node.isSome_get?_merge ha hb, Bool.or_eq_true]
  · exact Node.bind_get?_merge ha hb segments Node.merge_value
  · exact Node.bind_get?_merge ha hb segments Node.merge_fieldName
  · exact Node.bind_get?_merge ha hb segments Node.merge_policy
  · exact Node.bind_get?_merge ha hb segments Node.merge_dropRules

/-- An operation on a book by its number, with what every book is asked for. -/
def bookOperation (number : String) : Operation :=
  ⟨none, .query, none, [], [],
    [.field none none "book" [.mk none "id" (.int number)] [] [.spread "BookParts" []]]⟩

/-- What every book is asked for. -/
def bookParts : Fragment := ⟨"BookParts", "Book", [], [.field none none "title" [] [] []]⟩

/-- Two queries with the same fragment, put together: its definition may come once or twice. -/
theorem merging_unites_bookParts :
    Fragment.SameNamed [bookParts, bookParts] [bookParts] ∧
    ofDocument ⟨[.operation (bookOperation "1"), .fragment bookParts, .fragment bookParts,
        .operation (bookOperation "2")]⟩ [] none =
      (ofDocument ⟨[.operation (bookOperation "1"), .fragment bookParts]⟩ [] none).merge
        (ofDocument ⟨[.fragment bookParts, .operation (bookOperation "2")]⟩ [] none) ∧
    let a := ofOperation [] [bookParts] none (bookOperation "1")
    let b := ofOperation [] [bookParts] none (bookOperation "2")
    (a.Ordered ∧ b.Ordered) ∧
      ((a.merge b).get? [.named .output "book", .named .input "id"]).bind Node.value =
        some (.int 2) ∧
      (a.merge a).merge b = a.merge b := by
  obtain ⟨hplaces, -, hlaws, hdocuments⟩ := merging_unites
  have hsame : Fragment.SameNamed [bookParts, bookParts] [bookParts] := by
    intro name
    cases h : bookParts.name == name <;> simp [h]
  refine ⟨hsame, hdocuments _ _ _ rfl ?_ ?_ [] none, ?_⟩
  · exact hsame
  · exact hsame
  intro a b
  have ha : a.Ordered := ofOperation_ordered [] [bookParts] none (bookOperation "1")
  have hb : b.Ordered := ofOperation_ordered [] [bookParts] none (bookOperation "2")
  obtain ⟨-, hslots⟩ := hplaces a b ha hb
  obtain ⟨-, hvalue, -⟩ := hslots [.named .output "book", .named .input "id"]
  refine ⟨⟨ha, hb⟩, hvalue.trans ?_, ?_⟩
  · rfl
  · rw [(hlaws a ha).1]

end Tree

end QueryAccess
