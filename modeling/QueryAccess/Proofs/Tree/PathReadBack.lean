import QueryAccess.Proofs.Tree.Everywhere
import QueryAccess.Proofs.Tree.PathText

/-!
# Paths that are read back

Verdicts and custom checks speak of places by the texts of their paths. Can such a text be read
again, and does it lead back to the place? That depends on the names along the path, and these
come from two places (`QueryAccess.Tree.named_ofDocument`). The keys of a document that is read
from a text are names of the grammar, and these are legible. The keys of data are any texts, and
the text of a path does not protect them: a key with a point in it is read as two parts.

So the text of a path is read as the path, and leads to its node, exactly if the keys on the way
that data has brought are legible (`QueryAccess.Tree.path_read_back_iff`).
-/

namespace QueryAccess

/-- A name of the grammar is legible. -/
theorem legible_of_isName {name : String} (h : IsName name.toList) : LegibleName name := by
  obtain ⟨first, rest, htext, hfirst, hrest⟩ := h
  refine ⟨?_, fun hpoint => ?_, fun facet hmarker => ?_⟩
  · rintro rfl
    cases htext
  · rw [htext] at hpoint
    rcases List.mem_cons.1 hpoint with heq | hmem
    · rw [← heq] at hfirst
      exact absurd hfirst (by decide)
    · exact absurd (hrest '.' hmem) (by decide)
  · have hdollar : first = '$' := by
      cases facet <;> exact (List.cons.inj (htext.symm.trans hmarker)).1
    rw [hdollar] at hfirst
    exact absurd hfirst (by decide)

namespace Tree

/-- **The root of a path** is the keyword of a kind of operation. -/
theorem exists_kind_of_get? {document : Document} {bindings : Dict Json} {policy : Option Policy}
    {path : TreePath} {node : Node}
    (h : (ofDocument document bindings policy).get? path = some node) :
    ∃ kind : OperationKind, path.root = kind.keyword := by
  obtain ⟨root, hroot, -⟩ := Option.bind_eq_some_iff.1 h
  rw [root?_ofDocument] at hroot
  obtain ⟨part, hpart⟩ := Node.exists_mem_of_overlay hroot
  obtain ⟨operation, hoperation, -⟩ := List.mem_map.1 hpart
  exact ⟨operation.kind, (beq_iff_eq.1 (List.mem_filter.1 hoperation).2).symm⟩

/-- **The names along a path** are keys of the document or of the data bound to its variables. -/
theorem named_ofDocument {document : Document} {bindings : Dict Json} {policy : Option Policy}
    {path : TreePath} {node : Node}
    (h : (ofDocument document bindings policy).get? path = some node) {facet : Facet}
    {name : String} (hmem : .named facet name ∈ path.segments) :
    name ∈ document.keys ∨ name ∈ keysOfBindings bindings :=
  (Heritable.holdingAnything.ofDocument document bindings (d := none) trivial h).2 facet name hmem

/-- **Which paths are read back.** Take any path of the tree of a document that is read from a
text, with any data bound to its variables. Its text is read as the path, and leads to the node
at the path, exactly if those of its names that are keys of objects in the data are legible, and
its indices fit into 64 bits. -/
theorem path_read_back_iff {source : String} {document : Document}
    (hread : Document.ofText source = .ok document) (bindings : Dict Json) {path : TreePath}
    {node : Node} (hnode : (ofDocument document bindings none).get? path = some node) :
    TreePath.ofText? path.text = some path ∧
        (TreePath.ofText? path.text).bind (ofDocument document bindings none).get? = some node ↔
      (∀ facet name, .named facet name ∈ path.segments → name ∈ keysOfBindings bindings →
        LegibleName name) ∧
      path.Indexable := by
  obtain ⟨kind, hroot⟩ := exists_kind_of_get? hnode
  constructor
  · rintro ⟨hback, -⟩
    have hspelt := TreePath.ofText?_eq_some_iff.1 hback
    exact ⟨fun facet name hmem _ => hspelt.wellFormed.names facet name hmem, hspelt.indexable⟩
  · rintro ⟨hkeys, hindices⟩
    have hlegible : ∀ facet name, .named facet name ∈ path.segments → LegibleName name := by
      intro facet name hmem
      rcases named_ofDocument hnode hmem with hwritten | hbound
      · exact legible_of_isName (Document.isName_of_mem_keys hread hwritten)
      · exact hkeys facet name hmem hbound
    have hformed : path.WellFormed := by
      refine ⟨?_, ?_, hlegible⟩
      · rw [hroot]
        cases kind <;> decide
      · rw [hroot]
        cases kind <;> decide
    have hback := TreePath.ofText?_eq_some_iff.2 (hformed.speltBy_text hindices)
    exact ⟨hback, by rw [hback, Option.bind_some, hnode]⟩

/-- A query with a variable in place of an argument. -/
def filtered : Document :=
  ⟨[.operation ⟨none, .query, none, [⟨"x", .named "F", none⟩], [],
    [.field none none "f" [.mk none "arg" (.variable "x")] [] []]⟩]⟩

theorem ofText_filtered : Document.ofText "query($x:F)\x7bf(arg:$x)\x7d" = .ok filtered := by
  have hchars : "query($x:F)\x7bf(arg:$x)\x7d".toList =
      ['q', 'u', 'e', 'r', 'y', '(', '$', 'x', ':', 'F', ')', '\x7b', 'f', '(', 'a', 'r', 'g', ':',
        '$', 'x', ')', '\x7d'] := by
    decide +kernel
  rw [Document.ofText, hchars]
  rfl

/-- Data for the variable, with a key that is legible and one that is not. -/
def filterData : Dict Json := [("x", .object [("c", .array [.int 2]), ("a.b", .int 1)])]

/-- A place in the data for the variable. -/
def filterPlace (segments : List Segment) : TreePath :=
  ⟨"query", .named .output "f" :: .named .input "arg" :: segments⟩

/-- The path of the element below the legible key is read back. -/
theorem path_read_back_filtered :
    ∃ node, Document.ofText "query($x:F)\x7bf(arg:$x)\x7d" = .ok filtered ∧
      (ofDocument filtered filterData none).get? (filterPlace [.named .input "c", .index 0]) =
        some node ∧
      "c" ∈ keysOfBindings filterData ∧
      TreePath.ofText? (filterPlace [.named .input "c", .index 0]).text =
        some (filterPlace [.named .input "c", .index 0]) ∧
      (TreePath.ofText? (filterPlace [.named .input "c", .index 0]).text).bind
        (ofDocument filtered filterData none).get? = some node := by
  have hfound : ((ofDocument filtered filterData none).get?
      (filterPlace [.named .input "c", .index 0])).isSome = true := by
    decide +kernel
  obtain ⟨node, hnode⟩ := Option.isSome_iff_exists.1 hfound
  refine ⟨node, ofText_filtered, hnode, by decide,
    (path_read_back_iff ofText_filtered filterData hnode).2 ⟨?_, ?_⟩⟩
  · intro facet name hmem _
    have hname : name = "f" ∨ name = "arg" ∨ name = "c" := by
      simp only [filterPlace, List.mem_cons, Segment.named.injEq, reduceCtorEq, List.not_mem_nil,
        or_false] at hmem
      exact hmem.imp And.right (Or.imp And.right And.right)
    rcases hname with rfl | rfl | rfl <;> decide +kernel
  · intro i hmem
    obtain rfl : i = 0 := by simpa [filterPlace] using hmem
    decide

/-- **A key of the data may make a path unreadable**: one with a point in it. -/
theorem path_not_read_back :
    ¬∀ (source : String) (document : Document) (bindings : Dict Json) (path : TreePath)
      (node : Node), Document.ofText source = .ok document →
        (ofDocument document bindings none).get? path = some node →
        TreePath.ofText? path.text = some path ∧
          (TreePath.ofText? path.text).bind (ofDocument document bindings none).get? =
            some node := by
  intro hall
  have hfound : ((ofDocument filtered filterData none).get?
      (filterPlace [.named .input "a.b"])).isSome = true := by
    decide +kernel
  obtain ⟨node, hnode⟩ := Option.isSome_iff_exists.1 hfound
  have hback := hall _ _ filterData _ node ofText_filtered hnode
  exact absurd hback.1 (by decide +kernel)

end Tree

end QueryAccess
