import Mathlib.Data.Fintype.EquivFin
import QueryAccess.Proofs.Tree.Listing
import QueryAccess.Proofs.Tree.Variables

/-!
# What a default depends on

A variable that is not bound stands for its default. A default should be a constant, and other
variables in it should stay open; but they do not: what is bound to them is filled in. So what
an unbound variable records depends on the data bound to the *other* variables of its default,
and on nothing else.

**What it does not depend on.** Filling looks up the variables of a value only
(`QueryAccess.Tree.fill_congr`).

**What it does depend on.** Each other variable of a default shows in the node. Take a name that
no input below the node has as long as nothing is bound (`QueryAccess.Node.exists_not_marked`),
and bind the variable to an object with just that field: then there is such an input, wherever
in the default the variable stands (`QueryAccess.Tree.fill_marked`). What is merged there on the
way up only adds to it, so it cannot get lost.
-/

namespace QueryAccess

namespace Node

/-! ### Marks -/

/-- Somewhere below the node there is an input of that name. -/
def Marked (mark : String) (node : Node) : Prop :=
  ∃ segments target, node.get? (segments ++ [.named .input mark]) = some target

section Marked

variable {mark : String} {node child : Node}

/-- A node is marked if a child is. -/
theorem Marked.of_child? (segment : Segment) (hchild : node.child? segment = some child)
    (h : child.Marked mark) : node.Marked mark := by
  obtain ⟨segments, target, htarget⟩ := h
  exact ⟨segment :: segments, target, (get?_of_child? hchild _).trans htarget⟩

/-- Overlaying keeps marks. -/
theorem Marked.overlay {nodes : List Node} (hordered : ∀ node ∈ nodes, node.Ordered)
    (hmem : node ∈ nodes) (h : node.Marked mark) :
    ∃ merged, Node.overlay nodes = some merged ∧ merged.Marked mark := by
  obtain ⟨segments, target, htarget⟩ := h
  have hplace := overlay_bind_get? hordered (segments ++ [.named .input mark])
  have hsome : Node.overlay (nodes.filterMap fun node =>
      node.get? (segments ++ [.named .input mark])) ≠ none := by
    rw [ne_eq, overlay_eq_none_iff]
    exact List.ne_nil_of_mem (List.mem_filterMap.2 ⟨node, hmem, htarget⟩)
  rw [← hplace, Option.ne_none_iff_exists'] at hsome
  obtain ⟨found, hfound⟩ := hsome
  obtain ⟨merged, hmerged, hget⟩ := Option.bind_eq_some_iff.1 hfound
  exact ⟨merged, hmerged, segments, found, hget⟩

/-- A node that gathers a marked input is marked. -/
theorem Marked.of_gather {children : List (String × Node)}
    (hordered : ∀ pair ∈ children, pair.2.Ordered) {pair : String × Node} (hmem : pair ∈ children)
    (h : pair.2.Marked mark) : ({ node with inputs := gather children } : Node).Marked mark := by
  have hnodes : ∀ child ∈ (children.filter fun other => other.1 == pair.1).map Prod.snd,
      child.Ordered := by
    intro child hchild
    obtain ⟨other, hother, rfl⟩ := List.mem_map.1 hchild
    exact hordered other (List.mem_filter.1 hother).1
  obtain ⟨merged, hmerged, hmarked⟩ := h.overlay hnodes
    (List.mem_map.2 ⟨pair, List.mem_filter.2 ⟨hmem, beq_self_eq_true _⟩, rfl⟩)
  rw [← lookup_gather] at hmerged
  exact .of_child? (.named .input pair.1) hmerged hmarked

/-- There are names that a node is not marked by. -/
theorem exists_not_marked (node : Node) : ∃ mark, ¬node.Marked mark := by
  let names := (node.listing []).filterMap fun place => place.1.getLast?.bind Segment.name?
  obtain ⟨mark, hmark⟩ := Infinite.exists_notMem_finset names.toFinset
  refine ⟨mark, fun ⟨segments, target, htarget⟩ => hmark (List.mem_toFinset.2 ?_)⟩
  exact List.mem_filterMap.2 ⟨_, mem_listing_of_get? htarget, by simp [Segment.name?]⟩

end Marked

end Node

namespace Tree

/-! ### A bound variable shows -/

section Fill

variable {ofVariable : String → Node → Node} {mark name : String}

mutual

/-- **What stands for a variable marks the nodes of all values with the variable in them.** -/
theorem fill_marked
    (hordered : ∀ name node, Node.isLeaf node = true → (ofVariable name node).Ordered)
    (hmark : ∀ node, (ofVariable name node).Marked mark) (node : Node) :
    ∀ value : Value, name ∈ value.variables → (fill ofVariable node value).Marked mark
  | .variable other, hmem => List.mem_singleton.1 hmem ▸ hmark node
  | .list items, hmem => by
    obtain ⟨item, hitem, hmarked⟩ := fillItems_marked hordered hmark node.policy items hmem
    obtain ⟨i, hi⟩ := List.mem_iff_getElem?.1 hitem
    exact .of_child? (.index i) hi hmarked
  | .object fields, hmem => by
    obtain ⟨pair, hpair, hmarked⟩ := fillInputs_marked hordered hmark node.policy fields hmem
    exact .of_gather (fillInputs_ordered hordered node.policy fields) hpair hmarked
  | .int _, hmem | .float _, hmem | .string _, hmem | .boolean _, hmem | .null, hmem
  | .enum _, hmem => absurd hmem List.not_mem_nil

theorem fillItems_marked
    (hordered : ∀ name node, Node.isLeaf node = true → (ofVariable name node).Ordered)
    (hmark : ∀ node, (ofVariable name node).Marked mark) (policy : Option Policy) :
    ∀ items : List Value, name ∈ variablesOfItems items →
      ∃ item ∈ fillItems ofVariable policy items, item.Marked mark
  | [], hmem => absurd hmem List.not_mem_nil
  | value :: rest, hmem => by
    rw [variablesOfItems, List.mem_append] at hmem
    rw [fillItems, List.exists_mem_cons_iff]
    exact hmem.imp (fill_marked hordered hmark _ value)
      (fillItems_marked hordered hmark policy rest)

theorem fillInputs_marked
    (hordered : ∀ name node, Node.isLeaf node = true → (ofVariable name node).Ordered)
    (hmark : ∀ node, (ofVariable name node).Marked mark) (policy : Option Policy) :
    ∀ arguments : List Argument, name ∈ variablesOfArguments arguments →
      ∃ pair ∈ fillInputs ofVariable policy arguments, pair.2.Marked mark
  | [], hmem => absurd hmem List.not_mem_nil
  | .mk comment key value :: rest, hmem => by
    rw [variablesOfArguments, List.mem_append] at hmem
    rw [fillInputs, List.exists_mem_cons_iff]
    exact hmem.imp (fill_marked hordered hmark _ value)
      (fillInputs_marked hordered hmark policy rest)

end

end Fill

/-- A variable that is bound to an object with one field marks its node. -/
theorem fillBound_marked (name mark : String) (node : Node) :
    (fillBound [(name, .object [(mark, .null)])] name node).Marked mark := by
  rw [fillBound, List.lookup_cons_self]
  exact ⟨[], { Node.ofPolicy node.policy with value := some .null }, by
    simp [fillData, dataInputs, Node.get?, Node.child?, Node.gather, Node.putChild, Dict.alter]⟩

/-! ### Defaults -/

section Defaults

variable {declared : List VariableDefinition} {name : String} {value : Value}

/-- An unbound variable with a default records the default, with what is bound to the variables
in it. -/
theorem fillVariable_default (hdefault : default? declared name = some value)
    {bindings : Dict Json} (hfree : bindings.lookup name = none) (node : Node) :
    fillVariable bindings declared name node = fill (fillBound bindings) node value := by
  rw [fillVariable, hfree, hdefault]

/-- Data that agree on the variables of a default record the same. -/
theorem fillVariable_default_congr (hdefault : default? declared name = some value)
    {first second : Dict Json} (hfirst : first.lookup name = none)
    (hsecond : second.lookup name = none)
    (h : ∀ other ∈ value.variables, first.lookup other = second.lookup other) (node : Node) :
    fillVariable first declared name node = fillVariable second declared name node := by
  rw [fillVariable_default hdefault hfirst, fillVariable_default hdefault hsecond]
  refine fill_congr node value fun other hother => funext fun node => ?_
  rw [fillBound, fillBound, h other hother]

/-- A variable is not read in a default: where nothing is bound to it, nothing is recorded. -/
theorem fillBound_free {bindings : Dict Json} (hfree : bindings.lookup name = none)
    (node : Node) : fillBound bindings name node = node := by
  rw [fillBound, hfree]

/-- **What a default depends on.** What a variable with a default records in a node, where nothing
is bound to it, is the same for all data bound to other variables exactly if the default mentions
no other variable. It is always the same for data that agree on the variables of the default, and
wherever the variable stands in a default itself. -/
theorem default_constant_iff (hdefault : default? declared name = some value) (node : Node) :
    ((∀ first second : Dict Json, first.lookup name = none → second.lookup name = none →
        fillVariable first declared name node = fillVariable second declared name node) ↔
      ∀ other ∈ value.variables, other = name) ∧
    ∀ first second : Dict Json, first.lookup name = none → second.lookup name = none →
      ((∀ other ∈ value.variables, first.lookup other = second.lookup other) →
        fillVariable first declared name node = fillVariable second declared name node) ∧
      fillBound first name node = fillBound second name node := by
  refine ⟨⟨fun hsame other hother => ?_, fun hself first second hfirst hsecond => ?_⟩,
    fun first second hfirst hsecond =>
      ⟨fun h => fillVariable_default_congr hdefault hfirst hsecond h node, ?_⟩⟩
  · by_contra hne
    -- a mark that is not there with nothing bound comes with the other variable
    obtain ⟨mark, hmark⟩ := Node.exists_not_marked (fill (fillBound []) node value)
    have hfree : List.lookup name [(other, Json.object [(mark, .null)])] = none := by
      rw [Dict.lookup_singleton, if_neg (Ne.symm hne)]
    have hrecorded := hsame [] _ rfl hfree
    rw [fillVariable_default hdefault rfl, fillVariable_default hdefault hfree] at hrecorded
    rw [hrecorded] at hmark
    exact hmark (fill_marked (fillBound_ordered _) (fillBound_marked other mark) _ value hother)
  · refine fillVariable_default_congr hdefault hfirst hsecond (fun other hother => ?_) node
    rw [hself other hother, hfirst, hsecond]
  · rw [fillBound_free hfirst, fillBound_free hsecond]

end Defaults

/-- A variable with another variable in its default. -/
def openDeclared : List VariableDefinition :=
  [⟨"x", .named "F", some (.object [.mk none "a" (.variable "y")])⟩]

/-- The data bound to `y` show in `x`, as an instance of
`QueryAccess.Tree.default_constant_iff`. -/
theorem openDeclared_not_constant :
    default? openDeclared "x" = some (.object [.mk none "a" (.variable "y")]) ∧
      ¬∀ first second : Dict Json, first.lookup "x" = none → second.lookup "x" = none →
        fillVariable first openDeclared "x" .empty =
          fillVariable second openDeclared "x" .empty := by
  have hdefault : default? openDeclared "x" =
      some (.object [.mk none "a" (.variable "y")]) := rfl
  refine ⟨hdefault, fun hsame => ?_⟩
  exact absurd ((default_constant_iff hdefault .empty).1.1 hsame "y" (.head _)) (by decide)

/-- A query with that variable as an argument. -/
def openDefault : Document :=
  ⟨[.operation ⟨none, .query, none, openDeclared, [],
    [.field none none "f" [.mk none "arg" (.variable "x")] [] []]⟩]⟩

/-- The argument of the query is not the same for all data that bind nothing to `x`. -/
theorem openDefault_not_constant :
    ¬∀ first second : Dict Json, first.lookup "x" = none → second.lookup "x" = none →
      (ofDocument openDefault first none).get?
          ⟨"query", [.named .output "f", .named .input "arg"]⟩ =
        (ofDocument openDefault second none).get?
          ⟨"query", [.named .output "f", .named .input "arg"]⟩ := by
  intro h
  have hvalue := congrArg (fun found : Option Node =>
    ((found.bind fun node => node.child? (.named .input "a")).bind fun node => node.value).isSome)
    (h [] [("y", .int 1)] rfl rfl)
  exact absurd hvalue (by decide +kernel)

end Tree

end QueryAccess
