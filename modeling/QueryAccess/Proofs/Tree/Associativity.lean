import Mathlib.Data.List.Sort
import QueryAccess.Proofs.Tree.Overlay

/-!
# Overlaying is associative

An ordered node is known by its children and by what it holds itself
(`QueryAccess.Node.Ordered.ext`): a list of named children in ascending order is known by
its look-ups. Since a merged node has at each segment what the two nodes have there, the
one overlaid by the other, it follows that the order in which three nodes are merged
matters, and the brackets do not (`QueryAccess.Node.merge_assoc`).

So nodes can be overlaid in groups: `QueryAccess.Node.overlay_flatMap` overlays each group
and then what comes of the groups.
-/

namespace QueryAccess

/-- A dictionary in order is known by its look-ups. -/
theorem Dict.Sorted.ext {α : Type} {d e : Dict α} (hd : Dict.Sorted d) (he : Dict.Sorted e)
    (h : ∀ key, d.lookup key = e.lookup key) : d = e := by
  have hirrefl : Std.Irrefl fun a b : String × α => a.1 < b.1 :=
    ⟨fun pair => String.lt_irrefl pair.1⟩
  refine (List.pairwise_map.1 hd).eq_of_mem_iff (List.pairwise_map.1 he) ?_
  rintro ⟨key, a⟩
  rw [← Dict.lookup_eq_some_iff hd, ← Dict.lookup_eq_some_iff he, h key]

namespace Node

/-- **An ordered node is known by its children** and by what it holds itself. -/
theorem Ordered.ext {a b : Node} (ha : a.Ordered) (hb : b.Ordered)
    (hchild : ∀ segment, a.child? segment = b.child? segment) (hvalue : a.value = b.value)
    (hfield : a.fieldName = b.fieldName) (hpolicy : a.policy = b.policy)
    (hdrop : a.dropRules = b.dropRules) : a = b := by
  have hinputs : a.inputs = b.inputs :=
    ha.inputs.ext hb.inputs fun name => hchild (.named .input name)
  have houtputs : a.outputs = b.outputs :=
    ha.outputs.ext hb.outputs fun name => hchild (.named .output name)
  have hitems : a.items = b.items := List.ext_getElem? fun i => hchild (.index i)
  cases a
  cases b
  simp only [Node.mk.injEq]
  exact ⟨hinputs, houtputs, hitems, hvalue, hfield, hpolicy, hdrop⟩

section Merge

variable (a b : Node)

theorem merge_policy : (a.merge b).policy = b.policy.or a.policy := by
  cases b
  rw [merge]

theorem merge_dropRules : (a.merge b).dropRules = b.dropRules.or a.dropRules := by
  cases b
  rw [merge]

end Merge

/-- **Merging is associative.** -/
theorem merge_assoc {a b c : Node} (ha : a.Ordered) (hb : b.Ordered) (hc : c.Ordered) :
    (a.merge b).merge c = a.merge (b.merge c) := by
  induction hc generalizing a b with
  | @mk c inputs outputs below ih =>
    have hc : c.Ordered := ⟨inputs, outputs, below⟩
    refine ((ha.merge hb).merge hc).ext (ha.merge (hb.merge hc)) (fun segment => ?_) ?_ ?_ ?_ ?_
    · rw [child?_merge (ha.merge hb) hc, child?_merge ha hb, child?_merge ha (hb.merge hc),
        child?_merge hb hc]
      cases hfirst : a.child? segment with
      | none => simp
      | some first =>
        cases hsecond : b.child? segment with
        | none => simp
        | some second =>
          cases hthird : c.child? segment with
          | none => simp
          | some third =>
            simp only [Option.merge_some_some]
            rw [ih segment third hthird (ha.child hfirst) (hb.child hsecond)]
    · simp only [merge_value, Option.or_assoc]
    · simp only [merge_fieldName, Option.or_assoc]
    · simp only [merge_policy, Option.or_assoc]
    · simp only [merge_dropRules, Option.or_assoc]

/-! ### Overlaying in groups -/

theorem overlay_append {first second : List Node} (hfirst : ∀ node ∈ first, node.Ordered)
    (hsecond : ∀ node ∈ second, node.Ordered) :
    overlay (first ++ second) = Option.merge merge (overlay first) (overlay second) := by
  induction second using List.reverseRecOn with
  | nil => simp
  | append_singleton init last ih =>
    have hlast : last.Ordered := hsecond last (by simp)
    have hinit : ∀ node ∈ init, node.Ordered := fun node hmem => hsecond node (by simp [hmem])
    rw [← List.append_assoc, overlay_concat, overlay_concat, ih hinit]
    cases hearlier : overlay first with
    | none => simp
    | some earlier =>
      cases hlater : overlay init with
      | none => simp
      | some later =>
        simp only [Option.merge_some_some]
        rw [merge_assoc (overlay_ordered hfirst hearlier) (overlay_ordered hinit hlater) hlast]

/-- **Nodes can be overlaid in groups**: first each group, and then what comes of them. -/
theorem overlay_flatMap {α : Type} {l : List α} {group : α → List Node}
    (h : ∀ a ∈ l, ∀ node ∈ group a, node.Ordered) :
    overlay (l.flatMap group) = overlay (l.filterMap fun a => overlay (group a)) := by
  induction l using List.reverseRecOn with
  | nil => rfl
  | append_singleton init last ih =>
    have hlast : ∀ node ∈ group last, node.Ordered := h last (by simp)
    have hinit : ∀ a ∈ init, ∀ node ∈ group a, node.Ordered := fun a hmem => h a (by simp [hmem])
    have hbefore : ∀ node ∈ init.flatMap group, node.Ordered := by
      intro node hnode
      obtain ⟨a, ha, hmem⟩ := List.mem_flatMap.1 hnode
      exact hinit a ha node hmem
    rw [List.flatMap_append, List.flatMap_singleton, overlay_append hbefore hlast, ih hinit,
      List.filterMap_append]
    cases hgroup : overlay (group last) with
    | none => simp [hgroup]
    | some node => simp [hgroup, overlay_concat]

end Node

end QueryAccess
