import QueryAccess.Proofs.Document.Inlining
import QueryAccess.Proofs.Tree.Selected

/-!
# Inlining keeps the tree

The tree of a document says nothing of how the document is cut into fragments.

**Flattening.** An inline fragment contributes what its selections do, at the same level, so
taking it apart never changes anything, whatever the document
(`QueryAccess.Tree.ofDocument_flattened`).

**Inlining.** A spread contributes what the fragment does, but a level further down, and
nothing if the fragment is being expanded already. So there are two things to see to. The
guard against cycles must not strike: where no fragment leads back to itself it does not,
however often a fragment is spread. And no level must be missing: where the expansion stays
within the levels (`QueryAccess.Fits`) a level more changes nothing. Then inlining does not
change the tree either (`QueryAccess.Tree.ofDocument_inlined`).
-/

namespace QueryAccess.Tree

/-! ### Flattening -/

/-- Selections contribute as much when they are flattened. -/
def ContributesFlat (contribute contributeFlat : Contribute) : Prop :=
  ∀ active policy selections,
    contributeFlat active policy (flatAll selections) = contribute active policy selections

section Flat

variable {around : Surroundings}

/-- What selections are read with, where the fragments are flattened. -/
def Surroundings.flattened (around : Surroundings) : Surroundings :=
  { around with
    fragments := around.fragments.map fun fragment =>
      { fragment with selections := flatAll fragment.selections } }

theorem fragment?_flattened (around : Surroundings) (name : String) :
    around.flattened.fragment? name = (around.fragment? name).map flatAll :=
  fragmentSelections?_map flatAll around.fragments name

theorem contributionsAt_append (around : Surroundings) (deeper : Option Contribute)
    (active : List String) (policy : Option Policy) (first second : List Selection) :
    contributionsAt around deeper active policy (first ++ second) =
      contributionsAt around deeper active policy first ++
        contributionsAt around deeper active policy second := by
  induction first with
  | nil => rfl
  | cons selection rest ih =>
    rw [List.cons_append, contributionsAt, ih, contributionsAt, List.append_assoc]

variable {deeper deeperFlat : Option Contribute}

mutual

theorem contributionsAt_flat
    (h : ContributesFlat (deeper.getD contributeNothing) (deeperFlat.getD contributeNothing))
    (active : List String) (policy : Option Policy) :
    ∀ selection : Selection,
      contributionsAt around.flattened deeperFlat active policy selection.flat =
        contribution around deeper active policy selection
  | .field comment label name arguments directives selections => by
    rw [Selection.flat, contributionsAt, contributionsAt, List.append_nil, contribution,
      contribution, h]
    rfl
  | .inline _ _ selections => by
    rw [Selection.flat, contribution]
    exact contributionsAt_flatAll h active policy selections
  | .spread name directives => by
    rw [Selection.flat, contributionsAt, contributionsAt, List.append_nil, contribution,
      contribution, fragment?_flattened]
    cases around.fragment? name with
    | none => rfl
    | some selections =>
      simp only [Option.map_some]
      rw [h]

theorem contributionsAt_flatAll
    (h : ContributesFlat (deeper.getD contributeNothing) (deeperFlat.getD contributeNothing))
    (active : List String) (policy : Option Policy) :
    ∀ selections : List Selection,
      contributionsAt around.flattened deeperFlat active policy (flatAll selections) =
        contributionsAt around deeper active policy selections
  | [] => rfl
  | selection :: rest => by
    rw [flatAll, contributionsAt_append, contributionsAt_flat h active policy selection,
      contributionsAt_flatAll h active policy rest, contributionsAt]

end

end Flat

/-- **Flattened selections contribute the same**, with any number of levels. -/
theorem contributions_flattened (around : Surroundings) (levels : Nat) :
    ContributesFlat (contributions around levels) (contributions around.flattened levels) := by
  induction levels with
  | zero =>
    have hnothing : ContributesFlat ((none : Option Contribute).getD contributeNothing)
        ((none : Option Contribute).getD contributeNothing) := fun _ _ _ => rfl
    exact contributionsAt_flatAll hnothing
  | succ levels ih =>
    have hdeeper : ContributesFlat ((some (contributions around levels)).getD contributeNothing)
        ((some (contributions around.flattened levels)).getD contributeNothing) := ih
    exact contributionsAt_flatAll hdeeper

/-- The tree of a document whose selections are changed is known from its operations. -/
theorem ofDocument_mapSelections {document : Document} {f : List Selection → List Selection}
    {bindings : Dict Json} {policy : Option Policy}
    (h : ∀ operation ∈ document.operations,
      ofOperation bindings (document.mapSelections f).fragments policy
          { operation with selections := f operation.selections } =
        ofOperation bindings document.fragments policy operation) :
    ofDocument (document.mapSelections f) bindings policy =
      ofDocument document bindings policy := by
  rw [ofDocument, ofDocument, Document.operations_mapSelections, List.map_map]
  refine congrArg ofRoots (List.map_congr_left fun operation hoperation => ?_)
  rw [Function.comp_apply, h operation hoperation]

/-- **Flattening keeps the tree.** -/
theorem ofDocument_flattened (document : Document) (bindings : Dict Json)
    (policy : Option Policy) :
    ofDocument document.flattened bindings policy = ofDocument document bindings policy := by
  refine ofDocument_mapSelections fun operation _ => ?_
  rw [ofOperation, ofOperation, Document.fragments_mapSelections]
  have hcontribute := contributions_flattened
    ⟨bindings, operation.declared, document.fragments⟩ maxDepth []
    (start operation.comment policy).policy operation.selections
  exact congrArg (fun below => { start operation.comment policy with outputs := Node.gather below })
    hcontribute

/-! ### Inlining -/

section Inline

variable {around : Surroundings}

theorem contributions_eq_at (around : Surroundings) (levels : Nat) :
    contributions around levels = contributionsAt around (contributionsBelow around levels) := by
  cases levels <;> rfl

theorem contributions_nil (around : Surroundings) (levels : Nat) (active : List String)
    (policy : Option Policy) : contributions around levels active policy [] = [] := by
  rw [contributions_eq_at, contributionsAt]

theorem contributions_cons (around : Surroundings) (levels : Nat) (active : List String)
    (policy : Option Policy) (selection : Selection) (rest : List Selection) :
    contributions around levels active policy (selection :: rest) =
      contribution around (contributionsBelow around levels) active policy selection ++
        contributions around levels active policy rest := by
  rw [contributions_eq_at, contributionsAt]

/-- What a level further down contributes to a field or a spread. -/
theorem contributionsBelow_succ (around : Surroundings) (levels : Nat) :
    (contributionsBelow around (levels + 1)).getD contributeNothing =
      contributions around levels :=
  rfl

/-- Nothing below a field contributes nothing, whatever the levels. -/
theorem contributionsBelow_nil (around : Surroundings) (levels : Nat) (active : List String)
    (policy : Option Policy) :
    (contributionsBelow around levels).getD contributeNothing active policy [] = [] := by
  cases levels with
  | zero => rfl
  | succ levels => exact contributions_nil around levels active policy

variable {others : List Fragment}

/-- **Inlined selections contribute the same** where the expansion stays within the levels,
with no fewer levels and whatever the fragments are then. `active` are the fragments being
expanded that the selections are in. -/
theorem contributions_inlinedIn (hacyclic : Acyclic around.fragments) {levels : Nat}
    {selections : List Selection} (h : Fits around.fragments levels selections) :
    ∀ {fuel more : Nat} {active activeInlined : List String} {policy : Option Policy},
      levels ≤ more → LeadTo around.fragments active (spreadsIn selections) →
      spreadsIn (inlinedIn around.fragments fuel selections) = [] →
      contributions { around with fragments := others } more activeInlined policy
          (inlinedIn around.fragments fuel selections) =
        contributions around levels active policy selections := by
  induction h with
  | nil =>
    intro fuel more active activeInlined policy _ _ _
    rw [inlinedIn, putInAll, contributions_nil, contributions_nil]
  | @bare levels comment label name arguments directives rest _ ih =>
    intro fuel more active activeInlined policy hmore hlead hnone
    rw [spreadsIn] at hlead
    rw [inlinedIn, putInAll, spreadsIn, List.append_eq_nil_iff] at hnone
    rw [inlinedIn, putInAll, contributions_cons, contributions_cons]
    refine congrArg₂ (· ++ ·) ?_ (ih hmore (hlead.subset (List.subset_append_right ..)) hnone.2)
    rw [Selection.putIn, putInAll, contribution, contribution, contributionsBelow_nil,
      contributionsBelow_nil]
    rfl
  | @field levels comment label name arguments directives inner rest _ _ ihinner ihrest =>
    intro fuel more active activeInlined policy hmore hlead hnone
    obtain ⟨more, rfl⟩ : ∃ fewer, more = fewer + 1 := ⟨more - 1, by omega⟩
    rw [spreadsIn, Selection.spreads] at hlead
    rw [inlinedIn, putInAll, spreadsIn, List.append_eq_nil_iff, Selection.putIn,
      Selection.spreads] at hnone
    rw [inlinedIn, putInAll, contributions_cons, contributions_cons]
    refine congrArg₂ (· ++ ·) ?_ (ihrest hmore (hlead.subset (List.subset_append_right ..)) hnone.2)
    rw [Selection.putIn, contribution, contribution, contributionsBelow_succ,
      contributionsBelow_succ]
    have hinner : contributions { around with fragments := others } more activeInlined
          (start comment policy).policy (putInAll (inlinedBody around.fragments fuel) inner) =
        contributions around levels active (start comment policy).policy inner :=
      ihinner (Nat.le_of_succ_le_succ hmore) (hlead.subset (List.subset_append_left ..)) hnone.1
    simp only [hinner]
    rfl
  | @inline levels on directives inner rest _ _ ihinner ihrest =>
    intro fuel more active activeInlined policy hmore hlead hnone
    rw [spreadsIn, Selection.spreads] at hlead
    rw [inlinedIn, putInAll, spreadsIn, List.append_eq_nil_iff, Selection.putIn,
      Selection.spreads] at hnone
    rw [inlinedIn, putInAll, contributions_cons, contributions_cons]
    refine congrArg₂ (· ++ ·) ?_ (ihrest hmore (hlead.subset (List.subset_append_right ..)) hnone.2)
    rw [Selection.putIn, contribution, contribution, ← contributions_eq_at, ← contributions_eq_at]
    exact ihinner hmore (hlead.subset (List.subset_append_left ..)) hnone.1
  | @spread levels name directives inner rest hfind _ _ ihinner ihrest =>
    intro fuel more active activeInlined policy hmore hlead hnone
    rw [spreadsIn, Selection.spreads] at hlead
    have hname : name ∈ [name] ++ spreadsIn rest := List.mem_append_left _ (.head _)
    -- the fragment is not being expanded already, for it would lead back to itself
    have hactive : name ∉ active := fun hmem => hacyclic name (hlead name hmem name hname)
    have hlookup : around.fragment? name = some inner := hfind
    rw [inlinedIn, putInAll, spreadsIn, List.append_eq_nil_iff, Selection.putIn] at hnone
    rw [inlinedIn, putInAll, contributions_cons, contributions_cons]
    refine congrArg₂ (· ++ ·) ?_ (ihrest hmore (hlead.subset (List.subset_append_right ..)) hnone.2)
    rw [Selection.putIn, contribution, hlookup]
    simp only [if_neg hactive]
    rw [contributionsBelow_succ]
    cases fuel with
    | zero => exact absurd hnone.1 (List.cons_ne_nil _ _)
    | succ fuel =>
      rw [inlinedBody, hfind, Option.map_some] at hnone ⊢
      simp only [Selection.spreads] at hnone
      rw [contribution, ← contributions_eq_at]
      exact ihinner (by omega) (hlead.fragment hname hfind) hnone.1

end Inline

variable {document : Document}

/-- Inlining keeps the tree, where no level is missing and all spreads are replaced. -/
theorem ofDocument_inlined (hacyclic : Acyclic document.fragments)
    (hfits : ∀ operation ∈ document.operations,
      Fits document.fragments maxDepth operation.selections)
    (hnone : document.inlined.spreads = []) (bindings : Dict Json) (policy : Option Policy) :
    ofDocument document.inlined bindings policy = ofDocument document bindings policy := by
  refine ofDocument_mapSelections fun operation hoperation => ?_
  rw [Document.spreads, List.append_eq_nil_iff, Document.inlined,
    Document.operations_mapSelections, List.flatMap_eq_nil_iff, List.forall_mem_map] at hnone
  rw [ofOperation, ofOperation]
  let around : Surroundings := ⟨bindings, operation.declared, document.fragments⟩
  have hcontribute : contributions { around with fragments := document.inlined.fragments } maxDepth
        [] (start operation.comment policy).policy
        (inlinedIn document.fragments document.fragments.length operation.selections) =
      contributions around maxDepth [] (start operation.comment policy).policy
        operation.selections :=
    contributions_inlinedIn hacyclic (hfits operation hoperation) (Nat.le_refl maxDepth) .nil
      (hnone.1 operation hoperation)
  exact congrArg (fun below => { start operation.comment policy with outputs := Node.gather below })
    hcontribute

/-- **Expanding fragments is inlining them.** If all spreads of a document are defined, no
fragment leads back to itself and the expansion stays within `QueryAccess.maxDepth` levels, the
document can be written without a spread: with an inline fragment in the place of each, and
then with the selections of each inline fragment in its place. It has the same tree each time,
whatever is bound to its variables, as a rule source and as a query. -/
theorem inlining_keeps_tree
    (hdefined : ∀ name ∈ document.spreads,
      (fragmentSelections? document.fragments name).isSome = true)
    (hacyclic : Acyclic document.fragments)
    (hfits : ∀ operation ∈ document.operations,
      Fits document.fragments maxDepth operation.selections)
    (bindings : Dict Json) (policy : Option Policy) :
    document.inlined.spreads = [] ∧
    ofDocument document.inlined bindings policy = ofDocument document bindings policy ∧
    ofDocument document.inlined.flattened bindings policy =
      ofDocument document bindings policy := by
  have hnone := Document.spreads_inlined hacyclic hdefined
  have hinlined := ofDocument_inlined hacyclic hfits hnone bindings policy
  exact ⟨hnone, hinlined, (ofDocument_flattened _ bindings policy).trans hinlined⟩

/-- A query in which a fragment is spread three times: twice in one place, and once inside
another fragment. -/
def namedThings : Document :=
  ⟨[.operation ⟨none, .query, none, [], [],
      [.field none none "books" [] [] [.spread "Named" [], .spread "Named" []], .spread "Top" []]⟩,
    .fragment ⟨"Top", "Query", [],
      [.field none (some "people") "authors" [] [] [.spread "Named" []]]⟩,
    .fragment ⟨"Named", "Thing", [], [.field none none "name" [] [] []]⟩]⟩

/-- The named things, as an instance of `QueryAccess.Tree.inlining_keeps_tree`: below a root
policy and without, they have the tree of a document in which nothing is spread. -/
theorem inlining_keeps_namedThings :
    (∀ name ∈ namedThings.spreads,
      (fragmentSelections? namedThings.fragments name).isSome = true) ∧
    Acyclic namedThings.fragments ∧
    (∀ operation ∈ namedThings.operations,
      Fits namedThings.fragments maxDepth operation.selections) ∧
    ∀ policy, namedThings.inlined.spreads = [] ∧
      ofDocument namedThings.inlined [] policy = ofDocument namedThings [] policy ∧
      ofDocument namedThings.inlined.flattened [] policy = ofDocument namedThings [] policy := by
  have hdefined : ∀ name ∈ namedThings.spreads,
      (fragmentSelections? namedThings.fragments name).isSome = true := by decide
  have hacyclic : Acyclic namedThings.fragments :=
    acyclic_of_rank (fun name => if name = "Top" then 1 else 0) (by decide)
  have hfits : ∀ operation ∈ namedThings.operations,
      Fits namedThings.fragments maxDepth operation.selections := by
    intro operation hoperation
    obtain rfl := List.mem_singleton.1 hoperation
    refine .field (.spread rfl (.bare .nil) (.spread rfl (.bare .nil) .nil)) (.spread rfl ?_ .nil)
    exact .field (.spread rfl (.bare .nil) .nil) .nil
  exact ⟨hdefined, hacyclic, hfits, inlining_keeps_tree hdefined hacyclic hfits []⟩

end QueryAccess.Tree
