import QueryAccess.Proofs.Document.Inlining

/-!
# What a document selects, labels aside

Labels are what the client wants the answers to stand under. Without them
(`QueryAccess.Document.unlabelled`) a document asks for the same fields, in the same places.

**Tracking.** To say so for every document, the fields that selections come to have to be known
for documents with cycles too, where a fragment leads back to itself and is not expanded a
second time. `QueryAccess.track` expands selections with the list of the fragments that are
being expanded, and each field that is selected takes the list along
(`QueryAccess.Tracked`), since the same guard is in force further down.

**Labels aside.** Expanding commutes with taking the labels away
(`QueryAccess.track_unlabelled`). So if two documents are the same but for their labels, what
they come to is the same but for the labels, field by field and all the way down
(`QueryAccess.Tracked.map_unlabelled_below`).
-/

namespace QueryAccess

/-! ### Without labels -/

mutual

/-- A selection without labels. -/
def Selection.unlabelled : Selection → Selection
  | .field comment _ name arguments directives selections =>
    .field comment none name arguments directives (unlabelledAll selections)
  | .spread name directives => .spread name directives
  | .inline on directives selections => .inline on directives (unlabelledAll selections)

/-- Selections without labels. -/
def unlabelledAll : List Selection → List Selection
  | [] => []
  | selection :: rest => selection.unlabelled :: unlabelledAll rest

end

/-- An operation without labels. -/
def Operation.unlabelled (operation : Operation) : Operation :=
  { operation with selections := unlabelledAll operation.selections }

/-- A fragment without labels. -/
def Fragment.unlabelled (fragment : Fragment) : Fragment :=
  { fragment with selections := unlabelledAll fragment.selections }

namespace Document

/-- **The document without labels.** -/
def unlabelled (document : Document) : Document := document.mapSelections unlabelledAll

theorem operations_unlabelled (document : Document) :
    document.unlabelled.operations = document.operations.map Operation.unlabelled :=
  operations_mapSelections unlabelledAll document

theorem fragments_unlabelled (document : Document) :
    document.unlabelled.fragments = document.fragments.map Fragment.unlabelled :=
  fragments_mapSelections unlabelledAll document

end Document

/-! ### Tracking -/

/-- A selected field, with the fragments that are being expanded where it is selected. -/
structure Tracked extends Selected where
  active : List String

/-- An operation, as if it were a field that is selected outside of all fragments. -/
def Operation.tracked (operation : Operation) (levels : Nat) : Tracked :=
  ⟨operation.whole levels, []⟩

/-- What selections come to, given the fragments that are being expanded. -/
abbrev Tracking : Type := List String → List Selection → List Tracked

section Track

variable (fragments : List Fragment)

mutual

/-- What one selection comes to, in some fragments that are not expanded again. `deeper`
expands what is a level further down, if there is such a level. -/
def tracking (deeper : Option Tracking) (levels : Nat) (active : List String) :
    Selection → List Tracked
  | .field _ label name arguments _ selections =>
    [⟨⟨levels, label, name, arguments, selections⟩, active⟩]
  | .inline _ _ selections => trackingAt deeper levels active selections
  | .spread name _ =>
    match fragmentSelections? fragments name with
    | none => []
    | some selections =>
      if name ∈ active then [] else (deeper.getD fun _ _ => []) (name :: active) selections

/-- What selections come to, one after the other. -/
def trackingAt (deeper : Option Tracking) (levels : Nat) (active : List String) :
    List Selection → List Tracked
  | [] => []
  | selection :: rest =>
    tracking deeper levels active selection ++ trackingAt deeper levels active rest

end

/-- **The fields that selections come to**, with so many levels left, in some fragments that are
being expanded. -/
def track : Nat → Tracking
  | 0 => trackingAt fragments none 0
  | levels + 1 => trackingAt fragments (some (track levels)) (levels + 1)

/-- The expansion a level further down, if there is one. -/
def trackBelow : Nat → Option Tracking
  | 0 => none
  | levels + 1 => some (track fragments levels)

end Track

namespace Tracked

variable (fragments : List Fragment)

/-- The fields that a field selects. -/
def below (field : Tracked) : List Tracked :=
  (trackBelow fragments field.levels).getD (fun _ _ => []) field.active field.selections

/-- **The response keys are distinct** in the expanded selection set of a field, and in those of
all fields below it. -/
inductive Distinct : Tracked → Prop where
  | mk {field : Tracked} (keys : ((field.below fragments).map fun next => next.key).Nodup)
      (below : ∀ next ∈ field.below fragments, Distinct next) : Distinct field

/-- A field without labels. -/
def unlabelled (field : Tracked) : Tracked :=
  { field with label := none, selections := unlabelledAll field.selections }

end Tracked

/-! ### Labels aside -/

section Unlabelled

variable (fragments : List Fragment)

theorem fragmentSelections?_unlabelled (name : String) :
    fragmentSelections? (fragments.map Fragment.unlabelled) name =
      (fragmentSelections? fragments name).map unlabelledAll :=
  fragmentSelections?_map unlabelledAll fragments name

/-- Expanding commutes with taking the labels away. -/
def TracksUnlabelled (expand expandUnlabelled : Tracking) : Prop :=
  ∀ active selections,
    expandUnlabelled active (unlabelledAll selections) =
      (expand active selections).map Tracked.unlabelled

variable {deeper deeperUnlabelled : Option Tracking}

mutual

theorem tracking_unlabelled
    (h : TracksUnlabelled (deeper.getD fun _ _ => []) (deeperUnlabelled.getD fun _ _ => []))
    (levels : Nat) (active : List String) : ∀ selection : Selection,
      tracking (fragments.map Fragment.unlabelled) deeperUnlabelled levels active
          selection.unlabelled =
        (tracking fragments deeper levels active selection).map Tracked.unlabelled
  | .field comment label name arguments directives selections => by
    rw [Selection.unlabelled, tracking, tracking]
    rfl
  | .inline on directives selections => by
    rw [Selection.unlabelled, tracking, tracking]
    exact trackingAt_unlabelled h levels active selections
  | .spread name directives => by
    rw [Selection.unlabelled, tracking, tracking, fragmentSelections?_unlabelled]
    cases fragmentSelections? fragments name with
    | none => rfl
    | some selections =>
      simp only [Option.map_some]
      rw [h (name :: active) selections]
      split <;> rfl

theorem trackingAt_unlabelled
    (h : TracksUnlabelled (deeper.getD fun _ _ => []) (deeperUnlabelled.getD fun _ _ => []))
    (levels : Nat) (active : List String) : ∀ selections : List Selection,
      trackingAt (fragments.map Fragment.unlabelled) deeperUnlabelled levels active
          (unlabelledAll selections) =
        (trackingAt fragments deeper levels active selections).map Tracked.unlabelled
  | [] => rfl
  | selection :: rest => by
    rw [unlabelledAll, trackingAt, trackingAt, tracking_unlabelled h levels active selection,
      trackingAt_unlabelled h levels active rest, List.map_append]

end

/-- **Selections without labels come to the same fields**, without labels. -/
theorem track_unlabelled (levels : Nat) :
    TracksUnlabelled (track fragments levels)
      (track (fragments.map Fragment.unlabelled) levels) := by
  induction levels with
  | zero =>
    have hnothing : TracksUnlabelled ((none : Option Tracking).getD fun _ _ => [])
        ((none : Option Tracking).getD fun _ _ => []) := fun _ _ => rfl
    exact trackingAt_unlabelled fragments hnothing 0
  | succ levels ih =>
    have hdeeper : TracksUnlabelled
        ((some (track fragments levels)).getD fun _ _ => [])
        ((some (track (fragments.map Fragment.unlabelled) levels)).getD fun _ _ => []) := ih
    exact trackingAt_unlabelled fragments hdeeper (levels + 1)

/-- What a field selects without labels. -/
theorem Tracked.below_unlabelled (field : Tracked) :
    field.unlabelled.below (fragments.map Fragment.unlabelled) =
      (field.below fragments).map Tracked.unlabelled := by
  obtain ⟨⟨levels, label, name, arguments, selections⟩, active⟩ := field
  cases levels with
  | zero => rfl
  | succ levels => exact track_unlabelled fragments levels active selections

end Unlabelled

/-- **Fields that are the same but for their labels select the same but for the labels.** -/
theorem Tracked.map_unlabelled_below {fragments others : List Fragment}
    (hfragments : fragments.map Fragment.unlabelled = others.map Fragment.unlabelled)
    {field other : Tracked} (h : field.unlabelled = other.unlabelled) :
    (field.below fragments).map Tracked.unlabelled =
      (other.below others).map Tracked.unlabelled := by
  rw [← below_unlabelled, ← below_unlabelled, h, hfragments]

end QueryAccess
