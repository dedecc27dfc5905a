import Mathlib.Logic.Relation
import QueryAccess.Document.Basic

/-!
# What a document selects

A selection set is *expanded* by putting in the place of each inline fragment, and of each
spread, what the fragment selects. Here this is said of documents alone, without the tree
that is made of them: `QueryAccess.expand` lists the fields that a selection set comes to,
in the order of the text, and `QueryAccess.Selected.below` those that a selected field
comes to in turn.

**Levels.** The expansion has a number of levels, so that it ends whatever the fragments
are. Going into the selections of a field, or of the fragment that a spread names, takes
one. What is selected without any limit is what is selected with some number of levels.

**Keys.** The client asks for a place by response keys, and under one key there may be
several selected fields: `QueryAccess.Selected.atKeys` lists them in the order of the
text. `QueryAccess.Selected.Reaches` goes down field by field instead, and where the keys
are distinct in every selection set (`QueryAccess.Selected.Distinct`) the two agree: a
field that is reached is alone at its keys (`QueryAccess.Selected.atKeys_of_reaches`).

**Cycles.** `QueryAccess.Mentions` is the graph of the fragments, in which a fragment
leads to those that it spreads. Selections are *uncycled* (`QueryAccess.Uncycled`) if no
fragment that they lead to leads back to itself.
-/

namespace QueryAccess

/-- Where a function has different values on a list, each of them is had once. -/
theorem filter_eq_singleton_of_nodup {α β : Type} [BEq β] [LawfulBEq β] {f : α → β} {l : List α}
    (h : (l.map f).Nodup) {a : α} (ha : a ∈ l) : l.filter (fun b => f b == f a) = [a] := by
  induction l with
  | nil => exact absurd ha List.not_mem_nil
  | cons first rest ih =>
    rw [List.map_cons, List.nodup_cons] at h
    rcases List.mem_cons.1 ha with rfl | hrest
    · have hnone : rest.filter (fun b => f b == f a) = [] := by
        rw [List.filter_eq_nil_iff]
        intro other hother
        rw [beq_iff_eq]
        exact fun hvalue => h.1 (List.mem_map.2 ⟨other, hother, hvalue⟩)
      rw [List.filter_cons, if_pos (beq_self_eq_true _), hnone]
    · have hne : ¬(f first == f a) = true := by
        rw [beq_iff_eq]
        exact fun hvalue => h.1 (List.mem_map.2 ⟨a, hrest, hvalue.symm⟩)
      rw [List.filter_cons, if_neg hne, ih h.2 hrest]

/-- The selections of the fragment of that name; of several the last counts. -/
def fragmentSelections? (fragments : List Fragment) (name : String) : Option (List Selection) :=
  (fragments.reverse.find? (·.name == name)).map (·.selections)

/-- A field that is selected, with the levels that are left for what it selects itself. -/
structure Selected where
  levels : Nat
  label : Option String
  name : String
  arguments : List Argument
  selections : List Selection

/-- An operation, as if it were a selected field. -/
def Operation.whole (operation : Operation) (levels : Nat) : Selected :=
  ⟨levels, none, operation.kind.keyword, [], operation.selections⟩

/-! ### Expanding -/

section Expand

variable (fragments : List Fragment)

mutual

/-- What one selection comes to. `deeper` expands what is a level further down, if there
is such a level. -/
def expansion (deeper : Option (List Selection → List Selected)) (levels : Nat) :
    Selection → List Selected
  | .field _ label name arguments _ selections => [⟨levels, label, name, arguments, selections⟩]
  | .inline _ _ selections => expansionAt deeper levels selections
  | .spread name _ =>
    match fragmentSelections? fragments name with
    | none => []
    | some selections => (deeper.getD fun _ => []) selections

/-- What selections come to, one after the other. -/
def expansionAt (deeper : Option (List Selection → List Selected)) (levels : Nat) :
    List Selection → List Selected
  | [] => []
  | selection :: rest => expansion deeper levels selection ++ expansionAt deeper levels rest

end

/-- **The fields that selections come to**, with so many levels left. -/
def expand : Nat → List Selection → List Selected
  | 0 => expansionAt fragments none 0
  | levels + 1 => expansionAt fragments (some (expand levels)) (levels + 1)

/-- The expansion a level further down, if there is one. -/
def expandBelow : Nat → Option (List Selection → List Selected)
  | 0 => none
  | levels + 1 => some (expand fragments levels)

theorem expand_eq (levels : Nat) :
    expand fragments levels = expansionAt fragments (expandBelow fragments levels) levels := by
  cases levels <;> rfl

/-- **A field is selected** by selections with so many levels: directly, by an inline
fragment, or by a fragment that they spread, which takes a level. -/
inductive Selects : Nat → List Selection → Selected → Prop where
  | field {levels : Nat} {selections : List Selection} {comment label : Option String}
      {name : String} {arguments : List Argument} {directives : List Directive}
      {inner : List Selection}
      (hmem : .field comment label name arguments directives inner ∈ selections) :
      Selects levels selections ⟨levels, label, name, arguments, inner⟩
  | inline {levels : Nat} {selections : List Selection} {on : Option String}
      {directives : List Directive} {inner : List Selection} {target : Selected}
      (hmem : .inline on directives inner ∈ selections) (hinner : Selects levels inner target) :
      Selects levels selections target
  | spread {levels : Nat} {selections : List Selection} {name : String}
      {directives : List Directive} {inner : List Selection} {target : Selected}
      (hmem : .spread name directives ∈ selections)
      (hfind : fragmentSelections? fragments name = some inner)
      (hinner : Selects levels inner target) : Selects (levels + 1) selections target

section Selects

variable {fragments}

theorem mem_expansionAt {deeper : Option (List Selection → List Selected)} {levels : Nat}
    {selections : List Selection} {target : Selected} :
    target ∈ expansionAt fragments deeper levels selections ↔
      ∃ selection ∈ selections, target ∈ expansion fragments deeper levels selection := by
  induction selections with
  | nil =>
    refine iff_of_false List.not_mem_nil ?_
    rintro ⟨selection, hselection, -⟩
    exact absurd hselection List.not_mem_nil
  | cons selection rest ih =>
    rw [expansionAt, List.mem_append, ih]
    simp only [List.mem_cons, exists_eq_or_imp]

mutual

theorem selects_of_mem_expansion {levels : Nat}
    (h : ∀ inner target, target ∈ ((expandBelow fragments levels).getD fun _ => []) inner →
      ∃ fewer, levels = fewer + 1 ∧ Selects fragments fewer inner target)
    {target : Selected} :
    ∀ selection, target ∈ expansion fragments (expandBelow fragments levels) levels selection →
      ∀ selections, selection ∈ selections → Selects fragments levels selections target
  | .field _ _ _ _ _ _, htarget, selections, hmem => by
    rw [expansion, List.mem_singleton] at htarget
    rw [htarget]
    exact .field hmem
  | .inline _ _ inner, htarget, selections, hmem => by
    rw [expansion] at htarget
    exact .inline hmem (selects_of_mem_expansionAt h inner htarget inner (List.Subset.refl _))
  | .spread name _, htarget, selections, hmem => by
    rw [expansion] at htarget
    split at htarget
    · exact absurd htarget List.not_mem_nil
    · next inner hfind =>
      obtain ⟨fewer, rfl, hinner⟩ := h inner target htarget
      exact .spread hmem hfind hinner

theorem selects_of_mem_expansionAt {levels : Nat}
    (h : ∀ inner target, target ∈ ((expandBelow fragments levels).getD fun _ => []) inner →
      ∃ fewer, levels = fewer + 1 ∧ Selects fragments fewer inner target)
    {target : Selected} :
    ∀ some, target ∈ expansionAt fragments (expandBelow fragments levels) levels some →
      ∀ selections, some ⊆ selections → Selects fragments levels selections target
  | [], htarget, _, _ => absurd htarget List.not_mem_nil
  | selection :: rest, htarget, selections, hsome => by
    rw [expansionAt, List.mem_append] at htarget
    rw [List.cons_subset] at hsome
    rcases htarget with hfirst | hrest
    · exact selects_of_mem_expansion h selection hfirst selections hsome.1
    · exact selects_of_mem_expansionAt h rest hrest selections hsome.2

end

/-- **Selections come to the fields that they select.** -/
theorem mem_expand_iff {levels : Nat} {selections : List Selection} {target : Selected} :
    target ∈ expand fragments levels selections ↔ Selects fragments levels selections target := by
  constructor
  · intro htarget
    induction levels generalizing selections target with
    | zero =>
      refine selects_of_mem_expansionAt (fun _ _ h => ?_) selections htarget _ (List.Subset.refl _)
      exact absurd h List.not_mem_nil
    | succ levels ih =>
      refine selects_of_mem_expansionAt (fun inner target h => ?_) selections htarget _
        (List.Subset.refl _)
      exact ⟨levels, rfl, ih h⟩
  · intro hselects
    induction hselects with
    | field hmem =>
      rw [expand_eq, mem_expansionAt]
      exact ⟨_, hmem, by rw [expansion, List.mem_singleton]⟩
    | inline hmem _ ih =>
      rw [expand_eq] at ih ⊢
      exact mem_expansionAt.2 ⟨_, hmem, by rwa [expansion]⟩
    | spread hmem hfind _ ih =>
      rw [expand_eq, mem_expansionAt]
      refine ⟨_, hmem, ?_⟩
      rw [expansion, hfind]
      exact ih

end Selects

end Expand

namespace Selected

/-- The response key. -/
def key (field : Selected) : String := field.label.getD field.name

/-- The name of the field, where its key is an alias. -/
def fieldName (field : Selected) : Option String := field.label.map fun _ => field.name

/-- A field without arguments and selections. -/
def isBare (field : Selected) : Bool := field.arguments.isEmpty && field.selections.isEmpty

variable (fragments : List Fragment)

/-- The fields that a field selects. -/
def below (field : Selected) : List Selected :=
  match field.levels with
  | 0 => []
  | levels + 1 => expand fragments levels field.selections

/-- A field without arguments below which nothing is selected. -/
def isEnd (field : Selected) : Bool :=
  field.arguments.isEmpty && (field.below fragments).isEmpty

/-! ### Keys -/

/-- The fields under one key, below some. -/
def under (fields : List Selected) (key : String) : List Selected :=
  (fields.flatMap (below fragments)).filter (·.key == key)

/-- **The fields at the end of some keys**, below some. -/
def atKeys (fields : List Selected) : List String → List Selected
  | [] => fields
  | key :: rest => atKeys (under fragments fields key) rest

/-- The name of the field that a key is taken for, given the fields under it: the last
aliased one's, and the key itself if none is. -/
def shownName (key : String) (fields : List Selected) : String :=
  (fields.filterMap fieldName).getLast?.getD key

/-- **The names that keys are taken for**, one after the other. -/
def shownNames (fields : List Selected) : List String → List String
  | [] => []
  | key :: rest =>
    shownName key (under fragments fields key) :: shownNames (under fragments fields key) rest

/-- **The fields on the way** from one field down to another that it reaches: each is
selected by the one before. -/
inductive Reaches : Selected → List Selected → Prop where
  | here (field : Selected) : Reaches field []
  | step {field next : Selected} {way : List Selected} (hnext : next ∈ field.below fragments)
      (hway : Reaches next way) : Reaches field (next :: way)

/-- **The keys are distinct** in the expanded selection set of a field, and in those of all
fields below it. -/
inductive Distinct : Selected → Prop where
  | mk {field : Selected} (keys : ((field.below fragments).map key).Nodup)
      (below : ∀ next ∈ field.below fragments, Distinct next) : Distinct field

variable {fragments}

@[simp] theorem atKeys_nil (fields : List Selected) : atKeys fragments fields [] = fields := rfl

theorem atKeys_cons (fields : List Selected) (key : String) (rest : List String) :
    atKeys fragments fields (key :: rest) = atKeys fragments (under fragments fields key) rest :=
  rfl

@[simp] theorem atKeys_of_nil (keys : List String) : atKeys fragments [] keys = [] := by
  induction keys with
  | nil => rfl
  | cons key rest ih => exact ih

theorem shownNames_cons (fields : List Selected) (key : String) (rest : List String) :
    shownNames fragments fields (key :: rest) =
      shownName key (under fragments fields key) ::
        shownNames fragments (under fragments fields key) rest :=
  rfl

/-- A field alone under its key shows its own name. -/
theorem shownName_singleton (field : Selected) : shownName field.key [field] = field.name := by
  obtain ⟨levels, _ | label, name, arguments, selections⟩ := field <;> rfl

/-- At the end of some keys are the fields that are reached by ways with these keys. -/
theorem mem_atKeys_iff {fields : List Selected} {keys : List String} {target : Selected} :
    target ∈ atKeys fragments fields keys ↔
      ∃ field ∈ fields, ∃ way, Reaches fragments field way ∧ way.map key = keys ∧
        way.getLast?.getD field = target := by
  induction keys generalizing fields with
  | nil =>
    constructor
    · exact fun h => ⟨target, h, [], .here target, rfl, rfl⟩
    · rintro ⟨field, hfield, way, -, hkeys, rfl⟩
      rw [List.map_eq_nil_iff.1 hkeys]
      exact hfield
  | cons key rest ih =>
    rw [atKeys_cons, ih]
    constructor
    · rintro ⟨next, hnext, way, hway, hkeys, rfl⟩
      rw [under, List.mem_filter, List.mem_flatMap, beq_iff_eq] at hnext
      obtain ⟨⟨field, hfield, hbelow⟩, hkey⟩ := hnext
      refine ⟨field, hfield, next :: way, .step hbelow hway, ?_, ?_⟩
      · rw [List.map_cons, hkey, hkeys]
      · rw [List.getLast?_cons, Option.getD_some]
    · rintro ⟨field, hfield, way, hway, hkeys, rfl⟩
      cases hway with
      | here => cases hkeys
      | @step _ next way hnext hway =>
        rw [List.map_cons, List.cons.injEq] at hkeys
        refine ⟨next, ?_, way, hway, hkeys.2, ?_⟩
        · rw [under, List.mem_filter, List.mem_flatMap, beq_iff_eq]
          exact ⟨⟨field, hfield, hnext⟩, hkeys.1⟩
        · rw [List.getLast?_cons, Option.getD_some]

/-! ### Distinct keys -/

theorem Distinct.next {field next : Selected} (h : Distinct fragments field)
    (hnext : next ∈ field.below fragments) : Distinct fragments next := by
  cases h with
  | mk _ below => exact below next hnext

/-- Below a field with distinct keys each field is alone under its key. -/
theorem under_of_distinct {field next : Selected} (h : Distinct fragments field)
    (hnext : next ∈ field.below fragments) : under fragments [field] next.key = [next] := by
  cases h with
  | mk keys _ =>
    rw [under, List.flatMap_singleton]
    exact filter_eq_singleton_of_nodup keys hnext

variable {field : Selected} {way : List Selected}

/-- **Where the keys are distinct a field is alone at the keys of its way.** -/
theorem atKeys_of_reaches (h : Distinct fragments field) (hway : Reaches fragments field way) :
    atKeys fragments [field] (way.map key) = [way.getLast?.getD field] := by
  induction hway with
  | here field => rfl
  | step hnext hway ih =>
    rw [List.map_cons, atKeys_cons, under_of_distinct h hnext, ih (h.next hnext),
      List.getLast?_cons, Option.getD_some]

/-- **Where the keys are distinct they are taken for the fields on the way.** -/
theorem shownNames_of_reaches (h : Distinct fragments field) (hway : Reaches fragments field way) :
    shownNames fragments [field] (way.map key) = way.map name := by
  induction hway with
  | here field => rfl
  | step hnext hway ih =>
    rw [List.map_cons, shownNames_cons, under_of_distinct h hnext, ih (h.next hnext),
      shownName_singleton, List.map_cons]

end Selected

/-! ### Spreads and cycles -/

mutual

/-- The fragments that a selection spreads, however deep. -/
def Selection.spreads : Selection → List String
  | .field _ _ _ _ _ selections => spreadsIn selections
  | .inline _ _ selections => spreadsIn selections
  | .spread name _ => [name]

/-- The fragments that selections spread, however deep. -/
def spreadsIn : List Selection → List String
  | [] => []
  | selection :: rest => selection.spreads ++ spreadsIn rest

end

/-- One fragment spreads another. -/
def Mentions (fragments : List Fragment) (name other : String) : Prop :=
  ∃ selections, fragmentSelections? fragments name = some selections ∧
    other ∈ spreadsIn selections

/-- **No fragment leads back to itself.** -/
def Acyclic (fragments : List Fragment) : Prop :=
  ∀ name, ¬Relation.TransGen (Mentions fragments) name name

/-- **A rank that falls from each fragment to those it spreads** keeps out cycles. -/
theorem acyclic_of_rank {fragments : List Fragment} (rank : String → Nat)
    (h : ∀ fragment ∈ fragments, ∀ name ∈ spreadsIn fragment.selections,
      rank name < rank fragment.name) : Acyclic fragments := by
  have hmentions : ∀ {name other}, Mentions fragments name other → rank other < rank name := by
    rintro name other ⟨selections, hfind, hother⟩
    obtain ⟨fragment, hfragment, rfl⟩ := Option.map_eq_some_iff.1 hfind
    have hname := List.find?_some hfragment
    have hmem := List.mem_reverse.1 (List.mem_of_find?_eq_some hfragment)
    simp only [beq_iff_eq] at hname
    rw [← hname]
    exact h fragment hmem other hother
  have hleads : ∀ {name other}, Relation.TransGen (Mentions fragments) name other →
      rank other < rank name := by
    intro name other hleads
    induction hleads with
    | single hstep => exact hmentions hstep
    | tail _ hstep ih => exact Nat.lt_trans (hmentions hstep) ih
  exact fun name hcycle => Nat.lt_irrefl _ (hleads hcycle)

/-- None of some fragments leads to one that leads back to itself. -/
def Uncycled (fragments : List Fragment) (names : List String) : Prop :=
  ∀ name ∈ names, ∀ other, Relation.ReflTransGen (Mentions fragments) name other →
    ¬Relation.TransGen (Mentions fragments) other other

namespace Uncycled

variable {fragments : List Fragment} {names : List String}

theorem of_acyclic (h : Acyclic fragments) (names : List String) : Uncycled fragments names :=
  fun _ _ other _ => h other

theorem nil : Uncycled fragments [] := fun _ hname => absurd hname List.not_mem_nil

theorem subset (h : Uncycled fragments names) {fewer : List String} (hfewer : fewer ⊆ names) :
    Uncycled fragments fewer :=
  fun name hname => h name (hfewer hname)

/-- What an uncycled fragment spreads is uncycled. -/
theorem fragment (h : Uncycled fragments names) {name : String} (hname : name ∈ names)
    {selections : List Selection} (hfind : fragmentSelections? fragments name = some selections) :
    Uncycled fragments (spreadsIn selections) :=
  fun _ hother other hleads => h name hname other (.head ⟨selections, hfind, hother⟩ hleads)

end Uncycled

section Uncycled

variable {fragments : List Fragment}

theorem spreads_subset {selection : Selection} {selections : List Selection}
    (h : selection ∈ selections) : selection.spreads ⊆ spreadsIn selections := by
  induction selections with
  | nil => exact absurd h List.not_mem_nil
  | cons first rest ih =>
    rw [spreadsIn]
    rcases List.mem_cons.1 h with rfl | hrest
    · exact List.subset_append_left ..
    · exact List.Subset.trans (ih hrest) (List.subset_append_right ..)

/-- Nothing that uncycled selections select is on a cycle. -/
theorem Selects.uncycled {levels : Nat} {selections : List Selection} {target : Selected}
    (h : Selects fragments levels selections target)
    (hfree : Uncycled fragments (spreadsIn selections)) :
    Uncycled fragments (spreadsIn target.selections) := by
  induction h with
  | field hmem =>
    have hsubset := spreads_subset hmem
    rw [Selection.spreads] at hsubset
    exact hfree.subset hsubset
  | inline hmem _ ih =>
    have hsubset := spreads_subset hmem
    rw [Selection.spreads] at hsubset
    exact ih (hfree.subset hsubset)
  | spread hmem hfind _ ih =>
    have hsubset := spreads_subset hmem
    rw [Selection.spreads] at hsubset
    exact ih (hfree.fragment (hsubset (List.mem_singleton.2 rfl)) hfind)

/-- What an uncycled field selects is uncycled. -/
theorem Selected.uncycled_of_mem_below {field next : Selected}
    (hfree : Uncycled fragments (spreadsIn field.selections))
    (hnext : next ∈ field.below fragments) : Uncycled fragments (spreadsIn next.selections) := by
  rw [Selected.below] at hnext
  split at hnext
  · exact absurd hnext List.not_mem_nil
  · exact (mem_expand_iff.1 hnext).uncycled hfree

end Uncycled

end QueryAccess
