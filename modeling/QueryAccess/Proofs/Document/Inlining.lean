import Mathlib.Data.List.Perm.Subperm
import QueryAccess.Proofs.Document.Expansion

/-!
# Inlining fragments

A document can be written without its fragments: `QueryAccess.Document.inlined` puts an inline
fragment in the place of each spread, with the selections of the fragment that the spread
names – of several the last – in which the spreads have been replaced in the same way.
`QueryAccess.Document.flattened` goes on from there, and puts in the place of each inline
fragment its own selections.

**Fuel.** A fragment may spread a fragment that spreads another one, and so on. The
replacement goes as many fragments deep as the document has definitions. Where all spreads
are defined and no fragment leads back to itself, that is deep enough, since no fragment can
come twice on the way down: no spread is left (`QueryAccess.Document.spreads_inlined`).

**Levels.** `QueryAccess.Fits` says that the expansion of selections stays within a number of
levels. It is what the expansion does with its limit out of sight: going into the selections
of a field, or into the fragment of a spread, takes a level, and all of them have to be there.
-/

namespace QueryAccess

/-! ### Putting bodies in the place of spreads -/

section PutIn

variable (bodies : String → Option (List Selection))

mutual

/-- A selection with its spreads replaced by inline fragments, where there are bodies for
them. -/
def Selection.putIn : Selection → Selection
  | .field comment label name arguments directives selections =>
    .field comment label name arguments directives (putInAll selections)
  | .inline on directives selections => .inline on directives (putInAll selections)
  | .spread name directives =>
    match bodies name with
    | none => .spread name directives
    | some body => .inline none directives body

/-- Selections with their spreads replaced by inline fragments. -/
def putInAll : List Selection → List Selection
  | [] => []
  | selection :: rest => selection.putIn :: putInAll rest

end

end PutIn

/-- The selections of a fragment with the spreads in them replaced, so many fragments deep. -/
def inlinedBody (fragments : List Fragment) : Nat → String → Option (List Selection)
  | 0, _ => none
  | fuel + 1, name =>
    (fragmentSelections? fragments name).map (putInAll (inlinedBody fragments fuel))

/-- Selections with their spreads replaced, so many fragments deep. -/
def inlinedIn (fragments : List Fragment) (fuel : Nat) (selections : List Selection) :
    List Selection :=
  putInAll (inlinedBody fragments fuel) selections

/-! ### Taking inline fragments apart -/

mutual

/-- The selections that a selection comes to without inline fragments. -/
def Selection.flat : Selection → List Selection
  | .field comment label name arguments directives selections =>
    [.field comment label name arguments directives (flatAll selections)]
  | .inline _ _ selections => flatAll selections
  | .spread name directives => [.spread name directives]

/-- The selections that selections come to without inline fragments. -/
def flatAll : List Selection → List Selection
  | [] => []
  | selection :: rest => selection.flat ++ flatAll rest

end

/-! ### Documents -/

namespace Document

/-- The document with something done to the selections of all its definitions. -/
def mapSelections (f : List Selection → List Selection) (document : Document) : Document :=
  ⟨document.definitions.map fun
    | .operation operation => .operation { operation with selections := f operation.selections }
    | .fragment fragment => .fragment { fragment with selections := f fragment.selections }⟩

/-- **The document with an inline fragment in the place of each spread.** -/
def inlined (document : Document) : Document :=
  document.mapSelections (inlinedIn document.fragments document.fragments.length)

/-- **The document with its own selections in the place of each inline fragment.** -/
def flattened (document : Document) : Document := document.mapSelections flatAll

/-- The fragments that a document spreads, anywhere in its definitions. -/
def spreads (document : Document) : List String :=
  document.operations.flatMap (fun operation => spreadsIn operation.selections) ++
    document.fragments.flatMap fun fragment => spreadsIn fragment.selections

variable (f : List Selection → List Selection) (document : Document)

theorem operations_mapSelections :
    (document.mapSelections f).operations =
      document.operations.map fun operation =>
        { operation with selections := f operation.selections } := by
  rw [operations, mapSelections, List.filterMap_map, operations, List.map_filterMap]
  refine List.filterMap_congr fun definition _ => ?_
  cases definition <;> rfl

theorem fragments_mapSelections :
    (document.mapSelections f).fragments =
      document.fragments.map fun fragment =>
        { fragment with selections := f fragment.selections } := by
  rw [fragments, mapSelections, List.filterMap_map, fragments, List.map_filterMap]
  refine List.filterMap_congr fun definition _ => ?_
  cases definition <;> rfl

end Document

/-- The selections of a fragment, after something was done to those of all fragments. -/
theorem fragmentSelections?_map (f : List Selection → List Selection) (fragments : List Fragment)
    (name : String) :
    fragmentSelections?
        (fragments.map fun fragment => { fragment with selections := f fragment.selections }) name =
      (fragmentSelections? fragments name).map f := by
  rw [fragmentSelections?, fragmentSelections?, ← List.map_reverse, List.find?_map, Option.map_map,
    Option.map_map]
  rfl

/-! ### No spread is left -/

section Spreads

variable {fragments : List Fragment}

mutual

/-- A selection whose spreads all have bodies without spreads is left without any. -/
theorem spreads_putIn {bodies : String → Option (List Selection)} :
    ∀ selection : Selection,
      (∀ name ∈ selection.spreads, ∃ body, bodies name = some body ∧ spreadsIn body = []) →
      (selection.putIn bodies).spreads = []
  | .field _ _ _ _ _ selections, h => by
    rw [Selection.spreads] at h
    rw [Selection.putIn, Selection.spreads]
    exact spreadsIn_putInAll selections h
  | .inline _ _ selections, h => by
    rw [Selection.spreads] at h
    rw [Selection.putIn, Selection.spreads]
    exact spreadsIn_putInAll selections h
  | .spread name _, h => by
    obtain ⟨body, hbody, hnone⟩ := h name (by rw [Selection.spreads]; exact .head _)
    rw [Selection.putIn, hbody, Selection.spreads]
    exact hnone

theorem spreadsIn_putInAll {bodies : String → Option (List Selection)} :
    ∀ selections : List Selection,
      (∀ name ∈ spreadsIn selections, ∃ body, bodies name = some body ∧ spreadsIn body = []) →
      spreadsIn (putInAll bodies selections) = []
  | [], _ => rfl
  | selection :: rest, h => by
    rw [spreadsIn, List.forall_mem_append] at h
    rw [putInAll, spreadsIn, spreads_putIn selection h.1, spreadsIn_putInAll rest h.2]
    rfl

end

/-- What is found under a name has that name, and is one of the fragments. -/
theorem mem_names_of_fragmentSelections? {name : String} {selections : List Selection}
    (h : fragmentSelections? fragments name = some selections) :
    name ∈ fragments.map Fragment.name := by
  obtain ⟨fragment, hfind, -⟩ := Option.map_eq_some_iff.1 h
  have hname := List.find?_some hfind
  rw [beq_iff_eq] at hname
  exact List.mem_map.2 ⟨fragment, List.mem_reverse.1 (List.mem_of_find?_eq_some hfind), hname⟩

theorem selections_of_fragmentSelections? {name : String} {selections : List Selection}
    (h : fragmentSelections? fragments name = some selections) :
    ∃ fragment ∈ fragments, fragment.selections = selections := by
  obtain ⟨fragment, hfind, hselections⟩ := Option.map_eq_some_iff.1 h
  exact ⟨fragment, List.mem_reverse.1 (List.mem_of_find?_eq_some hfind), hselections⟩

/-- **A way down to a fragment**: the other fragments on it all lead there. -/
structure WayTo (fragments : List Fragment) (way : List String) (name : String) : Prop where
  nodup : way.Nodup
  known : way ⊆ fragments.map Fragment.name
  leads : ∀ first ∈ way, Relation.TransGen (Mentions fragments) first name

namespace WayTo

variable {way : List String} {name other : String}

theorem nil (fragments : List Fragment) (name : String) : WayTo fragments [] name :=
  ⟨List.nodup_nil, List.nil_subset _, fun _ hfirst => absurd hfirst List.not_mem_nil⟩

/-- The way goes on where the fragment spreads another one. -/
theorem step (hacyclic : Acyclic fragments) (h : WayTo fragments way name)
    {selections : List Selection} (hfind : fragmentSelections? fragments name = some selections)
    (hother : other ∈ spreadsIn selections) : WayTo fragments (name :: way) other := by
  have hmentions : Mentions fragments name other := ⟨selections, hfind, hother⟩
  refine ⟨List.nodup_cons.2 ⟨fun hmem => hacyclic name (h.leads name hmem), h.nodup⟩, ?_, ?_⟩
  · exact List.cons_subset.2 ⟨mem_names_of_fragmentSelections? hfind, h.known⟩
  · exact List.forall_mem_cons.2
      ⟨.single hmentions, fun first hfirst => .tail (h.leads first hfirst) hmentions⟩

/-- A way down to a fragment is shorter than the list of them all. -/
theorem length_lt (hacyclic : Acyclic fragments) (h : WayTo fragments way name)
    (hname : name ∈ fragments.map Fragment.name) : way.length < fragments.length := by
  have hnodup : (name :: way).Nodup :=
    List.nodup_cons.2 ⟨fun hmem => hacyclic name (h.leads name hmem), h.nodup⟩
  have hle := (List.Nodup.subperm hnodup (List.cons_subset.2 ⟨hname, h.known⟩)).length_le
  rwa [List.length_cons, List.length_map] at hle

end WayTo

/-- **Fuel for the rest of the fragments is enough.** On the way down to a fragment the others
are all different, so with as much fuel as there are further fragments it does not run out. -/
theorem exists_inlinedBody (hacyclic : Acyclic fragments)
    (hdefined : ∀ fragment ∈ fragments, ∀ name ∈ spreadsIn fragment.selections,
      (fragmentSelections? fragments name).isSome = true) {fuel : Nat} {way : List String}
    {name : String} (hname : (fragmentSelections? fragments name).isSome = true)
    (hway : WayTo fragments way name) (hfuel : fragments.length ≤ way.length + fuel) :
    ∃ body, inlinedBody fragments fuel name = some body ∧ spreadsIn body = [] := by
  induction fuel generalizing way name with
  | zero =>
    obtain ⟨selections, hfind⟩ := Option.isSome_iff_exists.1 hname
    have hlt := hway.length_lt hacyclic (mem_names_of_fragmentSelections? hfind)
    omega
  | succ fuel ih =>
    obtain ⟨selections, hfind⟩ := Option.isSome_iff_exists.1 hname
    refine ⟨_, by rw [inlinedBody, hfind, Option.map_some], ?_⟩
    refine spreadsIn_putInAll selections fun other hother => ?_
    obtain ⟨fragment, hfragment, hselections⟩ := selections_of_fragmentSelections? hfind
    refine ih (hdefined fragment hfragment other (hselections ▸ hother))
      (hway.step hacyclic hfind hother) ?_
    rw [List.length_cons]
    omega

/-- Selections whose spreads are defined are left without any. -/
theorem spreadsIn_inlinedIn (hacyclic : Acyclic fragments)
    (hdefined : ∀ fragment ∈ fragments, ∀ name ∈ spreadsIn fragment.selections,
      (fragmentSelections? fragments name).isSome = true)
    {selections : List Selection}
    (h : ∀ name ∈ spreadsIn selections, (fragmentSelections? fragments name).isSome = true) :
    spreadsIn (inlinedIn fragments fragments.length selections) = [] :=
  spreadsIn_putInAll selections fun name hname =>
    exists_inlinedBody hacyclic hdefined (h name hname) (.nil fragments name)
      (Nat.le_add_left ..)

end Spreads

namespace Document

variable {document : Document}

/-- **No spread is left** in a document that is inlined, if all its spreads are defined and no
fragment leads back to itself. -/
theorem spreads_inlined (hacyclic : Acyclic document.fragments)
    (hdefined : ∀ name ∈ document.spreads,
      (fragmentSelections? document.fragments name).isSome = true) :
    document.inlined.spreads = [] := by
  rw [spreads, List.forall_mem_append] at hdefined
  have hfragments : ∀ fragment ∈ document.fragments, ∀ name ∈ spreadsIn fragment.selections,
      (fragmentSelections? document.fragments name).isSome = true := fun fragment hfragment name
      hname => hdefined.2 name (List.mem_flatMap.2 ⟨fragment, hfragment, hname⟩)
  rw [spreads, inlined, operations_mapSelections, fragments_mapSelections,
    List.append_eq_nil_iff, List.flatMap_eq_nil_iff, List.flatMap_eq_nil_iff, List.forall_mem_map,
    List.forall_mem_map]
  refine ⟨fun operation hoperation => ?_, fun fragment hfragment => ?_⟩
  · exact spreadsIn_inlinedIn hacyclic hfragments fun name hname =>
      hdefined.1 name (List.mem_flatMap.2 ⟨operation, hoperation, hname⟩)
  · exact spreadsIn_inlinedIn hacyclic hfragments (hfragments fragment hfragment)

end Document

/-! ### Levels -/

/-- **The expansion of selections stays within a number of levels.** The selections of a field
and the fragment of a spread take one, unless there are none to go into; an inline fragment
takes none. -/
inductive Fits (fragments : List Fragment) : Nat → List Selection → Prop where
  | nil {levels : Nat} : Fits fragments levels []
  | bare {levels : Nat} {comment label : Option String} {name : String}
      {arguments : List Argument} {directives : List Directive} {rest : List Selection}
      (hrest : Fits fragments levels rest) :
      Fits fragments levels (.field comment label name arguments directives [] :: rest)
  | field {levels : Nat} {comment label : Option String} {name : String}
      {arguments : List Argument} {directives : List Directive} {inner rest : List Selection}
      (hinner : Fits fragments levels inner) (hrest : Fits fragments (levels + 1) rest) :
      Fits fragments (levels + 1) (.field comment label name arguments directives inner :: rest)
  | inline {levels : Nat} {on : Option String} {directives : List Directive}
      {inner rest : List Selection} (hinner : Fits fragments levels inner)
      (hrest : Fits fragments levels rest) :
      Fits fragments levels (.inline on directives inner :: rest)
  | spread {levels : Nat} {name : String} {directives : List Directive}
      {inner rest : List Selection} (hfind : fragmentSelections? fragments name = some inner)
      (hinner : Fits fragments levels inner) (hrest : Fits fragments (levels + 1) rest) :
      Fits fragments (levels + 1) (.spread name directives :: rest)

end QueryAccess
