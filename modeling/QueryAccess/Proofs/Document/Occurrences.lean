import QueryAccess.Proofs.Document.Expansion
import QueryAccess.Tree.OfDocument

/-!
# Where a document says something of a place

One place of a rule tree may come about several times in the document that the tree is made
of: a field may be selected twice under one key, a fragment may be spread twice, and two
operations of a kind share their root. Each of these times is an *occurrence*
(`QueryAccess.Occurrence`), and on the way down to it from its operation some *notes* are
met – before the operation, the fields, an argument and the object fields.

`QueryAccess.Occurrence.ofOperation` goes through an operation in the order of the text and
lists them all. It puts the selections of a fragment in the place of each spread, and the
default of a variable in the place where the variable is used, as far as the tree does: so
far as there are levels, and never a fragment inside itself. But it merges nothing, and it
knows nothing of policies. `QueryAccess.Document.lastOccurrence?` is the last time that a
document says anything of a place.

The elements of a list and plain or malformed comments have no notes, so they add nothing
to the way.

**Only some notes.** The notes on the way to an occurrence stand in the operation that it is
in or in the fragments that this leads to (`QueryAccess.SpreadOnly`). So what holds of an
occurrence as soon as these notes are among some is shown by one induction over the text, for
all such properties together (`QueryAccess.Occurrence.Brought.ofOperation`).
-/

namespace QueryAccess

/-- The note before a thing, if the comment there is a note that can be read. -/
def noteBefore? (comment : Option String) : Option RuleNote :=
  comment.bind fun comment =>
    match RuleNote.read comment with
    | .note note => some note
    | .plain | .malformed => none

/-- **An occurrence of a place** in a document: the segments that lead to it, the notes on
the way from above with its own note last, and its own note. -/
structure Occurrence where
  segments : List Segment
  notes : List RuleNote
  own : Option RuleNote

namespace Occurrence

/-- A thing with its own note, seen from itself. -/
def self (own : Option RuleNote) : Occurrence := ⟨[], own.toList, own⟩

/-- An occurrence seen from its parent, below which it stands at a segment. -/
def under (segment : Segment) (occurrence : Occurrence) : Occurrence :=
  { occurrence with segments := segment :: occurrence.segments }

/-- An occurrence on whose way a further note comes first. -/
def after (note : Option RuleNote) (occurrence : Occurrence) : Occurrence :=
  { occurrence with notes := note.toList ++ occurrence.notes }

/-- A thing and then what is below it: the note before the thing is on the way to all of
them. -/
def headed (comment : Option String) (below : List Occurrence) : List Occurrence :=
  self (noteBefore? comment) :: below.map (after (noteBefore? comment))

/-! ### Values -/

section Values

-- what is below a variable
variable (ofVariable : String → List Occurrence)

mutual

/-- What is below a value. -/
def ofValue : Value → List Occurrence
  | .variable name => ofVariable name
  | .list items => ofItems 0 items
  | .object fields => ofArguments fields
  | _ => []

/-- The elements of a list from a position on, with what is below them. -/
def ofItems (i : Nat) : List Value → List Occurrence
  | [] => []
  | value :: rest => (headed none (ofValue value)).map (under (.index i)) ++ ofItems (i + 1) rest

/-- Named values, with what is below them. -/
def ofArguments : List Argument → List Occurrence
  | [] => []
  | .mk comment name value :: rest =>
    (headed comment (ofValue value)).map (under (.named .input name)) ++ ofArguments rest

end

end Values

/-- What is below a variable: its default, in which other variables stand for nothing. -/
def ofDefault (declared : List VariableDefinition) (name : String) : List Occurrence :=
  match Tree.default? declared name with
  | some value => ofValue (fun _ => []) value
  | none => []

/-! ### Selections -/

/-- What selections come to, given the fragments that they are in. -/
abbrev Walk : Type := List String → List Selection → List Occurrence

/-- What selections come to if no level is left for them. -/
def nowhere : Walk := fun _ _ => []

section Selections

variable (declared : List VariableDefinition) (fragments : List Fragment)

mutual

/-- What one selection comes to. `deeper` goes through selections a level further down, if
there is such a level; `active` names the fragments that it is in. -/
def ofSelection (deeper : Option Walk) (active : List String) : Selection → List Occurrence
  | .field comment label name arguments _ selections =>
    (headed comment (ofArguments (ofDefault declared) arguments ++
      (deeper.getD nowhere) active selections)).map (under (.named .output (label.getD name)))
  | .inline _ _ selections => ofSelectionsAt deeper active selections
  | .spread name _ =>
    match fragmentSelections? fragments name with
    | none => []
    | some selections =>
      if name ∈ active then [] else (deeper.getD nowhere) (name :: active) selections

/-- What selections come to, one after the other. -/
def ofSelectionsAt (deeper : Option Walk) (active : List String) : List Selection → List Occurrence
  | [] => []
  | selection :: rest => ofSelection deeper active selection ++ ofSelectionsAt deeper active rest

end

/-- What selections come to with so many levels left. -/
def ofSelections : Nat → Walk
  | 0 => ofSelectionsAt declared fragments none
  | levels + 1 => ofSelectionsAt declared fragments (some (ofSelections levels))

end Selections

/-! ### Documents -/

/-- **All occurrences in an operation**, in the order of the text. -/
def ofOperation (fragments : List Fragment) (operation : Operation) : List Occurrence :=
  headed operation.comment (ofSelections operation.declared fragments maxDepth []
    operation.selections)

end Occurrence

namespace Document

/-- The occurrences of a place, in the order of the text. -/
def occurrencesAt (document : Document) (path : TreePath) : List Occurrence :=
  (document.operations.filter (·.kind.keyword == path.root)).flatMap fun operation =>
    (Occurrence.ofOperation document.fragments operation).filter (·.segments == path.segments)

/-- **The last occurrence of a place.** -/
def lastOccurrence? (document : Document) (path : TreePath) : Option Occurrence :=
  (document.occurrencesAt path).getLast?

end Document

/-! ### The notes of a document -/

mutual

/-- The notes inside a value. -/
def Value.notes : Value → List RuleNote
  | .list items => notesOfItems items
  | .object fields => notesOfArguments fields
  | _ => []

/-- The notes inside the elements of a list. -/
def notesOfItems : List Value → List RuleNote
  | [] => []
  | value :: rest => value.notes ++ notesOfItems rest

/-- The notes before and inside named values. -/
def notesOfArguments : List Argument → List RuleNote
  | [] => []
  | .mk comment _ value :: rest =>
    (noteBefore? comment).toList ++ value.notes ++ notesOfArguments rest

end

mutual

/-- The notes before and inside a selection. -/
def Selection.notes : Selection → List RuleNote
  | .field comment _ _ arguments _ selections =>
    (noteBefore? comment).toList ++ notesOfArguments arguments ++ notesOfSelections selections
  | .inline _ _ selections => notesOfSelections selections
  | .spread _ _ => []

/-- The notes before and inside selections. -/
def notesOfSelections : List Selection → List RuleNote
  | [] => []
  | selection :: rest => selection.notes ++ notesOfSelections rest

end

/-- The notes before and inside an operation, those inside its defaults included. -/
def Operation.notes (operation : Operation) : List RuleNote :=
  (noteBefore? operation.comment).toList ++
    (operation.declared.filterMap (·.default)).flatMap Value.notes ++
    notesOfSelections operation.selections

/-- **The notes of a document**, of all its operations and fragments. Directives change
nothing, so what stands before their arguments is not among them. -/
def Document.notes (document : Document) : List RuleNote :=
  document.operations.flatMap Operation.notes ++
    document.fragments.flatMap fun fragment => notesOfSelections fragment.selections

/-- The fragments that some names lead to hold only some notes. -/
def SpreadOnly (fragments : List Fragment) (notes : List RuleNote) (names : List String) : Prop :=
  ∀ name ∈ names, ∀ other, Relation.ReflTransGen (Mentions fragments) name other →
    ∀ selections, fragmentSelections? fragments other = some selections →
      notesOfSelections selections ⊆ notes

namespace SpreadOnly

variable {fragments : List Fragment} {notes : List RuleNote} {names : List String}

theorem of_fragments
    (h : ∀ fragment ∈ fragments, notesOfSelections fragment.selections ⊆ notes) :
    SpreadOnly fragments notes names := by
  intro _ _ other _ selections hfind
  obtain ⟨fragment, hfragment, rfl⟩ := Option.map_eq_some_iff.1 hfind
  exact h fragment (List.mem_reverse.1 (List.mem_of_find?_eq_some hfragment))

theorem nil : SpreadOnly fragments notes [] := fun _ hname => absurd hname List.not_mem_nil

theorem subset (h : SpreadOnly fragments notes names) {fewer : List String}
    (hfewer : fewer ⊆ names) : SpreadOnly fragments notes fewer :=
  fun name hname => h name (hfewer hname)

/-- What such a fragment spreads is of the same kind. -/
theorem fragment (h : SpreadOnly fragments notes names) {name : String} (hname : name ∈ names)
    {selections : List Selection} (hfind : fragmentSelections? fragments name = some selections) :
    SpreadOnly fragments notes (spreadsIn selections) :=
  fun _ hother other hleads => h name hname other (.head ⟨selections, hfind, hother⟩ hleads)

end SpreadOnly

namespace Occurrence

/-! ### What some notes bring about -/

/-- **A property that some notes bring about**: a thing without a note or with one of them
has it, seen from itself, and so it has seen from further up, if one of them or none comes
before it there. -/
structure Brought (notes : List RuleNote) (holds : Occurrence → Prop) : Prop where
  self {note : Option RuleNote} (h : note.toList ⊆ notes) : holds (.self note)
  after {note : Option RuleNote} {occurrence : Occurrence} (h : note.toList ⊆ notes)
    (hbelow : holds occurrence) : holds (.after note occurrence)
  under {occurrence : Occurrence} (segment : Segment) (hbelow : holds occurrence) :
    holds (.under segment occurrence)

namespace Brought

variable {notes : List RuleNote} {holds : Occurrence → Prop}

theorem headed (H : Brought notes holds) {comment : Option String} {below : List Occurrence}
    (hcomment : (noteBefore? comment).toList ⊆ notes)
    (h : ∀ occurrence ∈ below, holds occurrence) :
    ∀ occurrence ∈ Occurrence.headed comment below, holds occurrence :=
  List.forall_mem_cons.2 ⟨H.self hcomment,
    List.forall_mem_map.2 fun occurrence hmem => H.after hcomment (h occurrence hmem)⟩

theorem map_under (H : Brought notes holds) {occurrences : List Occurrence} (segment : Segment)
    (h : ∀ occurrence ∈ occurrences, holds occurrence) :
    ∀ occurrence ∈ occurrences.map (Occurrence.under segment), holds occurrence :=
  List.forall_mem_map.2 fun occurrence hmem => H.under segment (h occurrence hmem)

section Values

variable {ofVariable : String → List Occurrence}

mutual

theorem ofValue (H : Brought notes holds)
    (hvar : ∀ name, ∀ occurrence ∈ ofVariable name, holds occurrence) :
    ∀ value : Value, value.notes ⊆ notes →
      ∀ occurrence ∈ Occurrence.ofValue ofVariable value, holds occurrence
  | .variable name, _ => hvar name
  | .list items, h => by
    rw [Value.notes] at h
    exact ofItems H hvar 0 items h
  | .object fields, h => by
    rw [Value.notes] at h
    exact ofArguments H hvar fields h
  | .int _, _ | .float _, _ | .string _, _ | .boolean _, _ | .null, _ | .enum _, _ =>
    List.forall_mem_nil _

theorem ofItems (H : Brought notes holds)
    (hvar : ∀ name, ∀ occurrence ∈ ofVariable name, holds occurrence) (i : Nat) :
    ∀ items : List Value, notesOfItems items ⊆ notes →
      ∀ occurrence ∈ Occurrence.ofItems ofVariable i items, holds occurrence
  | [], _ => List.forall_mem_nil _
  | value :: rest, h => by
    rw [notesOfItems, List.append_subset] at h
    rw [Occurrence.ofItems]
    exact List.forall_mem_append.2
      ⟨H.map_under _ (H.headed (List.nil_subset _) (ofValue H hvar value h.1)),
        ofItems H hvar (i + 1) rest h.2⟩

theorem ofArguments (H : Brought notes holds)
    (hvar : ∀ name, ∀ occurrence ∈ ofVariable name, holds occurrence) :
    ∀ fields : List Argument, notesOfArguments fields ⊆ notes →
      ∀ occurrence ∈ Occurrence.ofArguments ofVariable fields, holds occurrence
  | [], _ => List.forall_mem_nil _
  | .mk comment name value :: rest, h => by
    rw [notesOfArguments, List.append_subset, List.append_subset] at h
    rw [Occurrence.ofArguments]
    exact List.forall_mem_append.2
      ⟨H.map_under _ (H.headed h.1.1 (ofValue H hvar value h.1.2)), ofArguments H hvar rest h.2⟩

end

theorem ofDefault (H : Brought notes holds) {declared : List VariableDefinition}
    (h : (declared.filterMap (·.default)).flatMap Value.notes ⊆ notes) (name : String) :
    ∀ occurrence ∈ Occurrence.ofDefault declared name, holds occurrence := by
  rw [Occurrence.ofDefault]
  split
  · next value hvalue =>
    refine H.ofValue (fun _ => List.forall_mem_nil _) value fun note hnote => h ?_
    obtain ⟨definition, hdefinition, hdefault⟩ := List.exists_of_findSome?_eq_some hvalue
    rw [Option.ite_none_right_eq_some] at hdefault
    exact List.mem_flatMap.2 ⟨value, List.mem_filterMap.2
      ⟨definition, List.mem_reverse.1 hdefinition, hdefault.2⟩, hnote⟩
  · exact List.forall_mem_nil _

end Values

section Selections

variable {declared : List VariableDefinition} {fragments : List Fragment} {deeper : Option Walk}

mutual

theorem ofSelection (H : Brought notes holds)
    (hdefault : ∀ name, ∀ occurrence ∈ Occurrence.ofDefault declared name, holds occurrence)
    (hdeeper : ∀ active inner, notesOfSelections inner ⊆ notes →
      SpreadOnly fragments notes (spreadsIn inner) →
      ∀ occurrence ∈ (deeper.getD nowhere) active inner, holds occurrence)
    (active : List String) :
    ∀ selection : Selection, selection.notes ⊆ notes →
      SpreadOnly fragments notes selection.spreads →
      ∀ occurrence ∈ Occurrence.ofSelection declared fragments deeper active selection,
        holds occurrence
  | .field comment label name arguments _ selections, h, hspreads => by
    rw [Selection.notes, List.append_subset, List.append_subset] at h
    rw [Selection.spreads] at hspreads
    rw [Occurrence.ofSelection]
    exact H.map_under _ (H.headed h.1.1 (List.forall_mem_append.2
      ⟨H.ofArguments hdefault arguments h.1.2, hdeeper active selections h.2 hspreads⟩))
  | .inline _ _ selections, h, hspreads => by
    rw [Selection.notes] at h
    rw [Selection.spreads] at hspreads
    rw [Occurrence.ofSelection]
    exact ofSelectionsAt H hdefault hdeeper active selections h hspreads
  | .spread name _, _, hspreads => by
    rw [Selection.spreads] at hspreads
    rw [Occurrence.ofSelection]
    split
    · exact List.forall_mem_nil _
    · next selections hfind =>
      split
      · exact List.forall_mem_nil _
      · have hname : name ∈ [name] := List.mem_singleton.2 rfl
        exact hdeeper _ selections (hspreads name hname name .refl selections hfind)
          (hspreads.fragment hname hfind)

theorem ofSelectionsAt (H : Brought notes holds)
    (hdefault : ∀ name, ∀ occurrence ∈ Occurrence.ofDefault declared name, holds occurrence)
    (hdeeper : ∀ active inner, notesOfSelections inner ⊆ notes →
      SpreadOnly fragments notes (spreadsIn inner) →
      ∀ occurrence ∈ (deeper.getD nowhere) active inner, holds occurrence)
    (active : List String) :
    ∀ selections : List Selection, notesOfSelections selections ⊆ notes →
      SpreadOnly fragments notes (spreadsIn selections) →
      ∀ occurrence ∈ Occurrence.ofSelectionsAt declared fragments deeper active selections,
        holds occurrence
  | [], _, _ => List.forall_mem_nil _
  | selection :: rest, h, hspreads => by
    rw [notesOfSelections, List.append_subset] at h
    rw [spreadsIn] at hspreads
    rw [Occurrence.ofSelectionsAt]
    exact List.forall_mem_append.2
      ⟨ofSelection H hdefault hdeeper active selection h.1
          (hspreads.subset (List.subset_append_left ..)),
        ofSelectionsAt H hdefault hdeeper active rest h.2
          (hspreads.subset (List.subset_append_right ..))⟩

end

theorem ofSelections (H : Brought notes holds)
    (hdefault : ∀ name, ∀ occurrence ∈ Occurrence.ofDefault declared name, holds occurrence)
    (levels : Nat) (active : List String) (selections : List Selection)
    (h : notesOfSelections selections ⊆ notes)
    (hspreads : SpreadOnly fragments notes (spreadsIn selections)) :
    ∀ occurrence ∈ Occurrence.ofSelections declared fragments levels active selections,
      holds occurrence := by
  induction levels generalizing active selections with
  | zero =>
    have hdeeper : ∀ active inner, notesOfSelections inner ⊆ notes →
        SpreadOnly fragments notes (spreadsIn inner) →
        ∀ occurrence ∈ (none : Option Walk).getD nowhere active inner, holds occurrence :=
      fun _ _ _ _ => List.forall_mem_nil _
    exact H.ofSelectionsAt hdefault hdeeper active selections h hspreads
  | succ levels ih =>
    have hdeeper : ∀ active inner, notesOfSelections inner ⊆ notes →
        SpreadOnly fragments notes (spreadsIn inner) →
        ∀ occurrence ∈ (some (Occurrence.ofSelections declared fragments levels)).getD nowhere
          active inner, holds occurrence := ih
    exact H.ofSelectionsAt hdefault hdeeper active selections h hspreads

/-- **All occurrences in an operation have the property** if the operation and the fragments
that it leads to hold no other notes. -/
theorem ofOperation (H : Brought notes holds) {operation : Operation}
    (h : operation.notes ⊆ notes)
    (hspreads : SpreadOnly fragments notes (spreadsIn operation.selections)) :
    ∀ occurrence ∈ Occurrence.ofOperation fragments operation, holds occurrence := by
  rw [Operation.notes, List.append_subset, List.append_subset] at h
  exact H.headed h.1.1 (H.ofSelections (H.ofDefault h.1.2) maxDepth [] operation.selections h.2
    hspreads)

end Selections

end Brought

/-- Occurrences on whose ways only some notes are met. -/
def Meet (occurrences : List Occurrence) (notes : List RuleNote) : Prop :=
  ∀ occurrence ∈ occurrences, occurrence.notes ⊆ notes

theorem brought_notes (notes : List RuleNote) :
    Brought notes fun occurrence => occurrence.notes ⊆ notes where
  self h := h
  after h hbelow := List.append_subset.2 ⟨h, hbelow⟩
  under _ hbelow := hbelow

theorem meet_ofOperation {fragments : List Fragment} {operation : Operation}
    {notes : List RuleNote} (h : operation.notes ⊆ notes)
    (hspreads : SpreadOnly fragments notes (spreadsIn operation.selections)) :
    Meet (ofOperation fragments operation) notes :=
  (brought_notes notes).ofOperation h hspreads

end Occurrence

/-- **The notes on the way to a place are notes of the document.** -/
theorem Document.notes_subset {document : Document} {path : TreePath} {occurrence : Occurrence}
    (h : occurrence ∈ document.occurrencesAt path) : occurrence.notes ⊆ document.notes := by
  obtain ⟨operation, hoperation, hmem⟩ := List.mem_flatMap.1 h
  have hnotes : operation.notes ⊆ document.notes := fun note hnote =>
    List.mem_append_left _
      (List.mem_flatMap.2 ⟨operation, (List.mem_filter.1 hoperation).1, hnote⟩)
  have hfragments : ∀ fragment ∈ document.fragments,
      notesOfSelections fragment.selections ⊆ document.notes := fun fragment hfragment note hnote =>
    List.mem_append_right _ (List.mem_flatMap.2 ⟨fragment, hfragment, hnote⟩)
  exact Occurrence.meet_ofOperation hnotes (.of_fragments hfragments) occurrence
    (List.mem_filter.1 hmem).1

end QueryAccess
