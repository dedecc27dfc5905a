import QueryAccess.Tree.Path

/-!
# The text of a path

Reading a path text is a machine with a memory: a side that stays in force until another one is
announced, and the knowledge that a marker has just been read, after which digits are a name.
`QueryAccess.Segment.Spelling` says without the machine in which parts segments may be spelt: an
index by its digits, with zeros before them or not; a name with its marker, before which there
may be other markers for nothing; and where its side is in force already and it is not all
digits, a name alone. What is read is exactly what is spelt
(`QueryAccess.Segment.ofParts?_eq_some_iff`, `QueryAccess.TreePath.ofText?_eq_some_iff`).

**Written and read.** Writing spells each name with its marker, so what is written is read back
if its names are *legible* (`QueryAccess.LegibleName`) – and as nothing else can be spelt, only
then (`QueryAccess.TreePath.text_format`).

**Cut anywhere.** All that the machine remembers between two segments is the side in force, which
is the one of the last named segment (`QueryAccess.Segment.sideAfter`). So a text that is read
may be continued by a relative one (`QueryAccess.TreePath.ofText?_continued`).
-/

namespace QueryAccess

/-- **What cutting a text gives**: parts that make up the text with the separators between them,
and have no separator in them. -/
theorem Text.splitOn_eq_cons_iff {separator : Char} {text first : List Char}
    {rest : List (List Char)} :
    splitOn separator text = first :: rest ↔
      text = first ++ rest.flatMap (separator :: ·) ∧ separator ∉ first ∧
        ∀ part ∈ rest, separator ∉ part := by
  induction text generalizing first rest with
  | nil =>
    rw [splitOn, List.cons.injEq]
    constructor
    · rintro ⟨rfl, rfl⟩
      simp
    · rintro ⟨htext, -, -⟩
      obtain ⟨rfl, hrest⟩ := List.append_eq_nil_iff.1 htext.symm
      cases rest with
      | nil => exact ⟨rfl, rfl⟩
      | cons part parts => cases hrest
  | cons c text ih =>
    obtain ⟨part, parts, hparts⟩ := List.exists_cons_of_ne_nil (splitOn_ne_nil separator text)
    obtain ⟨htext, hpart, hall⟩ := ih.1 hparts
    rw [splitOn, hparts]
    by_cases hc : c = separator
    · subst hc
      rw [if_pos rfl, ← hparts, List.cons.injEq]
      constructor
      · rintro ⟨rfl, rfl⟩
        rw [hparts]
        refine ⟨by rw [List.nil_append, List.flatMap_cons, List.cons_append, ← htext], by simp,
          List.forall_mem_cons.2 ⟨hpart, hall⟩⟩
      · rintro ⟨hjoined, hfirst, hrest⟩
        cases first with
        | cons d first =>
          obtain ⟨rfl, -⟩ := List.cons.inj hjoined
          exact absurd (.head _) hfirst
        | nil =>
          cases rest with
          | nil => cases hjoined
          | cons second others =>
            obtain ⟨-, hjoined⟩ := List.cons.inj hjoined
            obtain ⟨hsecond, hothers⟩ := List.forall_mem_cons.1 hrest
            exact ⟨rfl, ih.2 ⟨hjoined, hsecond, hothers⟩⟩
    · rw [if_neg hc, List.cons.injEq]
      constructor
      · rintro ⟨rfl, rfl⟩
        exact ⟨by rw [htext, List.cons_append], by simp [hpart, Ne.symm hc], hall⟩
      · rintro ⟨hjoined, hfirst, hrest⟩
        cases first with
        | nil =>
          cases rest with
          | nil => cases hjoined
          | cons second others => exact absurd (List.cons.inj hjoined).1 hc
        | cons d first =>
          obtain ⟨rfl, htail⟩ := List.cons.inj hjoined
          have hsplit := ih.2 ⟨htail, fun hmem => hfirst (.tail _ hmem), hrest⟩
          obtain ⟨rfl, rfl⟩ := List.cons.inj (hparts.symm.trans hsplit)
          exact ⟨rfl, rfl⟩

/-- Two texts with a separator between them are cut as each of them is. -/
theorem Text.splitOn_append (separator : Char) (text more : List Char) :
    splitOn separator (text ++ separator :: more) =
      splitOn separator text ++ splitOn separator more := by
  obtain ⟨first, rest, hfirst⟩ := List.exists_cons_of_ne_nil (splitOn_ne_nil separator text)
  obtain ⟨next, others, hnext⟩ := List.exists_cons_of_ne_nil (splitOn_ne_nil separator more)
  obtain ⟨htext, hpart, hrest⟩ := splitOn_eq_cons_iff.1 hfirst
  obtain ⟨hmore, hother, hothers⟩ := splitOn_eq_cons_iff.1 hnext
  rw [hfirst, hnext, List.cons_append, splitOn_eq_cons_iff]
  refine ⟨by simp [htext, hmore], hpart, fun part hmem => ?_⟩
  rcases List.mem_append.1 hmem with hmem | hmem
  · exact hrest part hmem
  · rcases List.mem_cons.1 hmem with rfl | hmem
    · exact hother
    · exact hothers part hmem

/-! ### Names in a text -/

/-- A part that announces no side is no marker. -/
theorem Facet.ofMarker?_eq_none_iff {part : List Char} :
    ofMarker? part = none ↔ ∀ facet : Facet, part ≠ facet.marker := by
  constructor
  · rintro hnone facet rfl
    rw [ofMarker?_marker] at hnone
    cases hnone
  · intro hno
    rw [ofMarker?, if_neg (hno .input), if_neg (hno .output)]

/-- A part that announces a side is its marker. -/
theorem Facet.eq_marker_of_ofMarker? {part : List Char} {facet : Facet}
    (h : ofMarker? part = some facet) : part = facet.marker := by
  rw [ofMarker?] at h
  split at h
  · next hinput => exact Option.some.inj h ▸ hinput
  · split at h
    · next houtput => exact Option.some.inj h ▸ houtput
    · cases h

/-- **A legible name** can stand as a part of a path text: it is not empty, it has no point in
it, and it is not a marker. -/
structure LegibleName (name : String) : Prop where
  ne_empty : name ≠ ""
  no_point : '.' ∉ name.toList
  no_marker : ∀ facet : Facet, name.toList ≠ facet.marker

instance : DecidablePred LegibleName := fun name =>
  decidable_of_iff (name ≠ "" ∧ '.' ∉ name.toList ∧ Facet.ofMarker? name.toList = none)
    ⟨fun h => ⟨h.1, h.2.1, Facet.ofMarker?_eq_none_iff.1 h.2.2⟩,
      fun h => ⟨h.ne_empty, h.no_point, Facet.ofMarker?_eq_none_iff.2 h.no_marker⟩⟩

namespace LegibleName

variable {name : String}

theorem toList_ne_nil (h : LegibleName name) : name.toList ≠ [] := by
  simpa using h.ne_empty

theorem ofMarker?_eq_none (h : LegibleName name) : Facet.ofMarker? name.toList = none :=
  Facet.ofMarker?_eq_none_iff.2 h.no_marker

/-- What is read as a name is legible. -/
theorem ofList {part : List Char} (hne : part ≠ []) (hpoint : '.' ∉ part)
    (hmarker : Facet.ofMarker? part = none) : LegibleName (String.ofList part) :=
  ⟨by simpa using hne, by simpa using hpoint, by simpa using Facet.ofMarker?_eq_none_iff.1 hmarker⟩

end LegibleName

namespace Segment

/-! ### Steps of reading -/

section Steps

variable {side? : Option Facet} {pending : Bool} {parts : List (List Char)}

@[simp] theorem ofParts?_nil (side? : Option Facet) : ofParts? side? false [] = some [] := rfl

theorem ofParts?_marker (side? : Option Facet) (pending : Bool) (announced : Facet)
    (parts : List (List Char)) :
    ofParts? side? pending (announced.marker :: parts) = ofParts? (some announced) true parts := by
  have hne : announced.marker ≠ [] := by cases announced <;> decide
  rw [ofParts?.eq_def]
  simp only [if_neg hne, Facet.ofMarker?_marker]

/-- Of several markers in a row the last one counts. -/
theorem ofParts?_markers (side? : Option Facet) (pending : Bool) (markers : List Facet)
    (announced : Facet) (parts : List (List Char)) :
    ofParts? side? pending (markers.map Facet.marker ++ announced.marker :: parts) =
      ofParts? (some announced) true parts := by
  induction markers generalizing side? pending with
  | nil => exact ofParts?_marker side? pending announced parts
  | cons first rest ih =>
    rw [List.map_cons, List.cons_append, ofParts?_marker]
    exact ih (some first) true

/-- A legible name is read as one on the side in force, unless it is digits that no marker
stands before. -/
theorem ofParts?_name {side : Facet} {name : String} (hname : LegibleName name)
    (h : pending = true ∨ ¬name.toList.all Char.isDigit = true) (parts : List (List Char)) :
    ofParts? (some side) pending (name.toList :: parts) =
      (ofParts? (some side) false parts).map (.named side name :: ·) := by
  have hnot : ¬(!pending && name.toList.all Char.isDigit) = true := by
    rcases h with hpending | hdigits
    · simp [hpending]
    · rw [Bool.and_eq_true]
      exact fun h => hdigits h.2
  rw [ofParts?.eq_def]
  simp only [if_neg hname.toList_ne_nil, hname.ofMarker?_eq_none, if_neg hnot, String.ofList_toList]

/-- Digits are read as an index, unless a marker stands before them. -/
theorem ofParts?_digits {digits : List Char} (hne : digits ≠ [])
    (hdigits : ∀ c ∈ digits, c.isDigit = true) (hfit : Nat.ofDigitChars 10 digits 0 < indexBound)
    (side? : Option Facet) (parts : List (List Char)) :
    ofParts? side? false (digits :: parts) =
      (ofParts? side? false parts).map (.index (Nat.ofDigitChars 10 digits 0) :: ·) := by
  have hmarker : Facet.ofMarker? digits = none := by
    refine Facet.ofMarker?_eq_none_iff.2 fun facet heq => ?_
    have hdollar : '$' ∈ digits := by cases facet <;> simp [heq, Facet.marker]
    exact absurd (hdigits '$' hdollar) (by decide)
  have hall : (!false && digits.all Char.isDigit) = true := by simpa using hdigits
  rw [ofParts?.eq_def]
  simp only [if_neg hne, hmarker, if_pos hall, if_pos hfit]

end Steps

/-! ### Spellings -/

/-- **The parts in which segments may be spelt**, where a side is in force before them or none
is. -/
inductive Spelling : Option Facet → List Segment → List (List Char) → Prop where
  /-- No segment is no part. -/
  | nil {side? : Option Facet} : Spelling side? [] []
  /-- An index is spelt in digits. -/
  | index {side? : Option Facet} {digits : List Char} {segments : List Segment}
      {parts : List (List Char)} (hne : digits ≠ []) (hdigits : ∀ c ∈ digits, c.isDigit = true)
      (hfit : Nat.ofDigitChars 10 digits 0 < indexBound) (rest : Spelling side? segments parts) :
      Spelling side? (.index (Nat.ofDigitChars 10 digits 0) :: segments) (digits :: parts)
  /-- A name on the side in force may stand alone, if it does not look like an index. -/
  | bare {side : Facet} {name : String} {segments : List Segment} {parts : List (List Char)}
      (hname : LegibleName name) (hword : ¬name.toList.all Char.isDigit = true)
      (rest : Spelling (some side) segments parts) :
      Spelling (some side) (.named side name :: segments) (name.toList :: parts)
  /-- A name may have its marker before it, and there may be any others before that one. -/
  | marked {side? : Option Facet} (markers : List Facet) {side : Facet} {name : String}
      {segments : List Segment} {parts : List (List Char)} (hname : LegibleName name)
      (rest : Spelling (some side) segments parts) :
      Spelling side? (.named side name :: segments)
        (markers.map Facet.marker ++ side.marker :: name.toList :: parts)

/-- The side in force after some segments: that of the last named one, or else the one before
them. -/
def sideAfter (side? : Option Facet) (segments : List Segment) : Option Facet :=
  (segments.filterMap facet?).getLast?.or side?

@[simp] theorem sideAfter_nil (side? : Option Facet) : sideAfter side? [] = side? := rfl

@[simp] theorem sideAfter_index (side? : Option Facet) (i : Nat) (segments : List Segment) :
    sideAfter side? (.index i :: segments) = sideAfter side? segments := rfl

@[simp] theorem sideAfter_named (side? : Option Facet) (side : Facet) (name : String)
    (segments : List Segment) :
    sideAfter side? (.named side name :: segments) = sideAfter (some side) segments := by
  have hsides : (Segment.named side name :: segments).filterMap facet? =
      side :: segments.filterMap facet? := rfl
  rw [sideAfter, sideAfter, hsides, List.getLast?_cons]
  cases (segments.filterMap facet?).getLast? <;> rfl

/-- What is read is spelt. Between a marker and its name, what is read will be spelt with the
marker put back, whatever side was in force and whatever markers there were before it. -/
theorem spelling_of_ofParts? {side? : Option Facet} {pending : Bool} {parts : List (List Char)}
    {segments : List Segment} (hpoints : ∀ part ∈ parts, '.' ∉ part)
    (h : ofParts? side? pending parts = some segments) :
    (pending = false → Spelling side? segments parts) ∧
    (pending = true → ∀ side ∈ side?, ∀ (before : Option Facet) (markers : List Facet),
      Spelling before segments (markers.map Facet.marker ++ side.marker :: parts)) := by
  fun_induction ofParts? side? pending parts generalizing segments with
  | case1 | case3 | case6 | case7 => cases h
  | case2 side? pending hpending =>
    refine ⟨fun _ => Option.some.inj h ▸ .nil, fun htrue => absurd htrue hpending⟩
  | case4 side? pending part parts hne announced hmarker ih =>
    obtain rfl := Facet.eq_marker_of_ofMarker? hmarker
    obtain ⟨-, ih⟩ := ih (List.forall_mem_cons.1 hpoints).2 h
    refine ⟨fun _ => ih rfl announced rfl side? [], fun _ side _ before markers => ?_⟩
    -- the marker before joins those that stand there for nothing
    simpa using ih rfl announced rfl before (markers ++ [side])
  | case5 side? pending part parts hne hmarker hdigits i hfit =>
    rename_i ih
    obtain ⟨rest, hrest, rfl⟩ := Option.map_eq_some_iff.1 h
    obtain ⟨ih, -⟩ := ih (List.forall_mem_cons.1 hpoints).2 hrest
    rw [Bool.and_eq_true, Bool.not_eq_true', List.all_eq_true] at hdigits
    refine ⟨fun _ => .index hne hdigits.2 hfit (ih rfl), fun htrue => ?_⟩
    rw [hdigits.1] at htrue
    cases htrue
  | case8 pending part parts hne hmarker hnot side ih =>
    obtain ⟨rest, hrest, rfl⟩ := Option.map_eq_some_iff.1 h
    obtain ⟨hpoint, hpoints⟩ := List.forall_mem_cons.1 hpoints
    obtain ⟨ih, -⟩ := ih hpoints hrest
    have hname : LegibleName (String.ofList part) := .ofList hne hpoint hmarker
    refine ⟨fun hfalse => ?_, fun _ side' hside before markers => ?_⟩
    · have hword : ¬(String.ofList part).toList.all Char.isDigit = true := by
        simpa [hfalse] using hnot
      simpa using Spelling.bare hname hword (ih rfl)
    · obtain rfl := Option.some.inj hside
      simpa using Spelling.marked markers hname (ih rfl)

namespace Spelling

variable {side? : Option Facet} {segments : List Segment} {parts : List (List Char)}

/-- No part of a spelling has a point in it. -/
theorem no_point (h : Spelling side? segments parts) : ∀ part ∈ parts, '.' ∉ part := by
  induction h with
  | nil => exact fun part hpart => absurd hpart List.not_mem_nil
  | index hne hdigits hfit rest ih =>
    refine List.forall_mem_cons.2 ⟨fun hpoint => ?_, ih⟩
    exact absurd (hdigits '.' hpoint) (by decide)
  | bare hname hword rest ih => exact List.forall_mem_cons.2 ⟨hname.no_point, ih⟩
  | @marked side? markers side name segments parts hname rest ih =>
    have hmarker : ∀ facet : Facet, '.' ∉ facet.marker := by
      intro facet
      cases facet <;> decide
    intro part hpart
    rcases List.mem_append.1 hpart with hpart | hpart
    · obtain ⟨facet, -, rfl⟩ := List.mem_map.1 hpart
      exact hmarker facet
    · rcases List.mem_cons.1 hpart with rfl | hpart
      · exact hmarker side
      · rcases List.mem_cons.1 hpart with rfl | hpart
        · exact hname.no_point
        · exact ih part hpart

/-- **A spelling is read off the front** of any parts, and leaves the reading in the state that
its side says. -/
theorem ofParts?_append (h : Spelling side? segments parts) (more : List (List Char)) :
    ofParts? side? false (parts ++ more) =
      (ofParts? (sideAfter side? segments) false more).map (segments ++ ·) := by
  induction h with
  | nil => simp
  | index hne hdigits hfit rest ih =>
    rw [List.cons_append, ofParts?_digits hne hdigits hfit, ih, Option.map_map, sideAfter_index]
    rfl
  | bare hname hword rest ih =>
    rw [List.cons_append, ofParts?_name hname (.inr hword), ih, Option.map_map, sideAfter_named]
    rfl
  | marked markers hname rest ih =>
    rw [List.append_assoc, List.cons_append, List.cons_append, ofParts?_markers,
      ofParts?_name hname (.inl rfl), ih, Option.map_map, sideAfter_named]
    rfl

end Spelling

/-- **What is read is what is spelt.** -/
theorem ofParts?_eq_some_iff {side? : Option Facet} {parts : List (List Char)}
    {segments : List Segment} (hpoints : ∀ part ∈ parts, '.' ∉ part) :
    ofParts? side? false parts = some segments ↔ Spelling side? segments parts := by
  refine ⟨fun h => (spelling_of_ofParts? hpoints h).1 rfl, fun h => ?_⟩
  have hread := h.ofParts?_append []
  rwa [List.append_nil, ofParts?_nil, Option.map_some, List.append_nil] at hread

/-! ### Writing -/

/-- The parts of a segment's text: a name stands after its marker. -/
def parts : Segment → List (List Char)
  | .named facet name => [facet.marker, name.toList]
  | .index i => [Nat.toDigits 10 i]

theorem point_write (segment : Segment) :
    '.' :: segment.write = segment.parts.flatMap ('.' :: ·) := by
  cases segment <;> simp [write, parts]

/-- **What is written is a spelling**, if the names are legible and the indices are not too
large. -/
theorem spelling_written {segments : List Segment}
    (hnames : ∀ facet name, .named facet name ∈ segments → LegibleName name)
    (hindices : ∀ i, .index i ∈ segments → i < indexBound) (side? : Option Facet) :
    Spelling side? segments (segments.flatMap parts) := by
  induction segments generalizing side? with
  | nil => exact .nil
  | cons segment rest ih =>
    have ih := ih (fun facet name hmem => hnames facet name (.tail _ hmem))
      (fun i hmem => hindices i (.tail _ hmem))
    cases segment with
    | named facet name => exact .marked [] (hnames facet name (.head _)) (ih (some facet))
    | index i =>
      have hdigits : ∀ c ∈ Nat.toDigits 10 i, c.isDigit = true :=
        fun _ hc => Nat.isDigit_of_mem_toDigits (by decide) (by decide) hc
      have hvalue : Nat.ofDigitChars 10 (Nat.toDigits 10 i) 0 = i := Nat.ofDigitChars_ten_toDigits
      have hfit : Nat.ofDigitChars 10 (Nat.toDigits 10 i) 0 < indexBound :=
        hvalue.symm ▸ hindices i (.head _)
      have hspelling := Spelling.index Nat.toDigits_ne_nil hdigits hfit (ih side?)
      rwa [hvalue] at hspelling

/-- The names of what is spelt are legible, and the indices are not too large. -/
theorem Spelling.legible {side? : Option Facet} {segments : List Segment}
    {parts : List (List Char)} (h : Spelling side? segments parts) :
    (∀ facet name, .named facet name ∈ segments → LegibleName name) ∧
    ∀ i, .index i ∈ segments → i < indexBound := by
  induction h with
  | nil => simp
  | index hne hdigits hfit rest ih =>
    refine ⟨fun facet name hmem => ?_, fun i hmem => ?_⟩
    · rcases List.mem_cons.1 hmem with heq | hmem
      · cases heq
      · exact ih.1 facet name hmem
    · rcases List.mem_cons.1 hmem with heq | hmem
      · exact Segment.index.inj heq ▸ hfit
      · exact ih.2 i hmem
  | bare hname _ rest ih | marked _ hname rest ih =>
    refine ⟨fun facet name hmem => ?_, fun i hmem => ?_⟩
    · rcases List.mem_cons.1 hmem with heq | hmem
      · exact (Segment.named.inj heq).2 ▸ hname
      · exact ih.1 facet name hmem
    · rcases List.mem_cons.1 hmem with heq | hmem
      · cases heq
      · exact ih.2 i hmem

end Segment

namespace TreePath

/-! ### Whole paths -/

/-- **A well-formed path**: its root is not empty and has no point in it, and its names are
legible. -/
structure WellFormed (path : TreePath) : Prop where
  root_ne_empty : path.root ≠ ""
  root_no_point : '.' ∉ path.root.toList
  names : ∀ facet name, .named facet name ∈ path.segments → LegibleName name

/-- The indices of a path are not too large. -/
def Indexable (path : TreePath) : Prop := ∀ i, .index i ∈ path.segments → i < Segment.indexBound

/-- **A path is spelt by a text** that is its root and a spelling of its segments, with points
between the parts. -/
structure SpeltBy (path : TreePath) (text : String) : Prop where
  root_ne_empty : path.root ≠ ""
  root_no_point : '.' ∉ path.root.toList
  spelt : ∃ parts, Segment.Spelling none path.segments parts ∧
    text.toList = path.root.toList ++ parts.flatMap ('.' :: ·)

variable {path : TreePath} {text : String}

/-- **What is read is what is spelt.** -/
theorem ofText?_eq_some_iff : ofText? text = some path ↔ path.SpeltBy text := by
  obtain ⟨root, segments⟩ := path
  constructor
  · intro h
    obtain ⟨first, parts, hparts⟩ :=
      List.exists_cons_of_ne_nil (Text.splitOn_ne_nil '.' text.toList)
    obtain ⟨htext, hfirst, hpoints⟩ := Text.splitOn_eq_cons_iff.1 hparts
    rw [ofText?, hparts] at h
    dsimp only at h
    split at h
    · cases h
    · next hne =>
      obtain ⟨segments', hsegments, heq⟩ := Option.map_eq_some_iff.1 h
      obtain ⟨rfl, rfl⟩ := TreePath.mk.inj heq
      refine ⟨by simpa using hne, by simpa using hfirst, parts,
        (Segment.ofParts?_eq_some_iff hpoints).1 hsegments, by simpa using htext⟩
  · rintro ⟨hne, hroot, parts, hspelling, htext⟩
    have hsplit := Text.splitOn_eq_cons_iff.2 ⟨htext, hroot, hspelling.no_point⟩
    have hne' : root.toList ≠ [] := by simpa using hne
    have hsegments := (Segment.ofParts?_eq_some_iff hspelling.no_point).2 hspelling
    rw [ofText?, hsplit]
    simp only [if_neg hne', hsegments, Option.map_some, String.ofList_toList]

theorem SpeltBy.wellFormed (h : path.SpeltBy text) : path.WellFormed := by
  obtain ⟨hne, hroot, parts, hspelling, -⟩ := h
  exact ⟨hne, hroot, hspelling.legible.1⟩

theorem SpeltBy.indexable (h : path.SpeltBy text) : path.Indexable := by
  obtain ⟨-, -, parts, hspelling, -⟩ := h
  exact hspelling.legible.2

/-- **A well-formed path is spelt by its text.** -/
theorem WellFormed.speltBy_text (h : path.WellFormed) (hindices : path.Indexable) :
    path.SpeltBy path.text := by
  refine ⟨h.root_ne_empty, h.root_no_point, _,
    Segment.spelling_written h.names hindices none, ?_⟩
  simp only [text, write, String.toList_ofList, Segment.point_write, List.flatMap_assoc]

/-- **The format of path texts.** A text is read as a path exactly if it spells it. A path whose
indices fit into 64 bits is read back from its own text exactly if it is well formed; and
whatever text a path is read from, it is well formed, so that its own text is read as the same
path. -/
theorem text_format (path : TreePath) :
    (∀ text, ofText? text = some path ↔ path.SpeltBy text) ∧
    (path.Indexable → (ofText? path.text = some path ↔ path.WellFormed)) ∧
    ∀ text, ofText? text = some path →
      path.WellFormed ∧ path.Indexable ∧ ofText? path.text = some path := by
  refine ⟨fun text => ofText?_eq_some_iff, fun hindices => ⟨fun h => ?_, fun h => ?_⟩,
    fun text h => ?_⟩
  · exact (ofText?_eq_some_iff.1 h).wellFormed
  · exact ofText?_eq_some_iff.2 (h.speltBy_text hindices)
  · have hspelt : path.SpeltBy text := ofText?_eq_some_iff.1 h
    exact ⟨hspelt.wellFormed, hspelt.indexable,
      ofText?_eq_some_iff.2 (hspelt.wellFormed.speltBy_text hspelt.indexable)⟩

/-- The place of an element of an argument. -/
def anId : TreePath := ⟨"query", [.named .output "books", .named .input "ids", .index 7]⟩

/-- A marker for nothing and an index with zeros before it are not written again. -/
theorem text_format_anId :
    ofText? "query.$in.$out.books.$in.ids.007" = some anId ∧
      anId.text = "query.$out.books.$in.ids.7" ∧ anId.Indexable ∧ anId.WellFormed ∧
      ofText? anId.text = some anId := by
  have hread : ofText? "query.$in.$out.books.$in.ids.007" = some anId := by decide +kernel
  have hindices : anId.Indexable := by
    intro i hmem
    obtain rfl : i = 7 := by simpa [anId] using hmem
    decide
  obtain ⟨-, hiff, hagain⟩ := text_format anId
  obtain ⟨hformed, -, -⟩ := hagain _ hread
  exact ⟨hread, by decide +kernel, hindices, hformed, (hiff hindices).2 hformed⟩

/-! ### Relative paths -/

/-- The side of the last named segment, if there is one. -/
def side? (path : TreePath) : Option Facet := (path.segments.filterMap Segment.facet?).getLast?

/-- **Relative paths continue absolute ones.** Where a text is read as a path with a named
segment, the text that goes on after a point is read exactly if what comes after the point is
read as a relative path, with the side of the last named segment in force; and then it is read
as the one path continued by the other. -/
theorem ofText?_continued {side : Facet} (h : ofText? text = some path)
    (hside : path.side? = some side) (relative : String) :
    ofText? (text ++ "." ++ relative) = (Segment.relative? relative side).map path.join := by
  obtain ⟨hne, hroot, parts, hspelling, htext⟩ := ofText?_eq_some_iff.1 h
  have hsplit : Text.splitOn '.' (text ++ "." ++ relative).toList =
      path.root.toList :: (parts ++ Text.splitOn '.' relative.toList) := by
    have hlist : (text ++ "." ++ relative).toList = text.toList ++ '.' :: relative.toList := by
      simp
    rw [hlist, Text.splitOn_append,
      Text.splitOn_eq_cons_iff.2 ⟨htext, hroot, hspelling.no_point⟩, List.cons_append]
  have hafter : Segment.sideAfter none path.segments = some side := by
    rw [Segment.sideAfter, Option.or_none]
    exact hside
  have hne' : path.root.toList ≠ [] := by simpa using hne
  rw [ofText?, hsplit]
  simp only [if_neg hne', hspelling.ofParts?_append, hafter, Option.map_map, String.ofList_toList]
  rfl

/-- The side outlasts the index: a name that comes after it without a marker is an input, and
digits after a marker are a name. -/
theorem ofText?_anId_continued :
    ofText? "query.$out.books.$in.ids.7" = some anId ∧ anId.side? = some .input ∧
      ofText? ("query.$out.books.$in.ids.7" ++ "." ++ "name.$out.07") =
        some (anId.join [.named .input "name", .named .output "07"]) := by
  have hread : ofText? "query.$out.books.$in.ids.7" = some anId := by decide +kernel
  refine ⟨hread, rfl, ?_⟩
  rw [ofText?_continued hread rfl]
  decide +kernel

end TreePath

end QueryAccess
