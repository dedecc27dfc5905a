import QueryAccess.Proofs.Document.ReadValues
import QueryAccess.Proofs.Document.Scanning

/-!
# Reading documents back

**Every rendering of a document is read back as that document**
(`QueryAccess.Document.renderings_read_back`): whatever stands between its lexemes, however its
strings are quoted, and whichever of its operations are written in short. The comments of the
document are those that stand last before the parts they belong to.

A selection has to be stopped, for it goes on while it can: with a second name after a colon,
with arguments, directives and a selection set. What follows it begins with none of these
(`QueryAccess.Document.selectionEnds`), for it is another selection or the end of the set.
-/

namespace QueryAccess

open QueryAccess.Parser Token

namespace Document

/-! ### Selections -/

section Selections

variable {levels valueLevels : Nat} {set : Parser (List Selection)}

/-- What a selection would go on with. -/
def selectionEnds : List Char := [':', '(', '@', '\x7b']

theorem avoids_directives {admits : Char → Bool} (hsign : admits '@' = false)
    {written : List Directive} {more : List Placed} (hmore : Avoids admits more) :
    Avoids admits (written.flatMap Directive.lexemes ++ more) := by
  cases written with
  | nil => exact hmore
  | cons first rest => exact avoids_signed hsign

theorem onSpot_ellipsis : ReadsOnSpot (word ['.', '.', '.']) () .ellipsis [] anything := by
  rintro more spelled text _ hspell hwrites
  obtain rfl : spelled = ['.', '.', '.'] := hspell
  exact ⟨false, text, word_ok ['.', '.', '.'] text, hwrites⟩

theorem needs_ellipsis : Needs (word ['.', '.', '.']) (· == '.') := by
  intro text htext
  refine ⟨text, if_neg ?_⟩
  cases text with
  | nil => exact Bool.false_ne_true
  | cons c rest =>
    have hc := htext c rfl
    rw [List.isPrefixOf, Bool.and_eq_true, beq_iff_eq]
    rintro ⟨rfl, _⟩
    exact nomatch hc

theorem fails_fragmentSelection (levels : Nat) (set : Parser (List Selection)) :
    Fails (fragmentSelection levels set) (Avoids (· == '.')) :=
  Needs.fails_ignored fun _ => needs_ellipsis.bind

theorem fails_field (levels : Nat) (set : Parser (List Selection)) :
    Fails (field levels set) (Avoids isNameStart) :=
  Needs.fails_ignored fun _ => needs_name.bind

/-- An inline fragment is read back after its type condition. -/
theorem reads_inlineFragment {directives : List Directive} {selections : List Selection}
    (hdirectives : directives.all Directive.isWellFormed = true)
    (hlevels : (directives.flatMap Directive.lexemes).length ≤ levels)
    (hset : Reads set selections (lexemesOfSet selections) anything) (on : Option String) :
    Reads (inlineFragment levels set on) (.inline on directives selections)
      (directives.flatMap Directive.lexemes ++ lexemesOfSet selections) anything := by
  refine (reads_directives hdirectives hlevels).bind ?_ fun _ _ => avoids_mark rfl
  exact hset.map fun read => Selection.inline on directives read

/-- **An inline fragment is read back**, with or without a type condition. -/
theorem reads_inline {directives : List Directive} {selections : List Selection}
    (hdirectives : directives.all Directive.isWellFormed = true)
    (hlevels : (directives.flatMap Directive.lexemes).length ≤ levels)
    (hset : Reads set selections (lexemesOfSet selections) anything) (on : Option String) :
    Reads (fragmentSelection levels set) (.inline on directives selections)
      (.ellipsis :: (typeCondition on ++ (directives.flatMap Directive.lexemes ++
        lexemesOfSet selections))) anything := by
  have hinline := reads_inlineFragment hdirectives hlevels hset
  refine Reads.ignored fun _ _ => onSpot_ellipsis.bind ?_ fun _ _ => trivial
  cases on with
  | none =>
    refine fails_tokenName.opt.bind (hinline none) fun more _ => ?_
    rw [List.append_assoc]
    exact avoids_directives rfl (avoids_mark rfl)
  | some on =>
    refine (reads_tokenName "on").opt.bind ?_ fun _ _ => trivial
    exact (reads_tokenName on).bind (hinline (some on)) fun _ _ => trivial

/-- **A spread is read back.** -/
theorem reads_spread {name : String} (hname : (name != "on") = true) {directives : List Directive}
    (hdirectives : directives.all Directive.isWellFormed = true)
    (hlevels : (directives.flatMap Directive.lexemes).length ≤ levels) :
    Reads (fragmentSelection levels set) (.spread name directives)
      (.ellipsis :: .name name :: directives.flatMap Directive.lexemes)
      (Avoids directiveEnds.contains) := by
  refine Reads.ignored fun _ _ => onSpot_ellipsis.bind ?_ fun _ _ => trivial
  refine (reads_tokenName name).opt.bind ?_ fun _ _ => trivial
  show Reads (if name = "on" then _ else _) _ _ _
  rw [if_neg (bne_iff_ne.1 hname)]
  exact (reads_directives hdirectives hlevels).map fun read => Selection.spread name read

/-- What comes after the names of a field. -/
def fieldParts (levels : Nat) (set : Parser (List Selection)) (comment label : Option String)
    (name : String) : Parser Selection := do
  let arguments ← opt (arguments levels)
  let directives ← directives levels
  let selections ← opt set
  return .field comment label name (arguments.getD []) directives (selections.getD [])

theorem reads_fieldParts {arguments : List Argument} {directives : List Directive}
    {selections : List Selection} (harguments : areWellFormedArguments arguments = true)
    (hlevels : (arguments.flatMap Argument.lexemes).length ≤ levels)
    (hdirectives : directives.all Directive.isWellFormed = true)
    (hlevels' : (directives.flatMap Directive.lexemes).length ≤ levels)
    (hset : selections ≠ [] → Reads set selections (lexemesOfSet selections) anything)
    (hfails : Fails set (Avoids (· == '\x7b'))) (comment label : Option String) (name : String) :
    Reads (fieldParts levels set comment label name)
      (.field comment label name arguments directives selections)
      (optional '(' ')' Argument.lexemes arguments ++ (directives.flatMap Directive.lexemes ++
        optional '\x7b' '\x7d' Selection.lexemes selections)) (Avoids selectionEnds.contains) := by
  obtain ⟨found, rfl, hfound⟩ := reads_optional_arguments harguments hlevels
  obtain ⟨foundSet, rfl, hfoundSet⟩ := reads_optional hset hfails
  have hend : Reads (do
      let read ← opt set
      return Selection.field comment label name (found.getD []) directives (read.getD []))
      (.field comment label name (found.getD []) directives (foundSet.getD []))
      (optional '\x7b' '\x7d' Selection.lexemes (foundSet.getD []))
      (Avoids selectionEnds.contains) :=
    (hfoundSet.mono fun more hmore => hmore.of_mem rfl).map fun read =>
      Selection.field comment label name (found.getD []) directives (read.getD [])
  refine hfound.bind ?_ fun more hmore => ?_
  · refine (reads_directives hdirectives hlevels').bind hend fun more hmore => ?_
    exact avoids_optional rfl (hmore.subset (by decide))
  · rw [List.append_assoc]
    exact avoids_directives rfl (avoids_optional rfl (hmore.of_mem rfl))

/-- **A field is read back**, with its comment, with or without a label. -/
theorem reads_field {arguments : List Argument} {directives : List Directive}
    {selections : List Selection} (harguments : areWellFormedArguments arguments = true)
    (hlevels : (arguments.flatMap Argument.lexemes).length ≤ levels)
    (hdirectives : directives.all Directive.isWellFormed = true)
    (hlevels' : (directives.flatMap Directive.lexemes).length ≤ levels)
    (hset : selections ≠ [] → Reads set selections (lexemesOfSet selections) anything)
    (hfails : Fails set (Avoids (· == '\x7b'))) (comment label : Option String) (name : String) :
    Reads (field levels set) (.field comment label name arguments directives selections)
      (headOfField comment label name ++ (optional '(' ')' Argument.lexemes arguments ++
        (directives.flatMap Directive.lexemes ++
          optional '\x7b' '\x7d' Selection.lexemes selections)))
      (Avoids selectionEnds.contains) := by
  have hparts := reads_fieldParts harguments hlevels hdirectives hlevels' hset hfails comment label
    name
  cases label with
  | none =>
    refine Reads.ignored fun found hfound => ?_
    obtain rfl := hfound comment rfl
    refine (onSpot_name name).bind ?_ fun _ _ => trivial
    refine (fails_mark ':').bind.opt.bind hparts fun more hmore => ?_
    have hnext : Avoids (· == ':') (optional '(' ')' Argument.lexemes arguments ++
        (directives.flatMap Directive.lexemes ++
          optional '\x7b' '\x7d' Selection.lexemes selections) ++ more) := by
      rw [List.append_assoc, List.append_assoc]
      exact avoids_optional rfl (avoids_directives rfl (avoids_optional rfl (hmore.of_mem rfl)))
    exact hnext
  | some label =>
    refine Reads.ignored fun found hfound => ?_
    obtain rfl := hfound comment rfl
    refine (onSpot_name label).bind ?_ fun _ _ => trivial
    refine Reads.bind (Reads.opt ((reads_mark ':').bind (reads_tokenName name) fun _ _ => trivial))
      hparts fun _ _ => trivial

theorem fails_selectionSet (valueLevels levels : Nat) :
    Fails (selectionSet valueLevels levels) (Avoids (· == '\x7b')) := by
  cases levels with
  | zero => exact fun _ _ text _ _ => ⟨text, rfl⟩
  | succ levels => exact (fails_mark '\x7b').bind

/-- **A selection set is read back** if its selections are. -/
theorem reads_set {selections : List Selection} (hne : selections ≠ []) (hlevels : 0 < levels)
    (h : ∀ inner, inner + 1 = levels → ∀ selection ∈ selections,
      ReadsEach (selectionOver valueLevels (selectionSet valueLevels inner))
        (Avoids selectionEnds.contains) selection selection.lexemes) :
    Reads (selectionSet valueLevels levels) selections (lexemesOfSet selections) anything := by
  obtain ⟨inner, rfl⟩ : ∃ inner, levels = inner + 1 := ⟨levels - 1, by omega⟩
  have hfails : Fails (selectionOver valueLevels (selectionSet valueLevels inner))
      fun items => ∃ more, items = .mark '\x7d' :: more := by
    refine ((fails_fragmentSelection valueLevels _).mono ?_).orElse
      ((fails_field valueLevels _).mono ?_)
    · rintro _ ⟨more, rfl⟩
      exact avoids_char rfl
    · rintro _ ⟨more, rfl⟩
      exact avoids_mark rfl
  have hbetween : ∀ items, (∃ more, items = .mark '\x7d' :: more) →
      Avoids selectionEnds.contains items := by
    rintro _ ⟨more, rfl⟩
    exact avoids_mark rfl
  have hread := many1_reads_flatMap hfails hbetween hne (h inner rfl)
  exact hread.between_marks fun more => ⟨more, rfl⟩

theorem lexemesOfSelections_pos {selections : List Selection} (hne : selections ≠ []) :
    optional '\x7b' '\x7d' Selection.lexemes selections =
      enclosed '\x7b' '\x7d' (lexemesOfSelections selections) := by
  cases selections with
  | nil => exact absurd rfl hne
  | cons first rest => rw [lexemesOfSelections_eq]; rfl

theorem avoids_headOfField {admits : Char → Bool}
    (h : ∀ c, isNameStart c = true → admits c = false) {comment label : Option String}
    {name : String} (more : List Placed) :
    Avoids admits (headOfField comment label name ++ more) := by
  cases label <;> exact avoids_cons h

mutual

/-- **A selection is read back**, with as many levels as it has lexemes. -/
theorem reads_selection : ∀ (selection : Selection) {levels valueLevels : Nat},
    selection.isWellFormed = true → selection.lexemes.length ≤ levels →
      selection.lexemes.length ≤ valueLevels →
        ReadsEach (selectionOver valueLevels (selectionSet valueLevels levels))
          (Avoids selectionEnds.contains) selection selection.lexemes
  | .field comment label name arguments directives selections, levels, valueLevels, hwf, hlevels,
      hvalues => by
    rw [Selection.isWellFormed, Bool.and_eq_true, Bool.and_eq_true] at hwf
    obtain ⟨⟨harguments, hdirectives⟩, hselections⟩ := hwf
    rw [Selection.lexemes_field] at hlevels hvalues ⊢
    simp only [List.length_append] at hlevels hvalues
    have hset : selections ≠ [] →
        Reads (selectionSet valueLevels levels) selections (lexemesOfSet selections) anything := by
      intro hne
      rw [lexemesOfSelections_pos hne] at hlevels hvalues
      rw [length_enclosed] at hlevels hvalues
      refine reads_set hne (by omega) fun inner hinner => ?_
      exact reads_selections selections hselections (by omega) (by omega)
    have hlength := length_le_optional '(' ')' Argument.lexemes arguments
    have hargumentLevels : (arguments.flatMap Argument.lexemes).length ≤ valueLevels := by omega
    have hdirectiveLevels : (directives.flatMap Directive.lexemes).length ≤ valueLevels := by omega
    have hread := reads_field harguments hargumentLevels hdirectives hdirectiveLevels hset
      (fails_selectionSet valueLevels levels) comment label name
    refine ⟨?_, fun more => ?_, ?_⟩
    · refine hread.orElse_second (fails_fragmentSelection valueLevels _) fun more => ?_
      rw [List.append_assoc]
      exact avoids_headOfField (ne_of_isNameStart rfl) _
    · rw [List.append_assoc]
      exact avoids_headOfField (not_isNameStart (by decide)) _
    · cases label <;> exact List.cons_ne_nil _ _
  | .spread name directives, levels, valueLevels, hwf, _, hvalues => by
    rw [Selection.isWellFormed, Bool.and_eq_true] at hwf
    simp only [Selection.lexemes, List.length_cons] at hvalues
    have hread : Reads (fragmentSelection valueLevels (selectionSet valueLevels levels))
        (.spread name directives) (Selection.spread name directives).lexemes
        (Avoids directiveEnds.contains) := reads_spread hwf.1 hwf.2 (by omega)
    exact ⟨(hread.mono fun more hmore => hmore.subset (by decide)).orElse,
      fun _ => avoids_ellipsis rfl, List.cons_ne_nil _ _⟩
  | .inline on directives selections, levels, valueLevels, hwf, hlevels, hvalues => by
    rw [Selection.isWellFormed, Bool.and_eq_true, Bool.and_eq_true] at hwf
    obtain ⟨⟨hdirectives, hne⟩, hselections⟩ := hwf
    have hne : selections ≠ [] := by
      rintro rfl
      exact nomatch hne
    rw [Selection.lexemes] at hlevels hvalues ⊢
    simp only [length_enclosed, List.length_cons, List.length_append] at hlevels hvalues
    have hset : Reads (selectionSet valueLevels levels) selections (lexemesOfSet selections)
        anything :=
      reads_set hne (by omega) fun inner hinner =>
        reads_selections selections hselections (by omega) (by omega)
    rw [lexemesOfSelections_eq]
    have hdirectiveLevels : (directives.flatMap Directive.lexemes).length ≤ valueLevels := by omega
    have hread := reads_inline hdirectives hdirectiveLevels hset on
    exact ⟨(hread.mono fun _ _ => trivial).orElse, fun _ => avoids_ellipsis rfl,
      List.cons_ne_nil _ _⟩

theorem reads_selections : ∀ (selections : List Selection) {levels valueLevels : Nat},
    areWellFormedSelections selections = true →
      (lexemesOfSelections selections).length ≤ levels →
        (lexemesOfSelections selections).length ≤ valueLevels →
          ∀ selection ∈ selections,
            ReadsEach (selectionOver valueLevels (selectionSet valueLevels levels))
              (Avoids selectionEnds.contains) selection selection.lexemes
  | [], _, _, _, _, _ => fun _ hselection => absurd hselection List.not_mem_nil
  | first :: rest, levels, valueLevels, hwf, hlevels, hvalues => by
    rw [areWellFormedSelections, Bool.and_eq_true] at hwf
    rw [lexemesOfSelections, List.length_append] at hlevels hvalues
    refine List.forall_mem_cons.2 ⟨?_, ?_⟩
    · exact reads_selection first hwf.1 (by omega) (by omega)
    · exact reads_selections rest hwf.2 (by omega) (by omega)

end

end Selections

/-! ### Definitions -/

section Definitions

variable {levels : Nat}

/-- **A selection set is read back** with as many levels as it has lexemes. -/
theorem reads_selectionSet {selections : List Selection} (hne : (!selections.isEmpty) = true)
    (hselections : areWellFormedSelections selections = true)
    (hlevels : (lexemesOfSet selections).length ≤ levels) :
    Reads (selectionSet levels levels) selections (lexemesOfSet selections) anything := by
  have hnonempty : selections ≠ [] := by
    rintro rfl
    exact nomatch hne
  rw [lexemesOfSet, ← lexemesOfSelections_eq, length_enclosed] at hlevels
  exact reads_set hnonempty (by omega) fun inner hinner =>
    reads_selections selections hselections (by omega) (by omega)

/-- **Variable definitions are read back**, in their parentheses. -/
theorem reads_optional_variableDefinitions {declared : List VariableDefinition}
    (hdeclared : declared.all VariableDefinition.isWellFormed = true)
    (hlevels : (declared.flatMap VariableDefinition.lexemes).length ≤ levels) :
    ∃ found, found.getD [] = declared ∧
      Reads (opt (variableDefinitions levels)) found
        (optional '(' ')' VariableDefinition.lexemes declared) (Avoids (· == '(')) := by
  refine reads_optional (fun hne => ?_) ((fails_mark '(').bind)
  have hfails : Fails (variableDefinition levels) fun items =>
      ∃ more, items = .mark ')' :: more := by
    refine (fails_variableDefinition levels).mono ?_
    rintro _ ⟨more, rfl⟩
    exact avoids_char rfl
  have heach : ∀ definition ∈ declared, ReadsEach (variableDefinition levels)
      (Avoids definitionEnds.contains) definition definition.lexemes := by
    intro definition hdefinition
    have hpart : definition.lexemes.length ≤ levels := Nat.le_trans
      (List.sublist_flatten_of_mem (List.mem_map_of_mem hdefinition)).length_le hlevels
    exact ⟨reads_variableDefinition definition (List.all_eq_true.1 hdeclared _ hdefinition) hpart,
      fun _ => avoids_signed rfl, List.cons_ne_nil _ _⟩
  have hbetween : ∀ items, (∃ more, items = .mark ')' :: more) →
      Avoids definitionEnds.contains items := by
    rintro _ ⟨more, rfl⟩
    exact avoids_mark rfl
  have hread := many1_reads_flatMap hfails hbetween hne heach
  exact hread.between_marks fun more => ⟨more, rfl⟩

theorem onSpot_operationKind (kind : OperationKind) :
    ReadsOnSpot operationKind kind (.name kind.keyword) [] anything := by
  intro more spelled text hmore hspell hwrites
  obtain ⟨after, rest, hread, hwrites⟩ := onSpot_name kind.keyword hmore hspell hwrites
  exact ⟨after, rest, mapped_apply_ok hread kind.ofKeyword?_keyword, hwrites⟩

theorem fails_shorthand (levels : Nat) (comment : Option String) :
    Fails (shorthand levels comment) (Avoids (· == '\x7b')) :=
  (fails_selectionSet levels levels).bind

/-- **An operation is read back**, with its comment, if it starts with its keyword. -/
theorem reads_operation {written : Operation} (hwritten : written.isWellFormed = true)
    (hlevels : written.lexemes.length ≤ levels) :
    Reads (operation levels) written written.lexemes anything := by
  obtain ⟨comment, kind, name, declared, directives, selections⟩ := written
  simp only [Operation.isWellFormed, Bool.and_eq_true] at hwritten
  obtain ⟨⟨⟨hdeclared, hdirectives⟩, hne⟩, hselections⟩ := hwritten
  simp only [Operation.lexemes, List.length_cons, List.length_append] at hlevels
  have hlength := length_le_optional '(' ')' VariableDefinition.lexemes declared
  have hdeclaredLevels : (declared.flatMap VariableDefinition.lexemes).length ≤ levels := by omega
  obtain ⟨found, rfl, hfound⟩ := reads_optional_variableDefinitions hdeclared hdeclaredLevels
  refine Reads.ignored fun read hread => ?_
  obtain rfl := hread comment rfl
  refine ReadsOnSpot.orElse_fails (fails_shorthand levels read) (fun _ => avoids_char rfl) ?_
  refine (onSpot_operationKind kind).bind ?_ fun _ _ => trivial
  refine (reads_optionalName name).bind ?_ fun more _ => ?_
  · refine hfound.bind ?_ fun more _ => ?_
    · refine (reads_directives hdirectives (by omega)).bind ?_ fun _ _ => avoids_mark rfl
      exact (reads_selectionSet hne hselections (by omega)).map fun set =>
        Operation.mk read kind name (found.getD []) directives set
    · rw [List.append_assoc]
      exact avoids_directives rfl (avoids_mark rfl)
  · rw [List.append_assoc, List.append_assoc]
    exact avoids_optional rfl (avoids_directives rfl (avoids_mark rfl))

/-- **An operation is read back**, with its comment, from its bare selection set. -/
theorem reads_shorthand {selections : List Selection} (hne : (!selections.isEmpty) = true)
    (hselections : areWellFormedSelections selections = true)
    (hlevels : (lexemesOfSet selections).length ≤ levels) (comment : Option String) :
    Reads (operation levels) ⟨comment, .query, none, [], [], selections⟩
      ((Lexeme.mark '\x7b').after comment ::
        (selections.flatMap Selection.lexemes ++ [.mark '\x7d'])) anything := by
  refine Reads.ignored fun read hread => ?_
  obtain rfl := hread comment rfl
  have hset : Reads (shorthand levels read) ⟨read, .query, none, [], [], selections⟩
      (lexemesOfSet selections) anything :=
    (reads_selectionSet hne hselections hlevels).map fun set =>
      Operation.mk read .query none [] [] set
  exact (Reads.onSpot hset).orElse

/-- **A fragment definition is read back.** -/
theorem reads_fragment {written : Fragment} (hwritten : written.isWellFormed = true)
    (hlevels : written.lexemes.length ≤ levels) :
    Reads (fragment levels) written written.lexemes anything := by
  obtain ⟨name, on, directives, selections⟩ := written
  simp only [Fragment.isWellFormed, Bool.and_eq_true] at hwritten
  obtain ⟨⟨⟨hname, hdirectives⟩, hne⟩, hselections⟩ := hwritten
  simp only [Fragment.lexemes, List.length_cons, List.length_append] at hlevels
  refine (reads_keyword "fragment").bind ?_ fun _ _ => trivial
  refine ((reads_tokenName name).guarded hname).bind ?_ fun _ _ => trivial
  refine (reads_keyword "on").bind ?_ fun _ _ => trivial
  refine (reads_tokenName on).bind ?_ fun _ _ => trivial
  refine (reads_directives hdirectives (by omega)).bind ?_ fun _ _ => avoids_mark rfl
  exact (reads_selectionSet hne hselections (by omega)).map fun set =>
    Fragment.mk name on directives set

theorem keyword_ne_fragment (kind : OperationKind) : kind.keyword ≠ "fragment" := by
  cases kind <;> decide

/-- **A definition is read back**, in each of its forms. -/
theorem readsEach_definition {written : Definition} {items : List Placed}
    (hrenders : written.Renders items) (hwritten : written.isWellFormed = true)
    (hlevels : items.length ≤ levels) :
    ReadsEach (definition levels) anything written items := by
  cases hrenders with
  | fragment written =>
    exact ⟨((reads_fragment hwritten hlevels).map Definition.fragment).orElse, fun _ => trivial,
      List.cons_ne_nil _ _⟩
  | operation written =>
    refine ⟨?_, fun _ => trivial, List.cons_ne_nil _ _⟩
    refine Reads.orElse_second (fails_keyword "fragment").bind.bind (fun more => ?_)
      ((reads_operation hwritten hlevels).map Definition.operation)
    exact .inr ⟨_, _, _, keyword_ne_fragment written.kind, rfl⟩
  | shorthand comment selections =>
    simp only [Definition.isWellFormed, Operation.isWellFormed, Bool.and_eq_true] at hwritten
    refine ⟨?_, fun _ => trivial, List.cons_ne_nil _ _⟩
    refine Reads.orElse_second (fails_keyword "fragment").bind.bind
      (fun more => .inl (avoids_mark rfl)) (Reads.map ?_ Definition.operation)
    exact reads_shorthand hwritten.1.2 hwritten.2 hlevels comment

theorem readsEach_definitions {definitions : List Definition} {parts : List (List Placed)}
    (h : List.Forall₂ Definition.Renders definitions parts) :
    (∀ definition ∈ definitions, definition.isWellFormed = true) →
      parts.flatten.length ≤ levels →
        List.Forall₂ (ReadsEach (definition levels) anything) definitions parts := by
  induction h with
  | nil => exact fun _ _ => .nil
  | cons hrenders _ ih =>
    intro hwritten hlevels
    rw [List.flatten_cons, List.length_append] at hlevels
    exact .cons (readsEach_definition hrenders (hwritten _ (.head _)) (by omega))
      (ih (fun definition hdefinition => hwritten definition (.tail _ hdefinition)) (by omega))

/-- No definition is read where there is nothing left. -/
theorem fails_definition (levels : Nat) : Fails (definition levels) fun items => items = [] := by
  refine Fails.orElse ((fails_keyword "fragment").mono ?_).bind.bind (Fails.bind ?_)
  · rintro _ rfl
    exact .inl (avoids_nil _)
  · rintro word _ text rfl hwrites
    obtain ⟨comment, hread⟩ := hwrites.ignored_nil
    have hnothing : ∃ place, (shorthand levels comment <|> fullOperation levels comment) [] =
        .error place := by
      cases levels with
      | zero => exact ⟨[], rfl⟩
      | succ levels => exact ⟨[], rfl⟩
    obtain ⟨place, hplace⟩ := hnothing
    exact ⟨place, (bind_apply_ok hread).trans hplace⟩

end Definitions

/-! ### Documents -/

/-- **Every rendering of a document is read back as that document.** Take a well-formed document
and its lexemes, in one of the forms its operations can have, nested no deeper than
`QueryAccess.maxDepth`; and a text that is written with them, with any ignored runs between them,
in which the comments of the document stand last before the parts they belong to. Reading the
text succeeds, and gives the document. -/
theorem renderings_read_back {document : Document} {items : List Placed} {text : String}
    (hdocument : document.isWellFormed = true) (hrenders : document.Renders items)
    (hdeepest : deepest 0 items ≤ maxDepth) (hwrites : Writes false items text.toList) :
    Document.ofText text = .ok document := by
  obtain ⟨definitions⟩ := document
  obtain ⟨parts, hparts, rfl⟩ := hrenders
  rw [Document.isWellFormed, Bool.and_eq_true, List.all_eq_true] at hdocument
  have hne : definitions ≠ [] := by
    rintro rfl
    exact nomatch hdocument.1
  have hlength : parts.flatten.length ≤ text.toList.length + 1 :=
    Nat.le_succ_of_le hwrites.length_le
  have hread := many1_reads (fails_definition (text.toList.length + 1)) (fun _ _ => trivial) hne
    (readsEach_definitions hparts hdocument.2 hlength)
  rw [← List.append_nil parts.flatten] at hwrites
  obtain ⟨_, rest, hdefinitions, hrest⟩ := hread rfl hwrites
  obtain ⟨comment, hend⟩ := hrest.ignored_nil
  rw [List.append_nil] at hwrites
  have hparser : parser text.toList = .ok (⟨definitions⟩, []) := by
    rw [parser, wholeDocument, bind_apply_ok hdefinitions]
    exact bind_apply_ok hend
  rw [ofText, ofChars, hwrites.tooDeep?_eq_none hdeepest, hparser]

/-- A query in short, with a comment, a label, a string and an empty object, and a fragment. Its
names are keywords, where they may be. -/
def titled : Document :=
  ⟨[.operation ⟨some "all", .query, none, [], [],
      [.field none (some "on") "query"
        [.mk none "s" (.string "\""), .mk (some "x") "o" (.object [])] [] [],
      .spread "true" []]⟩,
    .fragment ⟨"true", "T", [], [.field none none "n" [] [] []]⟩]⟩

/-- The lexemes of the query, with the comments that are to stand before them. -/
def titledLexemes : List Placed :=
  [(Lexeme.mark '\x7b').after (some "all"),
    (Lexeme.name "on").after none, .mark ':', .name "query", .mark '(',
    (Lexeme.name "s").after none, .mark ':', (Lexeme.string "\"").plain,
    (Lexeme.name "o").after (some "x"), .mark ':', .mark '\x7b', .mark '\x7d', .mark ')',
    .ellipsis, .name "true", .mark '\x7d',
    .name "fragment", .name "true", .name "on", .name "T",
    .mark '\x7b', (Lexeme.name "n").after none, .mark '\x7d']

/-- A text of the query, with no more between its lexemes than there has to be. -/
def titledText : String :=
  "# all\n\x7bon:query(s:\"\\\"\"# x\no:\x7b\x7d)...true\x7dfragment true on T\x7bn\x7d"

theorem renders_titled : titled.Renders titledLexemes :=
  ⟨_, .cons (.shorthand _ _) (.cons (.fragment _) .nil), rfl⟩

theorem writes_titled : Writes false titledLexemes titledText.toList := by
  refine .noted [' ', 'a', 'l', 'l'] ['\x7b'] (by decide) rfl ⟨by decide, rfl⟩ ?_
  refine .tight ['o', 'n'] rfl rfl ⟨by decide, rfl⟩ ?_
  refine .tight [':'] rfl rfl ⟨by decide, rfl⟩ ?_
  refine .tight ['q', 'u', 'e', 'r', 'y'] rfl rfl ⟨by decide, rfl⟩ ?_
  refine .tight ['('] rfl rfl ⟨by decide, rfl⟩ ?_
  refine .tight ['s'] rfl rfl ⟨by decide, rfl⟩ ?_
  refine .tight [':'] rfl rfl ⟨by decide, rfl⟩ ?_
  refine .tight ['"', '\\', '"', '"'] rfl rfl ⟨_, rfl, .short rfl .close⟩ ?_
  refine .noted [' ', 'x'] ['o'] (by decide) rfl ⟨by decide, rfl⟩ ?_
  refine .tight [':'] rfl rfl ⟨by decide, rfl⟩ ?_
  refine .tight ['\x7b'] rfl rfl ⟨by decide, rfl⟩ ?_
  refine .tight ['\x7d'] rfl rfl ⟨by decide, rfl⟩ ?_
  refine .tight [')'] rfl rfl ⟨by decide, rfl⟩ ?_
  refine .tight ['.', '.', '.'] rfl rfl rfl ?_
  refine .tight ['t', 'r', 'u', 'e'] rfl rfl ⟨by decide, rfl⟩ ?_
  refine .tight ['\x7d'] rfl rfl ⟨by decide, rfl⟩ ?_
  refine .tight ['f', 'r', 'a', 'g', 'm', 'e', 'n', 't'] rfl rfl ⟨by decide, rfl⟩ ?_
  refine .spaced ['t', 'r', 'u', 'e'] rfl ⟨by decide, rfl⟩ ?_
  refine .spaced ['o', 'n'] rfl ⟨by decide, rfl⟩ ?_
  refine .spaced ['T'] rfl ⟨by decide, rfl⟩ ?_
  refine .tight ['\x7b'] rfl rfl ⟨by decide, rfl⟩ ?_
  refine .tight ['n'] rfl rfl ⟨by decide, rfl⟩ ?_
  refine .tight ['\x7d'] rfl rfl ⟨by decide, rfl⟩ ?_
  exact .nil .nil

/-- The text of the query, as an instance of `QueryAccess.Document.renderings_read_back`. -/
theorem titled_read_back :
    titled.isWellFormed = true ∧ titled.Renders titledLexemes ∧
      deepest 0 titledLexemes ≤ maxDepth ∧ Writes false titledLexemes titledText.toList ∧
      Document.ofText titledText = .ok titled := by
  have hdocument : titled.isWellFormed = true := by decide
  have hdeepest : deepest 0 titledLexemes ≤ maxDepth := by decide
  exact ⟨hdocument, renders_titled, hdeepest, writes_titled,
    renderings_read_back hdocument renders_titled hdeepest writes_titled⟩

end Document

end QueryAccess
