import QueryAccess.Proofs.Document.Reading

/-!
# Reading values back

Values, and what is made of them: arguments, directives, types and variable definitions. Each
is read from its lexemes, with no more levels than it has lexemes, for every level reads a
bracket of its own.
-/

namespace QueryAccess

open QueryAccess.Parser Token

namespace Document

/-! ### Values -/

section Values

variable {inner : Parser Value}

/-- The alternatives of a value, after the ignored run. -/
def valueHere (inner : Parser Value) : Parser Value :=
  (Value.variable <$> variableName) <|>
  number <|>
  (Value.string <$> StringLiteral.parser) <|>
  (Value.list <$> between (char '[') (many inner) (mark ']')) <|>
  (Value.object <$> between (char '\x7b') (many (namedValue inner)) (mark '\x7d')) <|>
  (valueOfName <$> name)

/-- Whether a character is the sign of a number or a digit of it. -/
def opensNumber (c : Char) : Bool := c == '-' || c.isDigit

theorem needs_variable : Needs (Value.variable <$> variableName) (· == '$') :=
  (Needs.bind (needs_char '$')).map _

theorem needs_number : Needs number opensNumber := fun text h => ⟨text, number_error h⟩

theorem needs_string : Needs (Value.string <$> StringLiteral.parser) (· == '"') :=
  Needs.map (fun text h => ⟨text, StringLiteral.parser_error h⟩) _

theorem needs_list :
    Needs (Value.list <$> between (char '[') (many inner) (mark ']')) (· == '[') :=
  (needs_char '[').between.map _

theorem needs_object :
    Needs (Value.object <$> between (char '\x7b') (many (namedValue inner)) (mark '\x7d'))
      (· == '\x7b') :=
  (needs_char '\x7b').between.map _

/-- Whether a value can begin with a character. -/
def opensValue (c : Char) : Bool :=
  c == '$' || (opensNumber c || (c == '"' || (c == '[' || (c == '\x7b' || isNameStart c))))

/-- No value begins otherwise. -/
theorem needs_value : Needs (valueHere inner) opensValue :=
  needs_variable.orElse <| needs_number.orElse <| needs_string.orElse <| needs_list.orElse <|
    needs_object.orElse <| needs_name.map _

theorem fails_value (levels : Nat) : Fails (value levels) (Avoids opensValue) := by
  cases levels with
  | zero => exact fun _ _ text _ _ => ⟨text, rfl⟩
  | succ levels => exact Needs.fails_ignored fun _ => needs_value

theorem opensNumber_of_isNameStart {c : Char} (h : isNameStart c = true) :
    opensNumber c = false := by
  have hall : ∀ n < 128, isNameStart (Char.ofNat n) = true →
      opensNumber (Char.ofNat n) = false := by decide +kernel
  exact forall_ascii (p := fun c => isNameStart c = true → opensNumber c = false) hall
    (toNat_lt_of_isNamePart (isNamePart_of_isNameStart h)) h

/-- A name is no other value. -/
theorem onSpot_valueOfName (written : String) :
    ReadsOnSpot (valueHere inner) (valueOfName written) (.name written) [] anything :=
  .orElse_second needs_variable (avoids_char rfl) <|
    .orElse_second needs_number (avoids_cons fun _ => opensNumber_of_isNameStart) <|
    .orElse_second needs_string (avoids_char rfl) <|
    .orElse_second needs_list (avoids_char rfl) <|
    .orElse_second needs_object (avoids_char rfl) <|
    (onSpot_name written).map valueOfName

theorem onSpot_valueOfNumber (written : String) (isFloat : Bool) :
    ReadsOnSpot (valueHere inner) (if isFloat then .float written else .int written)
      (.number written isFloat) [] anything :=
  .orElse_second needs_variable (avoids_char rfl) <| (onSpot_number written isFloat).orElse

theorem onSpot_valueOfString (written : String) :
    ReadsOnSpot (valueHere inner) (.string written) (.string written) [] anything :=
  .orElse_second needs_variable (avoids_char rfl) <|
    .orElse_second needs_number (avoids_cons fun _ hd => eq_of_beq hd ▸ rfl) <|
    ((onSpot_string written).map Value.string).orElse

theorem onSpot_valueOfVariable (written : String) :
    ReadsOnSpot (valueHere inner) (.variable written) (.signed '$' written) [] anything :=
  ((onSpot_signed '$' written).map Value.variable).orElse

/-- A list is read if its elements are. -/
theorem onSpot_valueOfList {items : List Value} {written : List Placed} {follow : Follow}
    (h : Reads (many inner) items written follow)
    (hclosing : ∀ more, follow (.mark ']' :: more)) :
    ReadsOnSpot (valueHere inner) (.list items) (.mark '[') (written ++ [.mark ']']) anything :=
  .orElse_second needs_variable (avoids_char rfl) <|
    .orElse_second needs_number (avoids_mark rfl) <|
    .orElse_second needs_string (avoids_char rfl) <|
    ((h.onSpot_between hclosing).map Value.list).orElse

/-- An object is read if its fields are. -/
theorem onSpot_valueOfObject {fields : List Argument} {written : List Placed} {follow : Follow}
    (h : Reads (many (namedValue inner)) fields written follow)
    (hclosing : ∀ more, follow (.mark '\x7d' :: more)) :
    ReadsOnSpot (valueHere inner) (.object fields) (.mark '\x7b') (written ++ [.mark '\x7d'])
      anything :=
  .orElse_second needs_variable (avoids_char rfl) <|
    .orElse_second needs_number (avoids_mark rfl) <|
    .orElse_second needs_string (avoids_char rfl) <|
    .orElse_second needs_list (avoids_char rfl) <|
    ((h.onSpot_between hclosing).map Value.object).orElse

/-- A named value is read if its value is, and its comment with it. -/
theorem reads_namedValue {value : Value} {written : List Placed}
    (h : Reads inner value written anything) (comment : Option String) (label : String) :
    Reads (namedValue inner) (.mk comment label value)
      ((Lexeme.name label).after comment :: .mark ':' :: written) anything := by
  refine Reads.ignored fun found hfound => ?_
  obtain rfl := hfound comment rfl
  have hvalue : Reads (do
      let read ← inner
      return Argument.mk found label read) (.mk found label value) (written ++ []) anything :=
    h.bind (reads_pure _ anything) fun _ _ => trivial
  rw [List.append_nil] at hvalue
  exact (onSpot_name label).bind ((reads_mark ':').bind hvalue fun _ _ => trivial)
    fun _ _ => trivial

theorem fails_namedValue (inner : Parser Value) :
    Fails (namedValue inner) (Avoids isNameStart) :=
  Needs.fails_ignored fun _ => needs_name.bind

theorem valueOfName_enum {written : String}
    (h : (Value.enum written).isWellFormed = true) : valueOfName written = .enum written := by
  rw [valueOfName]
  · rintro rfl
    exact absurd h (by decide)
  · rintro rfl
    exact absurd h (by decide)
  · rintro rfl
    exact absurd h (by decide)

/-- A value is read, if its first lexeme and the rest are once a level is entered. -/
theorem reads_value_of {v : Value} {lexeme : Lexeme} {items : List Placed} {levels : Nat}
    (hlevels : (lexeme.plain :: items).length ≤ levels)
    (h : ∀ inner, inner + 1 = levels →
      ReadsOnSpot (valueHere (value inner)) v lexeme items anything) :
    Reads (value levels) v (lexeme.plain :: items) anything := by
  obtain ⟨inner, rfl⟩ : ∃ inner, levels = inner + 1 :=
    ⟨levels - 1, by rw [List.length_cons] at hlevels; omega⟩
  exact Reads.ignored fun _ _ => h inner rfl

mutual

/-- **A value is read back** with as many levels as it has lexemes. -/
theorem reads_value : ∀ (v : Value) {levels : Nat}, v.isWellFormed = true →
    v.lexemes.length ≤ levels → Reads (value levels) v v.lexemes anything
  | .variable name, _, _, hlevels => reads_value_of hlevels fun _ _ => onSpot_valueOfVariable name
  | .int text, _, _, hlevels => reads_value_of hlevels fun _ _ => onSpot_valueOfNumber text false
  | .float text, _, _, hlevels => reads_value_of hlevels fun _ _ => onSpot_valueOfNumber text true
  | .string text, _, _, hlevels => reads_value_of hlevels fun _ _ => onSpot_valueOfString text
  | .boolean true, _, _, hlevels => reads_value_of hlevels fun _ _ => onSpot_valueOfName "true"
  | .boolean false, _, _, hlevels => reads_value_of hlevels fun _ _ => onSpot_valueOfName "false"
  | .null, _, _, hlevels => reads_value_of hlevels fun _ _ => onSpot_valueOfName "null"
  | .enum name, _, hname, hlevels => reads_value_of hlevels fun _ _ => by
    rw [← valueOfName_enum hname]
    exact onSpot_valueOfName name
  | .list items, _, hitems, hlevels => reads_value_of hlevels fun inner hinner => by
    have hlength : (lexemesOfItems items).length ≤ inner := by
      rw [Value.lexemes, length_enclosed] at hlevels
      omega
    have hread := many_reads_flatMap (fails_value inner) (fun _ _ => trivial)
      (reads_items items hitems hlength)
    rw [← lexemesOfItems_eq] at hread
    exact onSpot_valueOfList hread fun _ => avoids_mark rfl
  | .object fields, _, hfields, hlevels => reads_value_of hlevels fun inner hinner => by
    have hlength : (lexemesOfArguments fields).length ≤ inner := by
      rw [Value.lexemes, length_enclosed] at hlevels
      omega
    have hread := many_reads_flatMap (fails_namedValue (value inner)) (fun _ _ => trivial)
      (reads_arguments fields hfields hlength)
    rw [← lexemesOfArguments_eq] at hread
    exact onSpot_valueOfObject hread fun _ => avoids_mark rfl

theorem reads_items : ∀ (items : List Value) {levels : Nat}, areWellFormedItems items = true →
    (lexemesOfItems items).length ≤ levels →
      ∀ v ∈ items, ReadsEach (value levels) anything v v.lexemes
  | [], _, _, _ => fun _ hv => absurd hv List.not_mem_nil
  | first :: rest, _, hitems, hlevels => by
    rw [areWellFormedItems, Bool.and_eq_true] at hitems
    rw [lexemesOfItems, List.length_append] at hlevels
    refine List.forall_mem_cons.2 ⟨⟨?_, fun _ => trivial, first.lexemes_ne_nil⟩, ?_⟩
    · exact reads_value first hitems.1 (by omega)
    · exact reads_items rest hitems.2 (by omega)

theorem reads_arguments : ∀ (arguments : List Argument) {levels : Nat},
    areWellFormedArguments arguments = true → (lexemesOfArguments arguments).length ≤ levels →
      ∀ argument ∈ arguments,
        ReadsEach (namedValue (value levels)) anything argument argument.lexemes
  | [], _, _, _ => fun _ hargument => absurd hargument List.not_mem_nil
  | .mk comment name first :: rest, _, harguments, hlevels => by
    rw [areWellFormedArguments, Bool.and_eq_true] at harguments
    rw [lexemesOfArguments, Argument.lexemes, List.length_append, List.length_cons,
      List.length_cons] at hlevels
    refine List.forall_mem_cons.2 ⟨⟨?_, fun _ => trivial, List.cons_ne_nil _ _⟩, ?_⟩
    · exact reads_namedValue (reads_value first harguments.1 (by omega)) comment name
    · exact reads_arguments rest harguments.2 (by omega)

end

end Values

/-! ### Arguments and directives -/

section Directives

variable {levels : Nat}

theorem fails_arguments (levels : Nat) : Fails (arguments levels) (Avoids (· == '(')) :=
  (fails_mark '(').bind

theorem fails_directive (levels : Nat) : Fails (directive levels) (Avoids (· == '@')) :=
  (fails_mark '@').bind

/-- **Arguments are read back**, in their parentheses. -/
theorem reads_optional_arguments {written : List Argument}
    (hwritten : areWellFormedArguments written = true)
    (hlevels : (written.flatMap Argument.lexemes).length ≤ levels) :
    ∃ found, found.getD [] = written ∧
      Reads (opt (arguments levels)) found (optional '(' ')' Argument.lexemes written)
        (Avoids (· == '(')) := by
  refine reads_optional (fun hne => ?_) (fails_arguments levels)
  rw [← lexemesOfArguments_eq] at hlevels
  have hread := many1_reads_flatMap (fails_namedValue (value levels)) (fun _ _ => trivial) hne
    (reads_arguments written hwritten hlevels)
  exact hread.between_marks fun _ => avoids_mark rfl

/-- **A directive is read back.** -/
theorem reads_directive (written : Directive) (hwritten : written.isWellFormed = true)
    (hlevels : written.lexemes.length ≤ levels) :
    Reads (directive levels) written written.lexemes (Avoids (· == '(')) := by
  obtain ⟨name, arguments⟩ := written
  have hlength : (arguments.flatMap Argument.lexemes).length ≤ levels := by
    refine Nat.le_trans (length_le_optional '(' ')' _ _) (Nat.le_trans ?_ hlevels)
    exact Nat.le_succ _
  obtain ⟨found, rfl, hread⟩ := reads_optional_arguments hwritten hlength
  refine reads_signed ?_
  exact hread.map fun read => Directive.mk name (read.getD [])

/-- What stops directives: neither another one, nor arguments of the last. -/
def directiveEnds : List Char := ['@', '(']

/-- **Directives are read back.** -/
theorem reads_directives {written : List Directive}
    (hwritten : written.all Directive.isWellFormed = true)
    (hlevels : (written.flatMap Directive.lexemes).length ≤ levels) :
    Reads (directives levels) written (written.flatMap Directive.lexemes)
      (Avoids directiveEnds.contains) := by
  have hfails : Fails (directive levels) (Avoids directiveEnds.contains) :=
    (fails_directive levels).mono fun _ h => h.of_mem rfl
  have hbetween : ∀ more, Avoids directiveEnds.contains more → Avoids (· == '(') more :=
    fun _ h => h.of_mem rfl
  refine many_reads_flatMap hfails hbetween fun d hd => ?_
  refine ⟨reads_directive d (List.all_eq_true.1 hwritten d hd) ?_, fun _ => avoids_signed rfl,
    List.cons_ne_nil _ _⟩
  exact Nat.le_trans ((List.sublist_flatten_of_mem (List.mem_map_of_mem hd)).length_le) hlevels

end Directives

/-! ### Types -/

section Types

variable {element : Parser TypeRef}

/-- The alternatives of a type, before the mark that it has a value. -/
def baseType (element : Parser TypeRef) : Parser TypeRef :=
  (TypeRef.list <$> between (mark '[') element (mark ']')) <|> (TypeRef.named <$> tokenName)

theorem reads_baseType_named (written : String) :
    Reads (baseType element) (.named written) [.name written] anything := by
  have hlist : Fails (TypeRef.list <$> between (mark '[') element (mark ']')) (Avoids (· == '[')) :=
    (fails_mark '[').bind.bind
  exact Reads.orElse_second hlist (fun _ => avoids_char rfl)
    ((reads_tokenName written).map TypeRef.named)

theorem reads_baseType_list {type : TypeRef} {written : List Placed}
    (h : Reads element type written (Avoids (· == '!'))) :
    Reads (baseType element) (.list type) (enclosed '[' ']' written) anything :=
  ((h.between_marks fun _ => avoids_mark rfl).map TypeRef.list).orElse

theorem reads_typeOver {type : TypeRef} {written : List Placed}
    (h : Reads (baseType element) type written anything) :
    Reads (typeOver element) type written (Avoids (· == '!')) ∧
      Reads (typeOver element) (.nonNull type) (written ++ [.mark '!']) (Avoids (· == '!')) := by
  have hwithout : Reads (typeOver element) type (written ++ []) (Avoids (· == '!')) := by
    refine h.bind ?_ fun _ _ => trivial
    exact (fails_mark '!').opt.map fun bang => if bang.isSome then TypeRef.nonNull type else type
  have hwith : Reads (typeOver element) (.nonNull type) (written ++ [.mark '!'])
      (Avoids (· == '!')) := by
    refine h.bind ?_ fun _ _ => trivial
    exact ((reads_mark '!').mono fun _ _ => trivial).opt.map fun bang =>
      if bang.isSome then TypeRef.nonNull type else type
  rw [List.append_nil] at hwithout
  exact ⟨hwithout, hwith⟩

theorem TypeRef.lexemes_pos (type : TypeRef) : 0 < type.lexemes.length := by
  induction type with
  | named _ | list _ _ => exact Nat.succ_pos _
  | nonNull _ _ =>
    rw [TypeRef.lexemes, List.length_append]
    exact Nat.succ_pos _

/-- **A type is read back** with as many levels as it has lexemes. -/
theorem reads_type : ∀ (type : TypeRef) {levels : Nat}, type.isWellFormed = true →
    type.lexemes.length ≤ levels → Reads (typeRef levels) type type.lexemes (Avoids (· == '!'))
  | type, 0, _, hlevels => absurd hlevels (Nat.not_le.2 (TypeRef.lexemes_pos type))
  | .named written, _ + 1, _, _ => (reads_typeOver (reads_baseType_named written)).1
  | .nonNull (.named written), _ + 1, _, _ => (reads_typeOver (reads_baseType_named written)).2
  | .list element, levels + 1, helement, hlevels => by
    have hlength : element.lexemes.length ≤ levels := by
      rw [TypeRef.lexemes, length_enclosed] at hlevels
      omega
    exact (reads_typeOver (reads_baseType_list (reads_type element helement hlength))).1
  | .nonNull (.list element), levels + 1, helement, hlevels => by
    have hlength : element.lexemes.length ≤ levels := by
      rw [TypeRef.lexemes, TypeRef.lexemes, List.length_append, length_enclosed] at hlevels
      omega
    exact (reads_typeOver (reads_baseType_list (reads_type element helement hlength))).2
  | .nonNull (.nonNull _), _, hbase, _ => nomatch hbase

end Types

/-! ### Variable definitions -/

section Variables

variable {levels : Nat}

theorem fails_variableDefinition (levels : Nat) :
    Fails (variableDefinition levels) (Avoids (· == '$')) :=
  (fails_mark '$').bind

/-- What stops a variable definition. -/
def definitionEnds : List Char := ['!', '=', '@', '(']

/-- A default is read back, or left out. -/
theorem reads_default {written : Option Value} (hwritten : written.all Value.isWellFormed = true)
    (hlevels : (lexemesOfDefault written).length ≤ levels) :
    Reads (opt do
      let _ ← mark '='
      value levels) written (lexemesOfDefault written) (Avoids (· == '=')) := by
  cases written with
  | none => exact (fails_mark '=').bind.opt
  | some written =>
    rw [lexemesOfDefault, List.length_cons] at hlevels
    have hread := (reads_mark '=').bind (f := fun _ => value levels)
      (reads_value written hwritten (Nat.le_of_succ_le hlevels)) fun _ _ => trivial
    exact (hread.mono fun _ _ => trivial).opt

/-- **A variable definition is read back.** -/
theorem reads_variableDefinition (written : VariableDefinition)
    (hwritten : written.isWellFormed = true) (hlevels : written.lexemes.length ≤ levels) :
    Reads (variableDefinition levels) written written.lexemes
      (Avoids definitionEnds.contains) := by
  obtain ⟨name, type, default⟩ := written
  rw [VariableDefinition.isWellFormed, Bool.and_eq_true] at hwritten
  simp only [VariableDefinition.lexemes, List.length_cons, List.length_append] at hlevels
  refine reads_signed ?_
  refine (reads_mark ':').bind ?_ fun _ _ => trivial
  have hdefault : (lexemesOfDefault default).length ≤ levels := by omega
  -- directives are read and dropped, and the document has none to write here
  have hnone : Reads (directives levels) [] [] (Avoids directiveEnds.contains) :=
    reads_directives rfl (Nat.zero_le _)
  refine (reads_type type hwritten.1 (by omega)).bind ?_ fun more hmore => ?_
  · rw [← List.append_nil (lexemesOfDefault default)]
    refine (reads_default hwritten.2 hdefault).bind ?_ fun more hmore => hmore.of_mem rfl
    exact (hnone.mono fun more hmore => hmore.subset (by decide)).map
      fun _ => VariableDefinition.mk name type default
  · cases default with
    | none => exact hmore.of_mem rfl
    | some default => exact avoids_mark rfl

end Variables

end Document

end QueryAccess
