import QueryAccess.Proofs.Document.Escapes

/-!
# Block strings

How to write lines so that a block string reads them back: each on a line of its own behind a
common indent, with a backslash before each three quotes in a row
(`QueryAccess.StringLiteral.escapeQuotes`), and the closing quotes on a further line.

**Finding the end.** Three quotes end a block string unless a backslash stands before them. In an
escaped line none is without one: what is left of a longer run of quotes is too short
(`QueryAccess.StringLiteral.exists_of_escapeQuotes`), and the line end keeps it apart from what
follows. So the content is the lines as they were
(`QueryAccess.StringLiteral.blockContent?_written`).

**Taking the indent off.** A line that is not blank and not indented any further makes the indent
of the writing the common one (`QueryAccess.StringLiteral.commonIndent_written`). Then the empty
line before the first line end and the blank one before the closing quotes are all that is
dropped.
-/

namespace QueryAccess

namespace StringLiteral

open Text

/-! ### Writing lines -/

/-- The ways to end a line. -/
inductive LineEnd where
  | feed
  | returnFeed

/-- The characters of a line end. -/
def LineEnd.chars : LineEnd → List Char
  | feed => ['\n']
  | returnFeed => ['\r', '\n']

/-- The line with a backslash before each three quotes in a row, counted from the left. -/
def escapeQuotes : List Char → List Char
  | [] => []
  | '"' :: '"' :: '"' :: rest => '\\' :: '"' :: '"' :: '"' :: escapeQuotes rest
  | c :: rest => c :: escapeQuotes rest

/-- Lines behind an indent, each with a line end before it. -/
def indented (indent : List Char) : List (LineEnd × List Char) → List Char
  | [] => []
  | (lineEnd, line) :: more => lineEnd.chars ++ (indent ++ (line ++ indented indent more))

/-- **How lines are written in a block string**, without the quotes around it. -/
def writtenLines (indent : List Char) (lines : List (LineEnd × List Char)) : List Char :=
  indented indent (lines.map (Prod.map id escapeQuotes))

/-- A line without line ends in it. -/
def IsLine (line : List Char) : Prop := ∀ c ∈ line, isLineEnd c = false

/-- Spaces and tabs. -/
def AreIndent (indent : List Char) : Prop := ∀ c ∈ indent, isIndent c = true

theorem isIndent_iff {c : Char} : isIndent c = true ↔ c = ' ' ∨ c = '\t' := by
  rw [isIndent, Bool.or_eq_true, beq_iff_eq, beq_iff_eq]

/-! ### Finding the end -/

theorem blockContent?_cons {c : Char} {rest : List Char} (hquote : c ≠ '"') (hbackslash : c ≠ '\\') :
    blockContent? (c :: rest) = consTo c (blockContent? rest) := by
  rw [blockContent?]
  · exact fun _ hc _ => hbackslash hc
  · exact fun _ hc _ => hquote hc

/-- A run without quotes and backslashes is content as it stands. -/
theorem blockContent?_plain {run : List Char} (h : ∀ c ∈ run, c ≠ '"' ∧ c ≠ '\\')
    (rest : List Char) : blockContent? (run ++ rest) = appendTo run (blockContent? rest) := by
  induction run with
  | nil => simp
  | cons c run ih =>
    obtain ⟨hquote, hbackslash⟩ := h c (.head _)
    rw [List.cons_append, blockContent?_cons hquote hbackslash, ih fun d hd => h d (.tail _ hd),
      consTo_appendTo]

/-- **A quote at the front of an escaped line** is one of the line's own, and not the first of three. -/
theorem exists_of_escapeQuotes {line rest tail : List Char} (hrest : Parser.Shuns (· == '"') rest)
    (h : escapeQuotes line ++ rest = '"' :: tail) :
    ∃ more, line = '"' :: more ∧ (∀ after, more ≠ '"' :: '"' :: after) ∧
      escapeQuotes more ++ rest = tail := by
  rw [escapeQuotes.eq_def] at h
  split at h
  · rw [List.nil_append] at h
    subst h
    exact nomatch hrest '"' rfl
  · exact nomatch h
  · next c more hthree =>
    obtain ⟨rfl, htail⟩ := List.cons.inj h
    exact ⟨more, rfl, fun after => hthree after rfl, htail⟩

/-- **An escaped line is read as the line**, up to what follows it. -/
theorem blockContent?_escapeQuotes (line : List Char) {rest : List Char}
    (hrest : Parser.Shuns (· == '"') rest) :
    blockContent? (escapeQuotes line ++ rest) = appendTo line (blockContent? rest) := by
  fun_induction escapeQuotes line with
  | case1 => simp
  | case2 line ih =>
    simp only [List.cons_append]
    rw [blockContent?, ih]
    simp only [consTo_appendTo]
  | case3 c line hthree ih =>
    rw [List.cons_append, blockContent?, ih, consTo_appendTo]
    · -- after a backslash there are no three quotes
      rintro tail rfl heq
      obtain ⟨more, rfl, hmore, heq⟩ := exists_of_escapeQuotes hrest heq
      obtain ⟨more, rfl, -, heq⟩ := exists_of_escapeQuotes hrest heq
      obtain ⟨more, rfl, -, -⟩ := exists_of_escapeQuotes hrest heq
      exact hmore more rfl
    · -- nor are there two after a quote
      rintro tail rfl heq
      obtain ⟨more, rfl, -, heq⟩ := exists_of_escapeQuotes hrest heq
      obtain ⟨more, rfl, -, -⟩ := exists_of_escapeQuotes hrest heq
      exact hthree more rfl rfl

theorem LineEnd.plain (lineEnd : LineEnd) : ∀ c ∈ lineEnd.chars, c ≠ '"' ∧ c ≠ '\\' := by
  cases lineEnd <;> decide

theorem AreIndent.plain {indent : List Char} (h : AreIndent indent) :
    ∀ c ∈ indent, c ≠ '"' ∧ c ≠ '\\' := by
  intro c hc
  rcases isIndent_iff.1 (h c hc) with rfl | rfl <;> decide

/-- **What is written on lines is read as the lines**, up to the line end that follows. -/
theorem blockContent?_written {indent : List Char} (hindent : AreIndent indent)
    (lines : List (LineEnd × List Char)) {rest : List Char}
    (hrest : Parser.Shuns (· == '"') rest) :
    blockContent? (writtenLines indent lines ++ rest) =
      appendTo (indented indent lines) (blockContent? rest) := by
  induction lines with
  | nil => exact (appendTo_nil _).symm
  | cons placed lines ih =>
    obtain ⟨lineEnd, line⟩ := placed
    -- a line is followed by a line end, so no quotes of its own run on
    have hnext : Parser.Shuns (· == '"') (writtenLines indent lines ++ rest) := by
      cases lines with
      | nil => exact hrest
      | cons next _ =>
        obtain ⟨_ | _, _⟩ := next <;> exact fun c hc => Option.mem_some.1 hc ▸ rfl
    rw [writtenLines, List.map_cons, Prod.map, id_eq, indented, ← writtenLines]
    simp only [List.append_assoc]
    rw [blockContent?_plain lineEnd.plain, blockContent?_plain hindent.plain,
      blockContent?_escapeQuotes line hnext, ih]
    simp only [appendTo_appendTo, indented]

/-! ### Lines -/

theorem lines_cons {c : Char} {text line : List Char} {more : List (List Char)}
    (hc : isLineEnd c = false) (h : lines text = line :: more) :
    lines (c :: text) = (c :: line) :: more := by
  rw [isLineEnd, Bool.or_eq_false_iff, beq_eq_false_iff_ne, beq_eq_false_iff_ne] at hc
  rw [lines, h]
  · exact fun _ hreturn _ => hc.2 hreturn
  · exact hc.1

theorem lines_lineEnd (lineEnd : LineEnd) (text : List Char) :
    lines (lineEnd.chars ++ text) = [] :: lines text := by
  cases lineEnd <;> rfl

/-- **A line is cut off at its line end.** -/
theorem lines_append {line : List Char} (h : IsLine line) (lineEnd : LineEnd) (text : List Char) :
    lines (line ++ (lineEnd.chars ++ text)) = line :: lines text := by
  induction line with
  | nil => exact lines_lineEnd lineEnd text
  | cons c line ih =>
    rw [List.cons_append, lines_cons (h c (.head _)) (ih fun d hd => h d (.tail _ hd))]

/-- The last line needs no line end; an empty one is none. -/
theorem lines_of_isLine {line : List Char} (h : IsLine line) :
    lines line = if line = [] then [] else [line] := by
  induction line with
  | nil => rfl
  | cons c line ih =>
    have ih := ih fun d hd => h d (.tail _ hd)
    cases line with
    | nil =>
      rw [lines]
      · rfl
      · exact fun _ _ heq => nomatch heq
      · rintro rfl
        exact nomatch h '\n' (.head _)
    | cons d line => exact lines_cons (h c (.head _)) ih

/-- Spaces and tabs are no line ends. -/
theorem AreIndent.isLine {indent : List Char} (h : AreIndent indent) : IsLine indent := by
  intro c hc
  rcases isIndent_iff.1 (h c hc) with rfl | rfl <;> rfl

/-- **The lines of the content**, behind a line that is open. -/
theorem lines_indented {indent line : List Char} (hindent : AreIndent indent)
    (hline : IsLine line) {written : List (LineEnd × List Char)}
    (hwritten : ∀ placed ∈ written, IsLine placed.2) (lineEnd : LineEnd) (text : List Char) :
    lines (line ++ (indented indent written ++ (lineEnd.chars ++ text))) =
      line :: ((written.map Prod.snd).map (indent ++ ·) ++ lines text) := by
  induction written generalizing line with
  | nil => exact lines_append hline lineEnd text
  | cons placed written ih =>
    have hplaced : IsLine (indent ++ placed.2) := by
      intro c hc
      rcases List.mem_append.1 hc with hc | hc
      · exact hindent.isLine c hc
      · exact hwritten placed (.head _) c hc
    have ih := ih hplaced fun other hother => hwritten other (.tail _ hother)
    rw [indented, List.append_assoc, lines_append hline]
    simp only [List.append_assoc] at ih ⊢
    rw [ih]
    rfl

/-! ### Taking the indent off -/

/-- Spaces and tabs are blank. -/
theorem isBlank_of_isIndent {c : Char} (h : isIndent c = true) : isBlank c = true := by
  rcases isIndent_iff.1 h with rfl | rfl <;> decide

theorem isBlankText_append (first second : List Char) :
    isBlankText (first ++ second) = (isBlankText first && isBlankText second) :=
  List.all_append

theorem AreIndent.isBlankText {indent : List Char} (h : AreIndent indent) :
    Text.isBlankText indent = true :=
  List.all_eq_true.2 fun c hc => isBlank_of_isIndent (h c hc)

/-- An indent makes a line neither blank nor not blank. -/
theorem AreIndent.isBlankText_append {indent : List Char} (h : AreIndent indent)
    (line : List Char) : Text.isBlankText (indent ++ line) = Text.isBlankText line := by
  rw [StringLiteral.isBlankText_append, h.isBlankText, Bool.true_and]

theorem AreIndent.indentOf_append {indent : List Char} (h : AreIndent indent)
    (line : List Char) : indentOf (indent ++ line) = indent.length + indentOf line := by
  rw [indentOf, List.takeWhile_append_of_pos h, List.length_append]
  rfl

/-- **The common indent of lines behind an indent** is this indent, if a line that is not blank
goes no further in. Blank lines play no part. -/
theorem commonIndent_written {indent : List Char} (hindent : AreIndent indent)
    {lines blank : List (List Char)} (hblank : ∀ line ∈ blank, isBlankText line = true)
    (hflush : ∃ line ∈ lines, isBlankText line = false ∧ indentOf line = 0) :
    commonIndent (lines.map (indent ++ ·) ++ blank) = indent.length := by
  obtain ⟨line, hline, hfull, hzero⟩ := hflush
  have hleast : (((lines.map (indent ++ ·) ++ blank).filter fun line => !isBlankText line).map
      indentOf).min? = some indent.length := by
    rw [List.min?_eq_some_iff]
    constructor
    · refine List.mem_map.2 ⟨indent ++ line, List.mem_filter.2 ⟨?_, ?_⟩, ?_⟩
      · exact List.mem_append_left _ (List.mem_map_of_mem hline)
      · rw [hindent.isBlankText_append, hfull]
        rfl
      · rw [hindent.indentOf_append, hzero, Nat.add_zero]
    · -- every other line that counts is at least as far in
      intro size hsize
      obtain ⟨other, hother, rfl⟩ := List.mem_map.1 hsize
      obtain ⟨hmem, hfull⟩ := List.mem_filter.1 hother
      rcases List.mem_append.1 hmem with hmem | hmem
      · obtain ⟨other, -, rfl⟩ := List.mem_map.1 hmem
        rw [hindent.indentOf_append]
        exact Nat.le_add_right _ _
      · rw [hblank other hmem] at hfull
        exact nomatch hfull
  rw [commonIndent, hleast, Option.getD_some]

/-- Spaces and tabs have a byte each, so an indent is taken off as a whole. -/
theorem dropBytes_indent {indent : List Char} (h : AreIndent indent) (line : List Char) :
    dropBytes indent.length (indent ++ line) = line := by
  induction indent with
  | nil => cases line <;> rfl
  | cons c indent ih =>
    have hsize : c.utf8Size = 1 := by
      rcases isIndent_iff.1 (h c (.head _)) with rfl | rfl <;> rfl
    rw [List.length_cons, List.cons_append, dropBytes, hsize, if_pos (Nat.le_add_left 1 _),
      Nat.add_sub_cancel, ih fun d hd => h d (.tail _ hd)]

/-- What is left of a blank line is blank. -/
theorem isBlankText_dropBytes (bytes : Nat) {line : List Char} (h : isBlankText line = true) :
    isBlankText (dropBytes bytes line) = true := by
  fun_induction dropBytes bytes line with
  | case1 => exact h
  | case2 => rfl
  | case3 bytes c line _ ih =>
    rw [isBlankText, List.all_cons, Bool.and_eq_true] at h
    exact ih h.2
  | case4 => rfl

/-- **Blank ends are dropped**, and nothing else. -/
theorem dropBlankEnds_eq {before lines after : List (List Char)}
    (hbefore : ∀ line ∈ before, isBlankText line = true)
    (hafter : ∀ line ∈ after, isBlankText line = true)
    (hfirst : ∀ line ∈ lines.head?, isBlankText line = false)
    (hlast : ∀ line ∈ lines.getLast?, isBlankText line = false) (hne : lines ≠ []) :
    dropBlankEnds (before ++ (lines ++ after)) = lines := by
  have hkeep {lines : List (List Char)}
      (hfirst : ∀ line ∈ lines.head?, isBlankText line = false) :
      lines.dropWhile isBlankText = lines := by
    cases lines with
    | nil => rfl
    | cons line lines =>
      exact List.dropWhile_cons_of_neg (Bool.eq_false_iff.1 (hfirst line rfl))
  have hhead : (lines ++ after).dropWhile isBlankText = lines ++ after := by
    refine hkeep fun line hline => hfirst line ?_
    rwa [List.head?_append, List.head?_eq_some_head hne, Option.some_or,
      ← List.head?_eq_some_head hne] at hline
  have hblank : ∀ line ∈ after.reverse, isBlankText line = true :=
    fun line hline => hafter line (List.mem_reverse.1 hline)
  have hlines : lines.reverse.dropWhile isBlankText = lines.reverse :=
    hkeep fun line hline => hlast line (List.head?_reverse ▸ hline)
  rw [dropBlankEnds, List.dropWhile_append_of_pos hbefore, hhead, List.reverse_append,
    List.dropWhile_append_of_pos hblank, hlines, List.reverse_reverse]

/-! ### Block strings -/

theorem indentOf_eq_zero {line : List Char} (h : ∀ c ∈ line.head?, isIndent c = false) :
    indentOf line = 0 := by
  cases line with
  | nil => rfl
  | cons c line =>
    rw [indentOf, List.takeWhile_cons_of_neg (Bool.eq_false_iff.1 (h c rfl))]
    rfl

/-- What is written before the closing quotes makes no line, or a blank one. -/
theorem AreIndent.isBlankText_lines {closing : List Char} (h : AreIndent closing) :
    ∀ line ∈ lines closing, Text.isBlankText line = true := by
  intro line hline
  rw [lines_of_isLine h.isLine] at hline
  split at hline
  · cases hline
  · obtain rfl := List.mem_singleton.1 hline
    exact h.isBlankText

section Written

variable {indent closing : List Char} {written : List (LineEnd × List Char)}

/-- **The layout of written lines** is these lines with a line feed between them. -/
theorem layout_written (hindent : AreIndent indent) (hclosing : AreIndent closing)
    (hlines : ∀ placed ∈ written, IsLine placed.2)
    (hfirst : ∀ placed ∈ written.head?, isBlankText placed.2 = false)
    (hlast : ∀ placed ∈ written.getLast?, isBlankText placed.2 = false)
    (hflush : ∃ placed ∈ written,
      isBlankText placed.2 = false ∧ ∀ c ∈ placed.2.head?, isIndent c = false)
    (lastEnd : LineEnd) :
    layout (indented indent written ++ (lastEnd.chars ++ closing)) =
      joinLines (written.map Prod.snd) := by
  obtain ⟨placed, hplaced, hfull, hhead⟩ := hflush
  have hcut : lines (indented indent written ++ (lastEnd.chars ++ closing)) =
      [] :: ((written.map Prod.snd).map (indent ++ ·) ++ lines closing) := by
    have hopening : IsLine [] := fun _ hc => absurd hc List.not_mem_nil
    exact lines_indented hindent hopening hlines lastEnd closing
  have hcommon : commonIndent ((written.map Prod.snd).map (indent ++ ·) ++ lines closing) =
      indent.length :=
    commonIndent_written hindent hclosing.isBlankText_lines
      ⟨placed.2, List.mem_map_of_mem hplaced, hfull, indentOf_eq_zero hhead⟩
  have hdedent : ((written.map Prod.snd).map (indent ++ ·)).map (dropBytes indent.length) =
      written.map Prod.snd := by
    rw [List.map_map]
    exact (List.map_congr_left fun line _ => dropBytes_indent hindent line).trans (List.map_id _)
  rw [layout, hcut, unindent, hcommon, List.map_append, hdedent]
  congr 1
  -- what is left of the opening line and of the closing one is blank
  have hopening : ∀ line ∈ [([] : List Char)], isBlankText line = true :=
    fun line hline => List.mem_singleton.1 hline ▸ rfl
  refine dropBlankEnds_eq hopening ?_ ?_ ?_ ?_
  · intro line hline
    obtain ⟨blank, hmem, rfl⟩ := List.mem_map.1 hline
    exact isBlankText_dropBytes _ (hclosing.isBlankText_lines blank hmem)
  · intro line hline
    rw [List.head?_map] at hline
    obtain ⟨placed, hmem, rfl⟩ := Option.map_eq_some_iff.1 hline
    exact hfirst placed hmem
  · intro line hline
    rw [List.getLast?_map] at hline
    obtain ⟨placed, hmem, rfl⟩ := Option.map_eq_some_iff.1 hline
    exact hlast placed hmem
  · exact List.ne_nil_of_mem (List.mem_map_of_mem hplaced)

/-- **A block string gives its lines back.** Lines that are not blank at the two ends, one of which
goes no further in than the indent they are all written behind, come back with a line feed between
them, whatever line ends they were written with and whatever quotes and backslashes are in them; and
exactly what follows the closing quotes is left. -/
theorem block_string_lines (hindent : AreIndent indent) (hclosing : AreIndent closing)
    (hlines : ∀ placed ∈ written, IsLine placed.2)
    (hfirst : ∀ placed ∈ written.head?, isBlankText placed.2 = false)
    (hlast : ∀ placed ∈ written.getLast?, isBlankText placed.2 = false)
    (hflush : ∃ placed ∈ written,
      isBlankText placed.2 = false ∧ ∀ c ∈ placed.2.head?, isIndent c = false)
    (lastEnd : LineEnd) (rest : List Char) :
    parser ('"' :: '"' :: '"' :: (writtenLines indent written ++
      (lastEnd.chars ++ (closing ++ '"' :: '"' :: '"' :: rest)))) =
      .ok (String.ofList (List.intercalate ['\n'] (written.map Prod.snd)), rest) := by
  have hcontent : blockContent? (writtenLines indent written ++
      (lastEnd.chars ++ (closing ++ '"' :: '"' :: '"' :: rest))) =
      some (indented indent written ++ (lastEnd.chars ++ closing), rest) := by
    have hnext : Parser.Shuns (· == '"')
        (lastEnd.chars ++ (closing ++ '"' :: '"' :: '"' :: rest)) := by
      cases lastEnd <;> exact fun c hc => Option.mem_some.1 hc ▸ rfl
    rw [blockContent?_written hindent written hnext, blockContent?_plain lastEnd.plain,
      blockContent?_plain hclosing.plain, blockContent?]
    simp [appendTo]
  have hread : read? ('"' :: '"' :: '"' :: (writtenLines indent written ++
      (lastEnd.chars ++ (closing ++ '"' :: '"' :: '"' :: rest)))) =
      some (joinLines (written.map Prod.snd), rest) := by
    rw [read?, hcontent, ← layout_written hindent hclosing hlines hfirst hlast hflush lastEnd]
    rfl
  rw [parser, hread]
  rfl

end Written

/-- Four lines: five quotes, a backslash before three quotes, a line of blanks, and one that goes
further in. -/
def quotedLines : List (LineEnd × List Char) :=
  [(.feed, ['a', '"', '"', '"', '"', '"']), (.returnFeed, ['\\', '"', '"', '"']),
    (.feed, ['\t']), (.feed, [' ', 'b', '\\'])]

/-- The four lines are read behind an indent, with closing quotes further in and a fourth quote
after them. -/
theorem block_string_lines_quoted :
    writtenLines [' '] quotedLines =
        ['\n', ' ', 'a', '\\', '"', '"', '"', '"', '"', '\r', '\n', ' ', '\\', '\\', '"', '"', '"',
          '\n', ' ', '\t', '\n', ' ', ' ', 'b', '\\'] ∧
      parser ('"' :: '"' :: '"' :: (writtenLines [' '] quotedLines ++
        (LineEnd.feed.chars ++ ([' ', '\t'] ++ '"' :: '"' :: '"' :: ['"'])))) =
        .ok (String.ofList ['a', '"', '"', '"', '"', '"', '\n', '\\', '"', '"', '"', '\n', '\t',
          '\n', ' ', 'b', '\\'], ['"']) := by
  have hindent : ∀ c ∈ [' '], isIndent c = true := by decide
  have hclosing : ∀ c ∈ [' ', '\t'], isIndent c = true := by decide
  have hlines : ∀ placed ∈ quotedLines, ∀ c ∈ placed.2, isLineEnd c = false := by decide
  have hflush : isBlankText ['\\', '"', '"', '"'] = false ∧ isIndent '\\' = false := by decide
  refine ⟨rfl, block_string_lines hindent hclosing hlines ?_ ?_ ⟨_, .tail _ (.head _), hflush.1, ?_⟩
    .feed ['"']⟩
  · exact fun placed hplaced => Option.mem_some.1 hplaced ▸ by decide
  · exact fun placed hplaced => Option.mem_some.1 hplaced ▸ by decide
  · exact fun c hc => Option.mem_some.1 hc ▸ hflush.2

end StringLiteral

end QueryAccess
