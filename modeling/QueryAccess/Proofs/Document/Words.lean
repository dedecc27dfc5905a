import QueryAccess.Proofs.Document.Escapes

/-!
# Reading words

Names, numbers and strings are read as long as they go on. Each is read back from its text,
whatever follows, as long as that does not continue it: `QueryAccess.Token.name_append`,
`QueryAccess.Document.number_append` and `QueryAccess.StringLiteral.parser_append`.
-/

namespace QueryAccess

open QueryAccess.Parser Token

theorem shuns_isNamePart {rest : List Char} (h : Shuns continuesWord rest) :
    Shuns isNamePart rest :=
  fun c hc => (Bool.or_eq_false_iff.1 (h c hc)).1

theorem shuns_isDigit {rest : List Char} (h : Shuns continuesWord rest) :
    Shuns Char.isDigit rest :=
  fun c hc => Bool.eq_false_iff.2 fun hdigit => by
    have hname := shuns_isNamePart h c hc
    rw [isNamePart_of_isDigit hdigit] at hname
    exact nomatch hname

/-- **A name is read back.** -/
theorem Token.name_append {text : List Char} (h : IsName text) {rest : List Char}
    (hrest : Shuns isNamePart rest) : name (text ++ rest) = .ok (String.ofList text, rest) := by
  obtain ⟨c, more, rfl, hc, hmore⟩ := h
  rw [name, List.cons_append, bind_apply_ok (satisfy_ok hc),
    bind_apply_ok (run_append hmore hrest)]
  rfl

theorem Token.name_error {text : List Char} (h : Shuns isNameStart text) :
    name text = .error text :=
  bind_apply_error (satisfy_error h)

/-! ### Numbers -/

theorem AreDigits.shuns {digits : List Char} (h : AreDigits digits) {admits : Char → Bool}
    (hall : ∀ c, c.isDigit = true → admits c = false) (rest : List Char) :
    Shuns admits (digits ++ rest) := by
  obtain ⟨c, more, rfl, hc⟩ := h.head
  intro d hd
  obtain rfl := Option.mem_some.1 hd
  exact hall c hc

theorem ne_of_isDigit {c d : Char} (h : c.isDigit = true) (hd : d.isDigit = false) :
    (c == d) = false :=
  beq_eq_false_iff_ne.2 fun heq => by
    rw [heq, hd] at h
    exact nomatch h

namespace Document

theorem minus_append {minus : Option Char} (hminus : ∀ c ∈ minus, c = '-') {rest : List Char}
    (hrest : Shuns (· == '-') rest) :
    opt (char '-') (minus.toList ++ rest) = .ok (minus, rest) := by
  cases minus with
  | none => exact opt_apply_error (char_error hrest)
  | some c =>
    obtain rfl := hminus c rfl
    exact opt_apply_ok (char_ok '-' rest)

/-- A fraction is read back, or left out. -/
theorem fraction_append {fraction : Option (List Char)}
    (hfraction : ∀ digits ∈ fraction, AreDigits digits) {rest : List Char}
    (hrest : Shuns Char.isDigit rest)
    (hstop : ∀ tail, rest = '.' :: tail → Shuns Char.isDigit tail) :
    opt (do
      let _ ← char '.'
      run1 Char.isDigit) ((fraction.map ('.' :: ·)).getD [] ++ rest) = .ok (fraction, rest) := by
  cases fraction with
  | none =>
    rw [Option.map_none, Option.getD_none, List.nil_append]
    cases rest with
    | nil => rfl
    | cons c tail =>
      by_cases hc : c = '.'
      · subst hc
        -- a full stop alone is given back
        exact opt_apply_error
          ((bind_apply_ok (char_ok '.' tail)).trans (run1_error (hstop tail rfl)))
      · refine opt_apply_error (bind_apply_error (char_error ?_))
        intro d hd
        obtain rfl := Option.mem_some.1 hd
        exact beq_eq_false_iff_ne.2 hc
  | some digits =>
    obtain ⟨hne, hdigits⟩ := hfraction digits rfl
    rw [Option.map_some, Option.getD_some, List.cons_append]
    refine opt_apply_ok ?_
    rw [bind_apply_ok (char_ok '.' _)]
    exact run1_append hne hdigits hrest

theorem sign_append {sign : Option Char} (hsign : ∀ c ∈ sign, c = '+' ∨ c = '-')
    {rest : List Char} (hrest : Shuns (fun c => c == '+' || c == '-') rest) :
    opt (satisfy fun c => c == '+' || c == '-') (sign.toList ++ rest) = .ok (sign, rest) := by
  cases sign with
  | none => exact opt_apply_error (satisfy_error hrest)
  | some c =>
    refine opt_apply_ok (satisfy_ok ?_)
    rcases hsign c rfl with rfl | rfl <;> rfl

/-- An exponent is read back, or left out. -/
theorem exponent_append (exponent : Option ExponentText) {rest : List Char}
    (hrest : Shuns continuesWord rest) :
    opt (do
      let mark ← satisfy fun c => c == 'e' || c == 'E'
      let sign ← opt (satisfy fun c => c == '+' || c == '-')
      let digits ← run1 Char.isDigit
      return mark :: sign.toList ++ digits) ((exponent.map ExponentText.chars).getD [] ++ rest) =
      .ok (exponent.map ExponentText.chars, rest) := by
  cases exponent with
  | none =>
    refine opt_apply_error (bind_apply_error (satisfy_error ?_))
    intro c hc
    have hname := shuns_isNamePart hrest c hc
    refine Bool.eq_false_iff.2 fun hmark => ?_
    rw [Bool.or_eq_true, beq_iff_eq, beq_iff_eq] at hmark
    rcases hmark with rfl | rfl <;> exact nomatch hname
  | some exponent =>
    have hmark : (exponent.mark == 'e' || exponent.mark == 'E') = true := by
      rcases exponent.mark_eq with hmark | hmark <;> rw [hmark] <;> rfl
    have hdigits : Shuns (fun c => c == '+' || c == '-') (exponent.digits ++ rest) :=
      exponent.digits_ok.shuns (fun c hc =>
        Bool.or_eq_false_iff.2 ⟨ne_of_isDigit hc rfl, ne_of_isDigit hc rfl⟩) rest
    rw [Option.map_some, Option.getD_some, ExponentText.chars, List.append_assoc]
    refine opt_apply_ok ?_
    rw [List.cons_append, bind_apply_ok (satisfy_ok hmark),
      bind_apply_ok (sign_append exponent.sign_eq hdigits),
      bind_apply_ok (run1_append exponent.digits_ok.1 exponent.digits_ok.2 (shuns_isDigit hrest))]
    rfl

/-- **A number is read back.** -/
theorem number_append (parts : NumberText) {rest : List Char} (hrest : Shuns continuesWord rest)
    (hstop : ∀ tail, rest = '.' :: tail → Shuns Char.isDigit tail) :
    number (parts.chars ++ rest) =
      .ok (if parts.isFloat then .float (String.ofList parts.chars)
        else .int (String.ofList parts.chars), rest) := by
  -- what follows the whole digits, and what follows the fraction
  have hexponent : Shuns Char.isDigit ((parts.exponent.map ExponentText.chars).getD [] ++ rest) ∧
      ∀ tail, (parts.exponent.map ExponentText.chars).getD [] ++ rest = '.' :: tail →
        Shuns Char.isDigit tail := by
    cases hcase : parts.exponent with
    | none => exact ⟨shuns_isDigit hrest, hstop⟩
    | some exponent =>
      have hmark := exponent.mark_eq
      refine ⟨fun c hc => ?_, fun tail htail => ?_⟩
      · obtain rfl := Option.mem_some.1 hc
        rcases hmark with hmark | hmark <;> rw [hmark] <;> rfl
      · rw [(List.cons.inj htail).1] at hmark
        exact absurd hmark (by decide)
  have hfraction : Shuns Char.isDigit ((parts.fraction.map ('.' :: ·)).getD [] ++
      ((parts.exponent.map ExponentText.chars).getD [] ++ rest)) := by
    cases parts.fraction with
    | none => exact hexponent.1
    | some digits =>
      intro c hc
      obtain rfl := Option.mem_some.1 hc
      rfl
  have hwhole := parts.whole_ok.shuns (fun c hc => ne_of_isDigit hc (d := '-') rfl)
    ((parts.fraction.map ('.' :: ·)).getD [] ++
      ((parts.exponent.map ExponentText.chars).getD [] ++ rest))
  rw [number, NumberText.chars]
  simp only [List.append_assoc]
  rw [bind_apply_ok (minus_append parts.minus_eq hwhole),
    bind_apply_ok (run1_append parts.whole_ok.1 parts.whole_ok.2 hfraction),
    bind_apply_ok (fraction_append parts.fraction_ok hexponent.1 hexponent.2),
    bind_apply_ok (exponent_append parts.exponent hrest), pure_apply, Option.isSome_map]
  rfl

theorem number_error {text : List Char} (h : Shuns (fun c => c == '-' || c.isDigit) text) :
    number text = .error text := by
  have hminus : Shuns (· == '-') text := fun c hc => (Bool.or_eq_false_iff.1 (h c hc)).1
  have hdigit : Shuns Char.isDigit text := fun c hc => (Bool.or_eq_false_iff.1 (h c hc)).2
  rw [number, bind_apply_ok (opt_apply_error (char_error hminus))]
  exact bind_apply_error (run1_error hdigit)

end Document

/-! ### Strings -/

namespace StringLiteral

open Text

/-- The inside of a string is read back. -/
theorem unquote?_append {text body : List Char} (h : Quoted text body) (rest : List Char) :
    unquote? admits (body ++ rest) = some (text, rest) := by
  obtain ⟨spelt, hspells, rfl⟩ := quoted_iff_spells.1 h
  rw [List.append_assoc, unquote?_spells hspells, List.singleton_append, unquote?]
  simp [appendTo]

/-- **A string is read back.** -/
theorem parser_append {text body : List Char} (h : Quoted text body) {rest : List Char}
    (hrest : Shuns (· == '"') rest) :
    parser ('"' :: body ++ rest) = .ok (String.ofList text, rest) := by
  have hread : read? ('"' :: body ++ rest) = some (text, rest) := by
    rw [List.cons_append, read?]
    · exact unquote?_append h rest
    · exact h.single hrest
  rw [parser, hread]

theorem parser_error {text : List Char} (h : Shuns (· == '"') text) :
    parser text = .error text := by
  have hread : read? text = none := by
    cases text with
    | nil => rfl
    | cons c rest =>
      have hc : c ≠ '"' := beq_eq_false_iff_ne.1 (h c rfl)
      rw [read?]
      · exact fun _ heq => hc (List.cons.inj heq).1
      · exact fun _ heq => hc (List.cons.inj heq).1
  rw [parser, hread]

end StringLiteral

end QueryAccess
