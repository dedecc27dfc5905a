import Mathlib.Data.List.Forall2
import QueryAccess.Proofs.Document.Rendering
import QueryAccess.Proofs.Document.Words

/-!
# Reading what is written

A parser *reads* a value from lexemes (`QueryAccess.Reads`) if it reads it from every text
that is written with them and stops right after them, so that what is written next can be read
from there. What is written next may matter: a parser that goes on while it can has to be
stopped. So reading is relative to a condition on the lexemes that follow, mostly that they do
not begin with certain characters (`QueryAccess.Avoids`).

Reading goes along the combinators. What a sequence reads is written with the lexemes of its
parts; an optional part and a repetition also need that the parser fails on what follows
(`QueryAccess.Fails`). Where a parser has skipped the ignored run itself, and goes on at the
lexeme, it reads *on the spot* (`QueryAccess.ReadsOnSpot`).
-/

namespace QueryAccess

open QueryAccess.Parser Token

variable {α β γ : Type}

/-- A condition on the lexemes that follow. -/
abbrev Follow : Type := List Placed → Prop

/-- Whatever follows. -/
def anything : Follow := fun _ => True

/-- What follows does not begin with a character of a class. -/
def Avoids (admits : Char → Bool) : Follow :=
  fun items => ∀ placed ∈ items.head?, ∀ c, admits c = true → placed.lexeme.opens c = false

/-- **A parser reads a value from lexemes.** -/
def Reads (p : Parser α) (a : α) (items : List Placed) (follow : Follow) : Prop :=
  ∀ ⦃word : Bool⦄ ⦃more : List Placed⦄ ⦃text : List Char⦄, follow more →
    Writes word (items ++ more) text →
      ∃ after rest, p text = .ok (a, rest) ∧ Writes after more rest

/-- A parser reads a value from a lexeme, which is next in the text, and the lexemes after it. -/
def ReadsOnSpot (p : Parser α) (a : α) (lexeme : Lexeme) (items : List Placed)
    (follow : Follow) : Prop :=
  ∀ ⦃more : List Placed⦄ ⦃spelled text : List Char⦄, follow more → lexeme.Spells spelled →
    Writes lexeme.endsWord (items ++ more) text →
      ∃ after rest, p (spelled ++ text) = .ok (a, rest) ∧ Writes after more rest

/-- A parser fails on lexemes of which a condition holds. -/
def Fails (p : Parser α) (follow : Follow) : Prop :=
  ∀ ⦃word : Bool⦄ ⦃items : List Placed⦄ ⦃text : List Char⦄, follow items →
    Writes word items text → ∃ place, p text = .error place

/-- A parser needs a character of a class at the front of a text. -/
def Needs (p : Parser α) (admits : Char → Bool) : Prop :=
  ∀ ⦃text : List Char⦄, Shuns admits text → ∃ place, p text = .error place

/-! ### What follows -/

section Follow

variable {admits wider : Char → Bool} {items more : List Placed} {c : Char}
  {comment : Option (Option String)}

theorem Avoids.mono (h : Avoids wider items) (hwider : ∀ c, admits c = true → wider c = true) :
    Avoids admits items :=
  fun placed hplaced c hc => h placed hplaced c (hwider c hc)

theorem Avoids.of_mem {cs : List Char} (h : Avoids cs.contains items)
    (hc : cs.contains c = true) : Avoids (· == c) items :=
  h.mono fun _ hd => eq_of_beq hd ▸ hc

theorem Avoids.subset {small large : List Char} (h : Avoids large.contains items)
    (hsubset : small ⊆ large) : Avoids small.contains items :=
  h.mono fun _ hc => List.contains_iff_mem.2 (hsubset (List.contains_iff_mem.1 hc))

theorem avoids_nil (admits : Char → Bool) : Avoids admits [] :=
  fun _ h => absurd h (Option.not_mem_none _)

theorem avoids_cons {lexeme : Lexeme} (h : ∀ c, lexeme.opens c = true → admits c = false) :
    Avoids admits (⟨lexeme, comment⟩ :: more) := by
  intro placed hplaced c hc
  obtain rfl := Option.mem_some.1 hplaced
  refine Bool.eq_false_iff.2 fun hopens => ?_
  rw [h c hopens] at hc
  exact nomatch hc

theorem avoids_char {lexeme : Lexeme} (h : lexeme.opens c = false) :
    Avoids (· == c) (⟨lexeme, comment⟩ :: more) := by
  refine avoids_cons fun d hd => beq_eq_false_iff_ne.2 ?_
  rintro rfl
  rw [h] at hd
  exact nomatch hd

theorem avoids_mark (h : admits c = false) : Avoids admits (⟨.mark c, comment⟩ :: more) :=
  avoids_cons fun _ hd => eq_of_beq (Bool.and_eq_true _ _ ▸ hd).2 ▸ h

theorem avoids_signed {written : String} (h : admits c = false) :
    Avoids admits (⟨.signed c written, comment⟩ :: more) :=
  avoids_cons fun _ hd => eq_of_beq (Bool.and_eq_true _ _ ▸ hd).2 ▸ h

theorem avoids_ellipsis (h : admits '.' = false) :
    Avoids admits (⟨.ellipsis, comment⟩ :: more) :=
  avoids_cons fun _ hd => eq_of_beq hd ▸ h

theorem ne_of_isNameStart {d : Char} (h : isNameStart d = false) :
    ∀ c, isNameStart c = true → (c == d) = false := by
  intro c hc
  refine beq_eq_false_iff_ne.2 ?_
  rintro rfl
  rw [h] at hc
  exact nomatch hc

/-- No name begins with one of these characters. -/
theorem not_isNameStart {cs : List Char} (h : ∀ c ∈ cs, isNameStart c = false) :
    ∀ c, isNameStart c = true → cs.contains c = false := by
  intro c hc
  refine Bool.eq_false_iff.2 fun hmem => ?_
  rw [h c (List.contains_iff_mem.1 hmem)] at hc
  exact nomatch hc

/-- The front of a text is known after the ignored run. -/
theorem Writes.shuns {word : Bool} {text : List Char} (h : Writes word items text)
    (hitems : Avoids admits items) :
    ∃ comment rest, Token.ignored text = .ok (comment, rest) ∧ Shuns admits rest := by
  cases items with
  | nil =>
    obtain ⟨comment, hread⟩ := h.ignored_nil
    exact ⟨comment, [], hread, fun c hc => absurd hc (Option.not_mem_none c)⟩
  | cons placed more =>
    obtain ⟨comment, spelled, rest, hread, _, hspell, _⟩ := h.ignored
    obtain ⟨c, tail, rfl, hc⟩ := hspell.opens
    refine ⟨comment, _, hread, fun d hd => ?_⟩
    obtain rfl := Option.mem_some.1 hd
    refine Bool.eq_false_iff.2 fun hadmits => ?_
    rw [hitems placed rfl c hadmits] at hc
    exact nomatch hc

end Follow

/-! ### Failing -/

section Fail

variable {p q : Parser α} {follow : Follow} {admits other : Char → Bool}

theorem Needs.bind {f : α → Parser β} (h : Needs p admits) : Needs (p >>= f) admits := by
  intro text htext
  obtain ⟨place, hplace⟩ := h htext
  exact ⟨place, bind_apply_error hplace⟩

theorem Needs.map (h : Needs p admits) (f : α → β) : Needs (f <$> p) admits := h.bind

theorem Needs.between {opening : Parser β} {closing : Parser γ} (h : Needs opening admits) :
    Needs (between opening p closing) admits := h.bind

theorem Needs.orElse (hp : Needs p admits) (hq : Needs q other) :
    Needs (p <|> q) fun c => admits c || other c := by
  intro text htext
  obtain ⟨place, hplace⟩ := hp fun c hc => (Bool.or_eq_false_iff.1 (htext c hc)).1
  obtain ⟨place', hplace'⟩ := hq fun c hc => (Bool.or_eq_false_iff.1 (htext c hc)).2
  exact ⟨place', (orElse_apply_error hplace).trans hplace'⟩

theorem needs_char (c : Char) : Needs (char c) (· == c) := fun text h => ⟨text, char_error h⟩

theorem needs_name : Needs name isNameStart := fun text h => ⟨text, name_error h⟩

theorem Fails.mono {other : Follow} (h : Fails p follow)
    (hother : ∀ items, other items → follow items) : Fails p other :=
  fun _ _ _ hitems hwrites => h (hother _ hitems) hwrites

theorem Fails.bind {f : α → Parser β} (h : Fails p follow) : Fails (p >>= f) follow := by
  intro word items text hitems hwrites
  obtain ⟨place, hplace⟩ := h hitems hwrites
  exact ⟨place, bind_apply_error hplace⟩

theorem Fails.orElse (hp : Fails p follow) (hq : Fails q follow) : Fails (p <|> q) follow := by
  intro word items text hitems hwrites
  obtain ⟨place, hplace⟩ := hp hitems hwrites
  obtain ⟨place', hplace'⟩ := hq hitems hwrites
  exact ⟨place', (orElse_apply_error hplace).trans hplace'⟩

/-- A parser that needs a character of a class fails without one, also after an ignored run. -/
theorem Needs.fails_ignored {f : Option String → Parser α} {admits : Char → Bool}
    (hf : ∀ comment, Needs (f comment) admits) : Fails (ignored >>= f) (Avoids admits) := by
  intro word items text hitems hwrites
  obtain ⟨comment, rest, hread, hrest⟩ := hwrites.shuns hitems
  obtain ⟨place, hplace⟩ := hf comment hrest
  exact ⟨place, (bind_apply_ok hread).trans hplace⟩

theorem fails_mark (c : Char) : Fails (Token.mark c) (Avoids (· == c)) :=
  Needs.fails_ignored fun _ => needs_char c

theorem fails_tokenName : Fails tokenName (Avoids isNameStart) :=
  Needs.fails_ignored fun _ => needs_name

end Fail

/-! ### Sequences -/

section Sequence

variable {p : Parser α} {a : α} {b : β} {items first second : List Placed}
  {follow before : Follow}

theorem reads_pure (a : α) (follow : Follow) : Reads (pure a) a [] follow :=
  fun word _ text _ hwrites => ⟨word, text, rfl, hwrites⟩

theorem Reads.mono (h : Reads p a items follow) (hbefore : ∀ more, before more → follow more) :
    Reads p a items before :=
  fun _ _ _ hmore hwrites => h (hbefore _ hmore) hwrites

theorem Reads.bind {f : α → Parser β} (hp : Reads p a first before)
    (hf : Reads (f a) b second follow) (hbefore : ∀ more, follow more → before (second ++ more)) :
    Reads (p >>= f) b (first ++ second) follow := by
  intro word more text hmore hwrites
  rw [List.append_assoc] at hwrites
  obtain ⟨_, rest, hread, hwrites⟩ := hp (hbefore more hmore) hwrites
  obtain ⟨after, rest', hread', hwrites⟩ := hf hmore hwrites
  exact ⟨after, rest', (bind_apply_ok hread).trans hread', hwrites⟩

theorem Reads.map (h : Reads p a items follow) (f : α → β) :
    Reads (f <$> p) (f a) items follow := by
  intro word more text hmore hwrites
  obtain ⟨after, rest, hread, hwrites⟩ := h hmore hwrites
  exact ⟨after, rest, map_apply_ok hread, hwrites⟩

theorem Reads.guarded {admits : α → Bool} (h : Reads p a items follow) (ha : admits a = true) :
    Reads (guarded p admits) a items follow := by
  intro word more text hmore hwrites
  obtain ⟨after, rest, hread, hwrites⟩ := h hmore hwrites
  exact ⟨after, rest, guarded_apply_ok hread ha, hwrites⟩

/-- A choice reads what its first alternative does. -/
theorem Reads.orElse {q : Parser α} (h : Reads p a items follow) :
    Reads (p <|> q) a items follow := by
  intro word more text hmore hwrites
  obtain ⟨after, rest, hread, hwrites⟩ := h hmore hwrites
  exact ⟨after, rest, orElse_apply_ok hread, hwrites⟩

/-- A choice reads what its second alternative does, if the first one fails. -/
theorem Reads.orElse_second {q : Parser α} {refused : Follow} (hfails : Fails p refused)
    (hrefused : ∀ more, refused (items ++ more)) (h : Reads q a items follow) :
    Reads (p <|> q) a items follow := by
  intro word more text hmore hwrites
  obtain ⟨place, hplace⟩ := hfails (hrefused more) hwrites
  obtain ⟨after, rest, hread, hwrites⟩ := h hmore hwrites
  exact ⟨after, rest, (orElse_apply_error hplace).trans hread, hwrites⟩

/-- A part that is there is read. -/
theorem Reads.opt (h : Reads p a items follow) : Reads (opt p) (some a) items follow := by
  intro word more text hmore hwrites
  obtain ⟨after, rest, hread, hwrites⟩ := h hmore hwrites
  exact ⟨after, rest, opt_apply_ok hread, hwrites⟩

/-- A part that is left out is not read. -/
theorem Fails.opt (h : Fails p follow) : Reads (opt p) none [] follow := by
  intro word more text hmore hwrites
  obtain ⟨place, hplace⟩ := h hmore hwrites
  exact ⟨word, text, opt_apply_error hplace, hwrites⟩

end Sequence

/-! ### On the spot -/

section OnSpot

variable {p : Parser α} {a : α} {b : β} {lexeme : Lexeme} {items : List Placed} {follow : Follow}

/-- After an ignored run the next lexeme is read on the spot, with the comment it asks for. -/
theorem Reads.ignored {f : Option String → Parser α} {placed : Placed}
    (h : ∀ comment, (∀ wanted ∈ placed.comment, comment = wanted) →
      ReadsOnSpot (f comment) a placed.lexeme items follow) :
    Reads (Token.ignored >>= f) a (placed :: items) follow := by
  intro word more text hmore hwrites
  obtain ⟨comment, spelled, rest, hread, hcomment, hspell, hwrites⟩ := hwrites.ignored
  obtain ⟨after, rest', hread', hwrites⟩ := h comment hcomment hmore hspell hwrites
  exact ⟨after, rest', (bind_apply_ok hread).trans hread', hwrites⟩

/-- What is read after any run is read after none. -/
theorem Reads.onSpot (h : Reads p a (lexeme.plain :: items) follow) :
    ReadsOnSpot p a lexeme items follow :=
  fun _ _ _ hmore hspell hwrites => h hmore (.onSpot hspell hwrites)

theorem ReadsOnSpot.bind {f : α → Parser β} {before : Follow} {first second : List Placed}
    (hp : ReadsOnSpot p a lexeme first before) (hf : Reads (f a) b second follow)
    (hbefore : ∀ more, follow more → before (second ++ more)) :
    ReadsOnSpot (p >>= f) b lexeme (first ++ second) follow := by
  intro more spelled text hmore hspell hwrites
  rw [List.append_assoc] at hwrites
  obtain ⟨_, rest, hread, hwrites⟩ := hp (hbefore more hmore) hspell hwrites
  obtain ⟨after, rest', hread', hwrites⟩ := hf hmore hwrites
  exact ⟨after, rest', (bind_apply_ok hread).trans hread', hwrites⟩

theorem ReadsOnSpot.map (h : ReadsOnSpot p a lexeme items follow) (f : α → β) :
    ReadsOnSpot (f <$> p) (f a) lexeme items follow := by
  intro more spelled text hmore hspell hwrites
  obtain ⟨after, rest, hread, hwrites⟩ := h hmore hspell hwrites
  exact ⟨after, rest, map_apply_ok hread, hwrites⟩

theorem ReadsOnSpot.orElse {q : Parser α} (h : ReadsOnSpot p a lexeme items follow) :
    ReadsOnSpot (p <|> q) a lexeme items follow := by
  intro more spelled text hmore hspell hwrites
  obtain ⟨after, rest, hread, hwrites⟩ := h hmore hspell hwrites
  exact ⟨after, rest, orElse_apply_ok hread, hwrites⟩

/-- A choice goes on to its second alternative if the lexeme is not what the first needs. -/
theorem ReadsOnSpot.orElse_second {q : Parser α} {admits : Char → Bool} (hp : Needs p admits)
    (hlexeme : Avoids admits [lexeme.plain]) (h : ReadsOnSpot q a lexeme items follow) :
    ReadsOnSpot (p <|> q) a lexeme items follow := by
  intro more spelled text hmore hspell hwrites
  have hshuns : Shuns admits (spelled ++ text) := by
    obtain ⟨c, tail, rfl, hc⟩ := hspell.opens
    intro d hd
    obtain rfl := Option.mem_some.1 hd
    refine Bool.eq_false_iff.2 fun hadmits => ?_
    rw [show lexeme.opens c = false from hlexeme _ rfl c hadmits] at hc
    exact nomatch hc
  obtain ⟨place, hplace⟩ := hp hshuns
  obtain ⟨after, rest, hread, hwrites⟩ := h hmore hspell hwrites
  exact ⟨after, rest, (orElse_apply_error hplace).trans hread, hwrites⟩

/-- A choice goes on to its second alternative if the first fails on the lexemes. -/
theorem ReadsOnSpot.orElse_fails {q : Parser α} {refused : Follow} (hp : Fails p refused)
    (hrefused : ∀ more, refused (lexeme.plain :: (items ++ more)))
    (h : ReadsOnSpot q a lexeme items follow) : ReadsOnSpot (p <|> q) a lexeme items follow := by
  intro more spelled text hmore hspell hwrites
  obtain ⟨place, hplace⟩ := hp (hrefused more) (.onSpot hspell hwrites)
  obtain ⟨after, rest, hread, hwrites⟩ := h hmore hspell hwrites
  exact ⟨after, rest, (orElse_apply_error hplace).trans hread, hwrites⟩

/-! ### Lexemes -/

theorem onSpot_char (c : Char) : ReadsOnSpot (char c) c (.mark c) [] anything := by
  rintro more spelled text _ ⟨_, rfl⟩ hwrites
  exact ⟨false, text, char_ok c text, hwrites⟩

theorem onSpot_name (written : String) :
    ReadsOnSpot name written (.name written) [] anything := by
  rintro more spelled text _ ⟨hname, rfl⟩ hwrites
  refine ⟨true, text, ?_, hwrites⟩
  rw [name_append hname (shuns_isNamePart (Writes.word_ends hwrites)), String.ofList_toList]

/-- A sign is read, and the name directly after it. -/
theorem onSpot_signed (sign : Char) (written : String) :
    ReadsOnSpot (do
      let _ ← char sign
      name) written (.signed sign written) [] anything := by
  rintro more spelled text _ ⟨_, rest, rfl, hname, rfl⟩ hwrites
  refine ⟨true, text, ?_, hwrites⟩
  rw [List.cons_append, bind_apply_ok (char_ok sign _),
    name_append hname (shuns_isNamePart (Writes.word_ends hwrites)), String.ofList_toList]

theorem onSpot_number (written : String) (isFloat : Bool) :
    ReadsOnSpot Document.number (if isFloat then .float written else .int written)
      (.number written isFloat) [] anything := by
  rintro more spelled text _ ⟨parts, rfl, hwritten, rfl⟩ hwrites
  refine ⟨true, text, ?_, hwrites⟩
  have hread := Document.number_append parts (Writes.word_ends hwrites)
    fun tail htail => Writes.no_fraction (htail ▸ hwrites)
  rw [hwritten, String.ofList_toList] at hread
  rw [hwritten, hread]

theorem onSpot_string (written : String) :
    ReadsOnSpot StringLiteral.parser written (.string written) [] anything := by
  rintro more spelled text _ ⟨body, rfl, hbody⟩ hwrites
  refine ⟨true, text, ?_, hwrites⟩
  have hquote : Shuns (· == '"') text :=
    fun c hc => (Bool.or_eq_false_iff.1 (Writes.word_ends hwrites c hc)).2
  rw [StringLiteral.parser_append hbody hquote, String.ofList_toList]

/-- **A mark is read** after any run. -/
theorem reads_mark (c : Char) : Reads (mark c) c [.mark c] anything :=
  Reads.ignored fun _ _ => onSpot_char c

/-- **A name is read** after any run. -/
theorem reads_tokenName (written : String) : Reads tokenName written [.name written] anything :=
  Reads.ignored fun _ _ => onSpot_name written

theorem reads_keyword (written : String) :
    Reads (keyword written) written [.name written] anything :=
  (reads_tokenName written).guarded (beq_self_eq_true written)

/-- A keyword is not another name. -/
theorem fails_keyword (wanted : String) :
    Fails (keyword wanted) fun items =>
      Avoids isNameStart items ∨
        ∃ written comment more, written ≠ wanted ∧ items = ⟨.name written, comment⟩ :: more := by
  rintro word items text (hitems | ⟨written, comment, more, hne, rfl⟩) hwrites
  · obtain ⟨place, hplace⟩ := fails_tokenName hitems hwrites
    exact ⟨place, guarded_apply_error hplace⟩
  · have hname : Reads tokenName written [⟨.name written, comment⟩] anything :=
      Reads.ignored fun _ _ => onSpot_name written
    have hitems : Writes word ([⟨.name written, comment⟩] ++ more) text := hwrites
    obtain ⟨_, rest, hread, _⟩ := hname trivial hitems
    exact ⟨text, guarded_apply_refused hread (beq_eq_false_iff_ne.2 hne)⟩

/-- A name that may be left out is read if it is there. -/
theorem reads_optionalName (written : Option String) :
    Reads (opt tokenName) written (written.toList.map Placed.name) (Avoids isNameStart) := by
  cases written with
  | none => exact fails_tokenName.opt
  | some written => exact ((reads_tokenName written).mono fun _ _ => trivial).opt

/-- A sign is read after any run, the name directly after it, and then what comes next. -/
theorem reads_signed {sign : Char} {written : String} {f : String → Parser β}
    (h : Reads (f written) b items follow) :
    Reads (do
      let _ ← mark sign
      let read ← name
      f read) b (.signed sign written :: items) follow := by
  intro word more text hmore hwrites
  obtain ⟨comment, _, rest, hread, _, ⟨_, _, rfl, hname, rfl⟩, hwrites⟩ := hwrites.ignored
  have hsign : mark sign text = .ok (sign, written.toList ++ rest) :=
    (bind_apply_ok hread).trans (char_ok sign _)
  have hwritten := name_append hname (shuns_isNamePart (Writes.word_ends hwrites))
  rw [String.ofList_toList] at hwritten
  obtain ⟨after, rest', hread', hwrites⟩ := h hmore hwrites
  exact ⟨after, rest', (bind_apply_ok hsign).trans ((bind_apply_ok hwritten).trans hread'), hwrites⟩

/-! ### Between marks -/

variable {opening closing : Char}

/-- What stands before a mark is read, and the mark after it. -/
theorem Reads.before_mark (h : Reads p a items follow)
    (hclosing : ∀ more, follow (.mark closing :: more)) :
    Reads (do
      let read ← p
      let _ ← mark closing
      return read) a (items ++ [.mark closing]) anything := by
  have hend : Reads (do
      let _ ← mark closing
      return a) a [.mark closing] anything :=
    (reads_mark closing).bind (reads_pure a anything) fun _ _ => trivial
  exact h.bind hend fun more _ => hclosing more

/-- What stands between two marks is read, the first of them on the spot. -/
theorem Reads.onSpot_between (h : Reads p a items follow)
    (hclosing : ∀ more, follow (.mark closing :: more)) :
    ReadsOnSpot (between (char opening) p (mark closing)) a (.mark opening)
      (items ++ [.mark closing]) anything :=
  (onSpot_char opening).bind (h.before_mark hclosing) fun _ _ => trivial

/-- **What stands between two marks is read.** -/
theorem Reads.between_marks (h : Reads p a items follow)
    (hclosing : ∀ more, follow (.mark closing :: more)) :
    Reads (between (mark opening) p (mark closing)) a (enclosed opening closing items)
      anything :=
  (reads_mark opening).bind (h.before_mark hclosing) fun _ _ => trivial

/-- What may be left out between two marks is read if it is there. -/
theorem reads_optional {p : Parser (List α)} {as : List α} {lexemes : α → List Placed}
    (h : as ≠ [] → Reads p as (enclosed opening closing (as.flatMap lexemes)) anything)
    (hfails : Fails p (Avoids (· == opening))) :
    ∃ found, found.getD [] = as ∧
      Reads (opt p) found (optional opening closing lexemes as) (Avoids (· == opening)) := by
  cases as with
  | nil => exact ⟨none, rfl, hfails.opt⟩
  | cons a as =>
    exact ⟨some (a :: as), rfl, ((h (List.cons_ne_nil a as)).mono fun _ _ => trivial).opt⟩

theorem avoids_optional {admits : Char → Bool} {as : List α} {lexemes : α → List Placed}
    {more : List Placed} (hopening : admits opening = false) (hmore : Avoids admits more) :
    Avoids admits (optional opening closing lexemes as ++ more) := by
  cases as with
  | nil => exact hmore
  | cons a as => exact avoids_mark hopening

end OnSpot

/-! ### Repetitions -/

section Many

variable {p : Parser α} {follow between : Follow}

/-- What the members of a repetition are written with: each is read if another one follows, or
what follows the repetition. -/
structure ReadsEach (p : Parser α) (between : Follow) (a : α) (items : List Placed) : Prop where
  reads : Reads p a items between
  between : ∀ more, between (items ++ more)
  ne_nil : items ≠ []

theorem length_le_of_readsEach {as : List α} {parts : List (List Placed)}
    (h : List.Forall₂ (ReadsEach p between) as parts) : as.length ≤ parts.flatten.length := by
  induction h with
  | nil => exact Nat.le_refl 0
  | @cons a items as parts hfirst _ ih =>
    have hpos := List.length_pos_iff.2 hfirst.ne_nil
    rw [List.flatten_cons, List.length_append, List.length_cons]
    omega

theorem manyUpTo_reads (hfails : Fails p follow) (hbetween : ∀ more, follow more → between more)
    {as : List α} {parts : List (List Placed)}
    (h : List.Forall₂ (ReadsEach p between) as parts) :
    ∀ {bound : Nat}, as.length ≤ bound → Reads (manyUpTo p bound) as parts.flatten follow := by
  induction h with
  | nil =>
    intro bound _ word more text hmore hwrites
    obtain ⟨place, hplace⟩ := hfails hmore hwrites
    exact ⟨word, text, manyUpTo_apply_error hplace, hwrites⟩
  | @cons a items as parts hfirst hrest ih =>
    intro bound hbound word more text hmore hwrites
    rw [List.length_cons] at hbound
    obtain ⟨fewer, rfl⟩ : ∃ fewer, bound = fewer + 1 := ⟨bound - 1, by omega⟩
    have hnext : between (parts.flatten ++ more) := by
      cases hrest with
      | nil => exact hbetween more hmore
      | cons hsecond _ =>
        rw [List.flatten_cons, List.append_assoc]
        exact hsecond.between _
    rw [List.flatten_cons, List.append_assoc] at hwrites
    obtain ⟨_, rest, hread, hwrites⟩ := hfirst.reads hnext hwrites
    obtain ⟨after, rest', hread', hwrites⟩ := ih (Nat.le_of_succ_le_succ hbound) hmore hwrites
    exact ⟨after, rest', manyUpTo_apply_ok hread hread', hwrites⟩

/-- **A repetition reads its members**, and stops where the parser fails. -/
theorem many_reads (hfails : Fails p follow) (hbetween : ∀ more, follow more → between more)
    {as : List α} {parts : List (List Placed)}
    (h : List.Forall₂ (ReadsEach p between) as parts) :
    Reads (many p) as parts.flatten follow := by
  intro word more text hmore hwrites
  -- there are no more members than characters, so the repetition is not cut short
  have hlength := hwrites.length_le
  rw [List.length_append] at hlength
  have hbound : as.length ≤ text.length :=
    Nat.le_trans (length_le_of_readsEach h) (Nat.le_trans (Nat.le_add_right ..) hlength)
  exact manyUpTo_reads hfails hbetween h hbound hmore hwrites

/-- **A repetition that is not empty reads its members.** -/
theorem many1_reads (hfails : Fails p follow) (hbetween : ∀ more, follow more → between more)
    {as : List α} {parts : List (List Placed)} (hne : as ≠ [])
    (h : List.Forall₂ (ReadsEach p between) as parts) :
    Reads (many1 p) as parts.flatten follow := by
  cases h with
  | nil => exact absurd rfl hne
  | @cons a items as parts hfirst hrest =>
    rw [List.flatten_cons]
    have htail : Reads (do return a :: (← many p)) (a :: as) parts.flatten follow :=
      (many_reads hfails hbetween hrest).map (a :: ·)
    refine hfirst.reads.bind htail fun more hmore => ?_
    cases hrest with
    | nil => exact hbetween more hmore
    | cons hsecond _ =>
      rw [List.flatten_cons, List.append_assoc]
      exact hsecond.between _

theorem forall₂_map {as : List α} {render : α → List Placed}
    (h : ∀ a ∈ as, ReadsEach p between a (render a)) :
    List.Forall₂ (ReadsEach p between) as (as.map render) :=
  List.forall₂_map_right_iff.2 (List.forall₂_same.2 h)

/-- A repetition reads its members, each in its own rendering. -/
theorem many_reads_flatMap (hfails : Fails p follow)
    (hbetween : ∀ more, follow more → between more) {as : List α} {render : α → List Placed}
    (h : ∀ a ∈ as, ReadsEach p between a (render a)) :
    Reads (many p) as (as.flatMap render) follow :=
  many_reads hfails hbetween (forall₂_map h)

/-- A repetition that is not empty reads its members, each in its own rendering. -/
theorem many1_reads_flatMap (hfails : Fails p follow)
    (hbetween : ∀ more, follow more → between more) {as : List α} {render : α → List Placed}
    (hne : as ≠ []) (h : ∀ a ∈ as, ReadsEach p between a (render a)) :
    Reads (many1 p) as (as.flatMap render) follow :=
  many1_reads hfails hbetween hne (forall₂_map h)

end Many

end QueryAccess
