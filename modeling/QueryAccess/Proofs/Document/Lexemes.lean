import QueryAccess.Document.Reader
import QueryAccess.Proofs.Text.Combinators

/-!
# Lexemes

The lexemes of a document (`QueryAccess.Lexeme`), and the texts that are written with a list of
them.

**Writing.** Before each lexeme, and after the last, stands an ignored run
(`QueryAccess.Token.IgnoredRun`), which may be empty except between two words: names, numbers
and strings that stand next to each other need something between them. A lexeme may ask for a
comment, and then the last one in the run before it has to say just that. This is
`QueryAccess.Writes`.

**Reading.** Where a lexeme is written next, `QueryAccess.Token.ignored` skips the run before
it and answers the comment (`QueryAccess.Writes.ignored`), and the lexeme can be read on the
spot. What follows a word does not continue it (`QueryAccess.Writes.endsWord`), and no lexeme
is mistaken for another, for they differ in their first characters
(`QueryAccess.Lexeme.Spells.opens`).
-/

namespace QueryAccess

/-! ### Ignored runs -/

namespace Token

/-- **An ignored run and the last comment in it.** Each comment in it has its line end. -/
inductive IgnoredRun : List Char → Option (List Char) → Prop
  | nil : IgnoredRun [] none
  | blank {c : Char} {run : List Char} {last : Option (List Char)} :
      isIgnored c = true → IgnoredRun run last → IgnoredRun (c :: run) last
  | comment {text : List Char} {lineEnd : Char} {run : List Char} {last : Option (List Char)} :
      (∀ c ∈ text, Text.isLineEnd c = false) → Text.isLineEnd lineEnd = true →
        IgnoredRun run last → IgnoredRun ('#' :: (text ++ lineEnd :: run)) (last.or (some text))

/-- What a comment says: its text, trimmed. -/
def saysOf (comment : List Char) : String := String.ofList (Text.trim comment)

/-- A text that does not begin with an ignored run. -/
def Bare (text : List Char) : Prop := ∀ c ∈ text.head?, isIgnored c = false ∧ c ≠ '#'

theorem skip_inside {comment : List Char} (hcomment : ∀ c ∈ comment, Text.isLineEnd c = false)
    {lineEnd : Char} (hend : Text.isLineEnd lineEnd = true) (last : Option (List Char))
    (read rest : List Char) :
    skip last (some read) (comment ++ lineEnd :: rest) =
      skip (some (read.reverse ++ comment)) none rest := by
  induction comment generalizing read with
  | nil => rw [List.nil_append, skip, if_pos hend, List.append_nil]
  | cons c comment ih =>
    have hc : ¬Text.isLineEnd c = true := by rw [hcomment c (.head _)]; decide
    rw [List.cons_append, skip, if_neg hc, ih fun c hc => hcomment c (.tail _ hc),
      List.reverse_cons, List.append_assoc, List.singleton_append]

theorem skip_run {run : List Char} {last : Option (List Char)} (hrun : IgnoredRun run last)
    {rest : List Char} (hrest : Bare rest) (before : Option (List Char)) :
    skip before none (run ++ rest) = (last.or before, rest) := by
  induction hrun generalizing before with
  | nil =>
    rw [List.nil_append, Option.none_or]
    cases rest with
    | nil => rfl
    | cons c rest =>
      obtain ⟨hc, hhash⟩ := hrest c rfl
      rw [skip, if_neg hhash, if_neg (by rw [hc]; decide)]
  | @blank c run last hc _ ih =>
    have hhash : c ≠ '#' := by
      rintro rfl
      exact absurd hc (by decide)
    rw [List.cons_append, skip, if_neg hhash, if_pos hc, ih]
  | @comment text lineEnd run last htext hend _ ih =>
    rw [List.cons_append, List.append_assoc, List.cons_append, skip, if_pos rfl,
      skip_inside htext hend, ih, List.reverse_nil, List.nil_append, Option.or_assoc,
      Option.some_or]

/-- **An ignored run is skipped**, and answers what its last comment says. -/
theorem ignored_run {run : List Char} {last : Option (List Char)} (hrun : IgnoredRun run last)
    {rest : List Char} (hrest : Bare rest) :
    ignored (run ++ rest) = .ok (last.map saysOf, rest) := by
  have hskip := skip_run hrun hrest none
  rw [Option.or_none] at hskip
  rw [ignored, hskip]
  rfl

/-- Between two words an ignored run is enough. -/
theorem IgnoredRun.head {run : List Char} {last : Option (List Char)} (hrun : IgnoredRun run last) :
    ∀ c ∈ run.head?, isIgnored c = true ∨ c = '#' := by
  cases hrun with
  | nil => exact fun c hc => absurd hc (Option.not_mem_none c)
  | blank hc _ => exact fun d hd => .inl (Option.mem_some.1 hd ▸ hc)
  | comment _ _ _ => exact fun d hd => .inr (Option.mem_some.1 hd).symm

end Token

/-! ### Characters -/

namespace Token

/-- The characters of a list are checked one by one, and not all the characters there are. -/
instance decidableForallMem (p : Char → Prop) [DecidablePred p] (chars : List Char) :
    Decidable (∀ c ∈ chars, p c) :=
  List.decidableBAll p chars

/-- The punctuation marks of a document. -/
def marks : List Char := ['!', '(', ')', ':', '=', '[', ']', '\x7b', '\x7d']

/-- What stands directly before the name of a variable or of a directive. -/
def signs : List Char := ['$', '@']

/-- What holds of the first hundred and twenty-eight characters, and so of the characters of
names, can be checked one by one. -/
theorem forall_ascii {p : Char → Prop} (h : ∀ n < 128, p (Char.ofNat n)) {c : Char}
    (hc : c.toNat < 128) : p c :=
  Char.ofNat_toNat c ▸ h c.toNat hc

theorem toNat_lt_of_isNamePart {c : Char} (h : isNamePart c = true) : c.toNat < 128 := by
  have hbelow {high : Char} (hhigh : high.toNat < 128) (hc : c.val ≤ high.val) : c.toNat < 128 :=
    Nat.lt_of_le_of_lt (UInt32.le_iff_toNat_le.1 hc) hhigh
  obtain halnum | hunderscore := Bool.or_eq_true_iff.1 h
  · obtain halpha | hdigit := Bool.or_eq_true_iff.1 halnum
    · obtain hupper | hlower := Bool.or_eq_true_iff.1 halpha
      · exact hbelow (by decide : 'Z'.toNat < 128) (of_decide_eq_true hupper).2
      · exact hbelow (by decide : 'z'.toNat < 128)
          (of_decide_eq_true (Bool.and_eq_true_iff.1 hlower).2)
    · exact hbelow (by decide : '9'.toNat < 128)
        (of_decide_eq_true (Bool.and_eq_true_iff.1 hdigit).2)
  · obtain rfl := eq_of_beq hunderscore
    decide

theorem isNamePart_of_isNameStart {c : Char} (h : isNameStart c = true) : isNamePart c = true := by
  rw [isNameStart, Bool.or_eq_true] at h
  rw [isNamePart, Bool.or_eq_true]
  exact h.imp_left fun halpha => Bool.or_eq_true_iff.2 (.inl halpha)

theorem isNamePart_of_isDigit {c : Char} (h : c.isDigit = true) : isNamePart c = true := by
  rw [isNamePart, Bool.or_eq_true]
  exact .inl (Bool.or_eq_true_iff.2 (.inr h))

/-- The characters of names are not ignored. -/
theorem bare_of_isNamePart {c : Char} (h : isNamePart c = true) :
    isIgnored c = false ∧ c ≠ '#' := by
  have hall : ∀ n < 128, isNamePart (Char.ofNat n) = true →
      isIgnored (Char.ofNat n) = false ∧ Char.ofNat n ≠ '#' := by decide +kernel
  exact forall_ascii (p := fun c => isNamePart c = true → isIgnored c = false ∧ c ≠ '#') hall
    (toNat_lt_of_isNamePart h) h

end Token

/-! ### Names, numbers and strings -/

open Token

/-- A text that is a name. -/
def IsName (text : List Char) : Prop :=
  ∃ c rest, text = c :: rest ∧ isNameStart c = true ∧ ∀ d ∈ rest, isNamePart d = true

instance : (text : List Char) → Decidable (IsName text)
  | [] => .isFalse fun ⟨_, _, h, _⟩ => nomatch h
  | c :: rest =>
    decidable_of_iff (isNameStart c = true ∧ ∀ d ∈ rest, isNamePart d = true)
      ⟨fun h => ⟨c, rest, rfl, h⟩, fun ⟨_, _, h, hname⟩ =>
        (List.cons.inj h).1 ▸ (List.cons.inj h).2 ▸ hname⟩

/-- Digits, at least one. -/
def AreDigits (digits : List Char) : Prop := digits ≠ [] ∧ ∀ c ∈ digits, c.isDigit = true

/-- The exponent of a number. -/
structure ExponentText where
  mark : Char
  sign : Option Char
  digits : List Char
  mark_eq : mark = 'e' ∨ mark = 'E'
  sign_eq : ∀ c ∈ sign, c = '+' ∨ c = '-'
  digits_ok : AreDigits digits

/-- The characters of an exponent. -/
def ExponentText.chars (exponent : ExponentText) : List Char :=
  exponent.mark :: exponent.sign.toList ++ exponent.digits

/-- The parts of a number's text. -/
structure NumberText where
  minus : Option Char
  whole : List Char
  fraction : Option (List Char)
  exponent : Option ExponentText
  minus_eq : ∀ c ∈ minus, c = '-'
  whole_ok : AreDigits whole
  fraction_ok : ∀ digits ∈ fraction, AreDigits digits

namespace NumberText

/-- The characters of a number. -/
def chars (number : NumberText) : List Char :=
  number.minus.toList ++ number.whole ++ (number.fraction.map ('.' :: ·)).getD [] ++
    (number.exponent.map ExponentText.chars).getD []

/-- Whether a number has a fraction or an exponent. -/
def isFloat (number : NumberText) : Bool := number.fraction.isSome || number.exponent.isSome

end NumberText

/-- **What stands after the opening quote of a string**, with the closing one. A character may
stand for itself if it is no quote, no backslash and no line end; it may be written with its
short escape, and by its code, above U+FFFF as a surrogate pair. -/
inductive Quoted : List Char → List Char → Prop
  | close : Quoted [] ['"']
  | plain {c : Char} {text body : List Char} :
      c ≠ '"' → c ≠ '\\' → Text.isLineEnd c = false → Quoted text body →
        Quoted (c :: text) (c :: body)
  | short {letter c : Char} {text body : List Char} :
      Text.shortEscape? letter = some c → Quoted text body →
        Quoted (c :: text) ('\\' :: letter :: body)
  | unit {a b c d : Char} {unit : Nat} {text body : List Char} :
      Text.unit? a b c d = some unit → Text.isHighSurrogate unit = false →
        Text.isLowSurrogate unit = false → Quoted text body →
          Quoted (Char.ofNat unit :: text) ('\\' :: 'u' :: a :: b :: c :: d :: body)
  | pair {a b c d e f g h : Char} {high low : Nat} {text body : List Char} :
      Text.unit? a b c d = some high → Text.isHighSurrogate high = true →
        Text.unit? e f g h = some low → Text.isLowSurrogate low = true → Quoted text body →
          Quoted (Text.ofSurrogates high low :: text)
            ('\\' :: 'u' :: a :: b :: c :: d :: '\\' :: 'u' :: e :: f :: g :: h :: body)

/-- A string does not begin like a block string, unless a quote follows it. -/
theorem Quoted.single {text body : List Char} (h : Quoted text body) {rest : List Char}
    (hrest : Parser.Shuns (· == '"') rest) (tail : List Char) :
    body ++ rest ≠ '"' :: '"' :: tail := by
  intro heq
  cases h with
  | close =>
    have hquote : rest = '"' :: tail := (List.cons.inj heq).2
    subst hquote
    exact nomatch hrest '"' rfl
  | plain hquote _ _ _ => exact hquote (List.cons.inj heq).1
  | short _ _ | unit _ _ _ _ | pair _ _ _ _ _ => exact nomatch heq

/-! ### Lexemes -/

/-- A lexeme of a document. A number with a fraction or an exponent is told from one without. -/
inductive Lexeme where
  | mark (c : Char)
  | ellipsis
  | name (text : String)
  | signed (sign : Char) (name : String)
  | number (text : String) (isFloat : Bool)
  | string (text : String)

namespace Lexeme

/-- **The texts that a lexeme is written with.** The sign of a variable or a directive stands
directly before its name. -/
def Spells : Lexeme → List Char → Prop
  | mark c, text => c ∈ marks ∧ text = [c]
  | ellipsis, text => text = ['.', '.', '.']
  | name written, text => IsName text ∧ text = written.toList
  | signed sign written, text =>
    sign ∈ signs ∧ ∃ rest, text = sign :: rest ∧ IsName rest ∧ rest = written.toList
  | number written isFloat, text =>
    ∃ parts : NumberText, text = parts.chars ∧ text = written.toList ∧ parts.isFloat = isFloat
  | string written, text => ∃ body, text = '"' :: body ∧ Quoted written.toList body

/-- Whether a lexeme can begin with a character. -/
def opens : Lexeme → Char → Bool
  | mark m, c => marks.contains m && c == m
  | ellipsis, c => c == '.'
  | name _, c => isNameStart c
  | signed sign _, c => signs.contains sign && c == sign
  | number _ _, c => c == '-' || c.isDigit
  | string _, c => c == '"'

/-- Whether a lexeme begins with a word. -/
def beginsWord : Lexeme → Bool
  | name _ | number _ _ | string _ => true
  | mark _ | ellipsis | signed _ _ => false

/-- Whether a lexeme ends with a word. -/
def endsWord : Lexeme → Bool
  | mark _ | ellipsis => false
  | name _ | signed _ _ | number _ _ | string _ => true

end Lexeme

theorem AreDigits.head {digits : List Char} (h : AreDigits digits) :
    ∃ c rest, digits = c :: rest ∧ c.isDigit = true := by
  cases digits with
  | nil => exact absurd rfl h.1
  | cons c rest => exact ⟨c, rest, rfl, h.2 c (.head _)⟩

theorem NumberText.chars_head (number : NumberText) :
    ∃ c rest, number.chars = c :: rest ∧ (c == '-' || c.isDigit) = true := by
  obtain ⟨c, rest, hwhole, hc⟩ := number.whole_ok.head
  cases hminus : number.minus with
  | none => exact ⟨c, _, by rw [chars, hminus, hwhole]; rfl, by rw [hc, Bool.or_true]⟩
  | some sign =>
    obtain rfl := number.minus_eq sign hminus
    exact ⟨'-', _, by rw [chars, hminus]; rfl, rfl⟩

/-- **A lexeme begins with one of its characters.** -/
theorem Lexeme.Spells.opens {lexeme : Lexeme} {text : List Char} (h : lexeme.Spells text) :
    ∃ c rest, text = c :: rest ∧ lexeme.opens c = true := by
  cases lexeme with
  | mark c =>
    obtain ⟨hc, rfl⟩ := h
    refine ⟨c, [], rfl, ?_⟩
    rw [Lexeme.opens, List.contains_iff_mem.2 hc, beq_self_eq_true]
    rfl
  | ellipsis => exact ⟨'.', ['.', '.'], h, rfl⟩
  | name _ =>
    obtain ⟨⟨c, rest, rfl, hc, _⟩, _⟩ := h
    exact ⟨c, rest, rfl, hc⟩
  | signed sign _ =>
    obtain ⟨hsign, rest, rfl, _⟩ := h
    refine ⟨sign, rest, rfl, ?_⟩
    rw [Lexeme.opens, List.contains_iff_mem.2 hsign, beq_self_eq_true]
    rfl
  | number _ _ =>
    obtain ⟨parts, rfl, _⟩ := h
    exact parts.chars_head
  | string _ =>
    obtain ⟨body, rfl, _⟩ := h
    exact ⟨'"', body, rfl, rfl⟩

/-- No lexeme begins like an ignored run. -/
theorem Lexeme.bare_of_opens {lexeme : Lexeme} {c : Char} (h : lexeme.opens c = true) :
    isIgnored c = false ∧ c ≠ '#' := by
  cases lexeme with
  | mark m =>
    rw [Lexeme.opens, Bool.and_eq_true, List.contains_iff_mem, beq_iff_eq] at h
    obtain ⟨hm, rfl⟩ := h
    have hall : ∀ d ∈ marks, isIgnored d = false ∧ d ≠ '#' := by decide
    exact hall c hm
  | name _ => exact bare_of_isNamePart (isNamePart_of_isNameStart h)
  | number _ _ =>
    rw [Lexeme.opens, Bool.or_eq_true, beq_iff_eq] at h
    obtain rfl | hdigit := h
    · decide
    · exact bare_of_isNamePart (isNamePart_of_isDigit hdigit)
  | signed sign _ =>
    rw [Lexeme.opens, Bool.and_eq_true, List.contains_iff_mem, beq_iff_eq] at h
    obtain ⟨hsign, rfl⟩ := h
    have hall : ∀ d ∈ signs, isIgnored d = false ∧ d ≠ '#' := by decide
    exact hall c hsign
  | ellipsis | string _ =>
    obtain rfl := eq_of_beq h
    decide

/-- Whether a character would continue a word. -/
def continuesWord (c : Char) : Bool := isNamePart c || c == '"'

theorem continuesWord_of_ignored {c : Char} (h : isIgnored c = true ∨ c = '#') :
    continuesWord c = false := by
  rw [continuesWord, Bool.or_eq_false_iff, beq_eq_false_iff_ne]
  refine ⟨Bool.eq_false_iff.2 fun hname => ?_, ?_⟩
  · obtain ⟨hignored, hhash⟩ := bare_of_isNamePart hname
    rw [hignored] at h
    exact h.elim (fun hf => absurd hf (by decide)) hhash
  · rintro rfl
    exact absurd h (by decide)

/-- A lexeme that is no word does not begin like one. -/
theorem Lexeme.continuesWord_of_opens {lexeme : Lexeme} (hword : lexeme.beginsWord = false)
    {c : Char} (h : lexeme.opens c = true) : continuesWord c = false := by
  cases lexeme with
  | mark m =>
    rw [Lexeme.opens, Bool.and_eq_true, List.contains_iff_mem, beq_iff_eq] at h
    obtain ⟨hm, rfl⟩ := h
    have hall : ∀ d ∈ marks, continuesWord d = false := by decide
    exact hall c hm
  | signed sign _ =>
    rw [Lexeme.opens, Bool.and_eq_true, List.contains_iff_mem, beq_iff_eq] at h
    obtain ⟨hsign, rfl⟩ := h
    have hall : ∀ d ∈ signs, continuesWord d = false := by decide
    exact hall c hsign
  | ellipsis =>
    obtain rfl := eq_of_beq h
    rfl
  | name _ | number _ _ | string _ => exact nomatch hword

/-! ### Writing -/

/-- A lexeme, and the comment that is to stand before it if that matters. -/
structure Placed where
  lexeme : Lexeme
  comment : Option (Option String)

/-- A lexeme before which any comments may stand. -/
def Lexeme.plain (lexeme : Lexeme) : Placed := ⟨lexeme, none⟩

/-- A lexeme before which this comment stands, or none. -/
def Lexeme.after (lexeme : Lexeme) (comment : Option String) : Placed := ⟨lexeme, some comment⟩

namespace Placed

/-- A punctuation mark. -/
abbrev mark (c : Char) : Placed := (Lexeme.mark c).plain

/-- Three full stops. -/
abbrev ellipsis : Placed := Lexeme.ellipsis.plain

/-- A name. -/
abbrev name (written : String) : Placed := (Lexeme.name written).plain

/-- A name with the sign of a variable or a directive. -/
abbrev signed (sign : Char) (written : String) : Placed := (Lexeme.signed sign written).plain

end Placed

/-- **The texts that lexemes are written with**, after a word or not. Before each lexeme there
is an ignored run; between words it is not empty; and its last comment is the one wanted. -/
inductive Writes : Bool → List Placed → List Char → Prop
  | nil {word : Bool} {run : List Char} {last : Option (List Char)} :
      IgnoredRun run last → Writes word [] run
  | cons {word : Bool} {run : List Char} {last : Option (List Char)} {placed : Placed}
      {spelled : List Char} {more : List Placed} {text : List Char} :
      IgnoredRun run last → (∀ comment ∈ placed.comment, last.map saysOf = comment) →
        (word = true → placed.lexeme.beginsWord = true → run ≠ []) →
          placed.lexeme.Spells spelled → Writes placed.lexeme.endsWord more text →
            Writes word (placed :: more) (run ++ (spelled ++ text))

namespace Writes

variable {word : Bool} {lexeme : Lexeme} {placed : Placed} {items more : List Placed}
  {text spelled rest : List Char}

/-- A lexeme written on the spot. -/
theorem onSpot (hspell : lexeme.Spells spelled) (h : Writes lexeme.endsWord more rest) :
    Writes false (lexeme.plain :: more) (spelled ++ rest) := by
  show Writes false (lexeme.plain :: more) ([] ++ (spelled ++ rest))
  exact .cons .nil (fun _ hc => absurd hc (Option.not_mem_none _))
    (fun hf => absurd hf Bool.false_ne_true) hspell h

/-- A lexeme written right after what comes before. -/
theorem tight (spelled : List Char) (hcomment : placed.comment.getD none = none)
    (hapart : (word && placed.lexeme.beginsWord) = false) (hspell : placed.lexeme.Spells spelled)
    (h : Writes placed.lexeme.endsWord more rest) :
    Writes word (placed :: more) (spelled ++ rest) := by
  show Writes word (placed :: more) ([] ++ (spelled ++ rest))
  refine .cons .nil (fun comment hc => ?_) (fun hword hbegins => ?_) hspell h
  · rw [Option.mem_def.1 hc] at hcomment
    exact hcomment.symm
  · rw [hword, hbegins] at hapart
    exact nomatch hapart

/-- A lexeme written after a space. -/
theorem spaced (spelled : List Char) (hcomment : placed.comment.getD none = none)
    (hspell : placed.lexeme.Spells spelled) (h : Writes placed.lexeme.endsWord more rest) :
    Writes word (placed :: more) (' ' :: (spelled ++ rest)) := by
  show Writes word (placed :: more) ([' '] ++ (spelled ++ rest))
  refine .cons (.blank (by decide) .nil) (fun comment hc => ?_)
    (fun _ _ => List.cons_ne_nil _ _) hspell h
  rw [Option.mem_def.1 hc] at hcomment
  exact hcomment.symm

/-- A lexeme written after a comment and its line feed. -/
theorem noted (comment spelled : List Char)
    (hcomment : ∀ c ∈ comment, Text.isLineEnd c = false)
    (hwanted : placed.comment = some (some (saysOf comment)))
    (hspell : placed.lexeme.Spells spelled)
    (h : Writes placed.lexeme.endsWord more rest) :
    Writes word (placed :: more) ('#' :: (comment ++ ['\n']) ++ (spelled ++ rest)) := by
  refine .cons (.comment hcomment (by decide) .nil) (fun wanted hc => ?_)
    (fun _ _ => List.cons_ne_nil _ _) hspell h
  rw [hwanted] at hc
  exact Option.mem_some.1 hc

/-- **The run before a lexeme is skipped**, and answers the comment that the lexeme asks for. -/
theorem ignored (h : Writes word (placed :: more) text) :
    ∃ comment spelled rest, Token.ignored text = .ok (comment, spelled ++ rest) ∧
      (∀ wanted ∈ placed.comment, comment = wanted) ∧ placed.lexeme.Spells spelled ∧
      Writes placed.lexeme.endsWord more rest := by
  cases h with
  | @cons _ run last _ spelled _ rest hrun hcomment _ hspell hrest =>
    obtain ⟨c, tail, rfl, hc⟩ := hspell.opens
    have hbare : Bare (c :: tail ++ rest) := by
      intro d hd
      obtain rfl := Option.mem_some.1 hd
      exact Lexeme.bare_of_opens hc
    exact ⟨_, _, rest, ignored_run hrun hbare, hcomment, hspell, hrest⟩

/-- After the last lexeme there is nothing but an ignored run. -/
theorem ignored_nil (h : Writes word [] text) :
    ∃ comment, Token.ignored text = .ok (comment, []) := by
  cases h with
  | nil hrun =>
    have hbare : Bare [] := fun c hc => absurd hc (Option.not_mem_none c)
    have hread := ignored_run hrun hbare
    rw [List.append_nil] at hread
    exact ⟨_, hread⟩

/-- No lexeme is written with nothing. -/
theorem length_le (h : Writes word items text) : items.length ≤ text.length := by
  induction h with
  | nil _ => exact Nat.zero_le _
  | @cons word run last placed spelled more text _ _ _ hspell _ ih =>
    obtain ⟨c, tail, rfl, _⟩ := hspell.opens
    simp only [List.length_cons, List.length_append]
    omega

/-- What stands right after a word is an ignored run, or a lexeme that is no word. -/
theorem afterWord (h : Writes true items text) :
    (∀ c ∈ text.head?, isIgnored c = true ∨ c = '#') ∨
      ∃ (lexeme : Lexeme) (spelled rest : List Char), text = spelled ++ rest ∧
        lexeme.beginsWord = false ∧ lexeme.Spells spelled := by
  cases h with
  | nil hrun => exact .inl hrun.head
  | @cons _ run _ placed spelled _ rest hrun _ hapart hspell _ =>
    cases run with
    | nil =>
      refine .inr ⟨placed.lexeme, spelled, rest, rfl, ?_, hspell⟩
      cases hword : placed.lexeme.beginsWord with
      | false => rfl
      | true => exact absurd rfl (hapart rfl hword)
    | cons c run => exact .inl hrun.head

/-- **Nothing continues a word**: what follows it is no part of a name and no quote. -/
theorem word_ends (h : Writes true items text) :
    Parser.Shuns continuesWord text := by
  intro c hc
  obtain hrun | ⟨lexeme, spelled, rest, rfl, hword, hspell⟩ := h.afterWord
  · exact continuesWord_of_ignored (hrun c hc)
  · obtain ⟨d, tail, rfl, hd⟩ := hspell.opens
    obtain rfl := Option.mem_some.1 hc
    exact lexeme.continuesWord_of_opens hword hd

/-- No fraction follows a word: a full stop is the first one of an ellipsis. -/
theorem no_fraction (h : Writes true items ('.' :: text)) : Parser.Shuns Char.isDigit text := by
  obtain hrun | ⟨lexeme, spelled, rest, htext, hword, hspell⟩ := h.afterWord
  · exact absurd (hrun '.' rfl) (by decide)
  · cases lexeme with
    | mark c =>
      obtain ⟨hc, rfl⟩ := hspell
      obtain rfl := (List.cons.inj htext).1
      exact absurd hc (by decide)
    | signed sign _ =>
      obtain ⟨hsign, name, rfl, _⟩ := hspell
      obtain rfl := (List.cons.inj htext).1
      exact absurd hsign (by decide)
    | ellipsis =>
      rw [Lexeme.Spells] at hspell
      subst hspell
      intro c hc
      rw [(List.cons.inj htext).2] at hc
      obtain rfl := Option.mem_some.1 hc
      rfl
    | name _ | number _ _ | string _ => exact nomatch hword

end Writes

end QueryAccess
