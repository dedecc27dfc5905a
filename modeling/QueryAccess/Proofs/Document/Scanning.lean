import QueryAccess.Document.Nesting
import QueryAccess.Proofs.Document.Lexemes

/-!
# Scanning a written text

Before a text is read its brackets are counted, without reading it. In a text written with
lexemes the count sees just the brackets among the lexemes: comments and strings are passed
over, and nothing else has brackets in it. So if at no time more than `QueryAccess.maxDepth` are
open, the text does not nest too deep (`QueryAccess.Writes.tooDeep?_eq_none`).
-/

namespace QueryAccess

open Nesting Token

/-- How many brackets and braces are open after a lexeme. -/
def Lexeme.depthAfter (depth : Nat) : Lexeme → Nat
  | .mark c =>
    if isOpening c then depth + 1
    else if isClosing c then depth - 1
    else depth
  | _ => depth

/-- **The most brackets and braces that are open at a time**, if so many are at first. -/
def deepest (depth : Nat) : List Placed → Nat
  | [] => depth
  | placed :: more => max depth (deepest (placed.lexeme.depthAfter depth) more)

/-! ### What the scan passes over -/

/-- A character that the scan passes over wherever it stands in code. -/
def isPlain (c : Char) : Bool := c != '#' && c != '"' && !isOpening c && !isClosing c

theorem tooDeep?_plain {c : Char} (h : isPlain c = true) (depth : Nat) (rest : List Char) :
    tooDeep? .code depth (c :: rest) = tooDeep? .code depth rest := by
  simp only [isPlain, Bool.and_eq_true, bne_iff_ne, Bool.not_eq_true'] at h
  obtain ⟨⟨⟨hhash, hquote⟩, hopening⟩, hclosing⟩ := h
  rw [tooDeep?_code hhash hquote]
  simp only [hopening, hclosing, Bool.false_eq_true, if_false]

theorem tooDeep?_plain_append {chars : List Char} (h : ∀ c ∈ chars, isPlain c = true)
    (depth : Nat) (rest : List Char) :
    tooDeep? .code depth (chars ++ rest) = tooDeep? .code depth rest := by
  induction chars with
  | nil => rfl
  | cons c chars ih =>
    rw [List.cons_append, tooDeep?_plain (h c (.head _)), ih fun d hd => h d (.tail _ hd)]

/-- What is never a bracket, a quote or the sign of a comment is plain. -/
theorem isPlain_of {admits : Char → Bool}
    (h : ∀ c ∈ ['#', '"', '[', '\x7b', ']', '\x7d'], admits c = false) {c : Char}
    (hc : admits c = true) : isPlain c = true := by
  cases hplain : isPlain c with
  | true => rfl
  | false =>
    simp only [isPlain, isOpening, isClosing, Bool.and_eq_false_iff, bne_eq_false_iff_eq,
      Bool.not_eq_false', Bool.or_eq_true, beq_iff_eq] at hplain
    have hmem : c ∈ ['#', '"', '[', '\x7b', ']', '\x7d'] := by
      rcases hplain with ((rfl | rfl) | rfl | rfl) | rfl | rfl <;> decide
    rw [h c hmem] at hc
    exact nomatch hc

theorem isPlain_of_isNamePart {c : Char} (h : isNamePart c = true) : isPlain c = true :=
  isPlain_of (by decide) h

theorem tooDeep?_comment {comment : List Char}
    (h : ∀ c ∈ comment, Text.isLineEnd c = false) {lineEnd : Char}
    (hend : Text.isLineEnd lineEnd = true) (depth : Nat) (rest : List Char) :
    tooDeep? .comment depth (comment ++ lineEnd :: rest) = tooDeep? .code depth rest := by
  induction comment with
  | nil => rw [List.nil_append, tooDeep?, if_pos hend]
  | cons c comment ih =>
    have hc : ¬Text.isLineEnd c = true := by rw [h c (.head _)]; decide
    rw [List.cons_append, tooDeep?, if_neg hc, ih fun d hd => h d (.tail _ hd)]

/-- An ignored run is passed over. -/
theorem tooDeep?_run {run : List Char} {last : Option (List Char)} (hrun : IgnoredRun run last)
    (depth : Nat) (rest : List Char) :
    tooDeep? .code depth (run ++ rest) = tooDeep? .code depth rest := by
  induction hrun with
  | nil => rfl
  | blank hc _ ih => rw [List.cons_append, tooDeep?_plain (isPlain_of (by decide) hc), ih]
  | comment htext hend _ ih =>
    rw [List.cons_append, List.append_assoc, List.cons_append, tooDeep?,
      tooDeep?_comment htext hend, ih]

theorem isPlain_of_isName {text : List Char} (h : IsName text) : ∀ c ∈ text, isPlain c = true := by
  obtain ⟨first, rest, rfl, hfirst, hrest⟩ := h
  refine List.forall_mem_cons.2 ⟨isPlain_of_isNamePart (isNamePart_of_isNameStart hfirst), ?_⟩
  exact fun c hc => isPlain_of_isNamePart (hrest c hc)

theorem isPlain_of_areDigits {digits : List Char} (h : AreDigits digits) :
    ∀ c ∈ digits, isPlain c = true :=
  fun c hc => isPlain_of_isNamePart (isNamePart_of_isDigit (h.2 c hc))

theorem isPlain_of_exponent (exponent : ExponentText) : ∀ c ∈ exponent.chars, isPlain c = true := by
  simp only [ExponentText.chars, List.cons_append, List.forall_mem_cons, List.forall_mem_append,
    Option.mem_toList]
  refine ⟨?_, fun c hc => ?_, isPlain_of_areDigits exponent.digits_ok⟩
  · rcases exponent.mark_eq with h | h <;> rw [h] <;> rfl
  · rcases exponent.sign_eq c hc with rfl | rfl <;> rfl

theorem isPlain_of_number (number : NumberText) : ∀ c ∈ number.chars, isPlain c = true := by
  simp only [NumberText.chars, List.forall_mem_append, Option.mem_toList]
  refine ⟨⟨⟨fun c hc => ?_, isPlain_of_areDigits number.whole_ok⟩, ?_⟩, ?_⟩
  · rw [number.minus_eq c hc]
    rfl
  · cases hfraction : number.fraction with
    | none => exact fun c hc => absurd hc List.not_mem_nil
    | some digits =>
      exact List.forall_mem_cons.2
        ⟨rfl, isPlain_of_areDigits (number.fraction_ok digits hfraction)⟩
  · cases number.exponent with
    | none => exact fun c hc => absurd hc List.not_mem_nil
    | some exponent => exact isPlain_of_exponent exponent

/-! ### Strings -/

theorem tooDeep?_inside {c : Char} (hbackslash : c ≠ '\\') (hquote : c ≠ '"')
    (hend : Text.isLineEnd c = false) (depth : Nat) (rest : List Char) :
    tooDeep? .quoted depth (c :: rest) = tooDeep? .quoted depth rest := by
  have hgoes : ¬(c = '"' ∨ Text.isLineEnd c = true) := by
    rintro (hc | hc)
    · exact hquote hc
    · rw [hend] at hc
      exact nomatch hc
  rw [tooDeep?]
  · rw [if_neg hgoes]
  · exact fun _ _ hc _ => hbackslash hc

theorem tooDeep?_hexDigit {c : Char} {n : Nat} (h : Text.hexDigit? c = some n) (depth : Nat)
    (rest : List Char) : tooDeep? .quoted depth (c :: rest) = tooDeep? .quoted depth rest := by
  have hne (d : Char) (hd : Text.hexDigit? d = none) : c ≠ d := by
    rintro rfl
    rw [hd] at h
    exact Option.some_ne_none n h.symm
  refine tooDeep?_inside (hne _ rfl) (hne _ rfl) (Bool.eq_false_iff.2 fun hend => ?_) depth rest
  simp only [Text.isLineEnd, Bool.or_eq_true, beq_iff_eq] at hend
  exact hend.elim (hne _ rfl) (hne _ rfl)

/-- The code of a character is passed over. -/
theorem tooDeep?_unit {a b c d : Char} {unit : Nat} (h : Text.unit? a b c d = some unit)
    (depth : Nat) (rest : List Char) :
    tooDeep? .quoted depth ('\\' :: 'u' :: a :: b :: c :: d :: rest) =
      tooDeep? .quoted depth rest := by
  simp only [Text.unit?, Option.bind_eq_bind, Option.bind_eq_some_iff] at h
  obtain ⟨_, ha, _, hb, _, hc, _, hd, _⟩ := h
  rw [tooDeep?, tooDeep?_hexDigit ha, tooDeep?_hexDigit hb, tooDeep?_hexDigit hc,
    tooDeep?_hexDigit hd]

theorem tooDeep?_quoted {text body : List Char} (h : Quoted text body) (depth : Nat)
    (rest : List Char) : tooDeep? .quoted depth (body ++ rest) = tooDeep? .code depth rest := by
  induction h with
  | close => rfl
  | plain hquote hbackslash hend _ ih =>
    rw [List.cons_append, tooDeep?_inside hbackslash hquote hend, ih]
  | short _ _ ih => rw [List.cons_append, List.cons_append, tooDeep?, ih]
  | unit hunit _ _ _ ih =>
    simp only [List.cons_append]
    rw [tooDeep?_unit hunit, ih]
  | pair hhigh _ hlow _ _ ih =>
    simp only [List.cons_append]
    rw [tooDeep?_unit hhigh, tooDeep?_unit hlow, ih]

/-! ### Lexemes -/

/-- The scan sees the brackets among the lexemes, and nothing else. -/
theorem tooDeep?_spelled {lexeme : Lexeme} {spelled : List Char} (h : lexeme.Spells spelled)
    {rest : List Char} (hrest : lexeme.endsWord = true → Parser.Shuns (· == '"') rest)
    {depth : Nat} (hdepth : lexeme.depthAfter depth ≤ maxDepth) :
    tooDeep? .code depth (spelled ++ rest) = tooDeep? .code (lexeme.depthAfter depth) rest := by
  cases lexeme with
  | mark c =>
    obtain ⟨hmark, rfl⟩ := h
    have hcode : c ≠ '#' ∧ c ≠ '"' :=
      (by decide : ∀ d ∈ marks, d ≠ '#' ∧ d ≠ '"') c hmark
    rw [List.singleton_append, tooDeep?_code hcode.1 hcode.2]
    rw [Lexeme.depthAfter] at hdepth ⊢
    split
    · next hopening =>
      rw [if_pos hopening] at hdepth
      exact if_pos hdepth
    · split <;> rfl
  | ellipsis =>
    obtain rfl : spelled = ['.', '.', '.'] := h
    exact tooDeep?_plain_append (by decide) depth rest
  | name _ => exact tooDeep?_plain_append (isPlain_of_isName h.1) depth rest
  | signed sign _ =>
    obtain ⟨hsign, name, rfl, hname, _⟩ := h
    have hplain : isPlain sign = true := (by decide : ∀ d ∈ signs, isPlain d = true) sign hsign
    exact tooDeep?_plain_append (List.forall_mem_cons.2 ⟨hplain, isPlain_of_isName hname⟩) depth
      rest
  | number _ _ =>
    obtain ⟨number, rfl, _⟩ := h
    exact tooDeep?_plain_append (isPlain_of_number number) depth rest
  | string _ =>
    obtain ⟨body, rfl, hbody⟩ := h
    rw [List.cons_append, tooDeep?]
    · exact tooDeep?_quoted hbody depth rest
    · exact hbody.single (hrest rfl)

theorem le_deepest (depth : Nat) (items : List Placed) : depth ≤ deepest depth items := by
  cases items with
  | nil => exact Nat.le_refl depth
  | cons placed more => exact Nat.le_max_left ..

/-- **A written text does not nest too deep** if its lexemes do not. -/
theorem Writes.tooDeep?_eq_none {word : Bool} {items : List Placed} {text : List Char}
    (h : Writes word items text) :
    ∀ {depth : Nat}, deepest depth items ≤ maxDepth → tooDeep? .code depth text = none := by
  induction h with
  | nil hrun =>
    intro depth _
    have hscan := tooDeep?_run hrun depth []
    rw [List.append_nil] at hscan
    rw [hscan, tooDeep?]
  | @cons word run last placed spelled more text hrun _ _ hspell hmore ih =>
    intro depth hdepth
    have hafter := Nat.le_trans (Nat.le_max_right ..) hdepth
    have hquote : placed.lexeme.endsWord = true → Parser.Shuns (· == '"') text := by
      intro hword c hc
      rw [hword] at hmore
      exact (Bool.or_eq_false_iff.1 (hmore.word_ends c hc)).2
    rw [tooDeep?_run hrun, tooDeep?_spelled hspell hquote (Nat.le_trans (le_deepest _ _) hafter),
      ih hafter]

end QueryAccess
