import QueryAccess.Proofs.Document.Lexemes

/-!
# Spellings of a string

A string between single quotes – one on either side, not three – can be spelt in many ways: each
of its characters may stand for itself, unless it is a quote, a backslash or a line end, or be
written with its short escape, or by its code – one UTF-16 unit, or above U+FFFF two of them
(`QueryAccess.StringLiteral.Spelling`). The ways can be mixed freely.

**Reading.** What a piece spells is read off it one character at a time, whatever follows
(`QueryAccess.StringLiteral.unquote?_spelling`); that a piece ends where the next one begins is all
in this lemma. After the pieces comes either the closing quote, or something that spells nothing
(`QueryAccess.StringLiteral.Fault`), and then the literal is refused. There is no third case
(`QueryAccess.StringLiteral.inside_of_any`), so the faults listed here are all there are.
-/

namespace QueryAccess

/-! ### Decoded texts -/

namespace Text

/-- A text before a decoded text. -/
def appendTo (text : List Char) (decoded : Option (List Char × List Char)) :
    Option (List Char × List Char) :=
  decoded.map fun result => (text ++ result.1, result.2)

@[simp] theorem appendTo_nil (decoded : Option (List Char × List Char)) :
    appendTo [] decoded = decoded := by
  cases decoded <;> rfl

theorem consTo_appendTo (c : Char) (text : List Char)
    (decoded : Option (List Char × List Char)) :
    consTo c (appendTo text decoded) = appendTo (c :: text) decoded := by
  cases decoded <;> rfl

theorem appendTo_appendTo (first second : List Char)
    (decoded : Option (List Char × List Char)) :
    appendTo first (appendTo second decoded) = appendTo (first ++ second) decoded := by
  cases decoded with
  | none => rfl
  | some result => simp [appendTo]

end Text

namespace StringLiteral

open Text Token

/-! ### Units -/

/-- The four hexadecimal digits of a UTF-16 unit, in lower case. -/
def digitsOf (unit : Nat) : List Char :=
  [unit / 0x1000, unit / 0x100 % 0x10, unit / 0x10 % 0x10, unit % 0x10].map Nat.digitChar

/-- **Four digits write a unit**, each in lower or in upper case. -/
def WritesUnit (unit : Nat) (digits : List Char) : Prop :=
  unit < 0x10000 ∧ digits.map Char.toLower = digitsOf unit

instance (unit : Nat) (digits : List Char) : Decidable (WritesUnit unit digits) := by
  unfold WritesUnit
  infer_instance

theorem toNat_lt_of_hexDigit? {c : Char} {n : Nat} (h : hexDigit? c = some n) :
    c.toNat < 128 ∧ n < 16 := by
  have hbound {low high : Char} (hrange : low ≤ c ∧ c ≤ high) :
      low.toNat ≤ c.toNat ∧ c.toNat ≤ high.toNat :=
    ⟨UInt32.le_iff_toNat_le.1 hrange.1, UInt32.le_iff_toNat_le.1 hrange.2⟩
  rw [hexDigit?] at h
  split at h
  · next hrange =>
    have hc := hbound hrange
    simp only [Option.some.injEq] at h
    change 48 ≤ c.toNat ∧ c.toNat ≤ 57 at hc
    omega
  · split at h
    · next hrange =>
      have hc := hbound hrange
      simp only [Option.some.injEq] at h
      change 97 ≤ c.toNat ∧ c.toNat ≤ 102 at hc
      omega
    · split at h
      · next hrange =>
        have hc := hbound hrange
        simp only [Option.some.injEq] at h
        change 65 ≤ c.toNat ∧ c.toNat ≤ 70 at hc
        omega
      · cases h

/-- Lower case does not lead into ASCII from outside. -/
theorem toNat_lt_of_toLower {c : Char} (h : c.toLower.toNat < 128) : c.toNat < 128 := by
  by_cases hupper : 'A'.val ≤ c.val ∧ c.val ≤ 'Z'.val
  · have hc : c.toNat ≤ 'Z'.toNat := UInt32.le_iff_toNat_le.1 hupper.2
    exact Nat.lt_of_le_of_lt hc (by decide)
  · have hsame : c.toLower = c := dif_neg hupper
    rwa [hsame] at h

/-- **The value of a digit** is the number whose digit it is, once it is in lower case. -/
theorem hexDigit?_eq_some_iff {c : Char} {n : Nat} :
    hexDigit? c = some n ↔ n < 16 ∧ c.toLower = Nat.digitChar n := by
  have hall : ∀ k < 128, ∀ m < 16,
      (hexDigit? (Char.ofNat k) = some m ↔ (Char.ofNat k).toLower = Nat.digitChar m) := by
    decide +kernel
  have hascii (hc : c.toNat < 128) (hn : n < 16) :
      hexDigit? c = some n ↔ c.toLower = Nat.digitChar n :=
    forall_ascii (p := fun c => hexDigit? c = some n ↔ c.toLower = Nat.digitChar n)
      (fun k hk => hall k hk n hn) hc
  constructor
  · intro h
    obtain ⟨hc, hn⟩ := toNat_lt_of_hexDigit? h
    exact ⟨hn, (hascii hc hn).1 h⟩
  · rintro ⟨hn, h⟩
    have hdigit : ∀ m < 16, (Nat.digitChar m).toNat < 128 := by decide
    exact (hascii (toNat_lt_of_toLower (h ▸ hdigit n hn)) hn).2 h

/-- **Reading a unit** is reading what writes it. -/
theorem unit?_eq_some_iff {a b c d : Char} {unit : Nat} :
    unit? a b c d = some unit ↔ WritesUnit unit [a, b, c, d] := by
  simp only [unit?, Option.bind_eq_bind, Option.bind_eq_some_iff, hexDigit?_eq_some_iff,
    Option.pure_def, Option.some.injEq, WritesUnit, digitsOf, List.map_cons, List.map_nil,
    List.cons.injEq, and_true]
  constructor
  · rintro ⟨i, ⟨hi, ha⟩, j, ⟨hj, hb⟩, k, ⟨hk, hc⟩, l, ⟨hl, hd⟩, rfl⟩
    refine ⟨by omega, ?_, ?_, ?_, ?_⟩
    · rw [ha]; congr 1; omega
    · rw [hb]; congr 1; omega
    · rw [hc]; congr 1; omega
    · rw [hd]; congr 1; omega
  · rintro ⟨hunit, ha, hb, hc, hd⟩
    exact ⟨_, ⟨by omega, ha⟩, _, ⟨by omega, hb⟩, _, ⟨by omega, hc⟩, _, ⟨by omega, hd⟩, by omega⟩

theorem WritesUnit.exists_unit? {unit : Nat} {digits : List Char} (h : WritesUnit unit digits) :
    ∃ a b c d, digits = [a, b, c, d] ∧ unit? a b c d = some unit := by
  have hlength : digits.length = 4 := by
    rw [← List.length_map (f := Char.toLower), h.2]
    rfl
  match digits, hlength with
  | [a, b, c, d], _ => exact ⟨a, b, c, d, rfl, unit?_eq_some_iff.2 h⟩

/-- Where four digits that write a unit are read, this unit is read. -/
theorem WritesUnit.unit?_eq {unit : Nat} {digits rest more : List Char} {a b c d : Char}
    (h : WritesUnit unit digits) (heq : a :: b :: c :: d :: rest = digits ++ more) :
    unit? a b c d = some unit := by
  obtain ⟨a', b', c', d', rfl, hunit⟩ := h.exists_unit?
  simp only [List.cons_append, List.nil_append, List.cons.injEq] at heq
  obtain ⟨rfl, rfl, rfl, rfl, -⟩ := heq
  exact hunit

/-! ### Spellings -/

/-- The short escapes: the letter after the backslash, and the character it stands for. -/
def shortEscapes : List (Char × Char) :=
  [('"', '"'), ('\\', '\\'), ('/', '/'), ('b', '\x08'), ('f', '\x0c'), ('n', '\n'), ('r', '\r'),
    ('t', '\t')]

/-- The first unit of a character above U+FFFF. -/
def highUnit (c : Char) : Nat := 0xD800 + (c.toNat - 0x10000) / 0x400

/-- The second unit of a character above U+FFFF. -/
def lowUnit (c : Char) : Nat := 0xDC00 + (c.toNat - 0x10000) % 0x400

/-- **The ways to spell a character** between single quotes. -/
inductive Spelling : Char → List Char → Prop
  | plain {c : Char} : c ≠ '"' → c ≠ '\\' → c ≠ '\n' → c ≠ '\r' → Spelling c [c]
  | short {letter c : Char} : (letter, c) ∈ shortEscapes → Spelling c ['\\', letter]
  | code {c : Char} {digits : List Char} :
      WritesUnit c.toNat digits → Spelling c ('\\' :: 'u' :: digits)
  | pair {c : Char} {high low : List Char} :
      0x10000 ≤ c.toNat → WritesUnit (highUnit c) high → WritesUnit (lowUnit c) low →
        Spelling c ('\\' :: 'u' :: (high ++ '\\' :: 'u' :: low))

/-- **The ways to spell a text** between single quotes: those of its characters, in any mixture. -/
inductive Spells : List Char → List Char → Prop
  | nil : Spells [] []
  | cons {c : Char} {piece text body : List Char} :
      Spelling c piece → Spells text body → Spells (c :: text) (piece ++ body)

/-- The surrogates of the first kind, which ask for one of the second. -/
def IsHigh (unit : Nat) : Prop := 0xD800 ≤ unit ∧ unit < 0xDC00

/-- The surrogates of the second kind. -/
def IsLow (unit : Nat) : Prop := 0xDC00 ≤ unit ∧ unit < 0xE000

/-- **What spells no character**, and does not end the literal either. -/
inductive Fault : List Char → Prop
  /-- The text is over before the closing quote. -/
  | textEnd : Fault []
  /-- A line is over. -/
  | lineEnd {c : Char} {rest : List Char} : c = '\n' ∨ c = '\r' → Fault (c :: rest)
  /-- The text is over after a backslash. -/
  | halfEscape : Fault ['\\']
  /-- No escape has this letter. -/
  | unknown {letter : Char} {rest : List Char} :
      letter ≠ 'u' → letter ∉ shortEscapes.map Prod.fst → Fault ('\\' :: letter :: rest)
  /-- There are fewer than four hexadecimal digits. -/
  | digits {rest : List Char} :
      (∀ unit digits more, WritesUnit unit digits → rest ≠ digits ++ more) →
        Fault ('\\' :: 'u' :: rest)
  /-- A low surrogate does not follow a high one. -/
  | low {unit : Nat} {digits rest : List Char} :
      WritesUnit unit digits → IsLow unit → Fault ('\\' :: 'u' :: (digits ++ rest))
  /-- No low surrogate follows a high one. -/
  | high {unit : Nat} {digits rest : List Char} :
      WritesUnit unit digits → IsHigh unit →
        (∀ low lowDigits more, WritesUnit low lowDigits → IsLow low →
          rest ≠ '\\' :: 'u' :: (lowDigits ++ more)) →
          Fault ('\\' :: 'u' :: (digits ++ rest))

/-! ### Reading one character -/

theorem isLineEnd_eq_false_iff {c : Char} : isLineEnd c = false ↔ c ≠ '\n' ∧ c ≠ '\r' := by
  rw [isLineEnd, Bool.or_eq_false_iff, beq_eq_false_iff_ne, beq_eq_false_iff_ne]

theorem shortEscape?_eq_some_iff {letter c : Char} :
    shortEscape? letter = some c ↔ (letter, c) ∈ shortEscapes := by
  constructor
  · intro h
    rw [shortEscape?.eq_def] at h
    split at h <;> cases h <;> decide
  · intro h
    simp only [shortEscapes, List.mem_cons, Prod.mk.injEq, List.not_mem_nil, or_false] at h
    rcases h with ⟨rfl, rfl⟩ | ⟨rfl, rfl⟩ | ⟨rfl, rfl⟩ | ⟨rfl, rfl⟩ | ⟨rfl, rfl⟩ | ⟨rfl, rfl⟩ |
      ⟨rfl, rfl⟩ | ⟨rfl, rfl⟩ <;> rfl

theorem isHighSurrogate_iff {unit : Nat} : isHighSurrogate unit = true ↔ IsHigh unit := by
  simp [isHighSurrogate, IsHigh]

theorem isLowSurrogate_iff {unit : Nat} : isLowSurrogate unit = true ↔ IsLow unit := by
  simp [isLowSurrogate, IsLow]

/-- The code of a character is no surrogate. -/
theorem not_surrogate (c : Char) :
    isHighSurrogate c.toNat = false ∧ isLowSurrogate c.toNat = false := by
  have hvalid : c.toNat < 0xD800 ∨ 0xDFFF < c.toNat ∧ c.toNat < 0x110000 := c.valid
  rw [Bool.eq_false_iff, Bool.eq_false_iff, Ne, Ne, isHighSurrogate_iff, isLowSurrogate_iff, IsHigh,
    IsLow]
  omega

/-- **A surrogate pair** is read as the character it stands for. -/
theorem ofSurrogates_units {c : Char} (h : 0x10000 ≤ c.toNat) :
    IsHigh (highUnit c) ∧ IsLow (lowUnit c) ∧ ofSurrogates (highUnit c) (lowUnit c) = c := by
  have hvalid : c.toNat < 0xD800 ∨ 0xDFFF < c.toNat ∧ c.toNat < 0x110000 := c.valid
  refine ⟨?_, ?_, ?_⟩
  · rw [IsHigh, highUnit]
    omega
  · rw [IsLow, lowUnit]
    omega
  · have hcode : 0x10000 + (highUnit c - 0xD800) * 0x400 + (lowUnit c - 0xDC00) = c.toNat := by
      rw [highUnit, lowUnit]
      omega
    rw [ofSurrogates, hcode, Char.ofNat_toNat]

/-- A code beyond the surrogates is the code of a character. -/
theorem toNat_ofNat {code : Nat} (h : code.isValidChar) : (Char.ofNat code).toNat = code := by
  rw [Char.ofNat, dif_pos h]
  rfl

/-- **Two surrogates** stand for a character whose units they are. -/
theorem units_ofSurrogates {high low : Nat} (hhigh : IsHigh high) (hlow : IsLow low) :
    0x10000 ≤ (ofSurrogates high low).toNat ∧ highUnit (ofSurrogates high low) = high ∧
      lowUnit (ofSurrogates high low) = low := by
  obtain ⟨hhigh, hhigh'⟩ := hhigh
  obtain ⟨hlow, hlow'⟩ := hlow
  have hcode : (ofSurrogates high low).toNat =
      0x10000 + (high - 0xD800) * 0x400 + (low - 0xDC00) :=
    toNat_ofNat (.inr (by omega))
  rw [highUnit, lowUnit, hcode]
  omega

/-- A unit that is no surrogate spells the character whose code it is. -/
theorem spelling_of_unit? {a b c d : Char} {unit : Nat} (hunit : unit? a b c d = some unit)
    (hhigh : isHighSurrogate unit = false) (hlow : isLowSurrogate unit = false) :
    Spelling (Char.ofNat unit) ['\\', 'u', a, b, c, d] := by
  have hwrites : WritesUnit unit [a, b, c, d] := unit?_eq_some_iff.1 hunit
  have hvalid : unit.isValidChar := by
    have hunit := hwrites.1
    rw [Bool.eq_false_iff, Ne, isHighSurrogate_iff, IsHigh] at hhigh
    rw [Bool.eq_false_iff, Ne, isLowSurrogate_iff, IsLow] at hlow
    rw [Nat.isValidChar]
    omega
  exact .code ((toNat_ofNat hvalid).symm ▸ hwrites)

/-- Two surrogates spell the character they stand for. -/
theorem spelling_of_units {a b c d e f g h : Char} {high low : Nat}
    (hunit : unit? a b c d = some high) (hhigh : isHighSurrogate high = true)
    (hlow : unit? e f g h = some low) (hislow : isLowSurrogate low = true) :
    Spelling (ofSurrogates high low) ['\\', 'u', a, b, c, d, '\\', 'u', e, f, g, h] := by
  obtain ⟨hbeyond, hfirst, hsecond⟩ :=
    units_ofSurrogates (isHighSurrogate_iff.1 hhigh) (isLowSurrogate_iff.1 hislow)
  exact .pair hbeyond (hfirst.symm ▸ unit?_eq_some_iff.1 hunit)
    (hsecond.symm ▸ unit?_eq_some_iff.1 hlow)

/-- **A spelling is read as its character**, and reading goes on right after it. -/
theorem unquote?_spelling {c : Char} {piece : List Char} (h : Spelling c piece)
    (rest : List Char) :
    unquote? admits (piece ++ rest) = consTo c (unquote? admits rest) := by
  cases h with
  | plain hquote hbackslash hfeed hreturn =>
    have hadmits : admits c = true := by
      rw [admits, isLineEnd_eq_false_iff.2 ⟨hfeed, hreturn⟩]
      rfl
    rw [List.singleton_append, unquote?]
    · rw [if_pos ⟨hbackslash, hadmits⟩]
    · exact hquote
    · exact fun _ _ _ _ _ hc _ => hbackslash hc
    · exact fun _ _ hc _ => hbackslash hc
  | @short letter _ hmem =>
    have hletter := shortEscape?_eq_some_iff.2 hmem
    have hcode : letter ≠ 'u' := by
      rintro rfl
      exact nomatch hletter
    rw [List.cons_append, List.singleton_append, unquote?]
    · simp only [hletter]
    · exact fun _ _ _ _ _ hc _ => hcode hc
  | code hdigits =>
    -- the code of a character is no surrogate, so nothing has to follow
    obtain ⟨a, b, c', d, rfl, hunit⟩ := hdigits.exists_unit?
    obtain ⟨hhigh, hlow⟩ := not_surrogate c
    simp only [List.cons_append, List.nil_append]
    rw [unquote?]
    simp only [hunit, hhigh, hlow, Bool.false_eq_true, if_false, Char.ofNat_toNat]
  | pair hbeyond hhigh hlow =>
    obtain ⟨a, b, c', d, rfl, hfirst⟩ := hhigh.exists_unit?
    obtain ⟨e, f, g, k, rfl, hsecond⟩ := hlow.exists_unit?
    obtain ⟨hishigh, hislow, hmeant⟩ := ofSurrogates_units hbeyond
    simp only [List.cons_append, List.nil_append]
    rw [unquote?]
    simp only [hfirst, hsecond, isHighSurrogate_iff.2 hishigh, isLowSurrogate_iff.2 hislow, if_true,
      hmeant]

/-- A spelt text is read, and then what follows it. -/
theorem unquote?_spells {text body : List Char} (h : Spells text body) (rest : List Char) :
    unquote? admits (body ++ rest) = appendTo text (unquote? admits rest) := by
  induction h with
  | nil => rw [List.nil_append, appendTo_nil]
  | cons hpiece _ ih =>
    rw [List.append_assoc, unquote?_spelling hpiece, ih, consTo_appendTo]

/-! ### Faults -/

/-- **Where nothing is spelt** nothing is read. -/
theorem unquote?_fault {fault : List Char} (h : Fault fault) : unquote? admits fault = none := by
  cases h with
  | textEnd => rfl
  | lineEnd hc => rcases hc with rfl | rfl <;> rfl
  | halfEscape => rfl
  | @unknown letter rest hcode hletter =>
    have hnone : shortEscape? letter = none := by
      rw [Option.eq_none_iff_forall_ne_some]
      exact fun c hc => hletter (List.mem_map_of_mem (shortEscape?_eq_some_iff.1 hc))
    rw [unquote?]
    · simp only [hnone]
    · exact fun _ _ _ _ _ hc _ => hcode hc
  | @digits rest hnone =>
    match rest with
    | [] | [_] | [_, _] | [_, _, _] => rfl
    | a :: b :: c :: d :: more =>
      have hunit : unit? a b c d = none := by
        rw [Option.eq_none_iff_forall_ne_some]
        exact fun unit hunit => hnone unit [a, b, c, d] more (unit?_eq_some_iff.1 hunit) rfl
      rw [unquote?]
      simp only [hunit]
  | @low unit digits rest hdigits hlow =>
    obtain ⟨a, b, c, d, rfl, hunit⟩ := hdigits.exists_unit?
    have hhigh : isHighSurrogate unit = false := by
      rw [Bool.eq_false_iff, Ne, isHighSurrogate_iff, IsHigh]
      exact fun hhigh => absurd hlow.1 (by omega)
    simp only [List.cons_append, List.nil_append]
    rw [unquote?]
    simp only [hunit, hhigh, isLowSurrogate_iff.2 hlow, Bool.false_eq_true, if_false, if_true]
  | @high unit digits rest hdigits hhigh hnone =>
    obtain ⟨a, b, c, d, rfl, hunit⟩ := hdigits.exists_unit?
    simp only [List.cons_append, List.nil_append]
    rw [unquote?]
    simp only [hunit, isHighSurrogate_iff.2 hhigh, if_true]
    split
    · next e f g k more =>
      split
      · rfl
      · next low hlow =>
        refine if_neg fun hislow => ?_
        exact hnone low [e, f, g, k] more (unit?_eq_some_iff.1 hlow) (isLowSurrogate_iff.1 hislow)
          rfl
    · rfl

/-- **What stands after the opening quote**: a spelt text, and then the closing quote or a fault. -/
def Inside (inside : List Char) : Prop :=
  ∃ text body rest, Spells text body ∧ inside = body ++ rest ∧
    (rest.head? = some '"' ∨ Fault rest)

theorem Fault.inside {fault : List Char} (h : Fault fault) : Inside fault :=
  ⟨[], [], fault, .nil, rfl, .inr h⟩

theorem Inside.spelling {c : Char} {piece more : List Char} (hpiece : Spelling c piece)
    (h : Inside more) : Inside (piece ++ more) := by
  obtain ⟨text, body, rest, hspells, rfl, hrest⟩ := h
  exact ⟨_, _, rest, .cons hpiece hspells, (List.append_assoc _ _ _).symm, hrest⟩

/-- **There is no third case**: along the text, one piece after the other is spelt, until the
closing quote or a fault. -/
theorem inside_of_any (inside : List Char) : Inside inside := by
  fun_induction unquote? admits inside with
  | case1 => exact Fault.textEnd.inside
  | case2 rest => exact ⟨[], [], _, .nil, rfl, .inl rfl⟩
  -- no unit is written
  | case3 a b c d rest hnone =>
    refine Fault.inside (.digits fun unit digits more hdigits heq => ?_)
    exact nomatch hnone.symm.trans (hdigits.unit?_eq heq)
  -- after a high surrogate: a code that writes no unit
  | case4 a b c d unit hunit hhigh e f g k rest hnone =>
    refine Fault.inside (.high (unit?_eq_some_iff.1 hunit) (isHighSurrogate_iff.1 hhigh) ?_)
    intro low digits more hdigits _ heq
    simp only [List.cons.injEq, true_and] at heq
    exact nomatch hnone.symm.trans (hdigits.unit?_eq heq)
  -- after a high surrogate: a low one
  | case5 a b c d high hunit hhigh e f g k rest low hlow hislow ih =>
    exact ih.spelling (spelling_of_units hunit hhigh hlow hislow)
  -- after a high surrogate: another unit
  | case6 a b c d unit hunit hhigh e f g k rest low hlow hislow =>
    refine Fault.inside (.high (unit?_eq_some_iff.1 hunit) (isHighSurrogate_iff.1 hhigh) ?_)
    intro other digits more hdigits hother heq
    simp only [List.cons.injEq, true_and] at heq
    obtain rfl := Option.some.inj (hlow.symm.trans (hdigits.unit?_eq heq))
    exact hislow (isLowSurrogate_iff.2 hother)
  -- after a high surrogate: no code at all
  | case7 a b c d rest unit hunit hhigh hrest =>
    refine Fault.inside (.high (unit?_eq_some_iff.1 hunit) (isHighSurrogate_iff.1 hhigh) ?_)
    rintro low digits more hdigits - rfl
    obtain ⟨e, f, g, k, rfl, -⟩ := hdigits.exists_unit?
    exact hrest e f g k more rfl
  -- a low surrogate comes first
  | case8 a b c d rest unit hunit hhigh hlow =>
    exact Fault.inside (.low (unit?_eq_some_iff.1 hunit) (isLowSurrogate_iff.1 hlow))
  | case9 a b c d rest unit hunit hhigh hlow ih =>
    exact ih.spelling
      (spelling_of_unit? hunit (Bool.eq_false_iff.2 hhigh) (Bool.eq_false_iff.2 hlow))
  -- a letter is no escape, or the text is over before the fourth digit
  | case10 letter rest hshort hnone =>
    by_cases hcode : letter = 'u'
    · subst hcode
      refine Fault.inside (.digits ?_)
      rintro unit digits more hdigits rfl
      obtain ⟨a, b, c, d, rfl, -⟩ := hdigits.exists_unit?
      exact hshort a b c d more rfl rfl
    · refine Fault.inside (.unknown hcode fun hmem => ?_)
      obtain ⟨⟨_, meant⟩, hmeant, rfl⟩ := List.mem_map.1 hmem
      exact nomatch hnone.symm.trans (shortEscape?_eq_some_iff.2 hmeant)
  | case11 letter rest _ meant hmeant ih =>
    exact ih.spelling (.short (shortEscape?_eq_some_iff.1 hmeant))
  | case12 c rest hquote _ _ hplain ih =>
    obtain ⟨hbackslash, hadmits⟩ := hplain
    obtain ⟨hfeed, hreturn⟩ := isLineEnd_eq_false_iff.1 (by simpa [admits] using hadmits)
    exact ih.spelling (.plain hquote hbackslash hfeed hreturn)
  -- the text is over after a backslash, or a line is
  | case13 c rest hquote _ hescape hplain =>
    by_cases hbackslash : c = '\\'
    · subst hbackslash
      cases rest with
      | nil => exact Fault.halfEscape.inside
      | cons letter rest => exact absurd rfl (hescape letter rest rfl)
    · rw [not_and, Bool.not_eq_true] at hplain
      have hend : isLineEnd c = true := by simpa [admits] using hplain hbackslash
      rw [isLineEnd, Bool.or_eq_true, beq_iff_eq, beq_iff_eq] at hend
      exact Fault.inside (.lineEnd hend)

/-! ### Quoted texts -/

theorem Spelling.quoted {c : Char} {piece text inside : List Char} (h : Spelling c piece)
    (hinside : Quoted text inside) : Quoted (c :: text) (piece ++ inside) := by
  cases h with
  | plain hquote hbackslash hfeed hreturn =>
    exact .plain hquote hbackslash (isLineEnd_eq_false_iff.2 ⟨hfeed, hreturn⟩) hinside
  | short hmem => exact .short (shortEscape?_eq_some_iff.2 hmem) hinside
  | code hdigits =>
    obtain ⟨a, b, c', d, rfl, hunit⟩ := hdigits.exists_unit?
    obtain ⟨hhigh, hlow⟩ := not_surrogate c
    exact Char.ofNat_toNat c ▸ .unit hunit hhigh hlow hinside
  | pair hbeyond hhigh hlow =>
    obtain ⟨a, b, c', d, rfl, hfirst⟩ := hhigh.exists_unit?
    obtain ⟨e, f, g, k, rfl, hsecond⟩ := hlow.exists_unit?
    obtain ⟨hishigh, hislow, hmeant⟩ := ofSurrogates_units hbeyond
    have hquoted := Quoted.pair hfirst (isHighSurrogate_iff.2 hishigh) hsecond
      (isLowSurrogate_iff.2 hislow) hinside
    rw [hmeant] at hquoted
    simpa using hquoted

/-- **A quoted text** is a spelt one and its closing quote. -/
theorem quoted_iff_spells {text inside : List Char} :
    Quoted text inside ↔ ∃ body, Spells text body ∧ inside = body ++ ['"'] := by
  constructor
  · intro h
    have hcons {c : Char} {piece text inside : List Char} (hpiece : Spelling c piece)
        (ih : ∃ body, Spells text body ∧ inside = body ++ ['"']) :
        ∃ body, Spells (c :: text) body ∧ piece ++ inside = body ++ ['"'] := by
      obtain ⟨body, hspells, rfl⟩ := ih
      exact ⟨_, .cons hpiece hspells, (List.append_assoc _ _ _).symm⟩
    induction h with
    | close => exact ⟨[], .nil, rfl⟩
    | plain hquote hbackslash hend _ ih =>
      obtain ⟨hfeed, hreturn⟩ := isLineEnd_eq_false_iff.1 hend
      exact hcons (.plain hquote hbackslash hfeed hreturn) ih
    | short hletter _ ih => exact hcons (.short (shortEscape?_eq_some_iff.1 hletter)) ih
    | unit hunit hhigh hlow _ ih => exact hcons (spelling_of_unit? hunit hhigh hlow) ih
    | pair hhigh hishigh hlow hislow _ ih =>
      exact hcons (spelling_of_units hhigh hishigh hlow hislow) ih
  · rintro ⟨body, hspells, rfl⟩
    induction hspells with
    | nil => exact .close
    | cons hpiece _ ih => exact List.append_assoc _ _ _ ▸ hpiece.quoted ih

/-! ### Literals -/

theorem Spelling.opens {c : Char} {piece : List Char} (h : Spelling c piece) :
    ∃ d tail, piece = d :: tail ∧ d ≠ '"' := by
  cases h with
  | plain hquote _ _ _ => exact ⟨_, _, rfl, hquote⟩
  | short _ | code _ | pair _ _ _ => exact ⟨_, _, rfl, by decide⟩

theorem Fault.not_quote {rest : List Char} : ¬Fault ('"' :: rest) := by
  intro h
  cases h with
  | lineEnd hc => exact absurd hc (by decide)

/-- A spelt text does not begin like a block string, unless it is empty. -/
theorem Spells.single {text body rest : List Char} (h : Spells text body)
    (hrest : text = [] → ∀ tail, rest ≠ '"' :: '"' :: tail) (tail : List Char) :
    body ++ rest ≠ '"' :: '"' :: tail := by
  cases h with
  | nil => exact hrest rfl tail
  | cons hpiece _ =>
    obtain ⟨d, more, rfl, hd⟩ := hpiece.opens
    exact fun heq => hd (List.cons.inj heq).1

/-- **A string literal is read as it is spelt**: however its characters are spelt, the text comes
back, and exactly what stands after the closing quote is left. Where something that spells no
character stands before the closing quote, the literal is refused; and what stands after an
opening quote is always one or the other. -/
theorem literals_read_as_spelt :
    (∀ (s : String) (body rest : List Char), Spells s.toList body →
        (s = "" → rest.head? ≠ some '"') →
        parser ('"' :: (body ++ '"' :: rest)) = .ok (s, rest)) ∧
      (∀ text body fault : List Char, Spells text body → Fault fault →
        parser ('"' :: (body ++ fault)) = .error ('"' :: (body ++ fault))) ∧
      ∀ inside : List Char,
        (∃ text body rest, Spells text body ∧ inside = body ++ '"' :: rest) ∨
          ∃ text body fault, Spells text body ∧ Fault fault ∧ inside = body ++ fault := by
  refine ⟨fun s body rest hspells hrest => ?_, fun text body fault hspells hfault => ?_,
    fun inside => ?_⟩
  · have hsingle : ∀ tail, body ++ '"' :: rest ≠ '"' :: '"' :: tail := by
      refine hspells.single fun hempty tail heq => ?_
      exact hrest (String.toList_inj.1 hempty) (by rw [(List.cons.inj heq).2]; rfl)
    have hread : read? ('"' :: (body ++ '"' :: rest)) = some (s.toList, rest) := by
      rw [read?, unquote?_spells hspells]
      · simp [unquote?, appendTo]
      · exact hsingle
    rw [parser, hread]
    simp
  · have hsingle : ∀ tail, body ++ fault ≠ '"' :: '"' :: tail :=
      hspells.single fun _ tail heq => Fault.not_quote (heq ▸ hfault)
    have hread : read? ('"' :: (body ++ fault)) = none := by
      rw [read?, unquote?_spells hspells, unquote?_fault hfault]
      · rfl
      · exact hsingle
    rw [parser, hread]
  · obtain ⟨text, body, rest, hspells, rfl, hquote | hfault⟩ := inside_of_any inside
    · obtain ⟨tail, rfl⟩ := List.head?_eq_some_iff.1 hquote
      exact .inl ⟨text, body, tail, hspells, rfl⟩
    · exact .inr ⟨text, body, rest, hspells, hfault, rfl⟩

/-- A grin, a tab and two accents: a surrogate pair with digits of both cases, a short escape, a
code and a plain character. -/
def grinSpelling : List Char :=
  ['\\', 'u', 'D', '8', '3', 'd', '\\', 'u', 'd', 'E', '0', '0', '\\', 't', '\\', 'u', '0', '0',
    'E', '9', 'é']

/-- The grin is read, and a quote right after its literal is left. -/
theorem literals_read_as_spelt_grin :
    Spells "😀\téé".toList grinSpelling ∧
      parser ('"' :: (grinSpelling ++ ['"', '"'])) = .ok ("😀\téé", ['"']) := by
  have hchars : "😀\téé".toList = ['😀', '\t', 'é', 'é'] := by decide +kernel
  have hgrin : Spelling '😀' ('\\' :: 'u' ::
      (['D', '8', '3', 'd'] ++ '\\' :: 'u' :: ['d', 'E', '0', '0'])) :=
    .pair (by decide +kernel) (by decide +kernel) (by decide +kernel)
  have htab : Spelling '\t' ['\\', 't'] := .short (by decide)
  have hcode : Spelling 'é' ('\\' :: 'u' :: ['0', '0', 'E', '9']) := .code (by decide +kernel)
  have hplain : Spelling 'é' ['é'] := .plain (by decide) (by decide) (by decide) (by decide)
  have hspells : Spells "😀\téé".toList grinSpelling := by
    rw [hchars]
    exact .cons hgrin (.cons htab (.cons hcode (.cons hplain .nil)))
  exact ⟨hspells, literals_read_as_spelt.1 "😀\téé" grinSpelling ['"'] hspells
    fun hempty => absurd hempty (by decide +kernel)⟩

end StringLiteral

end QueryAccess
