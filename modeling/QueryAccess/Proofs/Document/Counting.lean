import QueryAccess.Proofs.Document.Depth
import QueryAccess.Proofs.Document.Escapes
import QueryAccess.Proofs.Document.Scanning

/-!
# Reading counts the brackets

Two things look at the text of a document: the scan that counts its brackets beforehand, and
the parsers that read it. They find out about strings and comments each in its own way, and the
scan would be worth nothing if it took for code what is read as a string, or the other way
round.

**Counting along.** `QueryAccess.Counts before after p post` says that the parser `p` reads its
text as the scan does: where the scan at depth `before` finds nothing wrong with a text and `p`
reads a value off the front of it, the scan at depth `after` finds nothing wrong with what is
left – and the value has the property `post`, which may depend on the depths. Counting is one of
the things that a parser may keep (`QueryAccess.Parser.Keeps`), so there is one rule for each
combinator, and the properties add up: a selection set read at some depth nests no deeper than
there is room for.

**Going back.** The parsers try an alternative, give it up and go back, and the scan does not.
The rules have no trouble with this. They only speak of what is read in the end, at a place
that the scan has come to as well.

So the depth of a document that is read from a text is at most `QueryAccess.maxDepth`
(`QueryAccess.Document.depth_le_of_ofText`).
-/

namespace QueryAccess

open Nesting QueryAccess.Parser Token

/-- **A parser counts the brackets that it reads**: from one depth to another, with a property
of what it reads. -/
def Counts {α : Type} (before after : Nat) (p : Parser α) (post : α → Prop) : Prop :=
  ∀ ⦃text rest a⦄, tooDeep? .code before text = none → p text = .ok (a, rest) →
    tooDeep? .code after rest = none ∧ post a

namespace Counts

variable {α β γ : Type} {d e f : Nat} {p : Parser α} {post : α → Prop}

/-! ### One rule for each combinator -/

/-- Counting is keeping that the scan finds nothing wrong. -/
theorem iff_keeps :
    Counts d e p post ↔
      Keeps (fun text => tooDeep? .code d text = none) (fun rest => tooDeep? .code e rest = none)
        p post :=
  Iff.rfl

theorem weaken {weaker : α → Prop} (hp : Counts d e p post) (h : ∀ a, post a → weaker a) :
    Counts d e p weaker :=
  iff_keeps.2 ((iff_keeps.1 hp).weaken h)

theorem pure {a : α} (h : post a) : Counts d d (Pure.pure a : Parser α) post :=
  iff_keeps.2 (.pure h)

theorem fail : Counts d e (Parser.fail : Parser α) post := iff_keeps.2 .fail

theorem bind {q : α → Parser β} {next : β → Prop} (hp : Counts d e p post)
    (hq : ∀ a, post a → Counts e f (q a) next) : Counts d f (p >>= q) next :=
  iff_keeps.2 ((iff_keeps.1 hp).bind fun a ha => iff_keeps.1 (hq a ha))

theorem map {g : α → β} {next : β → Prop} (hp : Counts d e p fun a => next (g a)) :
    Counts d e (g <$> p) next :=
  iff_keeps.2 (iff_keeps.1 hp).map

theorem orElse {q : Parser α} (hp : Counts d e p post) (hq : Counts d e q post) :
    Counts d e (p <|> q) post :=
  iff_keeps.2 ((iff_keeps.1 hp).orElse (iff_keeps.1 hq))

theorem opt (hp : Counts d d p post) : Counts d d (Parser.opt p) fun o => ∀ a ∈ o, post a :=
  iff_keeps.2 (iff_keeps.1 hp).opt

theorem guarded {admits : α → Bool} (hp : Counts d e p post) :
    Counts d e (Parser.guarded p admits) post :=
  iff_keeps.2 (iff_keeps.1 hp).guarded

theorem mapped {g : α → Option β} (hp : Counts d e p post) :
    Counts d e (Parser.mapped p g) fun _ => True :=
  iff_keeps.2 (iff_keeps.1 hp).mapped

theorem many (hp : Counts d d p post) :
    Counts d d (Parser.many p) fun as => ∀ a ∈ as, post a :=
  iff_keeps.2 (iff_keeps.1 hp).many

theorem many1 (hp : Counts d d p post) :
    Counts d d (Parser.many1 p) fun as => ∀ a ∈ as, post a :=
  iff_keeps.2 (iff_keeps.1 hp).many1

/-- Between two delimiters the depth is another one, and what the opening one says of it may be
used. -/
theorem between {opening : Parser β} {closing : Parser γ} {room : Prop}
    (hopening : Counts d e opening fun _ => room) (hp : Counts e e p post)
    (hclosing : Counts e d closing fun _ => True) :
    Counts d d (Parser.between opening p closing) fun a => room ∧ post a :=
  iff_keeps.2 ((iff_keeps.1 hopening).between (iff_keeps.1 hp) (iff_keeps.1 hclosing))

/-! ### Characters -/

section Characters

variable {admits : Char → Bool}

theorem satisfy (h : ∀ c, admits c = true → isPlain c = true) :
    Counts d d (Parser.satisfy admits) fun _ => True := by
  intro text rest c hscan hread
  cases text with
  | nil => cases hread
  | cons c' text =>
    rw [Parser.satisfy] at hread
    split at hread
    · next hadmits =>
      obtain ⟨rfl, rfl⟩ := Prod.mk.inj (Except.ok.inj hread)
      rw [tooDeep?_plain (h _ hadmits)] at hscan
      exact ⟨hscan, trivial⟩
    · cases hread

/-- A class without the six characters that the scan looks for. -/
theorem satisfy_of (h : ∀ c ∈ ['#', '"', '[', '\x7b', ']', '\x7d'], admits c = false) :
    Counts d d (Parser.satisfy admits) fun _ => True :=
  satisfy fun _ hc => isPlain_of h hc

/-- One given character that the scan does not look for. -/
theorem char {c : Char} (h : isPlain c = true) : Counts d d (Parser.char c) fun _ => True :=
  .satisfy fun _ hc => eq_of_beq hc ▸ h

theorem run (h : ∀ c, admits c = true → isPlain c = true) :
    Counts d d (Parser.run admits) fun _ => True := by
  intro text rest cs hscan hread
  obtain ⟨rfl, rfl⟩ := Prod.mk.inj (Except.ok.inj hread)
  have hplain : ∀ c ∈ text.takeWhile admits, isPlain c = true :=
    fun c hc => h c (List.all_eq_true.1 List.all_takeWhile c hc)
  rw [← List.takeWhile_append_dropWhile (p := admits) (l := text),
    tooDeep?_plain_append hplain] at hscan
  exact ⟨hscan, trivial⟩

theorem run1 (h : ∀ c, admits c = true → isPlain c = true) :
    Counts d d (Parser.run1 admits) fun _ => True :=
  (satisfy h).bind fun _ _ => (run h).bind fun _ _ => .pure trivial

theorem word {w : List Char} (h : ∀ c ∈ w, isPlain c = true) :
    Counts d d (Parser.word w) fun _ => True := by
  intro text rest _ hscan hread
  rw [Parser.word] at hread
  split at hread
  · next hprefix =>
    obtain ⟨-, rfl⟩ := Prod.mk.inj (Except.ok.inj hread)
    obtain ⟨more, rfl⟩ := List.isPrefixOf_iff_prefix.1 hprefix
    rw [tooDeep?_plain_append h] at hscan
    rw [List.drop_left]
    exact ⟨hscan, trivial⟩
  · cases hread

end Characters

/-! ### Brackets -/

theorem ne_of_isBracket {c c' : Char} (h : isOpening c = true ∨ isClosing c = true)
    (hc' : isOpening c' = false ∧ isClosing c' = false) : c ≠ c' := by
  rintro rfl
  rw [hc'.1, hc'.2] at h
  exact h.elim (nomatch ·) (nomatch ·)

/-- Reading an opening bracket, the scan has found that there is room for one more. -/
theorem opening {c : Char} (h : isOpening c = true) :
    Counts d (d + 1) (Parser.char c) fun _ => d < maxDepth := by
  intro text rest c' hscan hread
  cases text with
  | nil => cases hread
  | cons first text =>
    rw [Parser.char, Parser.satisfy] at hread
    split at hread
    · next hadmits =>
      obtain ⟨rfl, rfl⟩ := Prod.mk.inj (Except.ok.inj hread)
      rw [← eq_of_beq hadmits] at h
      rw [tooDeep?_code (ne_of_isBracket (.inl h) (by decide))
        (ne_of_isBracket (.inl h) (by decide)), if_pos h] at hscan
      split at hscan
      · next hroom => exact ⟨hscan, hroom⟩
      · cases hscan
    · cases hread

theorem closing {c : Char} (h : isClosing c = true) (hc : isOpening c = false) :
    Counts (d + 1) d (Parser.char c) fun _ => True := by
  intro text rest c' hscan hread
  cases text with
  | nil => cases hread
  | cons first text =>
    rw [Parser.char, Parser.satisfy] at hread
    split at hread
    · next hadmits =>
      obtain ⟨rfl, rfl⟩ := Prod.mk.inj (Except.ok.inj hread)
      rw [← eq_of_beq hadmits] at h hc
      rw [tooDeep?_code (ne_of_isBracket (.inr h) (by decide))
        (ne_of_isBracket (.inr h) (by decide)), if_neg (by rw [hc]; decide), if_pos h] at hscan
      exact ⟨hscan, trivial⟩
    · cases hread

end Counts

/-! ### Comments -/

/-- The region that the scan is in while an ignored run is skipped. -/
def skipRegion : Option (List Char) → Region
  | none => .code
  | some _ => .comment

/-- **The scan passes over an ignored run** that is skipped. A comment may be the end of the
text. -/
theorem tooDeep?_skip (d : Nat) (text : List Char) (last inside : Option (List Char)) :
    tooDeep? (skipRegion inside) d text = tooDeep? .code d (skip last inside text).2 := by
  fun_induction skip last inside text with
  | case1 last inside => cases inside <;> rfl
  | case2 last c rest comment hend ih => rw [← ih, skipRegion, skipRegion, tooDeep?, if_pos hend]
  | case3 last c rest comment hinside ih =>
    rw [← ih, skipRegion, skipRegion, tooDeep?, if_neg hinside]
  | case4 last rest ih => rw [← ih, skipRegion, skipRegion, tooDeep?]
  | case5 last c rest hhash hignored ih =>
    rw [← ih, skipRegion, tooDeep?_plain (isPlain_of (by decide) hignored)]
  | case6 last c rest hhash hignored => rfl

theorem Counts.ignored {d : Nat} : Counts d d Token.ignored fun _ => True := by
  intro text rest comment hscan hread
  obtain ⟨-, rfl⟩ := Prod.mk.inj (Except.ok.inj hread)
  have hskip := tooDeep?_skip d text none none
  rw [skipRegion, hscan] at hskip
  exact ⟨hskip.symm, trivial⟩

/-! ### Strings -/

theorem consTo_eq_some {c : Char} {decoded : Option (List Char × List Char)}
    {text rest : List Char} (h : Text.consTo c decoded = some (text, rest)) :
    ∃ more, text = c :: more ∧ decoded = some (more, rest) := by
  obtain ⟨⟨more, rest'⟩, hdecoded, heq⟩ := Option.map_eq_some_iff.1 h
  obtain ⟨rfl, rfl⟩ := Prod.mk.inj heq
  exact ⟨more, rfl, hdecoded⟩

/-- What is decoded was written as a quoted text. -/
theorem exists_quoted {body decoded rest : List Char}
    (h : Text.unquote? StringLiteral.admits body = some (decoded, rest)) :
    ∃ inside, Quoted decoded inside ∧ inside ++ rest = body := by
  obtain ⟨text, spelt, after, hspells, rfl, hafter⟩ := StringLiteral.inside_of_any body
  rw [StringLiteral.unquote?_spells hspells] at h
  rcases hafter with hquote | hfault
  · obtain ⟨after, rfl⟩ := List.head?_eq_some_iff.1 hquote
    simp only [Text.unquote?, Text.appendTo, Option.map_some, List.append_nil, Option.some.injEq,
      Prod.mk.injEq] at h
    obtain ⟨rfl, rfl⟩ := h
    exact ⟨spelt ++ ['"'], StringLiteral.quoted_iff_spells.2 ⟨spelt, hspells, rfl⟩, by simp⟩
  · rw [StringLiteral.unquote?_fault hfault] at h
    cases h

/-- **The scan comes to the end of a block string** where its content ends. -/
theorem tooDeep?_blockContent (d : Nat) {text content rest : List Char}
    (h : StringLiteral.blockContent? text = some (content, rest)) :
    tooDeep? .block d text = tooDeep? .code d rest := by
  fun_induction StringLiteral.blockContent? text generalizing content with
  | case1 => cases h
  | case2 rest' ih =>
    -- an escaped end is three characters of content
    obtain ⟨_, -, h⟩ := consTo_eq_some h
    obtain ⟨_, -, h⟩ := consTo_eq_some h
    obtain ⟨_, -, h⟩ := consTo_eq_some h
    rw [tooDeep?, ih h]
  | case3 rest' =>
    obtain ⟨-, rfl⟩ := Prod.mk.inj (Option.some.inj h)
    rw [tooDeep?]
  | case4 c rest' hescaped hquotes ih =>
    obtain ⟨_, -, h⟩ := consTo_eq_some h
    rw [tooDeep?, ih h]
    · exact hescaped
    · exact hquotes

/-- **The scan comes to the end of a string literal** where it is read. -/
theorem tooDeep?_read (d : Nat) {text decoded rest : List Char}
    (h : StringLiteral.read? text = some (decoded, rest)) :
    tooDeep? .code d text = tooDeep? .code d rest := by
  rw [StringLiteral.read?.eq_def] at h
  split at h
  · next inside =>
    obtain ⟨⟨content, rest'⟩, hcontent, heq⟩ := Option.map_eq_some_iff.1 h
    obtain ⟨-, rfl⟩ := Prod.mk.inj heq
    rw [tooDeep?, tooDeep?_blockContent d hcontent]
  · next inside hsingle =>
    obtain ⟨body, hbody, rfl⟩ := exists_quoted h
    rw [tooDeep?, tooDeep?_quoted hbody]
    exact hsingle
  · cases h

theorem Counts.string {d : Nat} : Counts d d StringLiteral.parser fun _ => True := by
  intro text rest decoded hscan hread
  rw [StringLiteral.parser] at hread
  split at hread
  · next decoded' rest' hread' =>
    obtain ⟨-, rfl⟩ := Prod.mk.inj (Except.ok.inj hread)
    rw [tooDeep?_read d hread'] at hscan
    exact ⟨hscan, trivial⟩
  · cases hread

/-! ### Tokens -/

namespace Counts

variable {d : Nat}

theorem mark {c : Char} {e : Nat} {room : Prop}
    (h : Counts d e (Parser.char c) fun _ => room) : Counts d e (Token.mark c) fun _ => room :=
  Counts.ignored.bind fun _ _ => h

theorem name : Counts d d Token.name fun _ => True :=
  (satisfy fun _ hc => isPlain_of_isNamePart (isNamePart_of_isNameStart hc)).bind fun _ _ =>
    (run fun _ hc => isPlain_of_isNamePart hc).bind fun _ _ => .pure trivial

theorem tokenName : Counts d d Token.tokenName fun _ => True :=
  Counts.ignored.bind fun _ _ => name

theorem keyword (wanted : String) : Counts d d (Token.keyword wanted) fun _ => True :=
  tokenName.guarded

theorem digits : Counts d d (Parser.run1 Char.isDigit) fun _ => True :=
  run1 fun _ hc => isPlain_of_isNamePart (isNamePart_of_isDigit hc)

theorem parenthesized {α : Type} {p : Parser α} {post : α → Prop} (hp : Counts d d p post) :
    Counts d d (Parser.between (Token.mark '(') p (Token.mark ')')) post :=
  (between (mark (char (by decide))) hp (mark (char (by decide)))).weaken fun _ h => h.2

/-! ### Values -/

/-- How deep a value may nest where so many brackets are open already. -/
def Roomy (d : Nat) (value : Value) : Prop := value.depth ≤ maxDepth - d

theorem exponent :
    Counts d d
      (do
        let mark ← Parser.satisfy fun c => c == 'e' || c == 'E'
        let sign ← Parser.opt (Parser.satisfy fun c => c == '+' || c == '-')
        let digits ← Parser.run1 Char.isDigit
        return mark :: sign.toList ++ digits)
      fun _ => True :=
  (satisfy_of (by decide)).bind fun _ _ => (satisfy_of (by decide)).opt.bind fun _ _ =>
    digits.bind fun _ _ => .pure trivial

theorem number : Counts d d Document.number (Roomy d) := by
  refine (char (by decide)).opt.bind fun minus _ => digits.bind fun whole _ =>
    ((char (by decide)).bind fun _ _ => digits).opt.bind fun fraction _ =>
    exponent.opt.bind fun exponent _ => .pure ?_
  rw [Roomy]
  split <;> exact Nat.zero_le _

theorem variableName : Counts d d Document.variableName fun _ => True :=
  (char (by decide)).bind fun _ _ => name

theorem namedValue {value : Parser Value} (hvalue : Counts d d value (Roomy d)) :
    Counts d d (Document.namedValue value) fun argument => Roomy d argument.value :=
  Counts.ignored.bind fun _ _ => name.bind fun _ _ => (mark (char (by decide))).bind fun _ _ =>
    hvalue.bind fun _ h => .pure h

theorem valueOfName_roomy (name : String) : Roomy d (Document.valueOfName name) := by
  rw [Roomy, Document.valueOfName.eq_def]
  split <;> exact Nat.zero_le _

/-- A value is read where there is room for it, if the values in it are. -/
theorem valueOver {inner : Parser Value} (hinner : Counts (d + 1) (d + 1) inner (Roomy (d + 1))) :
    Counts d d (Document.valueOver inner) (Roomy d) := by
  refine Counts.ignored.bind fun _ _ => orElse (map ?_) (orElse number (orElse (map ?_)
    (orElse (map ?_) (orElse (map ?_) (map ?_)))))
  · exact variableName.weaken fun _ _ => Nat.zero_le _
  · exact Counts.string.weaken fun _ _ => Nat.zero_le _
  · refine (between (opening (by decide)) hinner.many
      (mark (closing (by decide) (by decide)))).weaken fun items h => ?_
    have hitems : depthOfItems items ≤ maxDepth - (d + 1) := depthOfItems_le_iff.2 h.2
    rw [Roomy, Value.depth]
    omega
  · refine (between (opening (by decide)) (namedValue hinner).many
      (mark (closing (by decide) (by decide)))).weaken fun fields h => ?_
    have hfields : depthOfArguments fields ≤ maxDepth - (d + 1) := depthOfArguments_le_iff.2 h.2
    rw [Roomy, Value.depth]
    omega
  · exact name.weaken fun written _ => valueOfName_roomy written

theorem value (levels : Nat) : Counts d d (Document.value levels) (Roomy d) := by
  induction levels generalizing d with
  | zero => exact .fail
  | succ levels ih => exact valueOver ih

/-- Arguments nest no deeper than there is room for. -/
theorem arguments (levels : Nat) :
    Counts d d (Document.arguments levels)
      fun arguments => depthOfArguments arguments ≤ maxDepth - d :=
  (parenthesized (namedValue (value levels)).many1).weaken fun _ h => depthOfArguments_le_iff.2 h

theorem depthOfArguments_getD {found : Option (List Argument)} {bound : Nat}
    (h : ∀ arguments ∈ found, depthOfArguments arguments ≤ bound) :
    depthOfArguments (found.getD []) ≤ bound := by
  cases found with
  | none => exact Nat.zero_le bound
  | some arguments => exact h arguments rfl

theorem directive (levels : Nat) :
    Counts d d (Document.directive levels)
      fun directive => depthOfArguments directive.arguments ≤ maxDepth - d :=
  (mark (char (by decide))).bind fun _ _ => name.bind fun _ _ =>
    (arguments levels).opt.bind fun _ h => .pure (depthOfArguments_getD h)

theorem directives (levels : Nat) :
    Counts d d (Document.directives levels)
      fun directives => depthOfDirectives directives ≤ maxDepth - d :=
  (directive levels).many.weaken fun _ h => deepestOf_le_iff.2 h

/-! ### Selections -/

section Selections

variable {levels : Nat} {set : Parser (List Selection)}
  (hset : Counts d d set fun selections => depthOfSet selections ≤ maxDepth - d)

include hset

theorem inlineFragment (on : Option String) :
    Counts d d (Document.inlineFragment levels set on)
      fun selection => selection.depth ≤ maxDepth - d :=
  (directives levels).bind fun _ hdirectives => hset.bind fun _ hselections => .pure <| by
    rw [Selection.depth]
    exact Nat.max_le.2 ⟨hdirectives, hselections⟩

theorem fragmentSelection :
    Counts d d (Document.fragmentSelection levels set)
      fun selection => selection.depth ≤ maxDepth - d := by
  refine Counts.ignored.bind fun _ _ => (word (by decide)).bind fun _ _ =>
    tokenName.opt.bind fun found _ => ?_
  cases found with
  | none => exact inlineFragment hset none
  | some name =>
    dsimp only
    split
    · exact tokenName.bind fun on _ => inlineFragment hset (some on)
    · exact (directives levels).bind fun _ h => .pure (by rwa [Selection.depth])

theorem field :
    Counts d d (Document.field levels set) fun selection => selection.depth ≤ maxDepth - d := by
  refine Counts.ignored.bind fun _ _ => name.bind fun _ _ =>
    ((mark (char (by decide))).bind fun _ _ => tokenName).opt.bind fun _ _ =>
    (arguments levels).opt.bind fun _ harguments => (directives levels).bind fun _ hdirectives =>
    hset.opt.bind fun selections hselections => .pure ?_
  have hbelow : depthOfSet (selections.getD []) ≤ maxDepth - d := by
    cases selections with
    | none => exact Nat.zero_le _
    | some selections => exact hselections selections rfl
  rw [Selection.depth]
  exact Nat.max_le.2 ⟨depthOfArguments_getD harguments, Nat.max_le.2 ⟨hdirectives, hbelow⟩⟩

end Selections

theorem selectionSet (valueLevels levels : Nat) :
    Counts d d (Document.selectionSet valueLevels levels)
      fun selections => depthOfSet selections ≤ maxDepth - d := by
  induction levels generalizing d with
  | zero => exact .fail
  | succ levels ih =>
    refine (between (mark (opening (by decide)))
      ((fragmentSelection ih).orElse (field ih)).many1
      (mark (closing (by decide) (by decide)))).weaken fun selections h => ?_
    refine depthOfSet_le_iff.2 fun selection hselection => ?_
    have hle : selection.depth ≤ maxDepth - (d + 1) := h.2 selection hselection
    have hroom : d < maxDepth := h.1
    omega

/-! ### Definitions -/

theorem typeRef (levels : Nat) :
    Counts d d (Document.typeRef levels) fun type => type.depth ≤ maxDepth - d := by
  induction levels generalizing d with
  | zero => exact .fail
  | succ levels ih =>
    have hbase : Counts d d
        ((TypeRef.list <$> Parser.between (Token.mark '[') (Document.typeRef levels)
          (Token.mark ']')) <|> (TypeRef.named <$> Token.tokenName))
        fun type => type.depth ≤ maxDepth - d := by
      refine orElse (map ?_) (map ?_)
      · refine (between (mark (opening (by decide))) ih
          (mark (closing (by decide) (by decide)))).weaken fun element h => ?_
        have hroom : d < maxDepth := h.1
        rw [TypeRef.depth]
        omega
      · exact tokenName.weaken fun _ _ => Nat.zero_le _
    refine hbase.bind fun base hdepth => (mark (char (by decide))).opt.bind fun bang _ => .pure ?_
    split
    · exact hdepth
    · exact hdepth

theorem variableDefinition (levels : Nat) :
    Counts d d (Document.variableDefinition levels)
      fun definition => definition.depth ≤ maxDepth - d := by
  refine (mark (char (by decide))).bind fun _ _ => name.bind fun _ _ =>
    (mark (char (by decide))).bind fun _ _ => (typeRef levels).bind fun _ htype =>
    ((mark (char (by decide))).bind fun _ _ => value levels).opt.bind fun _ hdefault =>
    (directives levels).bind fun _ _ => .pure ?_
  refine Nat.max_le.2 ⟨htype, deepestOf_le_iff.2 fun value hvalue => ?_⟩
  exact hdefault value (Option.mem_toList.1 hvalue)

theorem operation (levels : Nat) :
    Counts d d (Document.operation levels) fun operation => operation.depth ≤ maxDepth - d := by
  refine Counts.ignored.bind fun _ _ => orElse ?_ ?_
  · refine (selectionSet levels levels).bind fun _ h => .pure ?_
    exact Nat.max_le.2 ⟨Nat.zero_le _, Nat.max_le.2 ⟨Nat.zero_le _, h⟩⟩
  · refine name.mapped.bind fun _ _ => tokenName.opt.bind fun _ _ =>
      (parenthesized (variableDefinition levels).many1).opt.bind fun declared hdeclared =>
      (directives levels).bind fun _ hdirectives =>
      (selectionSet levels levels).bind fun _ hselections => .pure ?_
    refine Nat.max_le.2 ⟨deepestOf_le_iff.2 ?_, Nat.max_le.2 ⟨hdirectives, hselections⟩⟩
    cases declared with
    | none => exact fun _ h => absurd h List.not_mem_nil
    | some definitions => exact hdeclared definitions rfl

theorem fragment (levels : Nat) :
    Counts d d (Document.fragment levels) fun fragment => fragment.depth ≤ maxDepth - d :=
  (keyword "fragment").bind fun _ _ => tokenName.guarded.bind fun _ _ =>
    (keyword "on").bind fun _ _ => tokenName.bind fun _ _ =>
    (directives levels).bind fun _ hdirectives =>
    (selectionSet levels levels).bind fun _ hselections =>
    .pure (Nat.max_le.2 ⟨hdirectives, hselections⟩)

theorem wholeDocument (levels : Nat) :
    Counts d d (Document.wholeDocument levels) fun document => document.depth ≤ maxDepth - d := by
  have hdefinition : Counts d d (Document.definition levels)
      fun definition => definition.depth ≤ maxDepth - d :=
    orElse (map (fragment levels)) (map (operation levels))
  refine hdefinition.many1.bind fun definitions h => Counts.ignored.bind fun _ _ => ?_
  intro text rest document hscan hread
  cases text with
  | nil =>
    obtain ⟨rfl, rfl⟩ := Prod.mk.inj (Except.ok.inj hread)
    exact ⟨hscan, deepestOf_le_iff.2 h⟩
  | cons c text => cases hread

end Counts

/-- **A document that is read nests no deeper than `QueryAccess.maxDepth`**, whatever its
strings and comments are. -/
theorem Document.depth_le_of_ofText {text : String} {document : Document}
    (h : Document.ofText text = .ok document) : document.depth ≤ maxDepth := by
  rw [ofText, ofChars] at h
  split at h
  · cases h
  · next hscan =>
    split at h
    · next read rest hread =>
      obtain rfl := Except.ok.inj h
      exact (Counts.wholeDocument _ hscan hread).2
    · cases h

end QueryAccess
