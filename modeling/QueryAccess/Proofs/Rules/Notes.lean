import Mathlib.Data.List.Induction
import QueryAccess.Proofs.Text.Combinators
import QueryAccess.RuleNote

/-!
# Faults in notes

What a note says, told from the data value that its text writes. The two lists of roles have to be
lists of roles, and then nothing else in the note can cost it its policy
(`QueryAccess.RuleNote.faults_cost_themselves`).

**The drop rules** are told entry by entry (`QueryAccess.RuleNote.Decodes`), and the clauses of an
entry field by field (`QueryAccess.RuleNote.Compares`): what is not as it should be is left out on
the spot, and what stands before and after it is told as if it were not there.

**Repeated keys.** A data value holds the last of several fields of one name
(`QueryAccess.Dict.lookup_ofList`). The lists of roles may come once only, so for them it does not
matter which one counts.
-/

namespace QueryAccess

/-! ### Lists -/

/-- Decoding a list, element by element, inverts encoding it. -/
theorem mapM_eq_some_iff {α β : Type} {decode : α → Option β} {encode : β → α}
    (h : ∀ a b, decode a = some b ↔ a = encode b) {as : List α} {bs : List β} :
    as.mapM decode = some bs ↔ as = bs.map encode := by
  induction as generalizing bs with
  | nil => cases bs <;> simp
  | cons a as ih =>
    rw [List.mapM_cons]
    simp only [Option.bind_eq_bind, Option.bind_eq_some_iff, Option.pure_def, Option.some.injEq, h,
      ih]
    constructor
    · rintro ⟨b, rfl, bs, rfl, rfl⟩
      rfl
    · cases bs with
      | nil => exact fun heq => nomatch heq
      | cons b bs =>
        intro heq
        obtain ⟨rfl, rfl⟩ := List.cons.inj heq
        exact ⟨b, rfl, bs, rfl, rfl⟩

/-- **Of several pairs with a key** a dictionary holds the last one's value. -/
theorem Dict.lookup_ofList {α : Type} (pairs : List (String × α)) (key : String) :
    (Dict.ofList pairs).lookup key =
      ((pairs.filter fun pair => pair.1 == key).getLast?).map Prod.snd := by
  induction pairs using List.reverseRecOn with
  | nil => rfl
  | append_singleton init last ih =>
    have hstep : Dict.ofList (init ++ [last]) = Dict.insert last.1 last.2 (Dict.ofList init) := by
      rw [Dict.ofList, List.foldl_append]
      rfl
    rw [hstep, Dict.insert, Dict.lookup_alter _ _ _ (Dict.ofList_sorted init), ih,
      List.filter_append]
    by_cases hkey : key = last.1
    · simp [hkey]
    · simp [hkey, Ne.symm hkey]

/-! ### The fields of a note -/

namespace Json

open QueryAccess.Parser

theorem fields?_eq_some_iff {json : Json} {fields : Dict Json} :
    json.fields? = some fields ↔ json = .object fields := by
  cases json <;> simp [fields?]

/-- An array of strings has their texts, and nothing else has texts. -/
theorem strings?_eq_some_iff {json : Json} {texts : List String} :
    json.strings? = some texts ↔ json = .array (texts.map .string) := by
  have hstring (item : Json) (text : String) :
      item.string? = some text ↔ item = .string text := by
    cases item <;> simp [string?]
  cases json with
  | array items =>
    rw [strings?, items?, Option.bind_some, mapM_eq_some_iff hstring, array.injEq]
  | _ => simp [strings?, items?]

/-- A number is no object. -/
theorem fields?_of_numberOf {negative : Bool} {whole : List Char} {fraction : Option (List Char)}
    {exponent : Option Int} {json : Json}
    (h : Reader.numberOf negative whole fraction exponent = some json) : json.fields? = none := by
  simp only [Reader.numberOf] at h
  split at h
  · cases h
    rfl
  · obtain ⟨x, -, rfl⟩ := Option.map_eq_some_iff.1 h
    rfl

theorem keeps_trivially {α : Type} (p : Parser α) :
    Keeps (fun _ => True) (fun _ => True) p fun _ => True :=
  fun _ _ _ _ _ => ⟨trivial, trivial⟩

/-- What is written without brackets is no object. -/
theorem keeps_scalar :
    Keeps (fun _ => True) (fun _ => True) Reader.scalar fun json => json.fields? = none := by
  have hword (w : List Char) (json : Json) (hjson : json.fields? = none) :
      Keeps (fun _ => True) (fun _ => True) (do word w; return json) fun json =>
        json.fields? = none :=
    (keeps_trivially (word w)).bind fun _ _ => .pure hjson
  refine .orElse (hword _ _ rfl) (.orElse (hword _ _ rfl) (.orElse (hword _ _ rfl) (.orElse ?_ ?_)))
  · exact .map ((keeps_trivially Reader.quoted).weaken fun _ _ => rfl)
  · refine (keeps_trivially _).bind fun minus _ => (keeps_trivially _).bind fun whole _ =>
      (keeps_trivially _).bind fun fraction _ => (keeps_trivially _).bind fun power _ => ?_
    split
    · next json hjson => exact .pure (fields?_of_numberOf hjson)
    · exact .fail

/-- The blank characters between tokens are blank. -/
theorem isBlank_of_isSpace {c : Char} (h : Reader.isSpace c = true) : Text.isBlank c = true := by
  simp only [Reader.isSpace, Bool.or_eq_true, beq_iff_eq] at h
  obtain ((rfl | rfl) | rfl) | rfl := h <;> decide

/-- **A text that writes an object** writes fields, of which the object holds the last of each
name. -/
theorem exists_fields {text : List Char} {object : Dict Json}
    (h : ofText? text = some (.object object)) :
    ∃ fields, fieldsOfText? text = some fields ∧ Dict.ofList fields = object := by
  rw [ofText?, ofTextWithin?, whole?] at h
  split at h
  · next json rest hread =>
    rw [Option.ite_none_right_eq_some, Option.some.injEq] at h
    obtain ⟨hrest, rfl⟩ := h
    have hspace : Reader.space text = .ok ((), text.dropWhile Reader.isSpace) := rfl
    have hread : (Json.array <$> Reader.bracketed '[' (Reader.value 126) ']' <|>
        (ofFields <$> Reader.fields (Reader.value 126)) <|> Reader.scalar)
          (text.dropWhile Reader.isSpace) = .ok (.object object, rest) :=
      (bind_apply_ok hspace).symm.trans hread
    -- of the three kinds of values only the one with names in it is an object
    obtain harray | hread := or_of_orElse_eq_ok hread
    · obtain ⟨_, -, heq⟩ := exists_of_map_eq_ok harray
      cases heq
    obtain hfields | hscalar := or_of_orElse_eq_ok hread
    · obtain ⟨fields, hread, heq⟩ := exists_of_map_eq_ok hfields
      refine ⟨fields, ?_, Json.object.inj heq⟩
      have hwhole : (do Reader.space; Reader.fields (Reader.value (maxLevels - 1))) text =
          .ok (fields, rest) := (bind_apply_ok hspace).trans hread
      rw [fieldsOfText?, whole?, hwhole]
      exact if_pos hrest
    · exact nomatch (keeps_scalar trivial hscalar).2
  · cases h

/-- A text that writes fields begins with a brace, after blank characters. -/
theorem head?_of_fieldsOfText? {text : List Char} {fields : List (String × Json)}
    (hshuns : Shuns Reader.isSpace text) (h : fieldsOfText? text = some fields) :
    text.head? = some '\x7b' := by
  by_contra hhead
  have hbrace : Shuns (· == '\x7b') text := by
    intro c hc
    rw [beq_eq_false_iff_ne]
    rintro rfl
    exact hhead hc
  have hrun : run Reader.isSpace ([] ++ text) = .ok ([], text) :=
    run_append (fun _ hc => absurd hc List.not_mem_nil) hshuns
  have hspace : Reader.space text = .ok ((), text) := bind_apply_ok hrun
  have hfields : Reader.fields (Reader.value (maxLevels - 1)) text = .error text :=
    bind_apply_error (char_error hbrace)
  have hread : (do Reader.space; Reader.fields (Reader.value (maxLevels - 1))) text =
      .error text := (bind_apply_ok hspace).trans hfields
  rw [fieldsOfText?, whole?, hread] at h
  cases h

end Json

/-! ### Trimmed texts -/

/-- A trimmed text does not begin with a blank character. -/
theorem Text.shuns_trim (text : List Char) : Parser.Shuns isBlank (trim text) := by
  intro c hc
  have hprefix : trim text <+: text.dropWhile isBlank := by
    rw [trim, trimEnd, ← List.reverse_suffix, List.reverse_reverse]
    exact List.dropWhile_suffix isBlank
  have hhead : (text.dropWhile isBlank).head? = some c := by
    obtain ⟨rest, hrest⟩ := hprefix
    rw [← hrest, List.head?_append, Option.mem_def.1 hc, Option.some_or]
  simpa [hhead] using List.head?_dropWhile_not isBlank text

namespace RuleNote

/-- Where a trimmed text writes an object the comment is no plain one. -/
theorem read_of_fieldsOfText? {comment : String} {fields : List (String × Json)}
    (h : Json.fieldsOfText? (Text.trim comment.toList) = some fields) :
    read comment = (ofFields? fields).elim .malformed .note := by
  have hshuns : Parser.Shuns Json.Reader.isSpace (Text.trim comment.toList) := by
    intro c hc
    rw [Bool.eq_false_iff]
    intro hspace
    have hblank := Json.isBlank_of_isSpace hspace
    rw [Text.shuns_trim comment.toList c hc] at hblank
    cases hblank
  simp only [read, Json.head?_of_fieldsOfText? hshuns h, if_pos, h, Option.bind_some]
  cases ofFields? fields <;> rfl

/-! ### What a note says -/

/-- **A list of roles**: one role, or an array of roles. -/
inductive Lists : Json → List String → Prop
  | one (role : String) : Lists (.string role) [role]
  | many (roles : List String) : Lists (.array (roles.map .string)) roles

/-- **The roles that are named** under a key of a note: none where it is missing or null, and
otherwise those that are listed. -/
inductive Names : Option Json → List String → Prop
  | missing : Names none []
  | null : Names (some .null) []
  | listed {json : Json} {roles : List String} : Lists json roles → Names (some json) roles

/-- The texts at paths, as data. -/
def textsAt (references : List (String × String)) : Json :=
  .object (references.map fun reference => (reference.1, .string reference.2))

/-- **What the fields of an entry compare**: an operator compares what is at its paths with what
is under the references there. A field that is no operator with texts at paths is lost, and
nothing else with it. -/
inductive Compares : List (String × Json) → List Clause → Prop
  | nil : Compares [] []
  | operator {rest : List (String × Json)} {clauses : List Clause} (operator : Operator)
      (references : List (String × String)) : Compares rest clauses →
      Compares ((operator.key, textsAt references) :: rest)
        ((references.map fun reference => ⟨operator, reference.1, reference.2⟩) ++ clauses)
  | lost {field : String × Json} {rest : List (String × Json)} {clauses : List Clause} :
      (∀ operator references, field ≠ (Operator.key operator, textsAt references)) →
      Compares rest clauses → Compares (field :: rest) clauses

/-- An entry that is meant for these roles: an object with a list of them. -/
def MeantFor (entry : Json) (fields : Dict Json) (roles : List String) : Prop :=
  entry = .object fields ∧ ∃ listed, fields.lookup rolesKey = some listed ∧ Lists listed roles

/-- **What the entries of an array decode to**, in their order. An entry that is meant for no
roles is lost, and nothing else with it. -/
inductive Decodes : List Json → List DropRule → Prop
  | nil : Decodes [] []
  | rule {entry : Json} {fields : Dict Json} {roles : List String} {clauses : List Clause}
      {rest : List Json} {rules : List DropRule} : MeantFor entry fields roles →
      Compares fields clauses → Decodes rest rules →
      Decodes (entry :: rest) (⟨.ofList roles, clauses⟩ :: rules)
  | lost {entry : Json} {rest : List Json} {rules : List DropRule} :
      (∀ fields roles, ¬MeantFor entry fields roles) → Decodes rest rules →
      Decodes (entry :: rest) rules

/-- **The drop rules that are told** under their key: those of an array, and none where there is
no array. -/
inductive Tells : Option Json → List DropRule → Prop
  | entries {entries : List Json} {rules : List DropRule} : Decodes entries rules →
      Tells (some (.array entries)) rules
  | lost {value : Option Json} : (∀ entries, value ≠ some (.array entries)) → Tells value []

/-! ### Roles -/

theorem roleList?_eq_some_iff {json : Json} {roles : List String} :
    json.roleList? = some roles ↔ Lists json roles := by
  constructor
  · intro h
    cases json with
    | string role =>
      obtain rfl := Option.some.inj h
      exact .one role
    | array items =>
      obtain rfl := Json.array.inj (Json.strings?_eq_some_iff.1 h)
      exact .many roles
    | _ => exact nomatch Json.strings?_eq_some_iff.1 h
  · rintro (role | roles)
    · rfl
    · exact Json.strings?_eq_some_iff.2 rfl

/-- Under a key that comes at most once the roles are read off the value that the note holds
there. -/
theorem roleSet?_eq_some_iff {key : String} {fields : List (String × Json)}
    (honce : (fields.filter fun field => field.1 == key).length ≤ 1) {set : RoleSet} :
    roleSet? key fields = some set ↔
      ∃ roles, Names ((Dict.ofList fields).lookup key) roles ∧ set = .ofList roles := by
  -- with one value at most, the last one is the only one
  have hsingle : single? key fields = some ((Dict.ofList fields).lookup key) := by
    rw [Dict.lookup_ofList, single?]
    generalize fields.filter (fun field => field.1 == key) = found at honce
    match found, honce with
    | [], _ => rfl
    | [_], _ => rfl
  rw [roleSet?, hsingle]
  generalize (Dict.ofList fields).lookup key = value
  rw [Option.bind_eq_bind, Option.bind_some]
  constructor
  · intro h
    split at h
    · exact ⟨[], .missing, (Option.some.inj h).symm⟩
    · exact ⟨[], .null, (Option.some.inj h).symm⟩
    · next json _ =>
      obtain ⟨roles, hroles, hset⟩ := Option.bind_eq_some_iff.1 h
      exact ⟨roles, .listed (roleList?_eq_some_iff.1 hroles), (Option.some.inj hset).symm⟩
  · rintro ⟨roles, hnames, rfl⟩
    cases hnames with
    | missing => rfl
    | null => rfl
    | listed hlists =>
      have hroles := roleList?_eq_some_iff.2 hlists
      cases hlists <;> simp [hroles]

/-! ### Comparisons -/

theorem ofKey?_eq_some_iff {key : String} {operator : Operator} :
    Operator.ofKey? key = some operator ↔ key = operator.key := by
  constructor
  · intro h
    rw [Operator.ofKey?] at h
    have hkey := List.find?_some h
    exact (beq_iff_eq.1 hkey).symm
  · rintro rfl
    exact operator.ofKey?_key

/-- The texts of an object are decoded exactly where they are all texts. -/
theorem decodedTexts_eq_some_iff {paths : Json} {references : List (String × String)} :
    (paths.fields?.bind fun fields =>
      fields.mapM fun (path, reference) => reference.string?.map (path, ·)) = some references ↔
      paths = textsAt references := by
  have hfield (field : String × Json) (reference : String × String) :
      (field.2.string?.map fun text => (field.1, text)) = some reference ↔
        field = (reference.1, .string reference.2) := by
    obtain ⟨path, json⟩ := field
    cases json <;> simp [Json.string?, Prod.ext_iff]
  cases paths with
  | object fields =>
    rw [Json.fields?, Option.bind_some, mapM_eq_some_iff hfield, textsAt, Json.object.injEq]
  | _ => simp [Json.fields?, textsAt]

theorem clausesOfFields_operator (operator : Operator) (references : List (String × String))
    (rest : Dict Json) :
    clausesOfFields ((operator.key, textsAt references) :: rest) =
      (references.map fun reference => ⟨operator, reference.1, reference.2⟩) ++
        clausesOfFields rest := by
  simp only [clausesOfFields, List.flatMap_cons, operator.ofKey?_key, clausesOf,
    decodedTexts_eq_some_iff.2 rfl]

theorem clausesOfFields_lost {field : String × Json}
    (h : ∀ operator references, field ≠ (Operator.key operator, textsAt references))
    (rest : Dict Json) : clausesOfFields (field :: rest) = clausesOfFields rest := by
  obtain ⟨key, paths⟩ := field
  rw [clausesOfFields, List.flatMap_cons]
  dsimp only
  split
  · rfl
  · next operator hkey =>
    rw [clausesOf]
    split
    · rfl
    · next references hreferences =>
      exact absurd (Prod.ext (ofKey?_eq_some_iff.1 hkey) (decodedTexts_eq_some_iff.1 hreferences))
        (h operator references)

/-- **The clauses of an entry** are what its fields compare. -/
theorem compares_iff {fields : Dict Json} {clauses : List Clause} :
    Compares fields clauses ↔ clausesOfFields fields = clauses := by
  constructor
  · intro h
    induction h with
    | nil => rfl
    | operator operator references _ ih => rw [clausesOfFields_operator, ih]
    | lost hlost _ ih => rw [clausesOfFields_lost hlost, ih]
  · rintro rfl
    induction fields with
    | nil => exact .nil
    | cons field rest ih =>
      by_cases h : ∃ operator references, field = (Operator.key operator, textsAt references)
      · obtain ⟨operator, references, rfl⟩ := h
        rw [clausesOfFields_operator]
        exact .operator operator references ih
      · have hlost : ∀ operator references,
            field ≠ (Operator.key operator, textsAt references) :=
          fun operator references heq => h ⟨operator, references, heq⟩
        rw [clausesOfFields_lost hlost]
        exact .lost hlost ih

/-! ### Entries -/

theorem dropRule?_of_meantFor {entry : Json} {fields : Dict Json} {roles : List String}
    (h : MeantFor entry fields roles) :
    dropRule? entry = some ⟨.ofList roles, clausesOfFields fields⟩ := by
  obtain ⟨rfl, listed, hlookup, hlisted⟩ := h
  simp [dropRule?, Json.fields?, hlookup, roleList?_eq_some_iff.2 hlisted]

theorem dropRule?_eq_none {entry : Json} (h : ∀ fields roles, ¬MeantFor entry fields roles) :
    dropRule? entry = none := by
  rw [Option.eq_none_iff_forall_ne_some]
  intro rule hrule
  rw [dropRule?, Option.bind_eq_bind, Option.bind_eq_some_iff] at hrule
  obtain ⟨fields, hfields, hrule⟩ := hrule
  obtain ⟨listed, hlookup, hrule⟩ := Option.bind_eq_some_iff.1 hrule
  obtain ⟨roles, hroles, -⟩ := Option.bind_eq_some_iff.1 hrule
  exact h fields roles ⟨Json.fields?_eq_some_iff.1 hfields, listed, hlookup,
    roleList?_eq_some_iff.1 hroles⟩

/-- **The drop rules of entries** are what the entries decode to. -/
theorem decodes_iff {entries : List Json} {rules : List DropRule} :
    Decodes entries rules ↔ entries.filterMap dropRule? = rules := by
  constructor
  · intro h
    induction h with
    | nil => rfl
    | rule hmeant hcompares _ ih =>
      rw [List.filterMap_cons_some (dropRule?_of_meantFor hmeant), ih, compares_iff.1 hcompares]
    | lost hlost _ ih => rw [List.filterMap_cons_none (dropRule?_eq_none hlost), ih]
  · rintro rfl
    induction entries with
    | nil => exact .nil
    | cons entry rest ih =>
      by_cases h : ∃ fields roles, MeantFor entry fields roles
      · obtain ⟨fields, roles, hmeant⟩ := h
        rw [List.filterMap_cons_some (dropRule?_of_meantFor hmeant)]
        exact .rule hmeant (compares_iff.2 rfl) ih
      · have hlost : ∀ fields roles, ¬MeantFor entry fields roles :=
          fun fields roles hmeant => h ⟨fields, roles, hmeant⟩
        rw [List.filterMap_cons_none (dropRule?_eq_none hlost)]
        exact .lost hlost ih

/-- **The drop rules under their key** are those that are told there. -/
theorem tells_iff {value : Option Json} {rules : List DropRule} :
    Tells value rules ↔ value.elim [] dropRulesOf = rules := by
  constructor
  · rintro (hdecodes | hlost)
    · exact decodes_iff.1 hdecodes
    · cases value with
      | none => rfl
      | some json =>
        cases json with
        | array entries => exact absurd rfl (hlost entries)
        | _ => rfl
  · rintro rfl
    cases value with
    | none => exact .lost fun _ heq => nomatch heq
    | some json =>
      cases json with
      | array entries => exact .entries (decodes_iff.2 rfl)
      | _ => exact .lost fun _ heq => nomatch heq

/-! ### Notes -/

/-- **A note is made of what its keys hold**, the keys of roles coming at most once. -/
theorem ofFields?_eq_some_iff {fields : List (String × Json)}
    (hdrop : (fields.filter fun field => field.1 == dropKey).length ≤ 1)
    (haccept : (fields.filter fun field => field.1 == acceptKey).length ≤ 1) {note : RuleNote} :
    ofFields? fields = some note ↔
      (∃ drop accept, Names ((Dict.ofList fields).lookup dropKey) drop ∧
        Names ((Dict.ofList fields).lookup acceptKey) accept ∧
        note.policy = ⟨.ofList drop, .ofList accept⟩) ∧
      ∃ rules, Tells ((Dict.ofList fields).lookup DropRule.key) rules ∧
        note.dropRules = if rules = [] then none else some rules := by
  simp only [ofFields?, Option.bind_eq_bind, Option.bind_eq_some_iff, roleSet?_eq_some_iff hdrop,
    roleSet?_eq_some_iff haccept, tells_iff, Option.pure_def, Option.some.injEq]
  generalize (Dict.ofList fields).lookup DropRule.key = value
  constructor
  · rintro ⟨_, ⟨drop, hdropped, rfl⟩, _, ⟨accept, haccepted, rfl⟩, rfl⟩
    refine ⟨⟨drop, accept, hdropped, haccepted, rfl⟩, _, rfl, ?_⟩
    cases value <;> rfl
  · rintro ⟨⟨drop, accept, hdropped, haccepted, hpolicy⟩, _, rfl, hdropRules⟩
    refine ⟨_, ⟨drop, hdropped, rfl⟩, _, ⟨accept, haccepted, rfl⟩, ?_⟩
    obtain ⟨policy, dropRules⟩ := note
    subst hpolicy hdropRules
    cases value <;> rfl

/-- **Faults cost themselves.** Let a comment, once trimmed, write an object in which either key
of roles comes at most once.

It is a note exactly if something is named under either of them, and malformed otherwise, whatever
else is in it. What is named is the policy of the note. Its drop rules are told by what the object
holds under their key, the last of several; entries are decoded one by one, so that two arrays in
one have the drop rules of the first and those of the second, and a note has drop rules if any are
told. -/
theorem faults_cost_themselves {comment : String} {object : Dict Json}
    (hobject : Json.ofText? (Text.trim comment.toList) = some (.object object))
    (honce : ∀ fields, Json.fieldsOfText? (Text.trim comment.toList) = some fields →
      (fields.filter fun field => field.1 == dropKey).length ≤ 1 ∧
        (fields.filter fun field => field.1 == acceptKey).length ≤ 1) :
    (∀ policy dropRules, read comment = .note ⟨policy, dropRules⟩ ↔
      (∃ drop accept, Names (object.lookup dropKey) drop ∧
        Names (object.lookup acceptKey) accept ∧ policy = ⟨.ofList drop, .ofList accept⟩) ∧
      ∃ rules, Tells (object.lookup DropRule.key) rules ∧
        dropRules = if rules = [] then none else some rules) ∧
    ((∃ note, read comment = .note note) ↔
      (∃ drop, Names (object.lookup dropKey) drop) ∧
        ∃ accept, Names (object.lookup acceptKey) accept) ∧
    (read comment = .malformed ↔ ¬∃ note, read comment = .note note) ∧
    (∃ fields, Json.fieldsOfText? (Text.trim comment.toList) = some fields ∧
      ∀ key, object.lookup key =
        ((fields.filter fun field => field.1 == key).getLast?).map Prod.snd) ∧
    (∀ value, ∃! rules, Tells value rules) ∧
    ∀ first second rules more, Tells (some (.array first)) rules →
      Tells (some (.array second)) more →
        Tells (some (.array (first ++ second))) (rules ++ more) := by
  obtain ⟨fields, hfields, rfl⟩ := Json.exists_fields hobject
  obtain ⟨hdrop, haccept⟩ := honce fields hfields
  have hread := read_of_fieldsOfText? hfields
  have hnote (note : RuleNote) : read comment = .note note ↔ ofFields? fields = some note := by
    rw [hread]
    cases ofFields? fields <;> simp
  have hnotes (policy : Policy) (dropRules : Option (List DropRule)) :=
    (hnote ⟨policy, dropRules⟩).trans (ofFields?_eq_some_iff hdrop haccept)
  refine ⟨hnotes, ⟨?_, ?_⟩, ?_, ⟨fields, hfields, Dict.lookup_ofList fields⟩, fun value => ?_, ?_⟩
  · rintro ⟨⟨policy, dropRules⟩, h⟩
    obtain ⟨⟨drop, accept, hdropped, haccepted, -⟩, -⟩ := (hnotes policy dropRules).1 h
    exact ⟨⟨drop, hdropped⟩, accept, haccepted⟩
  · rintro ⟨⟨drop, hdropped⟩, accept, haccepted⟩
    exact ⟨_, (hnotes _ _).2 ⟨⟨drop, accept, hdropped, haccepted, rfl⟩, _, tells_iff.2 rfl, rfl⟩⟩
  · rw [hread]
    cases ofFields? fields <;> simp
  · exact ⟨_, tells_iff.2 rfl, fun rules h => (tells_iff.1 h).symm⟩
  · intro first second rules more hfirst hsecond
    obtain rfl := tells_iff.1 hfirst
    obtain rfl := tells_iff.1 hsecond
    exact tells_iff.2 List.filterMap_append

/-- A note with a rule for guests among faults: drop rules that are given up, an entry that is no
object, and an operator that is not known. -/
def guestNote : String :=
  "\x7b\"DROP\": \"*\", \"$dropIf\": 1, \"$dropIf\": [7, \x7b\"roles\": \"guest\", " ++
    "\"$eq\": \x7b\"id\": \"uid\"\x7d, \"$is\": \x7b\x7d\x7d]\x7d"

/-- The rule for guests is all that the faults leave, and it stays as it is. -/
theorem faults_cost_themselves_guestNote :
    (∃ object, Json.ofText? (Text.trim guestNote.toList) = some (.object object)) ∧
    (∀ fields, Json.fieldsOfText? (Text.trim guestNote.toList) = some fields →
      (fields.filter fun field => field.1 == dropKey).length ≤ 1 ∧
        (fields.filter fun field => field.1 == acceptKey).length ≤ 1) ∧
    read guestNote =
      .note ⟨⟨.ofList ["*"], .ofList []⟩, some [⟨.ofList ["guest"], [⟨.eq, "id", "uid"⟩]⟩]⟩ := by
  have hwritten : (((Json.ofText? (Text.trim guestNote.toList)).bind Json.fields?).map
      fun object => ((object.lookup dropKey).bind Json.roleList?,
        (object.lookup acceptKey).isNone, (object.lookup DropRule.key).elim [] dropRulesOf)) =
      some (some ["*"], true, [⟨.ofList ["guest"], [⟨.eq, "id", "uid"⟩]⟩]) := by
    decide +kernel
  have honce : ((Json.fieldsOfText? (Text.trim guestNote.toList)).all fun fields =>
      decide ((fields.filter fun field => field.1 == dropKey).length ≤ 1 ∧
        (fields.filter fun field => field.1 == acceptKey).length ≤ 1)) = true := by
    decide +kernel
  have honce : ∀ fields, Json.fieldsOfText? (Text.trim guestNote.toList) = some fields →
      (fields.filter fun field => field.1 == dropKey).length ≤ 1 ∧
        (fields.filter fun field => field.1 == acceptKey).length ≤ 1 :=
    fun fields hfields => of_decide_eq_true ((Option.all_eq_true _ _).1 honce fields hfields)
  obtain ⟨object, hobject, hheld⟩ := Option.map_eq_some_iff.1 hwritten
  obtain ⟨json, hobject, hfields⟩ := Option.bind_eq_some_iff.1 hobject
  obtain rfl := Json.fields?_eq_some_iff.1 hfields
  obtain ⟨hdrop, hrest⟩ := Prod.mk.inj hheld
  obtain ⟨haccept, hrules⟩ := Prod.mk.inj hrest
  obtain ⟨listed, hlookup, hlists⟩ := Option.bind_eq_some_iff.1 hdrop
  obtain ⟨hnotes, -⟩ := faults_cost_themselves hobject honce
  refine ⟨⟨object, hobject⟩, honce, (hnotes _ _).2 ⟨⟨["*"], [], ?_, ?_, rfl⟩, _,
    tells_iff.2 hrules, rfl⟩⟩
  · rw [hlookup]
    exact .listed (roleList?_eq_some_iff.1 hlists)
  · rw [Option.isNone_iff_eq_none.1 haccept]
    exact .missing

end RuleNote

end QueryAccess
