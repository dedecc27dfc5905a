import QueryAccess.Document.Reader
import QueryAccess.Proofs.Rules.Aliases

/-!
# Fields behind fragments

A field that a client reaches through fragments should not escape its rule, however many
fragments lead to it. Where the keys are distinct and no fragment leads back to itself,
the tree of an operation has exactly the fields that are reached within the levels of the
expansion, and a rule that denies a field among them denies the request
(`QueryAccess.RuleTree.denied_of_reached`).

**Beyond the levels** nothing is checked. A text nests no deeper than the levels, but it
counts each definition for itself, and a spread joins the depths of two: below a few
spreads the last field of a deep fragment is beyond the levels, is left out of the tree
without a trace, and the request is allowed (`QueryAccess.RuleTree.depth_hides_field`).
-/

namespace QueryAccess

namespace Selected

/-- A field without arguments and selections ends there. -/
theorem isEnd_of_isBare {field : Selected} (fragments : List Fragment)
    (h : field.isBare = true) : field.isEnd fragments = true := by
  obtain ⟨levels, label, name, arguments, selections⟩ := field
  rw [isBare, Bool.and_eq_true, List.isEmpty_iff, List.isEmpty_iff] at h
  obtain ⟨rfl, rfl⟩ := h
  rcases levels with _ | _ | levels <;> rfl

end Selected

namespace RuleTree

/-! ### Within the levels -/

section Reached

variable {document : Document} {operation : Operation} {bindings : Dict Json}

/-- There is a node at the end of some keys if fields with these keys are reached. -/
theorem exists_get?_iff_reaches (h : document.operations = [operation])
    (hacyclic : Acyclic document.fragments) (keys : List String) :
    (∃ node, (Tree.ofDocument document bindings none).get?
        (Tree.outputPath operation keys) = some node) ↔
      ∃ way, Selected.Reaches document.fragments (operation.whole (maxDepth + 1)) way ∧
        way.map Selected.key = keys := by
  have hfree := Uncycled.of_acyclic hacyclic (spreadsIn operation.selections)
  rw [Tree.exists_get?_outputPath h hfree, Tree.selectedAt]
  constructor
  · intro hkeys
    obtain ⟨target, htarget⟩ := List.exists_mem_of_ne_nil _ hkeys
    obtain ⟨field, hfield, way, hway, hkeys, -⟩ := Selected.mem_atKeys_iff.1 htarget
    rw [List.mem_singleton] at hfield
    exact ⟨way, hfield ▸ hway, hkeys⟩
  · rintro ⟨way, hway, hkeys⟩
    exact List.ne_nil_of_mem
      (Selected.mem_atKeys_iff.2 ⟨_, List.mem_singleton.2 rfl, way, hway, hkeys, rfl⟩)

/-- A field that is reached is alone at its keys, where these are distinct. -/
theorem selectedAt_of_reaches
    (hdistinct : Selected.Distinct document.fragments (operation.whole (maxDepth + 1)))
    {way : List Selected} {field : Selected}
    (hway : Selected.Reaches document.fragments (operation.whole (maxDepth + 1))
      (way ++ [field])) :
    Tree.selectedAt document operation ((way ++ [field]).map Selected.key) = [field] := by
  rw [Tree.selectedAt, Selected.atKeys_of_reaches hdistinct hway, List.getLast?_concat,
    Option.getD_some]

/-- **What is reached within the levels is checked.** In a document with one operation,
distinct keys and no cyclic fragments, there is a node at the end of some keys exactly if
fields with these keys are reached within the levels; and if the rule at the names of a
field that is reached denies, and the field has no arguments and selections, the request
is denied. -/
theorem denied_of_reached (h : document.operations = [operation])
    (hacyclic : Acyclic document.fragments)
    (hdistinct : Selected.Distinct document.fragments (operation.whole (maxDepth + 1))) :
    (∀ keys, (∃ node, (Tree.ofDocument document bindings none).get?
        (Tree.outputPath operation keys) = some node) ↔
      ∃ way, Selected.Reaches document.fragments (operation.whole (maxDepth + 1)) way ∧
        way.map Selected.key = keys) ∧
    ∀ way field,
      Selected.Reaches document.fragments (operation.whole (maxDepth + 1)) (way ++ [field]) →
      field.isBare = true →
      ∀ (rules : RuleTree) (caller : Caller) (default : DefaultPolicy),
        rules.permits caller default
          (Tree.outputPath operation ((way ++ [field]).map Selected.name)) = false →
        (rules.validate document bindings caller default none).isAllowed = false := by
  refine ⟨exists_get?_iff_reaches h hacyclic, ?_⟩
  intro way field hway hbare rules caller default hdenied
  have hfree := Uncycled.of_acyclic hacyclic (spreadsIn operation.selections)
  have halone := selectedAt_of_reaches hdistinct hway
  have hne : Tree.selectedAt document operation ((way ++ [field]).map Selected.key) ≠ [] := by
    rw [halone]
    exact List.cons_ne_nil _ _
  refine denied_of_shown rules caller default h hfree hne ?_ ?_
  · intro other hother
    rw [halone, List.mem_singleton] at hother
    rw [hother]
    exact Selected.isEnd_of_isBare _ hbare
  · rwa [Tree.shownAt, Selected.shownNames_of_reaches hdistinct hway]

end Reached

/-- A query for books, which spreads a fragment. -/
def booksQuery : Operation :=
  ⟨none, .query, none, [], [], [.field none none "books" [] [] [.spread "T" []]]⟩

/-- The query with its fragment, which selects a title and, under an alias, an author. -/
def booksByFragment : Document :=
  ⟨[.operation booksQuery,
    .fragment ⟨"T", "Book", [],
      [.field none none "title" [] [] [], .field none (some "by") "author" [] [] []]⟩]⟩

theorem distinct_booksByFragment :
    Selected.Distinct booksByFragment.fragments (booksQuery.whole (maxDepth + 1)) := by
  refine .mk (by decide +kernel) ?_
  intro books hbooks
  obtain rfl := List.mem_singleton.1 hbooks
  refine .mk (by decide +kernel) ?_
  intro field hfield
  rcases List.mem_cons.1 hfield with rfl | hfield
  · exact .mk List.nodup_nil fun _ hnext => absurd hnext List.not_mem_nil
  · obtain rfl := List.mem_singleton.1 hfield
    exact .mk List.nodup_nil fun _ hnext => absurd hnext List.not_mem_nil

/-- The author in the fragment, as an instance of
`QueryAccess.RuleTree.denied_of_reached`. -/
theorem denied_booksByFragment :
    booksByFragment.operations = [booksQuery] ∧
    Acyclic booksByFragment.fragments ∧
    Selected.Distinct booksByFragment.fragments (booksQuery.whole (maxDepth + 1)) ∧
    (∃ node, (Tree.ofDocument booksByFragment [] none).get?
      (Tree.outputPath booksQuery ["books", "by"]) = some node) ∧
    ∀ (rules : RuleTree) (caller : Caller) (default : DefaultPolicy),
      rules.permits caller default (Tree.outputPath booksQuery ["books", "author"]) = false →
        (rules.validate booksByFragment [] caller default none).isAllowed = false := by
  have hacyclic : Acyclic booksByFragment.fragments :=
    acyclic_of_rank (fun _ => 0) (by decide +kernel)
  have hway : Selected.Reaches booksByFragment.fragments (booksQuery.whole (maxDepth + 1))
      ([⟨maxDepth, none, "books", [], [.spread "T" []]⟩] ++
        [⟨maxDepth - 2, some "by", "author", [], []⟩]) :=
    .step (.head _) (.step (.tail _ (.head _)) (.here _))
  obtain ⟨hnodes, hdenied⟩ := denied_of_reached rfl hacyclic distinct_booksByFragment
  exact ⟨rfl, hacyclic, distinct_booksByFragment, (hnodes _).2 ⟨_, hway, rfl⟩,
    hdenied _ _ hway rfl⟩

end RuleTree

/-! ### One field at a time -/

mutual

/-- Whether a selection selects one thing at a time, however deep. -/
def Selection.isLone : Selection → Bool
  | .field _ _ _ _ _ selections => areLone selections
  | .inline _ _ selections => areLone selections
  | .spread _ _ => true

/-- Whether selections select one thing at a time, however deep. -/
def areLone : List Selection → Bool
  | [] => true
  | selection :: rest => rest.isEmpty && selection.isLone

end

section Lone

variable {fragments : List Fragment}

theorem isLone_of_mem {selections : List Selection} (h : areLone selections = true)
    {selection : Selection} (hmem : selection ∈ selections) : selection.isLone = true := by
  cases selections with
  | nil => exact absurd hmem List.not_mem_nil
  | cons first rest =>
    rw [areLone, Bool.and_eq_true, List.isEmpty_iff] at h
    rw [h.1, List.mem_singleton] at hmem
    exact hmem ▸ h.2

theorem areLone_fragment (hfragments : ∀ fragment ∈ fragments, areLone fragment.selections = true)
    {name : String} {selections : List Selection}
    (hfind : fragmentSelections? fragments name = some selections) :
    areLone selections = true := by
  obtain ⟨fragment, hfragment, rfl⟩ := Option.map_eq_some_iff.1 hfind
  exact hfragments fragment (List.mem_reverse.1 (List.mem_of_find?_eq_some hfragment))

/-- What is selected one thing at a time selects one thing at a time. -/
theorem Selects.lone_below
    (hfragments : ∀ fragment ∈ fragments, areLone fragment.selections = true) {levels : Nat}
    {selections : List Selection} {target : Selected}
    (h : Selects fragments levels selections target) (hlone : areLone selections = true) :
    areLone target.selections = true ∧ target.levels ≤ levels := by
  induction h with
  | field hmem =>
    have hinner := isLone_of_mem hlone hmem
    rw [Selection.isLone] at hinner
    exact ⟨hinner, Nat.le_refl _⟩
  | inline hmem _ ih =>
    have hinner := isLone_of_mem hlone hmem
    rw [Selection.isLone] at hinner
    exact ih hinner
  | spread _ hfind _ ih =>
    obtain ⟨hinner, hlevels⟩ := ih (areLone_fragment hfragments hfind)
    exact ⟨hinner, by omega⟩

section Length

variable {levels : Nat}

mutual

theorem length_expansion_le
    (hfragments : ∀ fragment ∈ fragments, areLone fragment.selections = true)
    (h : ∀ inner, areLone inner = true →
      (((expandBelow fragments levels).getD fun _ => []) inner).length ≤ 1) :
    ∀ selection, Selection.isLone selection = true →
      (expansion fragments (expandBelow fragments levels) levels selection).length ≤ 1
  | .field _ _ _ _ _ _, _ => by
    rw [expansion]
    exact Nat.le_refl 1
  | .inline _ _ inner, hlone => by
    rw [Selection.isLone] at hlone
    rw [expansion]
    exact length_expansionAt_le hfragments h inner hlone
  | .spread name _, _ => by
    rw [expansion]
    split
    · exact Nat.zero_le 1
    · next inner hfind => exact h inner (areLone_fragment hfragments hfind)

theorem length_expansionAt_le
    (hfragments : ∀ fragment ∈ fragments, areLone fragment.selections = true)
    (h : ∀ inner, areLone inner = true →
      (((expandBelow fragments levels).getD fun _ => []) inner).length ≤ 1) :
    ∀ selections, areLone selections = true →
      (expansionAt fragments (expandBelow fragments levels) levels selections).length ≤ 1
  | [], _ => Nat.zero_le 1
  | selection :: rest, hlone => by
    rw [areLone, Bool.and_eq_true, List.isEmpty_iff] at hlone
    obtain ⟨rfl, hfirst⟩ := hlone
    rw [expansionAt, expansionAt, List.append_nil]
    exact length_expansion_le hfragments h selection hfirst

end

end Length

/-- What selects one thing at a time comes to one field at most. -/
theorem length_expand_le
    (hfragments : ∀ fragment ∈ fragments, areLone fragment.selections = true) {levels : Nat}
    {selections : List Selection} (hlone : areLone selections = true) :
    (expand fragments levels selections).length ≤ 1 := by
  rw [expand_eq]
  induction levels generalizing selections with
  | zero =>
    refine length_expansionAt_le hfragments (fun inner _ => ?_) selections hlone
    exact Nat.zero_le 1
  | succ levels ih =>
    refine length_expansionAt_le hfragments (fun inner hinner => ?_) selections hlone
    rw [expandBelow, Option.getD_some, expand_eq]
    exact ih hinner

/-- **Where one thing is selected at a time the keys are distinct.** -/
theorem Selected.distinct_of_areLone
    (hfragments : ∀ fragment ∈ fragments, areLone fragment.selections = true)
    {field : Selected} (hlone : areLone field.selections = true) : Distinct fragments field := by
  obtain ⟨levels, hlevels⟩ : ∃ levels, field.levels = levels := ⟨_, rfl⟩
  induction levels using Nat.strongRecOn generalizing field with
  | ind levels ih =>
    refine .mk ?_ fun next hnext => ?_
    · rw [below]
      split
      · exact List.nodup_nil
      · next fewer _ =>
        have hlength : (expand fragments fewer field.selections).length ≤ 1 :=
          length_expand_le hfragments hlone
        rcases hexpand : expand fragments fewer field.selections with _ | ⟨only, _ | ⟨second, rest⟩⟩
        · exact List.nodup_nil
        · exact List.nodup_singleton _
        · rw [hexpand, List.length_cons, List.length_cons] at hlength
          omega
    · rw [below] at hnext
      split at hnext
      · exact absurd hnext List.not_mem_nil
      · next fewer hfewer =>
        obtain ⟨hnextLone, hless⟩ := (mem_expand_iff.1 hnext).lone_below hfragments hlone
        exact ih next.levels (by omega) hnextLone rfl

end Lone

/-! ### Beyond the levels -/

namespace Selected

/-- The fields on the way down from a field, always to the first that is selected. -/
def firstWay (fragments : List Fragment) : Nat → Selected → List Selected
  | 0, _ => []
  | steps + 1, field =>
    match field.below fragments with
    | [] => []
    | next :: _ => next :: firstWay fragments steps next

theorem reaches_firstWay (fragments : List Fragment) (steps : Nat) (field : Selected) :
    Reaches fragments field (firstWay fragments steps field) := by
  induction steps generalizing field with
  | zero => exact .here field
  | succ steps ih =>
    rw [firstWay]
    split
    · exact .here field
    · next next rest hbelow => exact .step (hbelow ▸ .head rest) (ih next)

end Selected

namespace RuleTree

/-- Selections nested so deep, with a secret at the bottom. -/
def nestedText : Nat → String
  | 0 => "secret"
  | depth + 1 => "a\x7b" ++ nestedText depth ++ "\x7d"

/-- A query that reaches nested selections by two spreads. -/
def deepText : String :=
  "\x7b...G\x7d fragment G on B\x7b...F\x7d fragment F on B\x7b" ++ nestedText 63 ++ "\x7d"

/-- The names on the way to the secret. -/
def deepNames : List String := List.replicate 63 "a" ++ ["secret"]

/-- The document of a text, with its operation if it has only one. -/
def single? (text : String) : Option (Document × Operation) :=
  match Document.ofText text with
  | .error _ => none
  | .ok document =>
    match document.operations with
    | [operation] => some (document, operation)
    | _ => none

theorem of_single? {text : String} {document : Document} {operation : Operation}
    (h : single? text = some (document, operation)) :
    Document.ofText text = .ok document ∧ document.operations = [operation] := by
  rw [single?] at h
  split at h
  · cases h
  · next hread =>
    split at h
    · next hsingle =>
      obtain ⟨rfl, rfl⟩ := Prod.mk.inj (Option.some.inj h)
      exact ⟨hread, hsingle⟩
    · cases h

/-- The deep query is read, it is well-formed as a query, and it reaches the secret; but
rules that deny the secret allow it. -/
theorem deepText_allowed :
    ∃ pair ∈ single? deepText, pair.2.kind = .query ∧
      (∀ fragment ∈ pair.1.fragments, areLone fragment.selections = true ∧
        ∀ name ∈ spreadsIn fragment.selections,
          (if name = "G" then 1 else 0) < if fragment.name = "G" then 1 else 0) ∧
      areLone pair.2.selections = true ∧
      (∀ name ∈ spreadsIn pair.2.selections ++
          pair.1.fragments.flatMap (fun fragment => spreadsIn fragment.selections),
        (fragmentSelections? pair.1.fragments name).isSome = true) ∧
      (Selected.firstWay pair.1.fragments 100 (pair.2.whole 100)).map Selected.name = deepNames ∧
      (Selected.firstWay pair.1.fragments 100 (pair.2.whole 100)).getLast?.any Selected.isBare =
        true ∧
      ((denying "query" deepNames).validate pair.1 [] anyone .accept none).isAllowed = true := by
  decide +kernel

/-- **A field beyond the levels escapes its rule**, although the text is read, all its
spreads are defined, no fragment leads back to itself and the keys are distinct at every
depth. -/
theorem depth_hides_field :
    ¬∀ (text : String) (document : Document) (operation : Operation) (bindings : Dict Json),
      Document.ofText text = .ok document → document.operations = [operation] →
      (∀ name ∈ spreadsIn operation.selections ++
          document.fragments.flatMap (fun fragment => spreadsIn fragment.selections),
        (fragmentSelections? document.fragments name).isSome = true) →
      Acyclic document.fragments →
      (∀ levels, Selected.Distinct document.fragments (operation.whole levels)) →
      ∀ levels way field,
        Selected.Reaches document.fragments (operation.whole levels) (way ++ [field]) →
        field.isBare = true →
        ∀ (rules : RuleTree) (caller : Caller) (default : DefaultPolicy),
          rules.permits caller default
            (Tree.outputPath operation ((way ++ [field]).map Selected.name)) = false →
          (rules.validate document bindings caller default none).isAllowed = false := by
  intro hall
  obtain ⟨⟨document, operation⟩, hsingle, hkind, hfragments, hlone, hdefined, hnames, hbare,
    hallowed⟩ := deepText_allowed
  simp only at hkind hfragments hlone hdefined hnames hbare hallowed
  obtain ⟨hread, hoperations⟩ := of_single? hsingle
  have hacyclic : Acyclic document.fragments :=
    acyclic_of_rank (fun name => if name = "G" then 1 else 0) fun fragment hfragment =>
      (hfragments fragment hfragment).2
  have hdistinct : ∀ levels, Selected.Distinct document.fragments (operation.whole levels) :=
    fun levels => Selected.distinct_of_areLone (fun fragment hfragment =>
      (hfragments fragment hfragment).1) hlone
  have hway := Selected.reaches_firstWay document.fragments 100 (operation.whole 100)
  rcases List.eq_nil_or_concat
    (Selected.firstWay document.fragments 100 (operation.whole 100)) with hnil | ⟨way, field, heq⟩
  · rw [hnil] at hbare
    cases hbare
  · rw [heq, List.concat_eq_append] at hway hnames hbare
    rw [List.getLast?_concat] at hbare
    have hpermits : (denying "query" deepNames).permits anyone .accept
        (Tree.outputPath operation ((way ++ [field]).map Selected.name)) = false := by
      rw [Tree.outputPath, hkind, hnames]
      exact permits_denying_self "query" deepNames anyone .accept
    have hdenied := hall deepText document operation [] hread hoperations hdefined hacyclic
      hdistinct 100 way field hway hbare _ anyone .accept hpermits
    rw [hallowed] at hdenied
    cases hdenied

end RuleTree

end QueryAccess
