import QueryAccess.Proofs.Document.Counting
import QueryAccess.Proofs.Document.Expansion
import QueryAccess.Tree.OfDocument

/-!
# The limit that is never met

The depth of a document is limited twice. Its text is refused if its brackets nest deeper than
`QueryAccess.maxDepth`, and when its tree is made, no more than so many levels are expanded.
The second limit is there for fragments: a fragment may spread another one, and so lead deeper
than any bracket shows. Without spreads it is never met. The levels that the tree takes are
selection sets of the text then, and these have been counted.

**No limit.** `QueryAccess.Tree.ofDocumentUnlimited` makes the tree of a document with no limit
on the levels. It ends all the same, since no fragment is expanded inside itself: each spread
that is gone into leaves one fragment less to go into, and the selections get smaller otherwise.
That it is the same construction but for the limit is
`QueryAccess.Tree.Surroundings.unlimitedAt_eq_contributionsAt`: each level has a further one
below it.

**Two ways to count.** The selection set of an operation is one level for the brackets, and none
yet for the tree: with no further level left, its fields are still made. So selections may nest
one deeper than there are further levels (`QueryAccess.Tree.contributions_eq_unlimited`), and a
document whose text is accepted has that one to spare.
-/

namespace QueryAccess.Tree

/-! ### The tree without a limit -/

namespace Surroundings

/-- How many fragments are left to go into. -/
def fragmentsLeft (around : Surroundings) (active : List String) : Nat :=
  (around.fragments.filter fun fragment => fragment.name ∉ active).length

/-- Going into a fragment leaves one less. -/
theorem fragmentsLeft_lt {around : Surroundings} {name : String} {selections : List Selection}
    (hfind : around.fragment? name = some selections) {active : List String}
    (hactive : name ∉ active) :
    around.fragmentsLeft (name :: active) < around.fragmentsLeft active := by
  obtain ⟨fragment, hfound, -⟩ := Option.map_eq_some_iff.1 hfind
  have hname : fragment.name = name := eq_of_beq (List.find?_some hfound :)
  have hmem : fragment ∈ around.fragments :=
    List.mem_reverse.1 (List.mem_of_find?_eq_some hfound)
  have hleft : (around.fragments.filter fun fragment => fragment.name ∉ name :: active) =
      (around.fragments.filter fun fragment => fragment.name ∉ active).filter
        fun fragment => fragment.name ≠ name := by
    rw [List.filter_filter]
    refine List.filter_congr fun other _ => ?_
    simp [List.mem_cons]
  rw [fragmentsLeft, fragmentsLeft, hleft, List.length_filter_lt_length_iff_exists]
  exact ⟨fragment, List.mem_filter.2 ⟨hmem, by simpa [hname] using hactive⟩, by simp [hname]⟩

mutual

/-- What one selection contributes, without a limit on the levels. -/
def unlimited (around : Surroundings) (active : List String) (policy : Option Policy) :
    Selection → List (String × Node)
  | .field comment label name arguments _ selections =>
    let node := start comment policy
    [(label.getD name,
      { node with
        inputs := around.inputs node.policy arguments
        outputs := Node.gather (around.unlimitedAt active node.policy selections)
        fieldName := label.map fun _ => name })]
  | .inline _ _ selections => around.unlimitedAt active policy selections
  | .spread name _ =>
    match _hfind : around.fragment? name with
    | none => []
    | some selections =>
      if _hactive : name ∈ active then []
      else around.unlimitedAt (name :: active) policy selections
termination_by selection => (around.fragmentsLeft active, sizeOf selection)
decreasing_by
  · exact Prod.Lex.right _ (by rw [Selection.field.sizeOf_spec]; omega)
  · exact Prod.Lex.right _ (by rw [Selection.inline.sizeOf_spec]; omega)
  · exact Prod.Lex.left _ _ (fragmentsLeft_lt ‹_› ‹_›)

/-- What selections contribute, without a limit on the levels. -/
def unlimitedAt (around : Surroundings) (active : List String) (policy : Option Policy) :
    List Selection → List (String × Node)
  | [] => []
  | selection :: rest =>
    around.unlimited active policy selection ++ around.unlimitedAt active policy rest
termination_by selections => (around.fragmentsLeft active, sizeOf selections)
decreasing_by
  · exact Prod.Lex.right _ (by rw [List.cons.sizeOf_spec]; omega)
  · exact Prod.Lex.right _ (by rw [List.cons.sizeOf_spec]; omega)

end

mutual

/-- A selection contributes without a limit as it does above a further level without a limit. -/
theorem unlimited_eq_contribution (around : Surroundings) (active : List String)
    (policy : Option Policy) : ∀ selection : Selection,
      around.unlimited active policy selection =
        contribution around (some around.unlimitedAt) active policy selection
  | .field comment label name arguments directives selections => by
    rw [unlimited, contribution]
    rfl
  | .inline on directives selections => by
    rw [unlimited, contribution]
    exact unlimitedAt_eq_contributionsAt around active policy selections
  | .spread name directives => by
    rw [unlimited, contribution]
    cases around.fragment? name with
    | none => rfl
    | some selections => rfl

/-- **The construction without a limit**: each level has a further one below it, which is made
in the same way. -/
theorem unlimitedAt_eq_contributionsAt (around : Surroundings) (active : List String)
    (policy : Option Policy) : ∀ selections : List Selection,
      around.unlimitedAt active policy selections =
        contributionsAt around (some around.unlimitedAt) active policy selections
  | [] => by rw [unlimitedAt, contributionsAt]
  | selection :: rest => by
    rw [unlimitedAt, contributionsAt, unlimited_eq_contribution around active policy selection,
      unlimitedAt_eq_contributionsAt around active policy rest]

end

end Surroundings

/-- The root node of an operation, without a limit on the levels. -/
def ofOperationUnlimited (bindings : Dict Json) (fragments : List Fragment)
    (policy : Option Policy) (operation : Operation) : Node :=
  let around : Surroundings := ⟨bindings, operation.declared, fragments⟩
  let node := start operation.comment policy
  { node with
    outputs := Node.gather (around.unlimitedAt [] node.policy operation.selections) }

/-- **The tree of a document without a limit on the levels.** -/
def ofDocumentUnlimited (document : Document) (bindings : Dict Json) (policy : Option Policy) :
    Tree :=
  ofRoots (document.operations.map fun operation =>
    (operation.kind.keyword,
      ofOperationUnlimited bindings document.fragments policy operation))

/-! ### Levels to spare -/

section Levels

variable {around : Surroundings} {deeper : Option Contribute} {levels : Nat}

/-- Selections without spreads contribute as without a limit, if they nest no deeper than
this. -/
def Unlimiting (around : Surroundings) (contribute : Contribute) (levels : Nat) : Prop :=
  ∀ active policy selections, spreadsIn selections = [] → depthOfSet selections ≤ levels →
    contribute active policy selections = around.unlimitedAt active policy selections

mutual

/-- Below a selection without spreads it does not matter whether there is a limit, if it nests no
deeper than this. -/
theorem contribution_eq_above
    (hdeeper : Unlimiting around (deeper.getD contributeNothing) levels) (active : List String)
    (policy : Option Policy) : ∀ selection : Selection, selection.spreads = [] →
      selection.depth ≤ levels →
      contribution around deeper active policy selection =
        contribution around (some around.unlimitedAt) active policy selection
  | .field comment label name arguments directives selections, hnone, hdepth => by
    rw [Selection.spreads] at hnone
    rw [Selection.depth, Nat.max_le, Nat.max_le] at hdepth
    rw [contribution, contribution, hdeeper _ _ _ hnone hdepth.2.2, Option.getD_some]
  | .inline on directives selections, hnone, hdepth => by
    rw [Selection.spreads] at hnone
    rw [Selection.depth, Nat.max_le] at hdepth
    rw [contribution, contribution]
    exact contributionsAt_eq_above hdeeper active policy selections hnone
      (Nat.le_succ_of_le hdepth.2)
  | .spread name directives, hnone, _ => absurd hnone (List.cons_ne_nil name [])

/-- The same of selections, which nest one deeper. -/
theorem contributionsAt_eq_above
    (hdeeper : Unlimiting around (deeper.getD contributeNothing) levels) (active : List String)
    (policy : Option Policy) : ∀ selections : List Selection, spreadsIn selections = [] →
      depthOfSet selections ≤ levels + 1 →
      contributionsAt around deeper active policy selections =
        contributionsAt around (some around.unlimitedAt) active policy selections
  | [], _, _ => by rw [contributionsAt, contributionsAt]
  | selection :: rest, hnone, hdepth => by
    rw [spreadsIn, List.append_eq_nil_iff] at hnone
    rw [depthOfSet, Nat.max_le] at hdepth
    rw [contributionsAt, contributionsAt,
      contribution_eq_above hdeeper active policy selection hnone.1
        (Nat.le_of_succ_le_succ hdepth.1),
      contributionsAt_eq_above hdeeper active policy rest hnone.2 hdepth.2]

end

/-- A level above one that is made as without a limit is made so itself. -/
theorem contributionsAt_eq_unlimited
    (hdeeper : Unlimiting around (deeper.getD contributeNothing) levels) :
    Unlimiting around (contributionsAt around deeper) (levels + 1) := by
  intro active policy selections hnone hdepth
  rw [Surroundings.unlimitedAt_eq_contributionsAt]
  exact contributionsAt_eq_above hdeeper active policy selections hnone hdepth

/-- **The limit is not met** by selections without spreads that nest no deeper than a level more
than there are further ones. -/
theorem contributions_eq_unlimited (around : Surroundings) (levels : Nat) :
    Unlimiting around (contributions around levels) (levels + 1) := by
  induction levels with
  | zero =>
    -- below the last level nothing is selected any more
    have hnothing : Unlimiting around ((none : Option Contribute).getD contributeNothing) 0 := by
      intro active policy selections _ hdepth
      cases selections with
      | nil => rw [Surroundings.unlimitedAt]; rfl
      | cons selection rest =>
        exact absurd (depthOfSet_le_iff.1 hdepth selection (.head _)) (Nat.not_lt_zero _)
    exact contributionsAt_eq_unlimited hnothing
  | succ levels ih =>
    have hdeeper : Unlimiting around
        ((some (contributions around levels)).getD contributeNothing) (levels + 1) := ih
    exact contributionsAt_eq_unlimited hdeeper

end Levels

/-! ### Documents -/

/-- **The limit is not met** by a document without spreads that nests no deeper than
`QueryAccess.maxDepth`. -/
theorem ofDocument_eq_unlimited {document : Document} (hdepth : document.depth ≤ maxDepth)
    (hspreads : ∀ operation ∈ document.operations, spreadsIn operation.selections = [])
    (bindings : Dict Json) (policy : Option Policy) :
    ofDocument document bindings policy = ofDocumentUnlimited document bindings policy := by
  refine congrArg ofRoots (List.map_congr_left fun operation hoperation => ?_)
  have hle : operation.depth ≤ maxDepth :=
    Nat.le_trans (Document.depth_operation_le hoperation) hdepth
  rw [Operation.depth, Nat.max_le, Nat.max_le] at hle
  rw [ofOperation, ofOperationUnlimited,
    contributions_eq_unlimited ⟨bindings, operation.declared, document.fragments⟩ maxDepth _ _ _
      (hspreads operation hoperation) (Nat.le_succ_of_le hle.2.2)]

/-- **The two limits agree.** A document whose text is accepted nests no deeper than
`QueryAccess.maxDepth`, whatever its strings, block strings and comments contain. If its
operations spread no fragments, nothing of it is left out of its tree: the tree is the one
without a limit on the levels, for a rule source and for a query, with any data bound to the
variables. -/
theorem depth_limits_agree {text : String} {document : Document}
    (h : Document.ofText text = .ok document) :
    document.depth ≤ maxDepth ∧
    ((∀ operation ∈ document.operations, spreadsIn operation.selections = []) →
      ∀ (bindings : Dict Json) (policy : Option Policy),
        ofDocument document bindings policy = ofDocumentUnlimited document bindings policy) :=
  ⟨Document.depth_le_of_ofText h, ofDocument_eq_unlimited (Document.depth_le_of_ofText h)⟩

/-- A text with brackets in a string, in a block string and in a comment. -/
def bracketedText : String :=
  "\x7b # [[[\n a(x: [\"\\\"[\" \"\"\"[\\\"\"\"[\"\"\" \x7by: [] \x7d]) \x7bb\x7d \x7d"

/-- The text, as an instance of `QueryAccess.Tree.depth_limits_agree`: its operation has four
brackets around one another. -/
theorem depth_limits_agree_bracketed :
    ∃ document, Document.ofText bracketedText = .ok document ∧ document.depth = 4 ∧
      document.depth ≤ maxDepth ∧
      (∀ operation ∈ document.operations, spreadsIn operation.selections = []) ∧
      ∀ (bindings : Dict Json) (policy : Option Policy),
        ofDocument document bindings policy = ofDocumentUnlimited document bindings policy := by
  have hchecked : ((Document.ofText bracketedText).toOption.any fun document =>
      document.depth == 4 &&
        document.operations.all fun operation => spreadsIn operation.selections == []) = true := by
    decide +kernel
  obtain ⟨document, hread, hchecked⟩ := (Option.any_eq_true _ _).1 hchecked
  rw [Bool.and_eq_true, beq_iff_eq, List.all_eq_true] at hchecked
  have hdocument : Document.ofText bracketedText = .ok document := by
    cases hparsed : Document.ofText bracketedText with
    | error e => rw [hparsed] at hread; exact nomatch hread
    | ok parsed =>
      rw [hparsed] at hread
      exact congrArg Except.ok (Option.some.inj hread)
  have hspreads : ∀ operation ∈ document.operations, spreadsIn operation.selections = [] :=
    fun operation hoperation => beq_iff_eq.1 (hchecked.2 operation hoperation)
  obtain ⟨hle, hagree⟩ := depth_limits_agree hdocument
  exact ⟨document, hdocument, hchecked.1, hle, hspreads, hagree hspreads⟩

end QueryAccess.Tree
