import QueryAccess.Document.Basic

/-!
# How deep a document nests

Selection sets, list values, object values and list types nest, in themselves and in each
other: a field in a selection set may have a list for an argument, with an object in the list.
The depth of a document (`QueryAccess.Document.depth`) is the greatest number of them, of any
kind, that are around one another. Arguments count wherever they stand, those of directives
included.

A bound on the depth is a bound on the depth of every part. The lemmas here say so, part by
part, in the form `… ≤ bound ↔ …`, and are all that is used of the definitions.
-/

namespace QueryAccess

/-! ### The greatest of some numbers -/

/-- The greatest depth among the members of a list, `0` if it is empty. -/
def deepestOf {α : Type} (depth : α → Nat) : List α → Nat
  | [] => 0
  | a :: rest => max (depth a) (deepestOf depth rest)

theorem deepestOf_le_iff {α : Type} {depth : α → Nat} {l : List α} {bound : Nat} :
    deepestOf depth l ≤ bound ↔ ∀ a ∈ l, depth a ≤ bound := by
  induction l with
  | nil => exact iff_of_true (Nat.zero_le bound) fun _ h => absurd h List.not_mem_nil
  | cons a rest ih => rw [deepestOf, Nat.max_le, ih, List.forall_mem_cons]

/-! ### Values and types -/

mutual

/-- How deep lists and objects nest in a value. -/
def Value.depth : Value → Nat
  | .list items => depthOfItems items + 1
  | .object fields => depthOfArguments fields + 1
  | .variable _ | .int _ | .float _ | .string _ | .boolean _ | .null | .enum _ => 0

/-- How deep lists and objects nest in values. -/
def depthOfItems : List Value → Nat
  | [] => 0
  | value :: rest => max value.depth (depthOfItems rest)

/-- How deep lists and objects nest in named values. -/
def depthOfArguments : List Argument → Nat
  | [] => 0
  | .mk _ _ value :: rest => max value.depth (depthOfArguments rest)

end

/-- How deep lists nest in a type. -/
def TypeRef.depth : TypeRef → Nat
  | .named _ => 0
  | .list element => element.depth + 1
  | .nonNull base => base.depth

theorem depthOfItems_le_iff {items : List Value} {bound : Nat} :
    depthOfItems items ≤ bound ↔ ∀ item ∈ items, item.depth ≤ bound := by
  induction items with
  | nil => exact iff_of_true (Nat.zero_le bound) fun _ h => absurd h List.not_mem_nil
  | cons item rest ih => rw [depthOfItems, Nat.max_le, ih, List.forall_mem_cons]

theorem depthOfArguments_le_iff {arguments : List Argument} {bound : Nat} :
    depthOfArguments arguments ≤ bound ↔
      ∀ argument ∈ arguments, argument.value.depth ≤ bound := by
  induction arguments with
  | nil => exact iff_of_true (Nat.zero_le bound) fun _ h => absurd h List.not_mem_nil
  | cons argument rest ih =>
    obtain ⟨comment, name, value⟩ := argument
    rw [depthOfArguments, Nat.max_le, ih, List.forall_mem_cons]
    rfl

/-! ### Selections -/

/-- How deep lists and objects nest in the arguments of directives. -/
def depthOfDirectives : List Directive → Nat :=
  deepestOf fun directive => depthOfArguments directive.arguments

mutual

/-- How deep anything nests in a selection. -/
def Selection.depth : Selection → Nat
  | .field _ _ _ arguments directives selections =>
    max (depthOfArguments arguments) (max (depthOfDirectives directives) (depthOfSet selections))
  | .inline _ directives selections => max (depthOfDirectives directives) (depthOfSet selections)
  | .spread _ directives => depthOfDirectives directives

/-- How deep anything nests in a selection set, the set itself counted. Where no set is
written there is nothing to count. -/
def depthOfSet : List Selection → Nat
  | [] => 0
  | selection :: rest => max (selection.depth + 1) (depthOfSet rest)

end

theorem depthOfSet_le_iff {selections : List Selection} {bound : Nat} :
    depthOfSet selections ≤ bound ↔ ∀ selection ∈ selections, selection.depth < bound := by
  induction selections with
  | nil => exact iff_of_true (Nat.zero_le bound) fun _ h => absurd h List.not_mem_nil
  | cons selection rest ih =>
    rw [depthOfSet, Nat.max_le, ih, List.forall_mem_cons, Nat.succ_le_iff]

/-! ### Documents -/

/-- How deep anything nests in the definition of a variable. -/
def VariableDefinition.depth (definition : VariableDefinition) : Nat :=
  max definition.type.depth (deepestOf Value.depth definition.default.toList)

/-- How deep anything nests in an operation. -/
def Operation.depth (operation : Operation) : Nat :=
  max (deepestOf VariableDefinition.depth operation.declared)
    (max (depthOfDirectives operation.directives) (depthOfSet operation.selections))

/-- How deep anything nests in a fragment. -/
def Fragment.depth (fragment : Fragment) : Nat :=
  max (depthOfDirectives fragment.directives) (depthOfSet fragment.selections)

/-- How deep anything nests in a definition. -/
def Definition.depth : Definition → Nat
  | .operation defined => defined.depth
  | .fragment defined => defined.depth

/-- **How deep a document nests**: the greatest number of selection sets, list values, object
values and list types around one another. -/
def Document.depth (document : Document) : Nat := deepestOf Definition.depth document.definitions

/-- No operation nests deeper than its document. -/
theorem Document.depth_operation_le {document : Document} {operation : Operation}
    (h : operation ∈ document.operations) : operation.depth ≤ document.depth := by
  obtain ⟨definition, hdefinition, hoperation⟩ := List.mem_filterMap.1 h
  have hle := deepestOf_le_iff.1 (Nat.le_refl document.depth) definition hdefinition
  cases definition with
  | operation defined =>
    obtain rfl := Option.some.inj hoperation
    exact hle
  | fragment defined => exact nomatch hoperation

end QueryAccess
