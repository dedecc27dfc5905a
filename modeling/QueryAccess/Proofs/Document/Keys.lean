import QueryAccess.Json.Basic
import QueryAccess.Proofs.Document.Lexemes

/-!
# The keys of a document

In the tree of a document a step is taken by a key: the response key of a field, the name of an
argument, or the name of a field of an object. These are all the keys that a document itself
brings into its tree (`QueryAccess.Document.keys`); the names of operations, fragments, variables
and directives, and those that a labelled field has beside its label, are no steps. The data bound
to its variables brings the keys of the objects in it (`QueryAccess.keysOfBindings`).

In a document that is read from a text every key is a name of the grammar
(`QueryAccess.Document.isName_of_mem_keys`): the reader puts nothing else where a key stands.
-/

namespace QueryAccess

/-! ### Keys -/

mutual

/-- The names of the fields of the objects in a value. -/
def Value.keys : Value → List String
  | .list items => keysOfItems items
  | .object fields => keysOfArguments fields
  | _ => []

/-- The names of the fields of the objects in the elements of a list. -/
def keysOfItems : List Value → List String
  | [] => []
  | value :: rest => value.keys ++ keysOfItems rest

/-- The names of named values, and those in the values. -/
def keysOfArguments : List Argument → List String
  | [] => []
  | .mk _ name value :: rest => name :: (value.keys ++ keysOfArguments rest)

end

mutual

/-- The keys of a selection: its response key, and those of its arguments and of what is
selected below it. -/
def Selection.keys : Selection → List String
  | .field _ label name arguments _ selections =>
    label.getD name :: (keysOfArguments arguments ++ keysOfSelections selections)
  | .inline _ _ selections => keysOfSelections selections
  | .spread _ _ => []

/-- The keys of selections. -/
def keysOfSelections : List Selection → List String
  | [] => []
  | selection :: rest => selection.keys ++ keysOfSelections rest

end

/-- The keys in the default of a variable, if it has one. -/
def VariableDefinition.keys (definition : VariableDefinition) : List String :=
  definition.default.toList.flatMap Value.keys

/-- The keys of a definition. -/
def Definition.keys : Definition → List String
  | .operation defined =>
    defined.declared.flatMap VariableDefinition.keys ++ keysOfSelections defined.selections
  | .fragment defined => keysOfSelections defined.selections

/-- **The keys of a document.** -/
def Document.keys (document : Document) : List String :=
  document.definitions.flatMap Definition.keys

/-! ### The keys of data -/

mutual

/-- The keys of the objects in a data value. -/
def Json.keys : Json → List String
  | .object fields => keysOfFields fields
  | .array items => keysOfElements items
  | _ => []

/-- The names of the fields of an object, and the keys in their values. -/
def keysOfFields : List (String × Json) → List String
  | [] => []
  | (name, json) :: rest => name :: (json.keys ++ keysOfFields rest)

/-- The keys in the elements of an array. -/
def keysOfElements : List Json → List String
  | [] => []
  | json :: rest => json.keys ++ keysOfElements rest

end

/-- The keys of the objects in the data bound to variables. -/
def keysOfBindings (bindings : Dict Json) : List String :=
  bindings.flatMap fun binding => binding.2.keys

/-! ### Keys of parts -/

theorem mem_keysOfItems_iff {key : String} {items : List Value} :
    key ∈ keysOfItems items ↔ ∃ item ∈ items, key ∈ item.keys := by
  induction items with
  | nil => simp [keysOfItems]
  | cons item rest ih => simp [keysOfItems, ih]

theorem mem_keysOfArguments_iff {key : String} {arguments : List Argument} :
    key ∈ keysOfArguments arguments ↔
      ∃ argument ∈ arguments, key = argument.name ∨ key ∈ argument.value.keys := by
  induction arguments with
  | nil => simp [keysOfArguments]
  | cons argument rest ih =>
    obtain ⟨comment, name, value⟩ := argument
    simp [keysOfArguments, ih, Argument.name, Argument.value, or_assoc]

theorem mem_keysOfSelections_iff {key : String} {selections : List Selection} :
    key ∈ keysOfSelections selections ↔ ∃ selection ∈ selections, key ∈ selection.keys := by
  induction selections with
  | nil => simp [keysOfSelections]
  | cons selection rest ih => simp [keysOfSelections, ih]

namespace Document

variable {document : Document}

theorem keysOfSelections_subset_of_fragment {fragment : Fragment}
    (h : fragment ∈ document.fragments) : keysOfSelections fragment.selections ⊆ document.keys := by
  obtain ⟨definition, hdefinition, hfragment⟩ := List.mem_filterMap.1 h
  cases definition with
  | operation defined => exact nomatch hfragment
  | fragment defined =>
    obtain rfl := Option.some.inj hfragment
    exact fun key hkey => List.mem_flatMap.2 ⟨.fragment defined, hdefinition, hkey⟩

theorem keys_subset_of_operation {operation : Operation} (h : operation ∈ document.operations) :
    operation.declared.flatMap VariableDefinition.keys ⊆ document.keys ∧
    keysOfSelections operation.selections ⊆ document.keys := by
  obtain ⟨definition, hdefinition, hoperation⟩ := List.mem_filterMap.1 h
  cases definition with
  | fragment defined => exact nomatch hoperation
  | operation defined =>
    obtain rfl := Option.some.inj hoperation
    have hsubset : Definition.keys (.operation defined) ⊆ document.keys :=
      fun key hkey => List.mem_flatMap.2 ⟨.operation defined, hdefinition, hkey⟩
    exact List.append_subset.1 hsubset

end Document

/-! ### Keys that are read -/

open QueryAccess.Parser Token

/-- Keys that are names. -/
def AreNames (keys : List String) : Prop := ∀ key ∈ keys, IsName key.toList

theorem areNames_nil : AreNames [] := fun _ h => absurd h List.not_mem_nil

theorem areNames_append {keys more : List String} (h : AreNames keys) (hmore : AreNames more) :
    AreNames (keys ++ more) := by
  intro key hkey
  rcases List.mem_append.1 hkey with hkey | hkey
  · exact h key hkey
  · exact hmore key hkey

theorem areNames_flatMap {α : Type} {l : List α} {keys : α → List String}
    (h : ∀ a ∈ l, AreNames (keys a)) : AreNames (l.flatMap keys) := by
  intro key hkey
  obtain ⟨a, ha, hkey⟩ := List.mem_flatMap.1 hkey
  exact h a ha key hkey

/-- What is read has a property, whatever the text is. -/
abbrev Yields {α : Type} (p : Parser α) (post : α → Prop) : Prop :=
  Keeps (fun _ => True) (fun _ => True) p post

namespace Yields

theorem any {α : Type} {p : Parser α} : Yields p fun _ => True :=
  fun _ _ _ _ _ => ⟨trivial, trivial⟩

theorem satisfy {admits : Char → Bool} :
    Yields (Parser.satisfy admits) fun c => admits c = true := by
  intro text rest c _ hread
  cases text with
  | nil => cases hread
  | cons c' text =>
    rw [Parser.satisfy] at hread
    split at hread
    · next hadmits =>
      obtain ⟨rfl, rfl⟩ := Prod.mk.inj (Except.ok.inj hread)
      exact ⟨trivial, hadmits⟩
    · cases hread

theorem run {admits : Char → Bool} :
    Yields (Parser.run admits) fun cs => ∀ c ∈ cs, admits c = true := by
  intro text rest cs _ hread
  obtain ⟨rfl, rfl⟩ := Prod.mk.inj (Except.ok.inj hread)
  exact ⟨trivial, List.all_eq_true.1 List.all_takeWhile⟩

theorem name : Yields Token.name fun name => IsName name.toList := by
  refine satisfy.bind fun first hfirst => run.bind fun rest hrest => .pure ?_
  exact ⟨first, rest, String.toList_ofList, hfirst, hrest⟩

theorem tokenName : Yields Token.tokenName fun name => IsName name.toList :=
  Yields.any.bind fun _ _ => name

theorem enclosed {α β γ : Type} {opening : Parser β} {p : Parser α} {closing : Parser γ}
    {post : α → Prop} (hp : Yields p post) : Yields (Parser.between opening p closing) post :=
  (Keeps.between Yields.any hp Yields.any).weaken fun _ h => h.2

/-! ### Values -/

theorem namedValue {value : Parser Value} (hvalue : Yields value fun v => AreNames v.keys) :
    Yields (Document.namedValue value) fun argument =>
      IsName argument.name.toList ∧ AreNames argument.value.keys :=
  Yields.any.bind fun _ _ => name.bind fun _ hname => Yields.any.bind fun _ _ =>
    hvalue.bind fun _ hkeys => .pure ⟨hname, hkeys⟩

theorem areNames_keysOfArguments {arguments : List Argument}
    (h : ∀ argument ∈ arguments,
      IsName argument.name.toList ∧ AreNames argument.value.keys) :
    AreNames (keysOfArguments arguments) := by
  intro key hkey
  obtain ⟨argument, hargument, hkey⟩ := mem_keysOfArguments_iff.1 hkey
  rcases hkey with rfl | hkey
  · exact (h argument hargument).1
  · exact (h argument hargument).2 key hkey

theorem areNames_keys_valueOfName (name : String) :
    AreNames (Document.valueOfName name).keys := by
  rw [Document.valueOfName.eq_def]
  split <;> exact areNames_nil

theorem number : Yields Document.number fun value => AreNames value.keys := by
  refine Yields.any.bind fun minus _ => Yields.any.bind fun whole _ =>
    Yields.any.bind fun fraction _ => Yields.any.bind fun exponent _ => .pure ?_
  split <;> exact areNames_nil

theorem valueOver {inner : Parser Value} (hinner : Yields inner fun value => AreNames value.keys) :
    Yields (Document.valueOver inner) fun value => AreNames value.keys := by
  refine Yields.any.bind fun _ _ => .orElse (.map ?_) (.orElse number (.orElse (.map ?_)
    (.orElse (.map ?_) (.orElse (.map ?_) (.map ?_)))))
  · exact Yields.any.weaken fun _ _ => areNames_nil
  · exact Yields.any.weaken fun _ _ => areNames_nil
  · refine (enclosed hinner.many).weaken fun items h key hkey => ?_
    obtain ⟨item, hitem, hkey⟩ := mem_keysOfItems_iff.1 hkey
    exact h item hitem key hkey
  · exact (enclosed (namedValue hinner).many).weaken fun _ h => areNames_keysOfArguments h
  · exact Yields.any.weaken fun name _ => areNames_keys_valueOfName name

theorem value (levels : Nat) : Yields (Document.value levels) fun value => AreNames value.keys := by
  induction levels with
  | zero => exact .fail
  | succ levels ih => exact valueOver ih

theorem arguments (levels : Nat) :
    Yields (Document.arguments levels) fun arguments => AreNames (keysOfArguments arguments) :=
  (enclosed (namedValue (value levels)).many1).weaken fun _ h => areNames_keysOfArguments h

/-- What is left out brings no keys. -/
theorem areNames_getD {α : Type} {keys : List α → List String} (hnil : keys [] = [])
    {found : Option (List α)} (h : ∀ l ∈ found, AreNames (keys l)) :
    AreNames (keys (found.getD [])) := by
  cases found with
  | none => exact hnil ▸ areNames_nil
  | some l => exact h l rfl

/-! ### Selections -/

section Selections

variable {levels : Nat} {set : Parser (List Selection)}
  (hset : Yields set fun selections => AreNames (keysOfSelections selections))

include hset

theorem inlineFragment (on : Option String) :
    Yields (Document.inlineFragment levels set on) fun selection => AreNames selection.keys :=
  Yields.any.bind fun _ _ => hset.bind fun _ hselections => .pure hselections

theorem fragmentSelection :
    Yields (Document.fragmentSelection levels set) fun selection => AreNames selection.keys := by
  refine Yields.any.bind fun _ _ => Yields.any.bind fun _ _ => Yields.any.bind fun found _ => ?_
  cases found with
  | none => exact inlineFragment hset none
  | some name =>
    dsimp only
    split
    · exact Yields.any.bind fun on _ => inlineFragment hset (some on)
    · exact Yields.any.bind fun _ _ => .pure areNames_nil

theorem field : Yields (Document.field levels set) fun selection => AreNames selection.keys := by
  refine Yields.any.bind fun _ _ => name.bind fun first hfirst =>
    Keeps.bind (Keeps.opt (Yields.any.bind fun _ _ => tokenName)) fun second hsecond =>
    (arguments levels).opt.bind fun _ harguments => Yields.any.bind fun _ _ =>
    hset.opt.bind fun _ hselections => .pure (List.forall_mem_cons.2 ⟨?_, ?_⟩)
  · -- with a second name the first one is the label, and without there is only the first one
    cases second with
    | none => exact hfirst
    | some second => exact hfirst
  · exact areNames_append (areNames_getD rfl harguments) (areNames_getD rfl hselections)

end Selections

theorem selectionSet (valueLevels levels : Nat) :
    Yields (Document.selectionSet valueLevels levels)
      fun selections => AreNames (keysOfSelections selections) := by
  induction levels with
  | zero => exact .fail
  | succ levels ih =>
    refine (enclosed ((fragmentSelection ih).orElse (field ih)).many1).weaken
      fun selections h key hkey => ?_
    obtain ⟨selection, hselection, hkey⟩ := mem_keysOfSelections_iff.1 hkey
    exact h selection hselection key hkey

/-! ### Definitions -/

theorem variableDefinition (levels : Nat) :
    Yields (Document.variableDefinition levels) fun definition => AreNames definition.keys := by
  refine Yields.any.bind fun _ _ => Yields.any.bind fun _ _ => Yields.any.bind fun _ _ =>
    Yields.any.bind fun _ _ => Keeps.bind (Keeps.opt (Yields.any.bind fun _ _ => value levels))
    fun _ hdefault => Yields.any.bind fun _ _ => .pure ?_
  exact areNames_flatMap fun value hvalue => hdefault value (Option.mem_toList.1 hvalue)

theorem operation (levels : Nat) :
    Yields (Document.operation levels) fun operation =>
      AreNames (Definition.operation operation).keys := by
  refine Yields.any.bind fun _ _ => .orElse ?_ ?_
  · exact (selectionSet levels levels).bind fun _ h => .pure (areNames_append areNames_nil h)
  · refine Yields.any.bind fun _ _ => Yields.any.bind fun _ _ =>
      (enclosed (variableDefinition levels).many1).opt.bind fun _ hdeclared =>
      Yields.any.bind fun _ _ => (selectionSet levels levels).bind fun _ hselections =>
      .pure (areNames_append ?_ hselections)
    exact areNames_getD rfl fun definitions h => areNames_flatMap (hdeclared definitions h)

theorem definition (levels : Nat) :
    Yields (Document.definition levels) fun definition => AreNames definition.keys := by
  refine .orElse (.map ?_) (.map (operation levels))
  exact Yields.any.bind fun _ _ => Yields.any.bind fun _ _ => Yields.any.bind fun _ _ =>
    Yields.any.bind fun _ _ => Yields.any.bind fun _ _ =>
    (selectionSet levels levels).bind fun _ h => .pure h

theorem wholeDocument (levels : Nat) :
    Yields (Document.wholeDocument levels) fun document => AreNames document.keys := by
  refine (definition levels).many1.bind fun definitions h => Yields.any.bind fun _ _ => ?_
  intro text rest document _ hread
  cases text with
  | nil =>
    obtain ⟨rfl, rfl⟩ := Prod.mk.inj (Except.ok.inj hread)
    exact ⟨trivial, areNames_flatMap h⟩
  | cons c text => cases hread

end Yields

/-- **The keys of a document that is read are names** of the grammar. -/
theorem Document.isName_of_mem_keys {text : String} {document : Document}
    (h : Document.ofText text = .ok document) {key : String} (hkey : key ∈ document.keys) :
    IsName key.toList := by
  rw [ofText, ofChars] at h
  split at h
  · cases h
  · split at h
    · next read rest hread =>
      obtain rfl := Except.ok.inj h
      exact (Yields.wholeDocument _ trivial hread).2 key hkey
    · cases h

end QueryAccess
