import QueryAccess.Proofs.Document.Occurrences
import QueryAccess.Proofs.Tree.Associativity
import QueryAccess.Proofs.Tree.Ordered

/-!
# What a rule tree holds at a place

The tree of a rule source is made from the inside out: nodes are filled, gathered under
their names and overlaid, operation by operation. What such a tree holds at one place can
be said without all that, from the occurrences of the place in the text
(`QueryAccess.Document.occurrencesAt`). The last occurrence is the one that counts
(`QueryAccess.Telling.slot_ofDocument`), since of two nodes that are merged the later one
wins.

There are three things that this is true of, and they are treated as one: that there is a
node at all, the policy of the node, and its drop rules. Each is a *slot* of a node that an
occurrence *tells* of, given the policy at the top (`QueryAccess.Telling`). The policy is
the interesting one. An occurrence tells the policy at the top with the notes on its way
merged in, one after the other, and each node of the tree has inherited from its parent
what the way to it had come to there.

The proof goes down the text as the tree does. For the children of a node in the order in
which they are contributed (`QueryAccess.ShownAmong`), and for everything below a node that
has gathered them (`QueryAccess.ShownBelow`), what is held is compared with what is told;
fresh nodes start with what is told of the thing itself, and gathering and overlaying take
the last on both sides.
-/

namespace QueryAccess

/-- The policy of a thing below an inherited one, with the note before it. -/
def Policy.below (inherited : Policy) (note : Option RuleNote) : Policy :=
  note.elim inherited fun note => inherited.merge note.policy

/-- A fresh node has the policy below the inherited one, and the drop rules of its note. -/
theorem Tree.start_some (comment : Option String) (inherited : Policy) :
    start comment (some inherited) =
      { Node.empty with
        policy := some (inherited.below (noteBefore? comment))
        dropRules := (noteBefore? comment).bind RuleNote.dropRules } := by
  cases comment with
  | none => rfl
  | some comment =>
    rw [start, noteBefore?, Option.bind_some, Option.bind_some, RuleNote.mergeInto?]
    cases RuleNote.read comment <;> rfl

theorem Tree.start_some_policy (comment : Option String) (inherited : Policy) :
    (start comment (some inherited)).policy = some (inherited.below (noteBefore? comment)) := by
  rw [start_some]

/-- **A slot of nodes that occurrences tell of.** Of two nodes that are merged the later
one's slot wins. A slot depends on the policy and the drop rules of the node alone, and
what it holds in a fresh node is told by the thing itself. Going up the way to an
occurrence, a note is taken into the inherited policy, and a segment changes nothing. -/
structure Telling {α : Type} (slot : Node → Option α) (tell : Policy → Occurrence → Option α) :
    Prop where
  merge : ∀ a b : Node, slot (a.merge b) = (slot b).or (slot a)
  own : ∀ a b : Node, a.policy = b.policy → a.dropRules = b.dropRules → slot a = slot b
  start : ∀ comment inherited,
    slot (Tree.start comment (some inherited)) = tell inherited (.self (noteBefore? comment))
  after : ∀ inherited note occurrence,
    tell inherited (.after note occurrence) = tell (inherited.below note) occurrence
  under : ∀ inherited segment occurrence,
    tell inherited (.under segment occurrence) = tell inherited occurrence

section Told

variable {α : Type}

/-! ### What occurrences tell -/

/-- **What some occurrences tell of a place**: the last of them that tells anything. -/
def told (tell : Policy → Occurrence → Option α) (inherited : Policy)
    (occurrences : List Occurrence) (segments : List Segment) : Option α :=
  ((occurrences.filter (·.segments == segments)).filterMap (tell inherited)).getLast?

variable {slot : Node → Option α} {tell : Policy → Occurrence → Option α} {inherited : Policy}

theorem told_append (first second : List Occurrence) (segments : List Segment) :
    told tell inherited (first ++ second) segments =
      (told tell inherited second segments).or (told tell inherited first segments) := by
  simp only [told, List.filter_append, List.filterMap_append, List.getLast?_append]

theorem told_cons (first : Occurrence) (rest : List Occurrence) (segments : List Segment) :
    told tell inherited (first :: rest) segments =
      (told tell inherited rest segments).or
        (if first.segments = segments then tell inherited first else none) := by
  rw [← List.singleton_append, told_append]
  congr 1
  by_cases h : first.segments = segments
  · cases htell : tell inherited first <;> simp [told, h, htell]
  · simp [told, h]

/-- Nothing below a segment is told of the thing itself. -/
theorem told_map_under_nil (segment : Segment) (occurrences : List Occurrence) :
    told tell inherited (occurrences.map (.under segment)) [] = none := by
  rw [told, List.filter_map]
  simp [Function.comp_def, Occurrence.under]

namespace Telling

variable (h : Telling slot tell)
include h

theorem told_map_after (note : Option RuleNote) (occurrences : List Occurrence)
    (segments : List Segment) :
    told tell inherited (occurrences.map (.after note)) segments =
      told tell (inherited.below note) occurrences segments := by
  rw [told, List.filter_map, List.filterMap_map]
  refine congrArg List.getLast? (List.filterMap_congr fun occurrence _ => ?_)
  exact h.after inherited note occurrence

theorem told_map_under_cons (segment first : Segment) (occurrences : List Occurrence)
    (rest : List Segment) :
    told tell inherited (occurrences.map (.under segment)) (first :: rest) =
      if segment = first then told tell inherited occurrences rest else none := by
  rw [told, List.filter_map, List.filterMap_map]
  by_cases hsegment : segment = first
  · rw [if_pos hsegment, told]
    have hfilter : occurrences.filter
        ((fun occurrence => occurrence.segments == first :: rest) ∘ Occurrence.under segment) =
          occurrences.filter (·.segments == rest) := by
      refine List.filter_congr fun occurrence _ => ?_
      simp [Occurrence.under, hsegment]
    rw [hfilter]
    refine congrArg List.getLast? (List.filterMap_congr fun occurrence _ => ?_)
    exact h.under inherited segment occurrence
  · simp [Function.comp_def, Occurrence.under, hsegment]

/-- What is told of a thing itself, with what is below it. -/
theorem told_headed_nil {comment : Option String} {below : List Occurrence}
    (hbelow : told tell (inherited.below (noteBefore? comment)) below [] = none) :
    told tell inherited (Occurrence.headed comment below) [] =
      tell inherited (.self (noteBefore? comment)) := by
  rw [Occurrence.headed, told_cons, h.told_map_after, hbelow, Option.none_or]
  rfl

theorem told_headed_cons (comment : Option String) (below : List Occurrence) (first : Segment)
    (rest : List Segment) :
    told tell inherited (Occurrence.headed comment below) (first :: rest) =
      told tell (inherited.below (noteBefore? comment)) below (first :: rest) := by
  have hself : (Occurrence.self (noteBefore? comment)).segments ≠ first :: rest :=
    (List.cons_ne_nil first rest).symm
  rw [Occurrence.headed, told_cons, h.told_map_after, if_neg hself, Option.or_none]

end Telling

/-! ### What children hold -/

/-- Named children with their segments. -/
def Node.named (facet : Facet) (children : List (String × Node)) : List (Segment × Node) :=
  children.map fun pair => (.named facet pair.1, pair.2)

/-- Items with their segments, from a position on. -/
def Node.indexed (i : Nat) (items : List Node) : List (Segment × Node) :=
  (items.zipIdx i).map fun pair => (.index pair.2, pair.1)

/-- **What some children hold at a place**: the last of them that holds anything there. -/
def held (slot : Node → Option α) (children : List (Segment × Node)) : List Segment → Option α
  | [] => none
  | first :: rest =>
    ((children.filter (·.1 == first)).filterMap fun pair => (pair.2.get? rest).bind slot).getLast?

theorem held_append (first second : List (Segment × Node)) (segments : List Segment) :
    held slot (first ++ second) segments =
      (held slot second segments).or (held slot first segments) := by
  cases segments with
  | nil => rfl
  | cons segment rest =>
    simp only [held, List.filter_append, List.filterMap_append, List.getLast?_append]

theorem held_singleton (segment first : Segment) (node : Node) (rest : List Segment) :
    held slot [(segment, node)] (first :: rest) =
      if segment = first then (node.get? rest).bind slot else none := by
  by_cases h : segment = first
  · cases hslot : (node.get? rest).bind slot <;> simp [held, h, hslot]
  · simp [held, h]

/-- Children at other segments hold nothing. -/
theorem held_eq_none {children : List (Segment × Node)} {first : Segment}
    (h : ∀ pair ∈ children, pair.1 ≠ first) (rest : List Segment) :
    held slot children (first :: rest) = none := by
  have hfilter : children.filter (·.1 == first) = [] := by
    rw [List.filter_eq_nil_iff]
    exact fun pair hpair => by simpa using h pair hpair
  rw [held, hfilter]
  rfl

/-- What is gathered under a name holds what the children of that name do. -/
theorem held_named (hmerge : ∀ a b : Node, slot (a.merge b) = (slot b).or (slot a))
    {children : List (String × Node)} (hordered : ∀ pair ∈ children, pair.2.Ordered)
    (facet : Facet) (key : String) (rest : List Segment) :
    ((Node.gather children).lookup key).bind (fun child => (child.get? rest).bind slot) =
      held slot (Node.named facet children) (.named facet key :: rest) := by
  have hnodes : ∀ node ∈ (children.filter fun pair => pair.1 == key).map Prod.snd,
      node.Ordered := by
    intro node hnode
    obtain ⟨pair, hpair, rfl⟩ := List.mem_map.1 hnode
    exact hordered pair (List.mem_filter.1 hpair).1
  have hfilter : (Node.named facet children).filter (·.1 == .named facet key) =
      Node.named facet (children.filter fun pair => pair.1 == key) := by
    rw [Node.named, Node.named, List.filter_map]
    refine congrArg (List.map _) (List.filter_congr fun pair _ => ?_)
    simp
  rw [Node.lookup_gather, ← Option.bind_assoc, Node.overlay_bind_get? hnodes,
    Node.overlay_bind_slot hmerge, held, hfilter, Node.named, List.filterMap_map,
    List.filterMap_map, List.filterMap_filterMap]
  rfl

theorem held_indexed (items : List Node) (start i : Nat) (rest : List Segment) :
    items[i]?.bind (fun item => (item.get? rest).bind slot) =
      held slot (Node.indexed start items) (.index (start + i) :: rest) := by
  induction items generalizing start i with
  | nil => rfl
  | cons item more ih =>
    have hcons : Node.indexed start (item :: more) =
        [(.index start, item)] ++ Node.indexed (start + 1) more := rfl
    rw [hcons, held_append, held_singleton]
    cases i with
    | zero =>
      -- all positions in the rest are further on
      have hlater : held slot (Node.indexed (start + 1) more) (.index (start + 0) :: rest) =
          none := by
        refine held_eq_none (fun pair hpair => ?_) rest
        obtain ⟨⟨later, j⟩, hmem, rfl⟩ := List.mem_map.1 hpair
        have hle := List.le_snd_of_mem_zipIdx hmem
        simp only [ne_eq, Segment.index.injEq]
        omega
      rw [hlater, if_pos (by simp)]
      rfl
    | succ i =>
      have hnext : start + (i + 1) = start + 1 + i := by omega
      rw [hnext, ← ih, if_neg (by simp; omega), Option.or_none]
      rfl

/-- **What a node holds below it**, if its children have been gathered from lists: what
these hold. -/
theorem get?_cons_bind_slot (hmerge : ∀ a b : Node, slot (a.merge b) = (slot b).or (slot a))
    {node : Node} {inputs outputs : List (String × Node)}
    (hinputs : node.inputs = Node.gather inputs) (houtputs : node.outputs = Node.gather outputs)
    (hin : ∀ pair ∈ inputs, pair.2.Ordered) (hout : ∀ pair ∈ outputs, pair.2.Ordered)
    (first : Segment) (rest : List Segment) :
    (node.get? (first :: rest)).bind slot =
      held slot (Node.named .input inputs ++ Node.named .output outputs ++
        Node.indexed 0 node.items) (first :: rest) := by
  have hnamed : ∀ (facet : Facet) (children : List (String × Node)),
      (∀ key, first ≠ .named facet key) →
      held slot (Node.named facet children) (first :: rest) = none := by
    intro facet children hne
    refine held_eq_none (fun pair hpair => ?_) rest
    obtain ⟨child, -, rfl⟩ := List.mem_map.1 hpair
    exact (hne child.1).symm
  have hindexed : (∀ i, first ≠ .index i) →
      held slot (Node.indexed 0 node.items) (first :: rest) = none := by
    intro hne
    refine held_eq_none (fun pair hpair => ?_) rest
    obtain ⟨item, -, rfl⟩ := List.mem_map.1 hpair
    exact (hne item.2).symm
  rw [Node.get?, Option.bind_assoc, held_append, held_append]
  rcases first with ⟨_ | _, key⟩ | i
  · rw [hindexed (by simp), hnamed .output outputs (by simp), Option.none_or, Option.none_or,
      ← held_named hmerge hin, ← hinputs]
    rfl
  · rw [hindexed (by simp), hnamed .input inputs (by simp), Option.none_or, Option.or_none,
      ← held_named hmerge hout, ← houtputs]
    rfl
  · rw [hnamed .input inputs (by simp), hnamed .output outputs (by simp), Option.or_none,
      Option.or_none]
    have hitem : node.items[i]?.bind (fun item => (item.get? rest).bind slot) =
        held slot (Node.indexed 0 node.items) (.index (0 + i) :: rest) :=
      held_indexed node.items 0 i rest
    rw [Nat.zero_add] at hitem
    exact hitem

end Told

/-! ### Nodes that hold what is told -/

section Shown

variable {α : Type} (slot : Node → Option α) (tell : Policy → Occurrence → Option α)

/-- Children hold what occurrences tell. -/
def ShownAmong (inherited : Policy) (children : List (Segment × Node))
    (occurrences : List Occurrence) : Prop :=
  ∀ segments, held slot children segments = told tell inherited occurrences segments

/-- Below a node is held what occurrences tell. -/
structure ShownBelow (inherited : Policy) (node : Node) (occurrences : List Occurrence) :
    Prop where
  nil : told tell inherited occurrences [] = none
  cons : ∀ first rest,
    (node.get? (first :: rest)).bind slot = told tell inherited occurrences (first :: rest)

variable {slot tell} {inherited : Policy}

theorem ShownAmong.nil : ShownAmong slot tell inherited [] [] := by
  rintro (_ | ⟨first, rest⟩) <;> rfl

theorem ShownAmong.append {children more : List (Segment × Node)}
    {occurrences others : List Occurrence} (h : ShownAmong slot tell inherited children occurrences)
    (hmore : ShownAmong slot tell inherited more others) :
    ShownAmong slot tell inherited (children ++ more) (occurrences ++ others) := by
  intro segments
  rw [held_append, told_append, h segments, hmore segments]

namespace Telling

variable (h : Telling slot tell)
include h

/-- A child with what is below it. -/
theorem shownAmong_singleton (segment : Segment) {comment : Option String} {node : Node}
    {below : List Occurrence} (hself : slot node = tell inherited (.self (noteBefore? comment)))
    (hbelow : ShownBelow slot tell (inherited.below (noteBefore? comment)) node below) :
    ShownAmong slot tell inherited [(segment, node)]
      ((Occurrence.headed comment below).map (.under segment)) := by
  rintro (_ | ⟨first, rest⟩)
  · exact (told_map_under_nil segment _).symm
  · rw [held_singleton, h.told_map_under_cons]
    refine if_congr Iff.rfl ?_ rfl
    cases rest with
    | nil =>
      rw [h.told_headed_nil hbelow.nil]
      exact hself
    | cons next rest =>
      rw [h.told_headed_cons]
      exact hbelow.cons next rest

/-- Below a node whose children have been gathered from lists is held what these hold. -/
theorem shownBelow {node : Node} {inputs outputs : List (String × Node)}
    (hinputs : node.inputs = Node.gather inputs) (houtputs : node.outputs = Node.gather outputs)
    (hin : ∀ pair ∈ inputs, pair.2.Ordered) (hout : ∀ pair ∈ outputs, pair.2.Ordered)
    {occurrences : List Occurrence}
    (hshown : ShownAmong slot tell inherited
      (Node.named .input inputs ++ Node.named .output outputs ++ Node.indexed 0 node.items)
      occurrences) : ShownBelow slot tell inherited node occurrences := by
  refine ⟨(hshown []).symm, fun first rest => ?_⟩
  rw [get?_cons_bind_slot h.merge hinputs houtputs hin hout]
  exact hshown (first :: rest)

/-- So it is below a node without items. -/
theorem shownBelow_named {node : Node} {inputs outputs : List (String × Node)}
    (hinputs : node.inputs = Node.gather inputs) (houtputs : node.outputs = Node.gather outputs)
    (hitems : node.items = []) (hin : ∀ pair ∈ inputs, pair.2.Ordered)
    (hout : ∀ pair ∈ outputs, pair.2.Ordered) {occurrences : List Occurrence}
    (hshown : ShownAmong slot tell inherited
      (Node.named .input inputs ++ Node.named .output outputs) occurrences) :
    ShownBelow slot tell inherited node occurrences := by
  refine h.shownBelow hinputs houtputs hin hout ?_
  have hindexed : Node.indexed 0 [] = [] := rfl
  rwa [hitems, hindexed, List.append_nil]

end Telling

/-- A leaf holds nothing below it. -/
theorem shownBelow_of_isLeaf {node : Node} (hleaf : node.isLeaf = true) :
    ShownBelow slot tell inherited node [] := by
  refine ⟨rfl, fun first rest => ?_⟩
  have hchild := (Node.isLeaf_iff_child? (.of_isLeaf hleaf)).1 hleaf first
  rw [Node.get?, hchild]
  rfl

end Shown

namespace Telling

variable {α : Type} {slot : Node → Option α} {tell : Policy → Occurrence → Option α}
  {inherited : Policy}

/-! ### Values -/

section Fill

variable {ofVariable : String → Node → Node} {belowVariable : String → List Occurrence}

/-- Variables leave what a leaf holds itself, and fill in what occurrences tell. -/
structure ShownVariables (slot : Node → Option α) (tell : Policy → Occurrence → Option α)
    (ofVariable : String → Node → Node) (belowVariable : String → List Occurrence) : Prop where
  ordered : ∀ name node, Node.isLeaf node = true → (ofVariable name node).Ordered
  own : ∀ name node, slot (ofVariable name node) = slot node
  below : ∀ name node inherited, Node.isLeaf node = true → node.policy = some inherited →
    ShownBelow slot tell inherited (ofVariable name node) (belowVariable name)

/-- A value leaves what a node holds itself. -/
theorem slot_fill (h : Telling slot tell)
    (hown : ∀ name node, slot (ofVariable name node) = slot node) (node : Node) :
    ∀ value : Value, slot (Tree.fill ofVariable node value) = slot node
  | .variable name => hown name node
  | .int _ | .float _ | .string _ | .boolean _ | .null | .enum _ | .list _ | .object _ =>
    h.own _ _ rfl rfl

mutual

/-- **What a value fills a leaf with** is what its occurrences tell. -/
theorem fill_shown (h : Telling slot tell)
    (hvar : ShownVariables slot tell ofVariable belowVariable) {node : Node} {inherited : Policy}
    (hleaf : node.isLeaf = true) (hpolicy : node.policy = some inherited) :
    ∀ value : Value, ShownBelow slot tell inherited (Tree.fill ofVariable node value)
      (Occurrence.ofValue belowVariable value)
  | .variable name => hvar.below name node inherited hleaf hpolicy
  | .int _ | .float _ | .string _ | .boolean _ | .null | .enum _ => shownBelow_of_isLeaf hleaf
  | .list items => by
    -- the leaf has no children but the ones that the value brings along
    obtain ⟨hinputs, houtputs, -⟩ := Node.isLeaf_iff_parts.1 hleaf
    have hin : (Tree.fill ofVariable node (.list items)).inputs = Node.gather [] := hinputs
    have hout : (Tree.fill ofVariable node (.list items)).outputs = Node.gather [] := houtputs
    have hshown := fillItems_shown h hvar inherited 0 items
    rw [← hpolicy] at hshown
    exact h.shownBelow hin hout (by simp) (by simp) hshown
  | .object fields => by
    obtain ⟨-, houtputs, hitems⟩ := Node.isLeaf_iff_parts.1 hleaf
    have hout : (Tree.fill ofVariable node (.object fields)).outputs = Node.gather [] := houtputs
    have hshown := fillInputs_shown h hvar inherited fields
    rw [← hpolicy, ← List.append_nil (Node.named _ _)] at hshown
    exact h.shownBelow_named rfl hout hitems
      (Tree.fillInputs_ordered hvar.ordered node.policy fields) (by simp) hshown

theorem fillItems_shown (h : Telling slot tell)
    (hvar : ShownVariables slot tell ofVariable belowVariable) (inherited : Policy) (i : Nat) :
    ∀ items : List Value, ShownAmong slot tell inherited
      (Node.indexed i (Tree.fillItems ofVariable (some inherited) items))
      (Occurrence.ofItems belowVariable i items)
  | [] => .nil
  | value :: rest => by
    have hself : slot (Tree.fill ofVariable (.ofPolicy (some inherited)) value) =
        tell inherited (.self (noteBefore? none)) :=
      (h.slot_fill hvar.own _ value).trans (h.start none inherited)
    exact (h.shownAmong_singleton (.index i) hself
      (fill_shown h hvar rfl rfl value)).append (fillItems_shown h hvar inherited (i + 1) rest)

theorem fillInputs_shown (h : Telling slot tell)
    (hvar : ShownVariables slot tell ofVariable belowVariable) (inherited : Policy) :
    ∀ fields : List Argument, ShownAmong slot tell inherited
      (Node.named .input (Tree.fillInputs ofVariable (some inherited) fields))
      (Occurrence.ofArguments belowVariable fields)
  | [] => .nil
  | .mk comment name value :: rest => by
    have hself : slot (Tree.fill ofVariable (Tree.start comment (some inherited)) value) =
        tell inherited (.self (noteBefore? comment)) :=
      (h.slot_fill hvar.own _ value).trans (h.start comment inherited)
    exact (h.shownAmong_singleton (.named .input name) hself
      (fill_shown h hvar (Tree.isLeaf_start comment _)
        (Tree.start_some_policy comment inherited) value)).append
      (fillInputs_shown h hvar inherited rest)

end

/-! ### Variables -/

/-- If nothing is bound to variables, they fill in nothing. -/
theorem shownVariables_bound :
    ShownVariables slot tell (Tree.fillBound []) fun _ => [] where
  ordered := Tree.fillBound_ordered []
  own _ _ := rfl
  below _ _ _ hleaf _ := shownBelow_of_isLeaf hleaf

/-- If nothing is bound to variables, they fill in their defaults. -/
theorem shownVariables_default (h : Telling slot tell) (declared : List VariableDefinition) :
    ShownVariables slot tell (Tree.fillVariable [] declared) (Occurrence.ofDefault declared) where
  ordered := Tree.fillVariable_ordered [] declared
  own name node := by
    rw [Tree.fillVariable, List.lookup_nil]
    cases Tree.default? declared name with
    | none => rfl
    | some value => exact h.slot_fill (fun _ _ => rfl) node value
  below name node inherited hleaf hpolicy := by
    rw [Tree.fillVariable, List.lookup_nil, Occurrence.ofDefault]
    cases Tree.default? declared name with
    | none => exact shownBelow_of_isLeaf hleaf
    | some value => exact h.fill_shown shownVariables_bound hleaf hpolicy value

end Fill

/-! ### Selections -/

/-- What selections contribute is what occurrences tell. -/
def ContributesShown (slot : Node → Option α) (tell : Policy → Occurrence → Option α)
    (contribute : Tree.Contribute) (walk : Occurrence.Walk) : Prop :=
  ∀ active inherited selections,
    ShownAmong slot tell inherited
      (Node.named .output (contribute active (some inherited) selections)) (walk active selections)

section Contributions

variable {declared : List VariableDefinition} {fragments : List Fragment}
  {deeper : Option Tree.Contribute} {deeperWalk : Option Occurrence.Walk}

mutual

theorem contribution_shown (h : Telling slot tell)
    (hordered : Tree.ContributesOrdered (deeper.getD Tree.contributeNothing))
    (hdeeper : ContributesShown slot tell (deeper.getD Tree.contributeNothing)
      (deeperWalk.getD Occurrence.nowhere)) (active : List String) (inherited : Policy) :
    ∀ selection : Selection, ShownAmong slot tell inherited
      (Node.named .output
        (Tree.contribution ⟨[], declared, fragments⟩ deeper active (some inherited) selection))
      (Occurrence.ofSelection declared fragments deeperWalk active selection)
  | .field comment label name arguments directives selections => by
    -- what the node holds itself is in it from the start, and its children only join in
    let own := Tree.start comment (some inherited)
    let inputs := Tree.fillInputs (Tree.fillVariable [] declared) own.policy arguments
    let outputs := (deeper.getD Tree.contributeNothing) active own.policy selections
    let node : Node := { own with
      inputs := Node.gather inputs
      outputs := Node.gather outputs
      fieldName := label.map fun _ => name }
    have hpolicy : own.policy = some (inherited.below (noteBefore? comment)) :=
      Tree.start_some_policy comment inherited
    have hitems : node.items = [] :=
      (Node.isLeaf_iff_parts.1 (Tree.isLeaf_start comment (some inherited))).2.2
    have hself : slot node = tell inherited (.self (noteBefore? comment)) :=
      (h.own node own rfl rfl).trans (h.start comment inherited)
    have hbelow : ShownBelow slot tell (inherited.below (noteBefore? comment)) node
        (Occurrence.ofArguments (Occurrence.ofDefault declared) arguments ++
          (deeperWalk.getD Occurrence.nowhere) active selections) := by
      refine h.shownBelow_named rfl rfl hitems
        (Tree.fillInputs_ordered (Tree.fillVariable_ordered [] declared) own.policy arguments)
        (hordered active own.policy selections) ?_
      rw [hpolicy]
      exact (fillInputs_shown h (shownVariables_default h declared) _ arguments).append
        (hdeeper active _ selections)
    rw [Tree.contribution, Occurrence.ofSelection]
    exact h.shownAmong_singleton (.named .output (label.getD name)) hself hbelow
  | .inline _ _ selections => by
    rw [Tree.contribution, Occurrence.ofSelection]
    exact contributionsAt_shown h hordered hdeeper active inherited selections
  | .spread name _ => by
    have hfragment : Tree.Surroundings.fragment? ⟨[], declared, fragments⟩ name =
        fragmentSelections? fragments name := rfl
    rw [Tree.contribution, Occurrence.ofSelection, hfragment]
    cases fragmentSelections? fragments name with
    | none => exact .nil
    | some selections =>
      by_cases hactive : name ∈ active
      · simp only [if_pos hactive]
        exact .nil
      · simp only [if_neg hactive]
        exact hdeeper (name :: active) inherited selections

theorem contributionsAt_shown (h : Telling slot tell)
    (hordered : Tree.ContributesOrdered (deeper.getD Tree.contributeNothing))
    (hdeeper : ContributesShown slot tell (deeper.getD Tree.contributeNothing)
      (deeperWalk.getD Occurrence.nowhere)) (active : List String) (inherited : Policy) :
    ∀ selections : List Selection, ShownAmong slot tell inherited
      (Node.named .output
        (Tree.contributionsAt ⟨[], declared, fragments⟩ deeper active (some inherited) selections))
      (Occurrence.ofSelectionsAt declared fragments deeperWalk active selections)
  | [] => .nil
  | selection :: rest => by
    rw [Tree.contributionsAt, Occurrence.ofSelectionsAt, Node.named, List.map_append]
    exact (contribution_shown h hordered hdeeper active inherited selection).append
      (contributionsAt_shown h hordered hdeeper active inherited rest)

end

/-- **What selections contribute**, with however many levels, is what occurrences tell. -/
theorem contributions_shown (h : Telling slot tell) (declared : List VariableDefinition)
    (fragments : List Fragment) (levels : Nat) :
    ContributesShown slot tell (Tree.contributions ⟨[], declared, fragments⟩ levels)
      (Occurrence.ofSelections declared fragments levels) := by
  induction levels with
  | zero =>
    have hordered : Tree.ContributesOrdered
        ((none : Option Tree.Contribute).getD Tree.contributeNothing) :=
      Tree.contributesOrdered_getD (by simp)
    have hdeeper : ContributesShown slot tell
        ((none : Option Tree.Contribute).getD Tree.contributeNothing)
        ((none : Option Occurrence.Walk).getD Occurrence.nowhere) := fun _ _ _ => .nil
    exact contributionsAt_shown h hordered hdeeper
  | succ levels ih =>
    have hordered : Tree.ContributesOrdered
        ((some (Tree.contributions ⟨[], declared, fragments⟩ levels)).getD
          Tree.contributeNothing) := Tree.contributions_ordered _ levels
    have hdeeper : ContributesShown slot tell
        ((some (Tree.contributions ⟨[], declared, fragments⟩ levels)).getD
          Tree.contributeNothing)
        ((some (Occurrence.ofSelections declared fragments levels)).getD Occurrence.nowhere) := ih
    exact contributionsAt_shown h hordered hdeeper

end Contributions

/-! ### Documents -/

/-- What an operation holds at a place is what its occurrences tell. -/
theorem slot_ofOperation (h : Telling slot tell) (fragments : List Fragment) (root : Policy)
    (operation : Operation) (segments : List Segment) :
    ((Tree.ofOperation [] fragments (some root) operation).get? segments).bind slot =
      told tell root (Occurrence.ofOperation fragments operation) segments := by
  let own := Tree.start operation.comment (some root)
  let around : Tree.Surroundings := ⟨[], operation.declared, fragments⟩
  let outputs := Tree.contributions around maxDepth [] own.policy operation.selections
  let node : Node := { own with outputs := Node.gather outputs }
  have hpolicy : own.policy = some (root.below (noteBefore? operation.comment)) :=
    Tree.start_some_policy operation.comment root
  have houtputs : outputs = Tree.contributions around maxDepth []
      (some (root.below (noteBefore? operation.comment))) operation.selections := by
    rw [← hpolicy]
  have hleaf := Node.isLeaf_iff_parts.1 (Tree.isLeaf_start operation.comment (some root))
  have hinputs : node.inputs = Node.gather [] := hleaf.1
  have hitems : node.items = [] := hleaf.2.2
  have hself : slot node = tell root (.self (noteBefore? operation.comment)) :=
    (h.own node own rfl rfl).trans (h.start operation.comment root)
  have hbelow : ShownBelow slot tell (root.below (noteBefore? operation.comment)) node
      (Occurrence.ofSelections operation.declared fragments maxDepth []
        operation.selections) := by
    refine h.shownBelow_named hinputs rfl hitems (by simp)
      (Tree.contributions_ordered around maxDepth [] own.policy operation.selections) ?_
    rw [houtputs]
    exact h.contributions_shown operation.declared fragments maxDepth [] _ operation.selections
  rw [Occurrence.ofOperation]
  cases segments with
  | nil =>
    rw [h.told_headed_nil hbelow.nil]
    exact hself
  | cons first rest =>
    rw [h.told_headed_cons]
    exact hbelow.cons first rest

/-- **What the tree of a document holds at a place** is told by the last occurrence of the
place that tells anything. -/
theorem slot_ofDocument (h : Telling slot tell) (document : Document) (root : Policy)
    (path : TreePath) :
    ((Tree.ofDocument document [] (some root)).get? path).bind slot =
      ((document.occurrencesAt path).filterMap (tell root)).getLast? := by
  -- operations of a kind overlay each other, so it is the last one with anything to tell
  have hoperation : (fun operation : Operation =>
      ((Tree.ofOperation [] document.fragments (some root) operation).get? path.segments).bind
        slot) = fun operation =>
      told tell root (Occurrence.ofOperation document.fragments operation) path.segments :=
    funext fun operation =>
      h.slot_ofOperation document.fragments root operation path.segments
  rw [Tree.get?_ofDocument, Node.overlay_bind_slot h.merge, List.filterMap_filterMap, hoperation,
    Document.occurrencesAt, List.filterMap_flatMap, List.getLast?_flatMap,
    List.getLast?_filterMap]
  rfl

end Telling

/-! ### The three slots -/

/-- That there is a node is told by any occurrence. -/
theorem telling_existence : Telling (fun _ => some ()) fun _ _ => some () where
  merge _ _ := rfl
  own _ _ _ _ := rfl
  start _ _ := rfl
  after _ _ _ := rfl
  under _ _ _ := rfl

/-- **The policy at an occurrence**: the notes on the way to it, merged into the policy at
the top one after the other. -/
def Occurrence.policy (root : Policy) (occurrence : Occurrence) : Policy :=
  (occurrence.notes.map RuleNote.policy).foldl Policy.merge root

theorem telling_policy :
    Telling Node.policy fun root occurrence => some (occurrence.policy root) where
  merge := Node.merge_policy
  own _ _ hpolicy _ := hpolicy
  start comment inherited := by
    rw [Tree.start_some_policy, Occurrence.policy]
    cases noteBefore? comment <;> rfl
  after inherited note occurrence := by
    cases note <;> rfl
  under _ _ _ := rfl

theorem telling_dropRules :
    Telling Node.dropRules fun _ occurrence => occurrence.own.bind RuleNote.dropRules where
  merge := Node.merge_dropRules
  own _ _ _ hdropRules := hdropRules
  start comment inherited := by
    rw [Tree.start_some]
    rfl
  after _ _ _ := rfl
  under _ _ _ := rfl

namespace Tree

variable (document : Document) (root : Policy) (path : TreePath)

/-- There is a node where the document says anything. -/
theorem get?_isSome_ofDocument :
    ((ofDocument document [] (some root)).get? path).isSome =
      (document.lastOccurrence? path).isSome := by
  have hslot := telling_existence.slot_ofDocument document root path
  rw [List.filterMap_eq_map', List.getLast?_map] at hslot
  have hsome := congrArg Option.isSome hslot
  simpa [Option.isSome_bind, Document.lastOccurrence?] using hsome

/-- **The policy at a place** is the one at its last occurrence. -/
theorem bind_policy_ofDocument :
    ((ofDocument document [] (some root)).get? path).bind Node.policy =
      (document.lastOccurrence? path).map fun occurrence => occurrence.policy root := by
  rw [telling_policy.slot_ofDocument, List.filterMap_eq_map', List.getLast?_map]
  rfl

/-- Every node has a policy. -/
theorem map_policy_ofDocument :
    ((ofDocument document [] (some root)).get? path).map Node.policy =
      (document.lastOccurrence? path).map fun occurrence => some (occurrence.policy root) := by
  have hslot := bind_policy_ofDocument document root path
  have hsome := get?_isSome_ofDocument document root path
  cases hnode : (ofDocument document [] (some root)).get? path <;>
    cases hlast : document.lastOccurrence? path <;> simp_all

/-- **The drop rules at a place** are those of its last occurrence that has any. The policy
at the top has no say in them. -/
theorem bind_dropRules_ofDocument :
    ((ofDocument document [] (some root)).get? path).bind Node.dropRules =
      ((document.occurrencesAt path).filterMap fun occurrence =>
        occurrence.own.bind RuleNote.dropRules).getLast? :=
  telling_dropRules.slot_ofDocument document root path

variable {document path}

/-- Where the document says nothing there is no node. -/
theorem get?_ofDocument_eq_none (h : document.lastOccurrence? path = none) :
    (ofDocument document [] (some root)).get? path = none := by
  have hmap := map_policy_ofDocument document root path
  rwa [h, Option.map_none, Option.map_eq_none_iff] at hmap

/-- **The node at a place**, by its last occurrence. -/
theorem exists_get?_ofDocument {occurrence : Occurrence}
    (h : document.lastOccurrence? path = some occurrence) :
    ∃ node, (ofDocument document [] (some root)).get? path = some node ∧
      node.policy = some (occurrence.policy root) ∧
      node.dropRules = ((document.occurrencesAt path).filterMap fun other =>
        other.own.bind RuleNote.dropRules).getLast? := by
  have hmap := map_policy_ofDocument document root path
  rw [h, Option.map_some] at hmap
  obtain ⟨node, hget, hpolicy⟩ := Option.map_eq_some_iff.1 hmap
  have hdropRules := bind_dropRules_ofDocument document root path
  rw [hget, Option.bind_some] at hdropRules
  exact ⟨node, hget, hpolicy, hdropRules⟩

/-- A node stands where the document says something, and is the one of the last occurrence. -/
theorem exists_occurrence_of_get? {node : Node}
    (h : (ofDocument document [] (some root)).get? path = some node) :
    ∃ occurrence, document.lastOccurrence? path = some occurrence ∧
      node.policy = some (occurrence.policy root) ∧
      node.dropRules = ((document.occurrencesAt path).filterMap fun other =>
        other.own.bind RuleNote.dropRules).getLast? := by
  cases hlast : document.lastOccurrence? path with
  | none =>
    rw [get?_ofDocument_eq_none root hlast] at h
    cases h
  | some occurrence =>
    obtain ⟨found, hfound, hslots⟩ := exists_get?_ofDocument root hlast
    obtain rfl : node = found := Option.some.inj (h.symm.trans hfound)
    exact ⟨occurrence, rfl, hslots⟩

end Tree

end QueryAccess
