import QueryAccess.Proofs.Tree.Inlining

/-!
# The walk through a document

`QueryAccess.Tree.contributions` is handed the fragments that are being expanded and the levels
that are left, so it has nothing to put back. A *walk* has one state for all the selections it
goes through, and changes it on the way: a stack of the fragments it is inside of, and the number
of levels it has gone down (`QueryAccess.Tree.Descent`). It goes a level down before the
selections of a field or of a fragment, and up again behind them; before those of a fragment it
puts the fragment's name on the stack, and takes the last name off behind them. What it finds it
adds at once to the node that it is filling.

**Why it ends.** Fragments lead back into fragments, so the selections alone are no measure. Each
fragment and each field that is gone into leaves a level less, and otherwise the selections get
smaller. But a walk goes on to the next selection from where it has come back to, and that must
not be further up than it stood before. So the outcome of a walk
(`QueryAccess.Tree.Walk.Outcome`) comes with a proof that the depth is what it was.

**Balance.** Going up is not possible where a walk is not down at all, and there is no outcome
then. A call is *balanced* (`QueryAccess.Tree.Walk.Balanced`) if it has an outcome, and the walk
stands afterwards where it stood before, fragments included. Every call is
(`QueryAccess.Tree.walksAlong`): what goes down and up again around a balanced call is balanced
(`QueryAccess.Tree.Walk.Balanced.ascend?`, `QueryAccess.Tree.Walk.Balanced.leave`), and so are
balanced calls one after the other (`QueryAccess.Tree.Walk.Balanced.andThen`). It is balance that
makes a selection find the levels and the stack that the one before it found, so what it adds is
known from where its selection set began (`QueryAccess.Tree.Descent.contribution`).
-/

namespace QueryAccess

/-! ### Filling a node -/

namespace Node

/-- A node with further outputs, each overlaying what is there under its name. -/
def gaining (node : Node) (children : List (String × Node)) : Node :=
  { node with outputs := mergeChildren node.outputs children }

@[simp] theorem gaining_nil (node : Node) : node.gaining [] = node := by
  cases node
  rw [gaining, mergeChildren]

theorem gaining_append (node : Node) (first rest : List (String × Node)) :
    node.gaining (first ++ rest) = (node.gaining first).gaining rest := by
  rw [gaining, mergeChildren_append]
  rfl

theorem gaining_singleton (node : Node) (name : String) (child : Node) :
    node.gaining [(name, child)] =
      { node with outputs := putChild node.outputs name child } := by
  rw [gaining, mergeChildren_cons, mergeChildren]

/-- What a node without outputs gains is gathered. -/
theorem gaining_of_outputs {node : Node} (h : node.outputs = [])
    (children : List (String × Node)) :
    node.gaining children = { node with outputs := gather children } := by
  rw [gaining, h, mergeChildren_nil_left]

end Node

namespace Tree

/-! ### Where a walk stands -/

/-- **Where a walk stands**: the fragments that it is inside of, the innermost first, and how many
levels it has gone down. -/
structure Descent where
  active : List String
  depth : Nat

namespace Descent

/-- Where every walk begins. -/
def top : Descent := ⟨[], 0⟩

/-- A level further down. -/
def down (here : Descent) : Descent := { here with depth := here.depth + 1 }

/-- Inside one fragment more. -/
def into (name : String) (here : Descent) : Descent :=
  { here with active := name :: here.active }

/-- The levels that are left. -/
def levels (here : Descent) : Nat := maxDepth - here.depth

/-- A sound descent: it is within the levels there are, and no fragment is expanded inside
itself. -/
structure Sound (here : Descent) : Prop where
  depth_le : here.depth ≤ maxDepth
  nodup : here.active.Nodup

theorem top_sound : top.Sound := ⟨Nat.zero_le _, List.nodup_nil⟩

theorem Sound.down {here : Descent} (h : here.Sound) (hroom : here.depth < maxDepth) :
    here.down.Sound :=
  ⟨hroom, h.nodup⟩

theorem Sound.into {here : Descent} (h : here.Sound) {name : String}
    (hname : name ∉ here.active) : (here.into name).Sound :=
  ⟨h.depth_le, List.nodup_cons.2 ⟨hname, h.nodup⟩⟩

end Descent

/-- A walk under way: where it stands, and where it has been since it began, the latest first. -/
structure Walk where
  here : Descent
  passed : List Descent

namespace Walk

/-- A walk that begins. -/
def begin : Walk := ⟨.top, []⟩

/-- The walk, gone on to somewhere else. -/
def goTo (walk : Walk) (next : Descent) : Walk := ⟨next, next :: walk.passed⟩

/-- Goes a level down. -/
def descend (walk : Walk) : Walk := walk.goTo walk.here.down

/-- Goes into a fragment. -/
def enter (walk : Walk) (name : String) : Walk := walk.goTo (walk.here.into name)

/-- **What a walk comes to**: the node it has filled, and where it has got to, which is as deep as
where it set out. -/
structure Outcome (walk : Walk) where
  node : Node
  after : Walk
  depth_eq : after.here.depth = walk.here.depth

namespace Outcome

variable {walk : Walk}

/-- A walk that goes nowhere. -/
def stay (node : Node) (walk : Walk) : Outcome walk := ⟨node, walk, rfl⟩

/-- The same walk, for another node. -/
def map (f : Node → Node) (outcome : Outcome walk) : Outcome walk :=
  { outcome with node := f outcome.node }

/-- One walk after the other. -/
def andThen (first : Outcome walk) (last : Outcome first.after) : Outcome walk :=
  ⟨last.node, last.after, last.depth_eq.trans first.depth_eq⟩

/-- Goes a level up again. At depth 0 that is not possible. -/
def ascend? (outcome : Outcome walk.descend) : Option (Outcome walk) :=
  match hdepth : outcome.after.here.depth with
  | 0 => none
  | depth + 1 =>
    some ⟨outcome.node, outcome.after.goTo { outcome.after.here with depth := depth },
      Nat.succ.inj (hdepth.symm.trans outcome.depth_eq)⟩

/-- Leaves the innermost fragment. -/
def leave {name : String} (outcome : Outcome (walk.enter name)) : Outcome walk :=
  ⟨outcome.node,
    outcome.after.goTo { outcome.after.here with active := outcome.after.here.active.tail },
    outcome.depth_eq⟩

end Outcome

end Walk

theorem Descent.levels_down_lt {here : Descent} (h : here.depth < maxDepth) :
    here.down.levels < here.levels := by
  change maxDepth - (here.depth + 1) < maxDepth - here.depth
  omega

/-! ### Walking -/

/-- The node of a field, with nothing selected yet. -/
def bareField (around : Surroundings) (policy : Option Policy) (comment label : Option String)
    (name : String) (arguments : List Argument) : Node :=
  let node := start comment policy
  { node with
    inputs := around.inputs node.policy arguments
    fieldName := label.map fun _ => name }

mutual

/-- Walks through one selection, and adds to a node what is found. -/
def walkSelection (around : Surroundings) (policy : Option Policy) (selection : Selection)
    (node : Node) (walk : Walk) : Option (Walk.Outcome walk) :=
  match selection with
  | .field comment label name arguments _ selections =>
    (walkField around policy comment label name arguments selections walk).map <|
      Walk.Outcome.map fun child =>
        { node with outputs := Node.putChild node.outputs (label.getD name) child }
  | .inline _ _ selections => walkSelections around policy selections node walk
  | .spread name _ =>
    match around.fragment? name with
    | none => some (.stay node walk)
    | some selections =>
      if name ∈ walk.here.active then some (.stay node walk)
      else if _hroom : walk.here.depth < maxDepth then
        ((walkSelections around policy selections node (walk.descend.enter name)).map
          Walk.Outcome.leave).bind Walk.Outcome.ascend?
      else some (.stay node walk)
termination_by (walk.here.levels, sizeOf selection)
decreasing_by
  · exact Prod.Lex.right _ (by rw [Selection.field.sizeOf_spec]; omega)
  · exact Prod.Lex.right _ (by rw [Selection.inline.sizeOf_spec]; omega)
  · exact Prod.Lex.left _ _ (Descent.levels_down_lt ‹_›)

/-- Walks through a field, and gives its node. -/
def walkField (around : Surroundings) (policy : Option Policy) (comment label : Option String)
    (name : String) (arguments : List Argument) (selections : List Selection) (walk : Walk) :
    Option (Walk.Outcome walk) :=
  let node := bareField around policy comment label name arguments
  if selections.isEmpty then some (.stay node walk)
  else if _hroom : walk.here.depth < maxDepth then
    (walkSelections around node.policy selections node walk.descend).bind
      Walk.Outcome.ascend?
  else some (.stay node walk)
termination_by (walk.here.levels, sizeOf selections)
decreasing_by exact Prod.Lex.left _ _ (Descent.levels_down_lt ‹_›)

/-- Walks through selections, one after the other, and adds to a node what is found. -/
def walkSelections (around : Surroundings) (policy : Option Policy)
    (selections : List Selection) (node : Node) (walk : Walk) : Option (Walk.Outcome walk) :=
  match selections with
  | [] => some (.stay node walk)
  | selection :: rest =>
    (walkSelection around policy selection node walk).bind fun first =>
      (walkSelections around policy rest first.node first.after).map first.andThen
termination_by (walk.here.levels, sizeOf selections)
decreasing_by
  · exact Prod.Lex.right _ (by rw [List.cons.sizeOf_spec]; omega)
  · -- the walk has come back to its depth, so it has as many levels left
    rw [Descent.levels, first.depth_eq]
    exact Prod.Lex.right _ (by rw [List.cons.sizeOf_spec]; omega)

end

/-- Walks through an operation, and gives its root. -/
def walkOperation (bindings : Dict Json) (fragments : List Fragment) (policy : Option Policy)
    (operation : Operation) : Option (Walk.Outcome .begin) :=
  let node := start operation.comment policy
  walkSelections ⟨bindings, operation.declared, fragments⟩ node.policy operation.selections node
    .begin

/-- Walks through the operations of a document, each from the beginning, and gives its tree. -/
def walkDocument (document : Document) (bindings : Dict Json) (policy : Option Policy) :
    Option Tree :=
  (document.operations.mapM fun operation =>
    (walkOperation bindings document.fragments policy operation).map fun outcome =>
      (operation.kind.keyword, outcome.node)).map ofRoots

/-! ### Balance -/

namespace Walk

variable {walk later : Walk}

/-- **A walk has returned** to where it stood, and has been at sound places only in between if it
stood at one. -/
def Returns (walk later : Walk) : Prop :=
  later.here = walk.here ∧ ∃ between, later.passed = between ++ walk.passed ∧
    (walk.here.Sound → ∀ descent ∈ between, descent.Sound)

namespace Returns

theorem refl (walk : Walk) : walk.Returns walk :=
  ⟨rfl, [], rfl, fun _ _ hdescent => absurd hdescent List.not_mem_nil⟩

theorem trans {last : Walk} (h : walk.Returns later) (hlast : later.Returns last) :
    walk.Returns last := by
  obtain ⟨hhere, between, hpassed, hsound⟩ := h
  obtain ⟨hlastHere, more, hmore, hmoreSound⟩ := hlast
  refine ⟨hlastHere.trans hhere, more ++ between, by rw [hmore, hpassed, List.append_assoc], ?_⟩
  intro hwalk
  rw [hhere] at hmoreSound
  exact List.forall_mem_append.2 ⟨hmoreSound hwalk, hsound hwalk⟩

/-- A walk that has gone on from where it stood, and has returned to there, goes back. -/
theorem back {next : Descent} (hnext : walk.here.Sound → next.Sound)
    (h : (walk.goTo next).Returns later) : walk.Returns (later.goTo walk.here) := by
  obtain ⟨-, between, hpassed, hsound⟩ := h
  refine ⟨rfl, walk.here :: between ++ [next], ?_, fun hwalk descent hdescent => ?_⟩
  · rw [goTo, hpassed, goTo]
    simp
  · rw [List.cons_append, List.mem_cons, List.mem_append, List.mem_singleton] at hdescent
    rcases hdescent with rfl | hbetween | rfl
    · exact hwalk
    · exact hsound (hnext hwalk) descent hbetween
    · exact hnext hwalk

end Returns

/-- **A balanced call**: it has an outcome, with this node, and the walk has returned. -/
def Balanced (walk : Walk) (call : Option (Outcome walk)) (node : Node) : Prop :=
  ∃ outcome, call = some outcome ∧ outcome.node = node ∧ walk.Returns outcome.after

namespace Balanced

variable {call : Option (Outcome walk)} {node : Node}

theorem stay (node : Node) (walk : Walk) : walk.Balanced (some (.stay node walk)) node :=
  ⟨.stay node walk, rfl, rfl, .refl walk⟩

theorem map (h : walk.Balanced call node) (f : Node → Node) :
    walk.Balanced (call.map (Outcome.map f)) (f node) := by
  obtain ⟨outcome, rfl, rfl, hreturns⟩ := h
  exact ⟨outcome.map f, rfl, rfl, hreturns⟩

/-- **Balanced calls one after the other** are balanced: the second one begins where the first
one did. -/
theorem andThen {next : (first : Outcome walk) → Option (Outcome first.after)} {last : Node}
    (h : walk.Balanced call node)
    (hnext : ∀ first : Outcome walk, first.node = node → first.after.here = walk.here →
      first.after.Balanced (next first) last) :
    walk.Balanced (call.bind fun first => (next first).map first.andThen) last := by
  obtain ⟨first, rfl, hnode, hreturns⟩ := h
  obtain ⟨second, hsecond, rfl, hlater⟩ := hnext first hnode hreturns.1
  exact ⟨first.andThen second, by rw [Option.bind_some, hsecond, Option.map_some], rfl,
    hreturns.trans hlater⟩

/-- **Up a level**: around a balanced call there is a way back up. -/
theorem ascend? {inside : Option (Outcome walk.descend)}
    (h : walk.descend.Balanced inside node) (hroom : walk.here.depth < maxDepth) :
    walk.Balanced (inside.bind Outcome.ascend?) node := by
  obtain ⟨⟨node, after, hdepth⟩, rfl, rfl, hreturns⟩ := h
  have hhere : after.here = walk.here.down := hreturns.1
  obtain ⟨here, passed⟩ := after
  obtain rfl : here = walk.here.down := hhere
  exact ⟨⟨node, .goTo ⟨walk.here.down, passed⟩ walk.here, rfl⟩, rfl, rfl,
    hreturns.back fun hwalk => hwalk.down hroom⟩

/-- **Out of a fragment**: around a balanced call the name that comes off the stack is the one
that was put there. -/
theorem leave {name : String} {inside : Option (Outcome (walk.enter name))}
    (h : (walk.enter name).Balanced inside node) (hname : name ∉ walk.here.active) :
    walk.Balanced (inside.map Outcome.leave) node := by
  obtain ⟨⟨node, after, hdepth⟩, rfl, rfl, hreturns⟩ := h
  have hhere : after.here = walk.here.into name := hreturns.1
  obtain ⟨here, passed⟩ := after
  obtain rfl : here = walk.here.into name := hhere
  exact ⟨⟨node, .goTo ⟨walk.here.into name, passed⟩ walk.here, rfl⟩, rfl, rfl,
    hreturns.back fun hwalk => hwalk.into hname⟩

end Balanced

end Walk

/-! ### All calls are balanced -/

section Calls

variable {around : Surroundings} {levels : Nat}

/-- **Walking comes to what is contributed**: with so many levels left every call is balanced,
and adds to the node what the selections contribute. -/
def WalksAlong (around : Surroundings) (levels : Nat) : Prop :=
  ∀ policy selections node (walk : Walk), walk.here.levels = levels →
    walk.Balanced (walkSelections around policy selections node walk)
      (node.gaining (contributions around levels walk.here.active policy selections))

/-- A walk that may not go further down has no level left, and one that may has one level less
there. -/
theorem Descent.levels_cases (here : Descent) :
    (¬here.depth < maxDepth ∧ here.levels = 0) ∨
      (here.depth < maxDepth ∧ here.levels = here.down.levels + 1) := by
  have hdown : here.down.levels = maxDepth - (here.depth + 1) := rfl
  rw [hdown, Descent.levels]
  omega

/-- What a field contributes is its node, with what is selected below it. -/
theorem contribution_field (around : Surroundings) (deeper : Option Contribute)
    (active : List String) (policy : Option Policy) (comment label : Option String)
    (name : String) (arguments : List Argument) (directives : List Directive)
    (selections : List Selection) :
    let node := bareField around policy comment label name arguments
    contribution around deeper active policy
        (.field comment label name arguments directives selections) =
      [(label.getD name,
        node.gaining ((deeper.getD contributeNothing) active node.policy selections))] := by
  intro node
  have houtputs : node.outputs = [] :=
    (Node.isLeaf_iff_parts.1 (isLeaf_start comment policy)).2.1
  rw [contribution, Node.gaining_of_outputs houtputs]
  rfl

/-- A walk through a field gives the node that the field contributes. -/
theorem walkField_balanced (hbelow : ∀ further, levels = further + 1 → WalksAlong around further)
    (policy : Option Policy) (comment label : Option String) (name : String)
    (arguments : List Argument) (selections : List Selection) {walk : Walk}
    (hwalk : walk.here.levels = levels) :
    let node := bareField around policy comment label name arguments
    walk.Balanced (walkField around policy comment label name arguments selections walk)
      (node.gaining ((contributionsBelow around levels).getD contributeNothing
        walk.here.active node.policy selections)) := by
  intro node
  have hstay : walk.Balanced (some (.stay node walk)) (node.gaining []) := by
    rw [Node.gaining_nil]
    exact .stay node walk
  rw [walkField]
  cases selections with
  | nil =>
    rw [contributionsBelow_nil]
    exact hstay
  | cons selection rest =>
    rw [List.isEmpty_cons, if_neg Bool.false_ne_true]
    rcases walk.here.levels_cases with ⟨hroom, hlevels⟩ | ⟨hroom, hlevels⟩
    · obtain rfl : levels = 0 := hwalk.symm.trans hlevels
      rw [dif_neg hroom]
      exact hstay
    · obtain rfl : levels = walk.here.down.levels + 1 := hwalk.symm.trans hlevels
      rw [dif_pos hroom]
      exact (hbelow _ rfl node.policy (selection :: rest) node walk.descend rfl).ascend? hroom

mutual

/-- A walk through one selection adds what the selection contributes. -/
theorem walkSelection_balanced
    (hbelow : ∀ further, levels = further + 1 → WalksAlong around further)
    (policy : Option Policy) : ∀ (selection : Selection) (node : Node) {walk : Walk},
      walk.here.levels = levels →
      walk.Balanced (walkSelection around policy selection node walk)
        (node.gaining (contribution around (contributionsBelow around levels) walk.here.active
          policy selection))
  | .field comment label name arguments directives selections, node, walk, hwalk => by
    rw [walkSelection, contribution_field, Node.gaining_singleton]
    exact (walkField_balanced hbelow policy comment label name arguments selections hwalk).map _
  | .inline _ _ selections, node, walk, hwalk => by
    rw [walkSelection, contribution]
    exact walkSelectionsAt_balanced hbelow policy selections node hwalk
  | .spread name directives, node, walk, hwalk => by
    have hstay : walk.Balanced (some (.stay node walk)) (node.gaining []) := by
      rw [Node.gaining_nil]
      exact .stay node walk
    rw [walkSelection, contribution]
    cases around.fragment? name with
    | none => exact hstay
    | some selections =>
      by_cases hactive : name ∈ walk.here.active
      · simp only [if_pos hactive]
        exact hstay
      · simp only [if_neg hactive]
        rcases walk.here.levels_cases with ⟨hroom, hlevels⟩ | ⟨hroom, hlevels⟩
        · obtain rfl : levels = 0 := hwalk.symm.trans hlevels
          rw [dif_neg hroom]
          exact hstay
        · obtain rfl : levels = walk.here.down.levels + 1 := hwalk.symm.trans hlevels
          rw [dif_pos hroom]
          have hinside :=
            hbelow _ rfl policy selections node (walk.descend.enter name) rfl
          exact (hinside.leave hactive).ascend? hroom

/-- A walk through selections adds what they contribute, one after the other. -/
theorem walkSelectionsAt_balanced
    (hbelow : ∀ further, levels = further + 1 → WalksAlong around further)
    (policy : Option Policy) : ∀ (selections : List Selection) (node : Node) {walk : Walk},
      walk.here.levels = levels →
      walk.Balanced (walkSelections around policy selections node walk)
        (node.gaining (contributionsAt around (contributionsBelow around levels)
          walk.here.active policy selections))
  | [], node, walk, _ => by
    rw [walkSelections, contributionsAt, Node.gaining_nil]
    exact .stay node walk
  | selection :: rest, node, walk, hwalk => by
    rw [walkSelections, contributionsAt, Node.gaining_append]
    refine (walkSelection_balanced hbelow policy selection node hwalk).andThen
      fun first hnode hhere => ?_
    -- the walk has returned, so the rest finds the levels and the stack that this one found
    rw [hnode, ← hhere]
    exact walkSelectionsAt_balanced hbelow policy rest _ (by rw [hhere, hwalk])

end

/-- **All calls are balanced**, with any number of levels left. -/
theorem walksAlong (around : Surroundings) (levels : Nat) : WalksAlong around levels := by
  induction levels with
  | zero =>
    intro policy selections node walk hwalk
    exact walkSelectionsAt_balanced
      (fun further hfurther => absurd hfurther (Nat.zero_ne_add_one further)) policy selections
      node hwalk
  | succ levels ih =>
    intro policy selections node walk hwalk
    have hbelow : ∀ further, levels + 1 = further + 1 → WalksAlong around further :=
      fun further hfurther => Nat.succ.inj hfurther ▸ ih
    exact walkSelectionsAt_balanced hbelow policy selections node hwalk

/-- **What a selection contributes** where a walk stands. -/
def Descent.contribution (here : Descent) (around : Surroundings) (policy : Option Policy)
    (selection : Selection) : List (String × Node) :=
  contributions around here.levels here.active policy [selection]

theorem Descent.contribution_eq (here : Descent) (around : Surroundings) (policy : Option Policy)
    (selection : Selection) :
    here.contribution around policy selection =
      Tree.contribution around (contributionsBelow around here.levels) here.active policy
        selection := by
  rw [Descent.contribution, contributions_cons, contributions_nil, List.append_nil]

/-- Selections contribute one after the other what each contributes by itself. -/
theorem contributions_eq_flatMap (around : Surroundings) (policy : Option Policy) (here : Descent)
    (selections : List Selection) :
    contributions around here.levels here.active policy selections =
      selections.flatMap (here.contribution around policy) := by
  induction selections with
  | nil => rw [contributions_nil, List.flatMap_nil]
  | cons selection rest ih =>
    rw [contributions_cons, List.flatMap_cons, ih, Descent.contribution_eq]

end Calls

/-! ### Documents -/

/-- A walk through an operation gives its root. -/
theorem walkOperation_balanced (bindings : Dict Json) (fragments : List Fragment)
    (policy : Option Policy) (operation : Operation) :
    Walk.begin.Balanced (walkOperation bindings fragments policy operation)
      (ofOperation bindings fragments policy operation) := by
  have houtputs : (start operation.comment policy).outputs = [] :=
    (Node.isLeaf_iff_parts.1 (isLeaf_start operation.comment policy)).2.1
  have hwalk := walksAlong ⟨bindings, operation.declared, fragments⟩ maxDepth
    (start operation.comment policy).policy operation.selections (start operation.comment policy)
    .begin rfl
  rw [Node.gaining_of_outputs houtputs] at hwalk
  exact hwalk

/-- A walk through a document gives its tree. -/
theorem walkDocument_eq (document : Document) (bindings : Dict Json) (policy : Option Policy) :
    walkDocument document bindings policy = some (ofDocument document bindings policy) := by
  have hwalks : (fun operation : Operation =>
      (walkOperation bindings document.fragments policy operation).map fun outcome =>
        (operation.kind.keyword, outcome.node)) =
      fun operation => pure (operation.kind.keyword,
        ofOperation bindings document.fragments policy operation) := by
    funext operation
    obtain ⟨outcome, hcall, hnode, -⟩ :=
      walkOperation_balanced bindings document.fragments policy operation
    rw [hcall, Option.map_some, hnode]
    rfl
  rw [walkDocument, hwalks, List.mapM_pure]
  rfl

/-- **Expansion is balanced.** For every document, whatever its fragments, and wherever a walk
stands, a call for selections and a call for a field have an outcome, and leave the stack of
fragments and the depth as they were; in between, from a sound place on, the depth stays within
`QueryAccess.maxDepth` and no name comes twice to the stack. There is an outcome, so the walk never
goes up at depth 0. What a call for selections adds is what each of them contributes, and what one
contributes depends on nothing but the place where the walk stood at the beginning of them all,
not on those before it.

From the beginning of an operation the walk is at sound places only, and gives the root of the
operation; and so it gives the tree of the document. -/
theorem expansion_balanced (document : Document) (bindings : Dict Json) (root : Option Policy) :
    (∀ (declared : List VariableDefinition) (policy : Option Policy) (walk : Walk),
      let around : Surroundings := ⟨bindings, declared, document.fragments⟩
      (∀ (selections : List Selection) (node : Node),
        walk.Balanced (walkSelections around policy selections node walk)
          (node.gaining (selections.flatMap (walk.here.contribution around policy)))) ∧
      ∀ comment label name arguments directives selections, ∃ child,
        walk.here.contribution around policy
            (.field comment label name arguments directives selections) =
          [(label.getD name, child)] ∧
        walk.Balanced (walkField around policy comment label name arguments selections walk)
          child) ∧
    (∀ operation, ∃ outcome,
      walkOperation bindings document.fragments root operation = some outcome ∧
        outcome.node = ofOperation bindings document.fragments root operation ∧
        outcome.after.here = .top ∧ ∀ descent ∈ outcome.after.passed, descent.Sound) ∧
    walkDocument document bindings root = some (ofDocument document bindings root) := by
  refine ⟨fun declared policy walk => ⟨fun selections node => ?_, ?_⟩, fun operation => ?_,
    walkDocument_eq document bindings root⟩
  · rw [← contributions_eq_flatMap]
    exact walksAlong _ _ policy selections node walk rfl
  · intro comment label name arguments directives selections
    refine ⟨_, ?_, walkField_balanced (fun further _ => walksAlong _ further) policy comment label
      name arguments selections rfl⟩
    rw [Descent.contribution_eq, contribution_field]
  · obtain ⟨outcome, hcall, hnode, hhere, between, hpassed, hsound⟩ :=
      walkOperation_balanced bindings document.fragments root operation
    refine ⟨outcome, hcall, hnode, hhere, ?_⟩
    rw [hpassed, Walk.begin, List.append_nil]
    exact hsound Descent.top_sound

/-- A fragment that spreads itself: `fragment A on Query { ...A x }`. -/
def loopingFragment : Fragment :=
  ⟨"A", "Query", [], [.spread "A" [], .field none none "x" [] [] []]⟩

/-- An operation that spreads it, and then a fragment that is not there: `{ ...A ...B }`. -/
def loopingOperation : Operation :=
  ⟨none, .query, none, [], [], [.spread "A" [], .spread "B" []]⟩

/-- The walk through that operation comes back to where it began, past the spread of the fragment
inside itself and past the other one, and finds the field. -/
theorem expansion_balanced_looping :
    ∃ outcome,
      walkOperation [] [loopingFragment] none loopingOperation = some outcome ∧
        (outcome.node.get? [.named .output "x"]).isSome = true ∧
        outcome.after.here = .top ∧ ∀ descent ∈ outcome.after.passed, descent.Sound := by
  obtain ⟨-, hoperations, -⟩ :=
    expansion_balanced ⟨[.operation loopingOperation, .fragment loopingFragment]⟩ [] none
  obtain ⟨outcome, hcall, hnode, hhere, hsound⟩ := hoperations loopingOperation
  refine ⟨outcome, hcall, ?_, hhere, hsound⟩
  rw [hnode]
  rfl

end Tree

end QueryAccess
