import Mathlib.Data.List.TakeWhile
import QueryAccess.Json.Printer
import QueryAccess.Proofs.Numeric.Rounding
import QueryAccess.Tree.OfDocument

/-!
# Data as literals

A document can write down the data that a variable would bring. `QueryAccess.Json.IsLiteral`
says when a value does: an object of data is an object literal whose fields have no comments,
an array is a list, and a number is a literal that is read back as the same number.

Not all data can be written down. An integer literal means null unless it is a signed 64-bit
integer, so an integer beyond has no literal. That is the only exception
(`QueryAccess.Json.isLiteral_literal`): a signed integer is read back from its decimal digits,
and a double from its exact decimal (`QueryAccess.Literal.floatValue_exactText`).
-/

namespace QueryAccess

/-! ### Numbers that are read back -/

namespace Decimal

/-- Digits have no sign. -/
theorem splitSign_append {digits : List Char} (hne : digits ≠ [])
    (hdigits : ∀ c ∈ digits, c.isDigit = true) (rest : List Char) :
    splitSign (digits ++ rest) = (false, digits ++ rest) := by
  cases digits with
  | nil => exact absurd rfl hne
  | cons c more =>
    have hc := hdigits c (.head _)
    rw [List.cons_append, splitSign]
    · rintro tail heq
      rw [(List.cons.inj heq).1] at hc
      exact absurd hc (by decide)
    · rintro tail heq
      rw [(List.cons.inj heq).1] at hc
      exact absurd hc (by decide)

/-- A minus, or none, before digits. -/
theorem splitSign_minus (negative : Bool) {digits : List Char} (hne : digits ≠ [])
    (hdigits : ∀ c ∈ digits, c.isDigit = true) (rest : List Char) :
    splitSign ((if negative then ['-'] else []) ++ (digits ++ rest)) =
      (negative, digits ++ rest) := by
  cases negative with
  | false => exact splitSign_append hne hdigits rest
  | true => rfl

end Decimal

theorem isDigit_toDigits (n : Nat) : ∀ c ∈ Nat.toDigits 10 n, c.isDigit = true :=
  fun _ hc => Nat.isDigit_of_mem_toDigits (by decide) (by decide) hc

namespace Literal

/-- **A signed 64-bit integer is read back from its digits.** -/
theorem intValue_writeInt {n : Int} (h : Json.isSigned n = true) :
    intValue (String.ofList (Json.writeInt n)) = .int n := by
  have hread : intOf (String.ofList (Json.writeInt n)) = n := by
    have hsplit := Decimal.splitSign_minus (decide (n < 0)) Nat.toDigits_ne_nil
      (isDigit_toDigits n.natAbs) []
    rw [List.append_nil] at hsplit
    simp only [decide_eq_true_eq] at hsplit
    rw [intOf, String.toList_ofList, Json.writeInt, hsplit]
    simp only [Nat.ofDigitChars_ten_toDigits, decide_eq_true_eq]
    split <;> omega
  rw [intValue, hread]
  exact if_pos h

/-- The exact text of a double: its exact decimal, always with an exponent. -/
def exactText (x : Binary64) : List Char :=
  (if x.negative then ['-'] else []) ++
    (Nat.toDigits 10 (Binary64.exactDecimal x.magnitude).coefficient ++
      'e' :: '-' :: Nat.toDigits 10 (-(Binary64.exactDecimal x.magnitude).exponent).toNat)

/-- A negative exponent is read back from its digits. -/
theorem exponentOf_minus (n : Nat) :
    Decimal.exponentOf ('e' :: '-' :: Nat.toDigits 10 n) = -n := by
  have hminus : ∀ rest, Decimal.splitSign ('-' :: rest) = (true, rest) := fun _ => rfl
  rw [Decimal.exponentOf, if_pos (.inl rfl), hminus]
  simp only [List.takeWhile_eq_self_iff.2 (isDigit_toDigits n), Nat.ofDigitChars_ten_toDigits,
    if_true]

theorem ofText_exactText (x : Binary64) :
    Decimal.ofText (exactText x) = (x.negative, Binary64.exactDecimal x.magnitude) := by
  have hdigits := isDigit_toDigits (Binary64.exactDecimal x.magnitude).coefficient
  have hexponent : (Binary64.exactDecimal x.magnitude).exponent ≤ 0 := by
    show -((-Binary64.exponent x.magnitude).toNat : ℤ) ≤ 0
    omega
  rw [Decimal.ofText, exactText, Decimal.splitSign_minus _ Nat.toDigits_ne_nil hdigits]
  simp only [List.takeWhile_append_of_pos hdigits, List.dropWhile_append_of_pos hdigits]
  rw [List.takeWhile_cons_of_neg (by decide), List.dropWhile_cons_of_neg (by decide),
    List.append_nil]
  have hfraction : ∀ rest, Decimal.splitFraction ('e' :: rest) = ([], 'e' :: rest) := fun _ => rfl
  rw [hfraction]
  simp only [List.append_nil, Nat.ofDigitChars_ten_toDigits, List.length_nil]
  have hback : -((-(Binary64.exactDecimal x.magnitude).exponent).toNat : ℤ) =
      (Binary64.exactDecimal x.magnitude).exponent := by omega
  rw [exponentOf_minus, hback]
  simp

/-- **A double is read back from its exact text.** -/
theorem floatValue_exactText (x : Binary64) :
    floatValue (String.ofList (exactText x)) = .float x := by
  rw [floatValue, String.toList_ofList, ofText_exactText]
  simp only [Binary64.nearest?_exact]

end Literal

/-! ### Literals of data -/

namespace Json

mutual

/-- **A value is a literal of data.** -/
def IsLiteral : Json → Value → Prop
  | .null, value => value = .null
  | .bool flag, value => value = .boolean flag
  | .int n, value => ∃ text, value = .int text ∧ Literal.intValue text = .int n
  | .float x, value => ∃ text, value = .float text ∧ Literal.floatValue text = .float x
  | .string text, value => value = .string text
  | .array items, value => ∃ values, value = .list values ∧ AreLiterals items values
  | .object fields, value =>
    ∃ arguments, value = .object arguments ∧ FieldsAreLiterals fields arguments

/-- Values are literals of data, one by one. -/
def AreLiterals : List Json → List Value → Prop
  | [], values => values = []
  | json :: rest, values =>
    ∃ value others, values = value :: others ∧ json.IsLiteral value ∧ AreLiterals rest others

/-- Named values without comments are literals of the fields of an object, one by one. -/
def FieldsAreLiterals : List (String × Json) → List Argument → Prop
  | [], arguments => arguments = []
  | (name, json) :: rest, arguments =>
    ∃ value others, arguments = .mk none name value :: others ∧ json.IsLiteral value ∧
      FieldsAreLiterals rest others

end

mutual

/-- Whether the integers of data are all signed 64-bit ones. -/
def hasSignedInts : Json → Bool
  | .int n => isSigned n
  | .array items => haveSignedInts items
  | .object fields => fieldsHaveSignedInts fields
  | _ => true

/-- Whether the integers of several data are all signed 64-bit ones. -/
def haveSignedInts : List Json → Bool
  | [] => true
  | json :: rest => json.hasSignedInts && haveSignedInts rest

/-- Whether the integers in fields are all signed 64-bit ones. -/
def fieldsHaveSignedInts : List (String × Json) → Bool
  | [] => true
  | (_, json) :: rest => json.hasSignedInts && fieldsHaveSignedInts rest

end

mutual

/-- Data written down, with the exact texts of the doubles in them. -/
def literal : Json → Value
  | .null => .null
  | .bool flag => .boolean flag
  | .int n => .int (String.ofList (writeInt n))
  | .float x => .float (String.ofList (Literal.exactText x))
  | .string text => .string text
  | .array items => .list (literals items)
  | .object fields => .object (fieldLiterals fields)

/-- Several data written down. -/
def literals : List Json → List Value
  | [] => []
  | json :: rest => json.literal :: literals rest

/-- The fields of an object written down. -/
def fieldLiterals : List (String × Json) → List Argument
  | [] => []
  | (name, json) :: rest => .mk none name json.literal :: fieldLiterals rest

end

mutual

/-- **Data are written down by a literal**, if their integers are signed 64-bit ones. -/
theorem isLiteral_literal : ∀ json : Json, json.hasSignedInts = true → json.IsLiteral json.literal
  | .null, _ | .bool _, _ | .string _, _ => rfl
  | .int _, h => ⟨_, rfl, Literal.intValue_writeInt h⟩
  | .float x, _ => ⟨_, rfl, Literal.floatValue_exactText x⟩
  | .array items, h => ⟨_, rfl, areLiterals_literals items h⟩
  | .object fields, h => ⟨_, rfl, fieldsAreLiterals_fieldLiterals fields h⟩

theorem areLiterals_literals :
    ∀ items : List Json, haveSignedInts items = true → AreLiterals items (literals items)
  | [], _ => rfl
  | json :: rest, h => by
    rw [haveSignedInts, Bool.and_eq_true] at h
    exact ⟨_, _, rfl, isLiteral_literal json h.1, areLiterals_literals rest h.2⟩

theorem fieldsAreLiterals_fieldLiterals :
    ∀ fields : List (String × Json), fieldsHaveSignedInts fields = true →
      FieldsAreLiterals fields (fieldLiterals fields)
  | [], _ => rfl
  | (_, json) :: rest, h => by
    rw [fieldsHaveSignedInts, Bool.and_eq_true] at h
    exact ⟨_, _, rfl, isLiteral_literal json h.1, fieldsAreLiterals_fieldLiterals rest h.2⟩

end

end Json

/-! ### Replacing variables -/

section Substitute

-- what stands for a variable, if anything does
variable (meant : String → Option Value)

mutual

/-- A value with its variables replaced by what stands for them. -/
def Value.substitute : Value → Value
  | .variable name => (meant name).getD (.variable name)
  | .list items => .list (substituteItems items)
  | .object fields => .object (substituteArguments fields)
  | .int text => .int text
  | .float text => .float text
  | .string text => .string text
  | .boolean flag => .boolean flag
  | .null => .null
  | .enum name => .enum name

/-- The elements of a list with their variables replaced. -/
def substituteItems : List Value → List Value
  | [] => []
  | value :: rest => value.substitute :: substituteItems rest

/-- Named values with their variables replaced. -/
def substituteArguments : List Argument → List Argument
  | [] => []
  | .mk comment name value :: rest => .mk comment name value.substitute :: substituteArguments rest

end

/-- A directive with the variables in its arguments replaced. -/
def Directive.substitute (directive : Directive) : Directive :=
  { directive with arguments := substituteArguments meant directive.arguments }

mutual

/-- A selection with all variables in it replaced. -/
def Selection.substitute : Selection → Selection
  | .field comment label name arguments directives selections =>
    .field comment label name (substituteArguments meant arguments)
      (directives.map (Directive.substitute meant)) (substituteSelections selections)
  | .inline on directives selections =>
    .inline on (directives.map (Directive.substitute meant)) (substituteSelections selections)
  | .spread name directives => .spread name (directives.map (Directive.substitute meant))

/-- Selections with all variables in them replaced. -/
def substituteSelections : List Selection → List Selection
  | [] => []
  | selection :: rest => selection.substitute :: substituteSelections rest

end

end Substitute

mutual

/-- The variables in a value. -/
def Value.variables : Value → List String
  | .variable name => [name]
  | .list items => variablesOfItems items
  | .object fields => variablesOfArguments fields
  | _ => []

/-- The variables in the elements of a list. -/
def variablesOfItems : List Value → List String
  | [] => []
  | value :: rest => value.variables ++ variablesOfItems rest

/-- The variables in named values. -/
def variablesOfArguments : List Argument → List String
  | [] => []
  | .mk _ _ value :: rest => value.variables ++ variablesOfArguments rest

end

/-- **What stands for a variable**: a literal of the data bound to it, or else its declared
default, or else nothing. -/
def meaningOf (write : Json → Value) (bindings : Dict Json) (declared : List VariableDefinition)
    (name : String) : Option Value :=
  match bindings.lookup name with
  | some json => some (write json)
  | none => Tree.default? declared name

/-- An operation with its variables replaced by what stands for them. -/
def Operation.withLiterals (write : Json → Value) (bindings : Dict Json) (operation : Operation) :
    Operation :=
  { operation with
    directives :=
      operation.directives.map (Directive.substitute (meaningOf write bindings operation.declared))
    selections :=
      substituteSelections (meaningOf write bindings operation.declared) operation.selections }

/-- A fragment with its variables replaced by what stands for them; it declares none. -/
def Fragment.withLiterals (write : Json → Value) (bindings : Dict Json) (fragment : Fragment) :
    Fragment :=
  { fragment with
    directives := fragment.directives.map (Directive.substitute (meaningOf write bindings []))
    selections := substituteSelections (meaningOf write bindings []) fragment.selections }

/-- **The document with its variables replaced** by what stands for them. -/
def Document.withLiterals (write : Json → Value) (bindings : Dict Json) (document : Document) :
    Document :=
  ⟨document.definitions.map fun
    | .operation operation => .operation (operation.withLiterals write bindings)
    | .fragment fragment => .fragment (fragment.withLiterals write bindings)⟩

theorem Document.operations_withLiterals (write : Json → Value) (bindings : Dict Json)
    (document : Document) :
    (document.withLiterals write bindings).operations =
      document.operations.map (Operation.withLiterals write bindings) := by
  rw [operations, withLiterals, List.filterMap_map, operations, List.map_filterMap]
  refine List.filterMap_congr fun definition _ => ?_
  cases definition <;> rfl

end QueryAccess
