import QueryAccess.Document.Basic
import QueryAccess.Document.Nesting
import QueryAccess.Document.StringLiteral
import QueryAccess.Document.Token

/-!
# Reading a document

The grammar of query documents, as parsers over the text, and
`QueryAccess.Document.ofText`, which reads a whole text.

**Nesting.** The parsers of what nests take a number of levels and stop at level zero.
`QueryAccess.Document.parser` hands out as many levels as the text has characters. Each
level reads a bracket of its own, so they cannot run out; the bound that a document does
meet is `QueryAccess.maxDepth`, checked beforehand on the brackets of the text.

**Errors.** A text that is no document gets one `QueryAccess.SyntaxError`, with the line
and column of one place. For the bracket that nests too deep the place is the bracket.
For everything else it is where the outermost reading stopped: optional parts and
repetitions that fail are given up as a whole, a choice reports its last alternative, and
so an error inside a selection set shows at the part around it that could not do
without.
-/

namespace QueryAccess

/-! ### Errors -/

/-- What a text has at the place of a syntax error. -/
inductive SyntaxFault where
  | tooDeep
  | endOfText
  | unexpected (near : String)
deriving DecidableEq, Repr

/-- A syntax error: a place in the text, both numbers counted from one, and what is
wrong there. -/
structure SyntaxError where
  line : Nat
  column : Nat
  fault : SyntaxFault
deriving DecidableEq, Repr

namespace SyntaxFault

/-- The wording of a fault. -/
def message : SyntaxFault → String
  | tooDeep => "nesting deeper than " ++ toString maxDepth ++ " levels"
  | endOfText => "unexpected end of input"
  | unexpected near => "unexpected input near `" ++ near ++ "`"

/-- How many characters of the text a message shows. -/
def excerptLength : Nat := 20

/-- The fault of a text that stops making sense where `left` is left of it. -/
def ofLeft (left : List Char) : SyntaxFault :=
  if left = [] then endOfText
  else unexpected (String.ofList (Text.trimEnd (left.take excerptLength)))

end SyntaxFault

namespace SyntaxError

/-- The wording of what is wrong. -/
def message (e : SyntaxError) : String := e.fault.message

/-- The full wording, with the place. -/
def report (e : SyntaxError) : String :=
  "syntax error at line " ++ toString e.line ++ ", column " ++ toString e.column ++ ": " ++
    e.message

/-- The error of a fault at the place of a text where `left` is left of it. -/
def atPlace (text left : List Char) (fault : SyntaxFault) : SyntaxError :=
  let consumed := text.take (text.length - left.length)
  { line := consumed.count '\n' + 1
    column := (consumed.reverse.takeWhile (· != '\n')).length + 1
    fault := fault }

end SyntaxError

namespace Document

open QueryAccess.Parser Token

/-! ### Values -/

/-- The digits of a number, its fraction and its exponent. -/
def number : Parser Value := do
  let minus ← opt (char '-')
  let whole ← run1 Char.isDigit
  let fraction ← opt do
    let _ ← char '.'
    run1 Char.isDigit
  let exponent ← opt do
    let mark ← satisfy fun c => c == 'e' || c == 'E'
    let sign ← opt (satisfy fun c => c == '+' || c == '-')
    let digits ← run1 Char.isDigit
    return mark :: sign.toList ++ digits
  let text := String.ofList <| minus.toList ++ whole ++
    (fraction.map ('.' :: ·)).getD [] ++ exponent.getD []
  return if fraction.isSome || exponent.isSome then .float text else .int text

/-- The value that a bare name stands for. -/
def valueOfName : String → Value
  | "true" => .boolean true
  | "false" => .boolean false
  | "null" => .null
  | name => .enum name

/-- A variable. -/
def variableName : Parser String := do
  let _ ← char '$'
  name

/-- A name, a colon and a value, with the comment before the name. -/
def namedValue (value : Parser Value) : Parser Argument := do
  let comment ← ignored
  let name ← name
  let _ ← mark ':'
  let value ← value
  return .mk comment name value

/-- A value, given a parser of the values in lists and objects. -/
def valueOver (inner : Parser Value) : Parser Value := do
  let _ ← ignored
  (Value.variable <$> variableName) <|>
  number <|>
  (Value.string <$> StringLiteral.parser) <|>
  (Value.list <$> between (char '[') (many inner) (mark ']')) <|>
  (Value.object <$> between (char '\x7b') (many (namedValue inner)) (mark '\x7d')) <|>
  (valueOfName <$> name)

/-- A value with at most so many levels of lists and objects. -/
def value : Nat → Parser Value
  | 0 => fail
  | levels + 1 => fun text => valueOver (value levels) text

/-- The arguments of a field or a directive, in parentheses. -/
def arguments (levels : Nat) : Parser (List Argument) :=
  between (mark '(') (many1 (namedValue (value levels))) (mark ')')

/-- A directive. -/
def directive (levels : Nat) : Parser Directive := do
  let _ ← mark '@'
  let name ← name
  let arguments ← opt (arguments levels)
  return ⟨name, arguments.getD []⟩

/-- The directives of something, possibly none. -/
def directives (levels : Nat) : Parser (List Directive) := many (directive levels)

/-! ### Selections -/

/-- An inline fragment after its type condition. -/
def inlineFragment (levels : Nat) (set : Parser (List Selection)) (on : Option String) :
    Parser Selection := do
  let directives ← directives levels
  let selections ← set
  return .inline on directives selections

/-- A spread or an inline fragment. The name `on` is no fragment's name: it opens a type
condition. -/
def fragmentSelection (levels : Nat) (set : Parser (List Selection)) : Parser Selection := do
  let _ ← ignored
  let _ ← word ['.', '.', '.']
  let found ← opt tokenName
  match found with
  | none => inlineFragment levels set none
  | some name =>
    if name = "on" then do
      let on ← tokenName
      inlineFragment levels set (some on)
    else do
      let directives ← directives levels
      return .spread name directives

/-- A field. -/
def field (levels : Nat) (set : Parser (List Selection)) : Parser Selection := do
  let comment ← ignored
  let first ← name
  let second ← opt do
    let _ ← mark ':'
    tokenName
  let arguments ← opt (arguments levels)
  let directives ← directives levels
  let selections ← opt set
  -- with a second name the first one is the label
  let label := if second.isSome then some first else none
  return .field comment label (second.getD first) (arguments.getD []) directives
    (selections.getD [])

/-- A selection, given a parser of the selection sets in it. -/
def selectionOver (levels : Nat) (set : Parser (List Selection)) : Parser Selection :=
  fragmentSelection levels set <|> field levels set

/-- A selection set with at most so many levels of selection sets; the values in it may
have `valueLevels`. -/
def selectionSet (valueLevels : Nat) : Nat → Parser (List Selection)
  | 0 => fail
  | levels + 1 => fun text =>
    between (mark '\x7b') (many1 (selectionOver valueLevels (selectionSet valueLevels levels)))
      (mark '\x7d') text

/-! ### Definitions -/

/-- A type, given a parser of the elements of list types. -/
def typeOver (element : Parser TypeRef) : Parser TypeRef := do
  let base ←
    (TypeRef.list <$> between (mark '[') element (mark ']')) <|>
    (TypeRef.named <$> tokenName)
  let bang ← opt (mark '!')
  return if bang.isSome then .nonNull base else base

/-- A type with at most so many levels of lists. -/
def typeRef : Nat → Parser TypeRef
  | 0 => fail
  | levels + 1 => fun text => typeOver (typeRef levels) text

/-- A variable definition; its directives are read and dropped. -/
def variableDefinition (levels : Nat) : Parser VariableDefinition := do
  let _ ← mark '$'
  let name ← name
  let _ ← mark ':'
  let type ← typeRef levels
  let default ← opt do
    let _ ← mark '='
    value levels
  let _ ← directives levels
  return ⟨name, type, default⟩

/-- The variable definitions of an operation, in parentheses. -/
def variableDefinitions (levels : Nat) : Parser (List VariableDefinition) :=
  between (mark '(') (many1 (variableDefinition levels)) (mark ')')

/-- The keyword of an operation. -/
def operationKind : Parser OperationKind := mapped name OperationKind.ofKeyword?

/-- An operation that is a bare selection set: an anonymous query. -/
def shorthand (levels : Nat) (comment : Option String) : Parser Operation := do
  let selections ← selectionSet levels levels
  return ⟨comment, .query, none, [], [], selections⟩

/-- An operation that starts with its keyword. -/
def fullOperation (levels : Nat) (comment : Option String) : Parser Operation := do
  let kind ← operationKind
  let name ← opt tokenName
  let declared ← opt (variableDefinitions levels)
  let directives ← directives levels
  let selections ← selectionSet levels levels
  return ⟨comment, kind, name, declared.getD [], directives, selections⟩

/-- An operation, with the comment before it. -/
def operation (levels : Nat) : Parser Operation := do
  let comment ← ignored
  shorthand levels comment <|> fullOperation levels comment

/-- A fragment definition. -/
def fragment (levels : Nat) : Parser Fragment := do
  let _ ← keyword "fragment"
  let name ← guarded tokenName (· != "on")
  let _ ← keyword "on"
  let on ← tokenName
  let directives ← directives levels
  let selections ← selectionSet levels levels
  return ⟨name, on, directives, selections⟩

/-- A definition. -/
def definition (levels : Nat) : Parser Definition :=
  (Definition.fragment <$> fragment levels) <|> (Definition.operation <$> operation levels)

/-- A whole document; text left after it fails there. -/
def wholeDocument (levels : Nat) : Parser Document := do
  let definitions ← many1 (definition levels)
  let _ ← ignored
  fun
    | [] => .ok (⟨definitions⟩, [])
    | rest => .error rest

/-- A document with as many levels as its text has characters. -/
def parser : Parser Document := fun text => wholeDocument (text.length + 1) text

/-- The document that a text is, or the syntax error of a text that is none. -/
def ofChars (text : List Char) : Except SyntaxError Document :=
  match Nesting.tooDeep? .code 0 text with
  | some left => .error (SyntaxError.atPlace text left .tooDeep)
  | none =>
    match parser text with
    | .ok (document, _) => .ok document
    | .error left => .error (SyntaxError.atPlace text left (.ofLeft left))

/-- The document that a text is, or the syntax error of a text that is none. -/
def ofText (text : String) : Except SyntaxError Document := ofChars text.toList

end Document

end QueryAccess
