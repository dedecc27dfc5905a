/-!
# Parsers

A parser reads a value off the front of a text. It answers the value with the text left
after it, or fails – and then says *where*: the failure carries the text left at the
place that could not be read. That place is all an error report is made of, so which
place a combinator reports is part of its meaning:

* a sequence fails where its first failing member fails;
* a choice (`<|>`) fails where its **last** alternative fails;
* `QueryAccess.Parser.opt` and `QueryAccess.Parser.many` do not fail: they go back to
  the place before the failing part;
* `QueryAccess.Parser.guarded` fails at the place **before** the value it refuses.

Every parser is a total function. `QueryAccess.Parser.many` repeats at most once per
character of its text, which bounds nothing for a parser that reads something each time.
-/

namespace QueryAccess

/-- A parser of `α`: a value and the text left after it, or the text left where reading
stopped. -/
def Parser (α : Type) : Type := List Char → Except (List Char) (α × List Char)

namespace Parser

variable {α β : Type}

instance : Monad Parser where
  pure a := fun text => .ok (a, text)
  bind p f := fun text =>
    match p text with
    | .ok (a, rest) => f a rest
    | .error place => .error place

instance : OrElse (Parser α) where
  orElse p q := fun text =>
    match p text with
    | .ok result => .ok result
    | .error _ => q () text

/-- Reads nothing and fails on the spot. -/
def fail : Parser α := fun text => .error text

/-- One character of a class. -/
def satisfy (admits : Char → Bool) : Parser Char
  | [] => .error []
  | c :: rest => if admits c then .ok (c, rest) else .error (c :: rest)

/-- One given character. -/
def char (c : Char) : Parser Char := satisfy (· == c)

/-- A given word; on failure the place is its beginning. -/
def word (w : List Char) : Parser Unit := fun text =>
  if w.isPrefixOf text then .ok ((), text.drop w.length) else .error text

/-- The longest run of characters of a class, possibly empty. -/
def run (admits : Char → Bool) : Parser (List Char) := fun text =>
  .ok (text.takeWhile admits, text.dropWhile admits)

/-- The longest run of characters of a class, with at least one. -/
def run1 (admits : Char → Bool) : Parser (List Char) := do
  let c ← satisfy admits
  let cs ← run admits
  return c :: cs

/-- A value if one can be read, and otherwise nothing. -/
def opt (p : Parser α) : Parser (Option α) := fun text =>
  match p text with
  | .ok (a, rest) => .ok (some a, rest)
  | .error _ => .ok (none, text)

/-- A value that passes a test; a refused value fails at the place before it. -/
def guarded (p : Parser α) (admits : α → Bool) : Parser α := fun text =>
  match p text with
  | .ok (a, rest) => if admits a then .ok (a, rest) else .error text
  | .error place => .error place

/-- A value computed from the value read, where one exists; otherwise a failure at the
place before it. -/
def mapped (p : Parser α) (f : α → Option β) : Parser β := fun text =>
  match p text with
  | .ok (a, rest) =>
    match f a with
    | some b => .ok (b, rest)
    | none => .error text
  | .error place => .error place

/-- As many values as can be read, at most `bound`. -/
def manyUpTo (p : Parser α) : Nat → Parser (List α)
  | 0 => pure []
  | bound + 1 => fun text =>
    match p text with
    | .ok (a, rest) => (do return a :: (← manyUpTo p bound)) rest
    | .error _ => .ok ([], text)

/-- As many values as can be read, possibly none. -/
def many (p : Parser α) : Parser (List α) := fun text => manyUpTo p text.length text

/-- As many values as can be read, at least one; without one the failure is the first
value's. -/
def many1 (p : Parser α) : Parser (List α) := do
  let a ← p
  let as ← many p
  return a :: as

/-- A value between two delimiters. -/
def between {γ : Type} (opening : Parser β) (p : Parser α) (closing : Parser γ) : Parser α := do
  let _ ← opening
  let a ← p
  let _ ← closing
  return a

/-! ### What the combinators do to a text -/

@[simp] theorem pure_apply (a : α) (text : List Char) :
    (pure a : Parser α) text = .ok (a, text) := rfl

theorem bind_apply_ok {p : Parser α} {f : α → Parser β} {text rest : List Char} {a : α}
    (h : p text = .ok (a, rest)) : (p >>= f) text = f a rest := by
  show (match p text with | .ok (a, rest) => f a rest | .error place => .error place) = _
  rw [h]

theorem bind_apply_error {p : Parser α} {f : α → Parser β} {text place : List Char}
    (h : p text = .error place) : (p >>= f) text = .error place := by
  show (match p text with | .ok (a, rest) => f a rest | .error place => .error place) = _
  rw [h]

theorem orElse_apply_ok {p q : Parser α} {text rest : List Char} {a : α}
    (h : p text = .ok (a, rest)) : (p <|> q) text = .ok (a, rest) := by
  show (match p text with | .ok result => Except.ok result | .error _ => q text) = _
  rw [h]

theorem orElse_apply_error {p q : Parser α} {text place : List Char}
    (h : p text = .error place) : (p <|> q) text = q text := by
  show (match p text with | .ok result => Except.ok result | .error _ => q text) = _
  rw [h]

end Parser

end QueryAccess
