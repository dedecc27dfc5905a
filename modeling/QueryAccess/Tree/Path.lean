import QueryAccess.Text.Blank

/-!
# Paths into a tree

A place in a tree is a root and a list of segments from there: named ones, on the side of
the inputs or of the outputs (`QueryAccess.Facet`), and list indices.

**Text.** A path is written with points: the root, then for a named segment its facet's
marker and the name, for an index its digits – `query.$out.books.$in.ids.0`. Reading is
more generous than writing. A marker holds for all names up to the next one, and may
come again; an index may have leading zeros. A part of digits right after a marker is a
name. A path does not end in a marker, no part is empty, and an index has to fit into 64
bits.

A *relative* path has no root: it is read with a facet already in force
(`QueryAccess.Segment.relative?`), and continues another path (`QueryAccess.TreePath.join`).
-/

namespace QueryAccess

/-- The two sides of a node. -/
inductive Facet where
  | input
  | output
deriving DecidableEq, Repr

/-- The marker that announces names on a side. -/
def Facet.marker : Facet → List Char
  | .input => ['$', 'i', 'n']
  | .output => ['$', 'o', 'u', 't']

/-- The side that a part of a path text announces, if it is a marker. -/
def Facet.ofMarker? (part : List Char) : Option Facet :=
  if part = Facet.input.marker then some .input
  else if part = Facet.output.marker then some .output
  else none

/-- Every marker announces its side. -/
theorem Facet.ofMarker?_marker (facet : Facet) : ofMarker? facet.marker = some facet := by
  cases facet <;> decide

/-- One step down a tree. -/
inductive Segment where
  | named (facet : Facet) (name : String)
  | index (i : Nat)
deriving DecidableEq, Repr

namespace Segment

/-- The name of a named segment. -/
def name? : Segment → Option String
  | .named _ name => some name
  | .index _ => none

/-- The side of a named segment. -/
def facet? : Segment → Option Facet
  | .named facet _ => some facet
  | .index _ => none

/-- The text of a segment. -/
def write : Segment → List Char
  | .named facet name => facet.marker ++ '.' :: name.toList
  | .index i => Nat.toDigits 10 i

/-! ### Reading -/

/-- The first index that is too large. -/
def indexBound : Nat := 0x10000000000000000

/-- Reads the parts of a path text. `facet` is the side in force, if any, and `pending`
says that the part before was its marker. -/
def ofParts? (facet : Option Facet) (pending : Bool) : List (List Char) → Option (List Segment)
  | [] => if pending then none else some []
  | part :: parts =>
    if part = [] then none
    else
      match Facet.ofMarker? part with
      | some announced => ofParts? (some announced) true parts
      | none =>
        -- right after a marker, digits are a name
        if !pending && part.all Char.isDigit then
          let i := Nat.ofDigitChars 10 part 0
          if i < indexBound then (ofParts? facet false parts).map (.index i :: ·) else none
        else
          match facet with
          | none => none
          | some side =>
            (ofParts? facet false parts).map (.named side (String.ofList part) :: ·)

/-- The segments of a relative path, with a side in force from the beginning. -/
def relative? (text : String) (facet : Facet) : Option (List Segment) :=
  ofParts? (some facet) false (Text.splitOn '.' text.toList)

end Segment

/-- A place in a tree: a root, and the segments from there. -/
structure TreePath where
  root : String
  segments : List Segment
deriving DecidableEq, Repr

namespace TreePath

/-- The path of a root itself. -/
def ofRoot (root : String) : TreePath := ⟨root, []⟩

/-- The last segment. -/
def last? (path : TreePath) : Option Segment := path.segments.getLast?

/-- The path one segment further down. -/
def child (path : TreePath) (segment : Segment) : TreePath :=
  { path with segments := path.segments ++ [segment] }

/-- The path continued by a relative one. -/
def join (path : TreePath) (relative : List Segment) : TreePath :=
  { path with segments := path.segments ++ relative }

/-- The path one segment further up; a root has none. -/
def parent? (path : TreePath) : Option TreePath :=
  if path.segments = [] then none else some { path with segments := path.segments.dropLast }

/-- The characters of a path's text. -/
def write (path : TreePath) : List Char :=
  path.root.toList ++ path.segments.flatMap fun segment => '.' :: segment.write

/-- The text of a path. -/
def text (path : TreePath) : String := String.ofList path.write

/-- The path that a text writes. -/
def ofText? (text : String) : Option TreePath :=
  match Text.splitOn '.' text.toList with
  | [] => none
  | root :: parts =>
    if root = [] then none
    else (Segment.ofParts? none false parts).map fun segments => ⟨String.ofList root, segments⟩

@[simp] theorem join_nil (path : TreePath) : path.join [] = path := by simp [join]

theorem join_join (path : TreePath) (a b : List Segment) :
    (path.join a).join b = path.join (a ++ b) := by simp [join]

theorem child_eq_join (path : TreePath) (segment : Segment) :
    path.child segment = path.join [segment] := rfl

end TreePath

end QueryAccess
