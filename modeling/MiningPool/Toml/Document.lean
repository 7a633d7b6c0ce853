import MiningPool.Toml.Scalar
import MiningPool.Toml.Tree

/-!
# Reading TOML

A document is a list of statements, one a line: a header, or a key with its value. They are read first and
then carried out one after the other on the table under construction.

Lists and written-out tables may stand in one another to a fixed depth, and may run over several lines. A
key has to stay on its line, and may have as many parts as that depth.
-/

namespace MiningPool.Toml

/-- How deep lists and written-out tables may stand in one another, and how many parts a key may have. -/
def maxDepth : Nat := 80

/-! ## Keys -/

/-- A part of a key: bare, or a string on one line. -/
def keyPart? (s : List Char) : Option (String × List Char) :=
  match s.takeWhile isBare with
  | [] => shortString? s
  | bare => some (String.ofList bare, s.drop bare.length)

/-- The parts of a key after its first one. -/
def moreKeyParts : Nat → List Char → List String → Option (List String × List Char)
  | 0, _, _ => none
  | fuel + 1, s, seen =>
    match skipSpaces s with
    | '.' :: r => do
      let (part, r) ← keyPart? (skipSpaces r)
      moreKeyParts fuel r (part :: seen)
    | _ => some (seen.reverse, s)

/-- A key with dots: all parts but the last one, and the last. -/
def key? (s : List Char) : Option (List String × String × List Char) := do
  let (first, r) ← keyPart? s
  let (parts, r) ← moreKeyParts (r.length + 1) r [first]
  if parts.length ≤ maxDepth then some (parts.dropLast, ← parts.getLast?, r) else none

/-! ## Blanks over several lines -/

/-- What follows a comment, if there is one. -/
def skipComment : List Char → List Char
  | '#' :: r => r.dropWhile isPlain
  | s => s

/-- What follows the end of a line. -/
def lineEnd? (s : List Char) : Option (List Char) :=
  match skipComment (skipSpaces s) with
  | [] => some []
  | s => lineBreak? s

/-- What follows all blanks, comments and line breaks. -/
def skipLines : Nat → List Char → List Char
  | 0, s => s
  | fuel + 1, s =>
    match skipComment (skipSpaces s) with
    | [] => []
    | r => match lineBreak? r with
      | some r => skipLines fuel r
      | none => skipSpaces s

/-- What follows all blanks, comments and line breaks. -/
def skipAll (s : List Char) : List Char := skipLines (s.length + 1) s

/-! ## Values -/

abbrev ValueReader := List Char → Option (Value × List Char)

/-- The items of a list up to its bracket, after those seen, last first. A comma may follow the last one. -/
def items? (item : ValueReader) : Nat → List Char → List Value → Option (Value × List Char)
  | 0, _, _ => none
  | fuel + 1, s, seen =>
    match skipAll s with
    | ']' :: r => some (.list seen.reverse, r)
    | s => do
      let (v, r) ← item s
      match skipAll r with
      | ']' :: r => some (.list (v :: seen).reverse, r)
      | ',' :: r => items? item fuel r (v :: seen)
      | _ => none

/-- A key with its value, with such blanks around the sign between them. -/
def pair? (skip : List Char → List Char) (item : ValueReader) (s : List Char) :
    Option ((List String × String × Value) × List Char) := do
  let (path, key, r) ← key? s
  match skip r with
  | '=' :: r =>
    let (v, r) ← item (skip r)
    some ((path, key, v), r)
  | _ => none

/-- The fields of a written-out table up to its brace, added to those seen. A comma may follow the last. -/
def fields? (item : ValueReader) : Nat → List Char → Fields → Option (Value × List Char)
  | 0, _, _ => none
  | fuel + 1, s, seen =>
    match skipAll s with
    | '\x7d' :: r => some (.table (Fields.values seen), r)
    | s => do
      let ((path, key, v), r) ← pair? skipAll item s
      let seen ← seen.assign path key v
      match skipAll r with
      | '\x7d' :: r => some (.table (Fields.values seen), r)
      | ',' :: r => fields? item fuel r seen
      | _ => none

/-- A value with at most so many brackets around its innermost part. -/
def value? : Nat → ValueReader
  | 0, s =>
    match s with
    | '[' :: _ | '\x7b' :: _ => none
    | _ => scalar? s
  | depth + 1, s =>
    match s with
    | '[' :: r => items? (value? depth) (r.length + 1) r []
    | '\x7b' :: r => fields? (value? depth) (r.length + 1) r []
    | _ => scalar? s

/-! ## Statements -/

/-- A line of a document that is not blank. -/
inductive Statement where
  | openTable (path : List String) (key : String)
  | openElement (path : List String) (key : String)
  | assign (path : List String) (key : String) (v : Value)

/-- A key between brackets, after the opening ones. -/
def header? (closing : Nat) (s : List Char) : Option (List String × String × List Char) := do
  let (path, key, r) ← key? (skipSpaces s)
  let r := skipSpaces r
  if r.take closing = List.replicate closing ']' then some (path, key, r.drop closing) else none

/-- The statement that a line starts with. -/
def statement? : List Char → Option (Statement × List Char)
  | '[' :: '[' :: s => (header? 2 s).map fun (path, key, r) => (.openElement path key, r)
  | '[' :: s => (header? 1 s).map fun (path, key, r) => (.openTable path key, r)
  | s => (pair? skipSpaces (value? maxDepth) s).map fun ((path, key, v), r) => (.assign path key v, r)

/-- The statements of a text, after those seen, last first. -/
def statements? : Nat → List Char → List Statement → Option (List Statement)
  | 0, _, _ => none
  | fuel + 1, s, seen =>
    match skipAll s with
    | [] => some seen.reverse
    | s => do
      let (statement, r) ← statement? s
      statements? fuel (← lineEnd? r) (statement :: seen)

/-! ## Documents -/

/-- A document under construction: its table, and the path of the last header. -/
structure Draft where
  fields : Fields
  current : List String

def Draft.apply? (d : Draft) : Statement → Option Draft
  | .openTable path key => do some ⟨← d.fields.openTable path key, path ++ [key]⟩
  | .openElement path key => do some ⟨← d.fields.openElement path key, path ++ [key]⟩
  | .assign path key v => do
    some { d with fields := ← Fields.descend false (fun _ fs => fs.assign path key v) false d.current d.fields }

/-- The table that a text stands for. A mark of the byte order may come first. -/
def read? (text : String) : Option Value := do
  let s := match text.toList with
    | '\uFEFF' :: s => s
    | s => s
  let statements ← statements? (s.length + 1) s []
  let draft ← statements.foldlM Draft.apply? ⟨[], []⟩
  some (.table (Fields.values draft.fields))

end MiningPool.Toml
