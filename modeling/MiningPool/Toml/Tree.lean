import MiningPool.Toml.Value

/-!
# Tables under construction

A document names its tables in any order and in several ways, and each way allows different things to be
added later. So a table under construction knows how it came about: only on the way to another one, by a key
with dots, or by a header of its own. A table written out as a value is finished.
-/

namespace MiningPool.Toml

/-- A part of a document under construction. -/
inductive Node where
  /-- A value, finished. -/
  | leaf (v : Value)
  /-- A table. `passing` tells that it has only been passed on the way to another one, and `dotted` that
  this was on the way of a key with dots. -/
  | table (passing dotted : Bool) (fields : List (String × Node))
  /-- A list of tables that can still grow. -/
  | tables (elements : List (List (String × Node)))
  deriving Inhabited

/-- The fields of a table under construction. -/
abbrev Fields := List (String × Node)

namespace Fields

def get? (fs : Fields) (key : String) : Option Node := (fs.find? fun f => f.1 = key).map (·.2)

def put (fs : Fields) (key : String) (n : Node) : Fields :=
  if fs.any fun f => f.1 = key then fs.map fun f => if f.1 = key then (key, n) else f
  else fs ++ [(key, n)]

/-- Goes down a path and changes the table it leads to. Tables that are not there yet are made. The way of a
key with dots must not lead through a table that has a header. What is done at the end may depend on whether
that table came about by a key with dots. -/
def descend (byDots : Bool) (change : Bool → Fields → Option Fields) (dotted : Bool) :
    List String → Fields → Option Fields
  | [], fs => change dotted fs
  | key :: path, fs =>
    match get? fs key with
    | none => (descend byDots change byDots path []).map fun inner => put fs key (.table true byDots inner)
    | some (.leaf _) => none
    | some (.table passing dotted inner) =>
      if byDots && !passing then none
      else (descend byDots change dotted path inner).map fun inner =>
        put fs key (.table passing dotted inner)
    | some (.tables elements) =>
      match elements.getLast? with
      | none => none
      | some last => (descend byDots change false path last).map fun last =>
        put fs key (.tables (elements.dropLast ++ [last]))

/-- Gives a key a value, within the tables that the parts before its last dot lead to. -/
def assign (path : List String) (key : String) (v : Value) (fs : Fields) : Option Fields :=
  descend true
    (fun dotted fs =>
      if dotted == path.isEmpty || (get? fs key).isSome then none else some (put fs key (.leaf v)))
    false path fs

/-- A header for a table. -/
def openTable (path : List String) (key : String) (fs : Fields) : Option Fields :=
  descend false
    (fun _ fs =>
      match get? fs key with
      | none => some (put fs key (.table false false []))
      | some (.table true false inner) => some (put fs key (.table false false inner))
      | _ => none)
    false path fs

/-- A header for one more table of a list. -/
def openElement (path : List String) (key : String) (fs : Fields) : Option Fields :=
  descend false
    (fun _ fs =>
      match get? fs key with
      | none => some (put fs key (.tables [[]]))
      | some (.tables elements) => some (put fs key (.tables (elements ++ [[]])))
      | _ => none)
    false path fs

end Fields

mutual

/-- A finished part of a document. -/
def Node.value : Node → Value
  | .leaf v => v
  | .table _ _ fields => .table (Fields.values fields)
  | .tables elements => .list (Fields.tableValues elements)

/-- The finished fields of a table. -/
def Fields.values : List (String × Node) → List (String × Value)
  | [] => []
  | (key, n) :: rest => (key, n.value) :: Fields.values rest

/-- The finished tables of a list. -/
def Fields.tableValues : List (List (String × Node)) → List Value
  | [] => []
  | fields :: rest => .table (Fields.values fields) :: Fields.tableValues rest

end

end MiningPool.Toml
