/-!
# Which log lines are shown

A filter is a list of rules with commas between them. A rule is a level, a place in the program, or a place
with a level, and the rule with the longest place that a line comes from decides. A place alone shows
everything from there. Where nothing is said only errors are shown.
-/

namespace MiningPool.LogFilter

/-- How important a line has to be to be shown: 0 shows nothing, 1 errors, 3 notices, 5 everything. -/
abbrev Level := Nat

def notice : Level := 3

/-- The level of a name or number, in any case. -/
def level? (s : String) : Option Level :=
  let names := [("off", 0), ("error", 1), ("warn", 2), ("info", 3), ("debug", 4), ("trace", 5), ("0", 0),
    ("1", 1), ("2", 2), ("3", 3), ("4", 4), ("5", 5)]
  names.lookup (String.ofList (s.toList.map Char.toLower))

/-- Shows the lines of a place from a level on. -/
structure Rule where
  place : List Char
  level : Level
  deriving DecidableEq, Repr

/-- The rule of a text. One with more than one level is no rule. -/
def rule? (s : String) : Option Rule :=
  match level? s with
  | some l => some ⟨[], l⟩
  | none =>
    match s.splitOn "=" with
    | [place] => some ⟨place.toList, 5⟩
    | [place, level] => (level? level).map fun l => ⟨place.toList, l⟩
    | _ => none

def rules (filter : String) : List Rule :=
  match ((filter.splitOn ",").filter fun s => !s.isEmpty).filterMap rule? with
  | [] => [⟨[], 1⟩]
  | rs => rs

/-- Whether lines of a level from a place are shown. -/
def shows (filter place : String) (level : Level) : Bool :=
  let fitting := (rules filter).filter fun r => r.place.isPrefixOf place.toList
  let best := fitting.foldl
    (fun best r => match best with
      | none => some r
      | some b => if b.place.length ≤ r.place.length then some r else some b)
    (none : Option Rule)
  best.any fun r => level ≤ r.level

end MiningPool.LogFilter
