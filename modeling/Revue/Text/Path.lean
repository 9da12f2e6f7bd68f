import Revue.Text.Blank

/-!
# Paths

A path is a text of names with slashes between them. Empty names and single dots say nothing, so
the steps of a path leave them out; two dots lead back.
-/

namespace Revue.Text.Path

def steps (path : String) : List String :=
  ((pieces '/' path.toList).map String.ofList).filter fun s => s != "" && s != "."

def isAbsolute (path : String) : Bool :=
  path.toList.head? == some '/'

/-- Whether a path can only be that of a directory by the way it ends. -/
def endsAtDirectory (path : String) : Bool :=
  match (pieces '/' path.toList).getLast? with
  | some last => last == [] || last == ['.'] || last == ['.', '.']
  | none => true

/-- The last name of a path, if it does not lead back. -/
def fileName? (path : String) : Option String :=
  (steps path).getLast?.filter (· != "..")

/-- What follows the last dot of a path's last name. A dot at the beginning of the name does not
count. -/
def extension? (path : String) : Option String := do
  let name ← fileName? path
  let reversed := name.toList.reverse
  let after := reversed.takeWhile (· != '.')
  match reversed.drop after.length with
  | _ :: _ :: _ => some (String.ofList after.reverse)
  | _ => none

/-- The steps of the directories that hold a path, from the nearest to the one where it starts. -/
def ancestors (path : String) : List (List String) :=
  let dir := (steps path).dropLast
  (List.range (dir.length + 1)).reverse.map fun n => dir.take n

end Revue.Text.Path
