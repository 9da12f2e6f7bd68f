import Revue.Text.Path

/-!
# Files

The files below the working directory, by the names along their paths. A directory is there as
long as some file is in it. What lies above the working directory is not known, and a path that
leads there leads nowhere.
-/

namespace Revue.Command
open Text

/-- Files with their contents, by their places. -/
abbrev Files := List (List String × String)

namespace Files

def contents? (files : Files) (place : List String) : Option String :=
  files.lookup place

def isDirectory (files : Files) (place : List String) : Bool :=
  place.isEmpty || files.any fun (p, _) => place.isPrefixOf p && place.length < p.length

def put (files : Files) (place : List String) (content : String) : Files :=
  match files with
  | [] => [(place, content)]
  | (p, c) :: rest => if p = place then (p, content) :: rest else (p, c) :: put rest place content

def ofPaths (entries : List (String × String)) : Files :=
  entries.foldl (fun files (path, content) => files.put (Path.steps path) content) []

/-- One step from a directory to the next. A directory that is missing may be made on the way. -/
def enter? (files : Files) (makes : Bool) (dir : List String) (name : String) :
    Option (List String) :=
  if name = ".." then (if dir.isEmpty then none else some dir.dropLast)
  else
    let next := dir ++ [name]
    if (files.contents? next).isSome then none
    else if makes || files.isDirectory next then some next
    else none

/-- The place that a path leads to, if a file can be there. -/
def place? (files : Files) (makes : Bool) (path : String) : Option (List String) := do
  if Path.isAbsolute path || Path.endsAtDirectory path then none
  else
    let dir ← (Path.steps path).dropLast.foldlM (files.enter? makes) []
    let name ← Path.fileName? path
    return dir ++ [name]

def read? (files : Files) (path : String) : Option String :=
  (files.place? false path).bind files.contents?

/-- The files after a write, which makes the directories that it needs. -/
def write? (files : Files) (path content : String) : Option Files := do
  let place ← files.place? true path
  if files.isDirectory place then none else return files.put place content

/-- The files of `after` that are new or changed, with their paths in order. -/
def changes (before after : Files) : List (String × String) :=
  let changed := after.filter fun (place, content) => before.contents? place != some content
  (changed.map fun (place, content) => ("/".intercalate place, content)).mergeSort
    fun a b => a.1 ≤ b.1

end Files

end Revue.Command
