/-!
# Tables in order of insertion

A table is a list of keys with their values. A key that is inserted again keeps its place and gets
the new value.
-/

namespace Revue.Text

abbrev Table (α : Type) := List (String × α)

namespace Table
variable {α : Type}

def get? (key : String) : Table α → Option α
  | [] => none
  | (k, a) :: t => if k = key then some a else get? key t

/-- Sets the value of a key, at its place if it has one and else at the end. -/
def insert (key : String) (value : α) : Table α → Table α
  | [] => [(key, value)]
  | (k, a) :: t => if k = key then (key, value) :: t else (k, a) :: insert key value t

def extend (t entries : Table α) : Table α :=
  entries.foldl (fun t (key, value) => insert key value t) t

def keys (t : Table α) : List String :=
  t.map (·.1)

def values (t : Table α) : List α :=
  t.map (·.2)

end Table

end Revue.Text
