import Revue.Text.Span

/-!
# Lines and columns

A line index holds the offsets at which the lines of a text start. The line of an offset is found
by bisection; lines and columns count from zero, and columns count bytes.
-/

namespace Revue.Text

/-- Offsets right after each line feed of a text that starts at offset `at_`. -/
def feedsFrom : Nat → List Char → List Nat
  | _, [] => []
  | at_, c :: cs =>
    if c = '\n' then (at_ + 1) :: feedsFrom (at_ + 1) cs
    else feedsFrom (at_ + c.utf8Size) cs

structure LineCol where
  line : Nat
  col : Nat
deriving DecidableEq, Repr, Inhabited

/-- Where the lines of a text start, and its length in bytes. -/
structure LineIndex where
  starts : Array Nat
  length : Nat

namespace LineIndex

def ofText (cs : List Char) : LineIndex :=
  ⟨(0 :: feedsFrom 0 cs).toArray, byteLength cs⟩

/-- The number of entries of `starts` between `lo` and `hi`, sorted upwards, that do not lie after
`offset`, added to `lo`. -/
def bisect (starts : Array Nat) (offset lo hi : Nat) : Nat :=
  if lo < hi then
    let mid := (lo + hi) / 2
    if starts.getD mid 0 ≤ offset then bisect starts offset (mid + 1) hi
    else bisect starts offset lo mid
  else lo
termination_by hi - lo

def lineCol? (index : LineIndex) (offset : Nat) : Option LineCol :=
  if offset ≤ index.length then
    let line := bisect index.starts offset 0 index.starts.size - 1
    some ⟨line, offset - index.starts.getD line 0⟩
  else none

end LineIndex

end Revue.Text
