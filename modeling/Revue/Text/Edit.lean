import Revue.Text.Span

/-!
# Text edits

An edit replaces the text under a span. A batch is applied from left to right in order of start
offsets, edits with equal starts in the order given, and an edit is skipped when it starts before
the end of the last one used, reaches past the text, or starts inside a character. The one way to
fail is to use an edit that ends inside a character.
-/

namespace Revue.Text

/-- Places an element before the first one whose key is not smaller. -/
def insertOn {α : Type} (key : α → Nat) (a : α) : List α → List α
  | [] => [a]
  | b :: bs => if key a ≤ key b then a :: b :: bs else b :: insertOn key a bs

def sortOn {α : Type} (key : α → Nat) : List α → List α
  | [] => []
  | a :: as => insertOn key a (sortOn key as)

/-- Replaces the text under `range`; an empty range is an insertion. -/
structure Edit where
  range : Span
  replacement : String
deriving DecidableEq, Repr

namespace Edit

def insert (at_ : Nat) (text : String) : Edit :=
  ⟨⟨at_, at_⟩, text⟩

/-- Whether an edit is used after another one that ended at `last`. -/
def usable (cs : List Char) (last : Nat) (e : Edit) : Bool :=
  last ≤ e.range.start && e.range.stop ≤ byteLength cs && isBoundary cs e.range.start

def select (cs : List Char) : Nat → List Edit → List Edit
  | _, [] => []
  | last, e :: es =>
    if e.usable cs last then e :: select cs e.range.stop es else select cs last es

/-- Text and replacements from `last` on, for edits in the order of their use. There is no result
if a piece of text would begin inside a character. -/
def splice (cs : List Char) : Nat → List Edit → Option (List Char)
  | last, [] => (cut? last cs).map fun (_, rest) => rest
  | last, e :: es =>
    (Span.slice? ⟨last, e.range.start⟩ cs).bind fun piece =>
      (splice cs e.range.stop es).map fun rest => piece ++ e.replacement.toList ++ rest

end Edit

def applyEdits (text : String) (edits : List Edit) : Option String :=
  let cs := text.toList
  (Edit.splice cs 0 (Edit.select cs 0 (sortOn (·.range.start) edits))).map String.ofList

end Revue.Text
