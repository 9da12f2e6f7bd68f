import Revue.Text.Blank

/-!
# Byte spans

Offsets count the bytes of the UTF-8 encoding. A span is a half-open range of offsets, with no
promise that its ends are in order, inside a text or on character boundaries; `cut?` and `slice?`
say when they are.
-/

namespace Revue.Text

def byteLength : List Char → Nat
  | [] => 0
  | c :: cs => c.utf8Size + byteLength cs

/-- Cuts a text at a byte offset. There is no cut past the end or inside a character. -/
def cut? : Nat → List Char → Option (List Char × List Char)
  | 0, cs => some ([], cs)
  | _ + 1, [] => none
  | n + 1, c :: cs =>
    if c.utf8Size ≤ n + 1 then
      (cut? (n + 1 - c.utf8Size) cs).map fun (before, after) => (c :: before, after)
    else none

def isBoundary (cs : List Char) (n : Nat) : Bool :=
  (cut? n cs).isSome

/-- A half-open range of byte offsets. -/
structure Span where
  start : Nat
  stop : Nat
deriving DecidableEq, Repr, Inhabited

namespace Span

def isEmpty (s : Span) : Bool :=
  s.start == s.stop

def containsSpan (s t : Span) : Bool :=
  s.start ≤ t.start && t.stop ≤ s.stop

def shift (s : Span) (by_ : Nat) : Span :=
  ⟨s.start + by_, s.stop + by_⟩

def relativeTo (s : Span) (base : Nat) : Span :=
  ⟨s.start - base, s.stop - base⟩

def offsetBound : Nat := 4294967296

/-- The span moved forward, if its ends stay below the bound. -/
def shift? (s : Span) (by_ : Nat) : Option Span :=
  if s.start + by_ < offsetBound && s.stop + by_ < offsetBound then some (s.shift by_) else none

/-- The span as seen from an offset, if neither end lies before it. -/
def relativeTo? (s : Span) (base : Nat) : Option Span :=
  if base ≤ s.start && base ≤ s.stop then some (s.relativeTo base) else none

/-- The text that a span covers, if it is in range, in order and on character boundaries. -/
def slice? (s : Span) (cs : List Char) : Option (List Char) :=
  if s.start ≤ s.stop then
    (cut? s.start cs).bind fun (_, rest) =>
      (cut? (s.stop - s.start) rest).map fun (piece, _) => piece
  else none

def sliceD (s : Span) (text : String) : String :=
  String.ofList ((s.slice? text.toList).getD [])

end Span

end Revue.Text
