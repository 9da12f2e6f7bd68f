import Revue.Source.Region

/-!
# Cleaning

Before a source is read, its byte-order mark is dropped, its line endings become single line feeds,
and the bind operator in front of an operand (a double colon before a name) is removed. Strings,
templates and comments keep their text.
-/

namespace Revue.Source
open Text

def dropMark : List Char → List Char
  | '\ufeff' :: cs => cs
  | cs => cs

/-- Turns each carriage return with a line feed after it into the line feed alone. -/
def unifyFeeds : List Char → List Char
  | [] => []
  | '\r' :: '\n' :: cs => '\n' :: unifyFeeds cs
  | c :: cs => c :: unifyFeeds cs

/-- Whether a character can end an operand, so that a double colon after it joins two. -/
def endsOperand (c : Char) : Bool :=
  isAsciiWord c || c == ')' || c == ']'

/-- The last character of code that is no white space, once `c` has been read. -/
def noteCode (prev : Option Char) (c : Char) (r : Region) : Option Char :=
  if r = .code ∧ !isAsciiBlank c then some c else prev

/-- Removes the bind operators of a classified text; `prev` is the last character of code before
it. -/
def dropBinds (prev : Option Char) : List (Char × Region) → List (Char × Region)
  | (':', .code) :: (':', .code) :: (c, r) :: rest =>
    if isAsciiWordStart c ∧ !(prev.any endsOperand) then dropBinds (some ':') ((c, r) :: rest)
    else (':', .code) :: dropBinds (some ':') ((':', .code) :: (c, r) :: rest)
  | (c, r) :: rest => (c, r) :: dropBinds (noteCode prev c r) rest
  | [] => []

def removeBinds (cs : List Char) : List Char :=
  (dropBinds none (cs.zip (classify cs))).map (·.1)

def clean (text : String) : String :=
  String.ofList (removeBinds (unifyFeeds (dropMark text.toList)))

end Revue.Source
